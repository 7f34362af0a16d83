import Xv6.Prog

-- Programs over an abstract state. `rule a t P` says that the step `a` may be taken at `t` and that
-- its result and the next state then satisfy `P`.

namespace Prog

variable {S : Sig} {ε σ τ υ α β : Type}

abbrev Rules (S : Sig) (τ : Type) := (a : S.Act) → τ → (S.Res a → τ → Prop) → Prop

-- The weakest precondition over rules. `E` tells which failures are allowed.
def awp (rule : Rules S τ) (E : ε → Prop) : Prog S ε α → (α → τ → Prop) → τ → Prop
  | ret a, Q, t => Q a t
  | fail e, _, _ => E e
  | act a k, Q, t => ∃ P, rule a t P ∧ ∀ r t', P r t' → awp rule E (k r) Q t'

variable {t : τ} {p q : Prog S ε α} {f : α → Prog S ε β}

variable {rule : Rules S τ} {E : ε → Prop} {c : Prop}

section Awp

@[simp] theorem awp_ret (a : α) (Q : α → τ → Prop) (t : τ) : awp rule E (ret a) Q t ↔ Q a t := Iff.rfl

@[simp] theorem awp_pure (a : α) (Q : α → τ → Prop) (t : τ) : awp rule E (pure a : Prog S ε α) Q t ↔ Q a t := Iff.rfl

@[simp] theorem awp_fail (e : ε) (Q : α → τ → Prop) (t : τ) : awp rule E (fail e) Q t ↔ E e := Iff.rfl

theorem awp_lift {a : S.Act} {P : S.Res a → τ → Prop} (h : rule a t P) : awp rule E (lift a) P t :=
  ⟨P, h, fun _ _ hr => hr⟩

variable {Q' R : α → τ → Prop} {Q : β → τ → Prop}

theorem awp_mono {Q : α → τ → Prop} (h : awp rule E p Q t) (hQ : ∀ a t', Q a t' → Q' a t') : awp rule E p Q' t := by
  induction p generalizing t with
  | ret a => exact hQ a t h
  | fail e => exact h
  | act a k ih =>
    obtain ⟨P, hP, hk⟩ := h
    exact ⟨P, hP, fun r t' hr => ih r (hk r t' hr)⟩

theorem awp_bind
    (h : awp rule E p (fun a t' => awp rule E (f a) Q t') t) : awp rule E (p >>= f) Q t := by
  induction p generalizing t with
  | ret a => exact h
  | fail e => exact h
  | act a k ih =>
    obtain ⟨P, hP, hk⟩ := h
    exact ⟨P, hP, fun r t' hr => ih r (hk r t' hr)⟩

theorem awp_seq (h : awp rule E p R t) (hf : ∀ a t', R a t' → awp rule E (f a) Q t') :
    awp rule E (p >>= f) Q t :=
  awp_bind (awp_mono h hf)

theorem awp_to {u : α → τ} (h : awp rule E p (fun a t' => t' = u a) t)
    (hf : ∀ a, awp rule E (f a) Q (u a)) : awp rule E (p >>= f) Q t :=
  awp_seq h fun a _ ht => ht ▸ hf a

theorem awp_ite [Decidable c] {Q : α → τ → Prop} (hp : c → awp rule E p Q t)
    (hq : ¬c → awp rule E q Q t) : awp rule E (if c then p else q) Q t := by
  by_cases h : c
  · rw [if_pos h]
    exact hp h
  · rw [if_neg h]
    exact hq h

end Awp

-- A program that follows the rules follows those of a larger state, if these allow its steps on
-- the part `emb t`.
theorem awp_embed {T : Sig} {ε' : Type} (φ : S.Act → T.Act) (ρ : (a : S.Act) → T.Res (φ a) → S.Res a) (e : ε → ε')
    {rule : Rules S τ} {E : ε → Prop} (rule' : Rules T υ) (E' : ε' → Prop) (emb : τ → υ)
    (hrule : ∀ a t P, rule a t P → ∃ P', rule' (φ a) (emb t) P' ∧
      ∀ r u, P' r u → ∃ t', u = emb t' ∧ P (ρ a r) t') (hE : ∀ x, E x → E' (e x)) {Q : α → τ → Prop}
    (h : awp rule E p Q t) :
    awp rule' E' (embed φ ρ e p) (fun a u => ∃ t', u = emb t' ∧ Q a t') (emb t) := by
  induction p generalizing t with
  | ret a => exact ⟨t, rfl, h⟩
  | fail x => exact hE x h
  | act a k ih =>
    obtain ⟨P, hP, hk⟩ := h
    obtain ⟨P', hP', hres⟩ := hrule a t P hP
    refine ⟨P', hP', fun r u hr => ?_⟩
    obtain ⟨t', rfl, ht'⟩ := hres r u hr
    exact ih (ρ a r) (hk _ t' ht')

def guarded (rule : Rules S τ) (V : S.Act → τ → Prop) : Rules S τ := fun a t P => rule a t P ∧ V a t

-- From every state of `P` the program follows the rules and leads in `Q`.
def Hoare (rule : Rules S τ) (E : ε → Prop) (P : Set τ) (m : Prog S ε α) (Q : α → Set τ) : Prop :=
  ∀ t ∈ P, awp rule E m (fun a t' => t' ∈ Q a) t

namespace Hoare

variable {P P' : Set τ} {Q Q' : α → Set τ} {m : Prog S ε α}

theorem ret {a : α} (h : P ⊆ Q a) : Hoare rule E P (pure a) Q := fun _ ht => h ht

theorem pre (h : Hoare rule E P m Q) (hP : P' ⊆ P) : Hoare rule E P' m Q := fun t ht => h t (hP ht)

theorem post (h : Hoare rule E P m Q) (hQ : ∀ a, Q a ⊆ Q' a) : Hoare rule E P m Q' := fun t ht =>
  awp_mono (h t ht) fun a _ ht' => hQ a ht'

theorem bind {R : α → Set τ} {Q : β → Set τ} {k : α → Prog S ε β} (h : Hoare rule E P m R)
    (hk : ∀ a, Hoare rule E (R a) (k a) Q) : Hoare rule E P (m >>= k) Q := fun t ht =>
  awp_seq (h t ht) fun a t' ht' => hk a t' ht'

theorem ite [Decidable c] {m' : Prog S ε α} (h : c → Hoare rule E P m Q)
    (h' : ¬c → Hoare rule E P m' Q) : Hoare rule E P (if c then m else m') Q := fun t ht =>
  awp_ite (fun hc => h hc t ht) fun hc => h' hc t ht

theorem ex {ι : Sort*} {P : ι → Set τ} (h : ∀ i, Hoare rule E (P i) m Q) : Hoare rule E (⋃ i, P i) m Q := by
  intro t ht
  obtain ⟨i, hi⟩ := Set.mem_iUnion.mp ht
  exact h i t hi

end Hoare

def All (P : S.Act → Prop) : Prog S ε α → Prop
  | ret _ => True
  | fail _ => True
  | act a k => P a ∧ ∀ r, All P (k r)

variable {P P' : S.Act → Prop} {Q : α → τ → Prop} {s : σ} {step : Step S ε σ} {R : τ → σ → Prop}

theorem all_lift {a : S.Act} (h : P a) : (lift a : Prog S ε _).All P :=
  ⟨h, fun _ => trivial⟩

theorem all_bind (h : p.All P) (hf : ∀ a, (f a).All P) : (p >>= f).All P := by
  induction p with
  | ret a => exact hf a
  | fail e => trivial
  | act a k ih => exact ⟨h.1, fun r => ih r (h.2 r)⟩

theorem all_ite [Decidable c] (hp : p.All P)
    (hq : q.All P) : (if c then p else q).All P := by
  split <;> assumption

theorem all_mono (h : p.All P) (hP : ∀ a, P a → P' a) : p.All P' := by
  induction p with
  | ret a => trivial
  | fail e => trivial
  | act a k ih => exact ⟨hP a h.1, fun r => ih r (h.2 r)⟩

theorem awp_guard {V : S.Act → τ → Prop} (h : awp rule E p Q t)
    (hV : p.All fun a => ∀ t, V a t) : awp (guarded rule V) E p Q t := by
  induction p generalizing t with
  | ret a => exact h
  | fail e => exact h
  | act a k ih =>
    obtain ⟨P, hP, hk⟩ := h
    exact ⟨P, ⟨hP, hV.1 t⟩, fun r t' hr => ih r (hk r t' hr) (hV.2 r)⟩

theorem run_of_all {I : σ → Prop}
    (hI : ∀ a s r s', P a → I s → step a s = .done r s' → I s') (h : p.All P) {s' : σ} {a : α} (hs : I s)
    (hr : run step p s = .done a s') : I s' := by
  induction p generalizing s with
  | ret b =>
    cases hr
    exact hs
  | fail e => cases hr
  | act b k ih =>
    rw [run] at hr
    cases hstep : step b s with
    | done r t =>
      rw [hstep] at hr
      exact ih r (h.2 r) (hI b s r t h.1 hs hstep) hr
    | fail e t | wait => rw [hstep] at hr; cases hr

-- Every step that one set of rules allows is allowed by the other, with related results.
def Simulates (rule : Rules S τ) (rule' : Rules S υ) (R : τ → υ → Prop) : Prop :=
  ∀ a t u P, rule a t P → R t u → ∃ P', rule' a u P' ∧ ∀ r u', P' r u' → ∃ t', P r t' ∧ R t' u'

theorem awp_simulate {rule' : Rules S υ} {R : τ → υ → Prop} (hsim : Simulates rule rule' R)
    {u : υ} (h : awp rule E p Q t) (hR : R t u) :
    awp rule' E p (fun a u' => ∃ t', Q a t' ∧ R t' u') u := by
  induction p generalizing t u with
  | ret a => exact ⟨t, h, hR⟩
  | fail e => exact h
  | act a k ih =>
    obtain ⟨P, hP, hk⟩ := h
    obtain ⟨P', hP', hres⟩ := hsim a t u P hP hR
    refine ⟨P', hP', fun r u' hr => ?_⟩
    obtain ⟨t', ht', hR'⟩ := hres r u' hr
    exact ih r (hk r t' ht') hR'

-- The rules are sound for a machine under `R` if every step they allow leads to a related state, or
-- fails in a way `E` allows.
def Sound (rule : Rules S τ) (step : Step S ε σ) (E : ε → Prop) (R : τ → σ → Prop) : Prop :=
  ∀ a t s P, rule a t P → R t s → (step a s).Sat (fun e _ => E e) fun r s' => ∃ t', P r t' ∧ R t' s'

theorem wp_of_awp (hs : Sound rule step E R) (h : awp rule E p Q t) (hR : R t s) :
    wp step p (fun e _ => E e) (fun a s' => ∃ t', Q a t' ∧ R t' s') s := by
  induction p generalizing t s with
  | ret a => exact ⟨t, h, hR⟩
  | fail e => exact h
  | act a k ih =>
    obtain ⟨P, hP, hk⟩ := h
    rw [wp_act]
    exact (hs a t s P hP hR).mono (fun _ _ he => he) fun r s' ⟨t', ht', hR'⟩ => ih r (hk r t' ht') hR'

theorem run_of_awp (hs : Sound rule step (fun _ => False) R)
    (hstep : ∀ a s, step a s ≠ .wait) (h : awp rule (fun _ => False) p Q t) (hR : R t s) :
    ∃ a s', run step p s = .done a s' ∧ ∃ t', Q a t' ∧ R t' s' := by
  have hwp := wp_of_awp hs h hR
  unfold wp at hwp
  cases hrun : run step p s with
  | done a s' =>
    rw [hrun] at hwp
    exact ⟨a, s', rfl, hwp⟩
  | fail e s' =>
    rw [hrun] at hwp
    exact hwp.elim
  | wait => exact absurd hrun (run_ne_wait hstep p s)

end Prog
