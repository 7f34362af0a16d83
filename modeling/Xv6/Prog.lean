import Mathlib
import Xv6.Lts

-- The sum over a table of which one entry has changed.

theorem sum_update_add {ι α M : Type} [DecidableEq ι] [AddCommMonoid M] (f : α → M) (g : ι → α) {p : ι} {s : Finset ι}
    (hp : p ∈ s) (t : α) : ∑ q ∈ s, f (Function.update g p t q) + f (g p) = ∑ q ∈ s, f (g q) + f t := by
  have hrest : ∀ q ∈ s.erase p, f (Function.update g p t q) = f (g q) := by
    intro q hq
    rw [Function.update_of_ne (Finset.ne_of_mem_erase hq)]
  rw [← Finset.sum_erase_add _ _ hp, ← Finset.sum_erase_add s (fun q => f (g q)) hp, Finset.sum_congr rfl hrest,
    Function.update_self, add_right_comm]

namespace Prog

-- The atomic steps a family of programs may take, and what each one returns.
structure Sig where
  Act : Type
  Res : Act → Type

end Prog

-- A program is a tree of atomic steps. A failure halts the whole machine.
inductive Prog (S : Prog.Sig) (ε α : Type) : Type where
  | ret (a : α)
  | fail (e : ε)
  | act (a : S.Act) (k : S.Res a → Prog S ε α)

namespace Prog

variable {S : Sig} {ε σ α β γ : Type}

def bind (p : Prog S ε α) (f : α → Prog S ε β) : Prog S ε β :=
  match p with
  | ret a => f a
  | fail e => fail e
  | act a k => act a fun r => (k r).bind f

instance : Monad (Prog S ε) where
  pure := ret
  bind := bind

def lift (a : S.Act) : Prog S ε (S.Res a) := act a ret

@[simp] theorem pure_eq (a : α) : (pure a : Prog S ε α) = ret a := rfl

@[simp] theorem ret_bind (a : α) (f : α → Prog S ε β) : (ret a >>= f) = f a := rfl

@[simp] theorem fail_bind (e : ε) (f : α → Prog S ε β) : ((fail e : Prog S ε α) >>= f) = fail e := rfl

@[simp] theorem act_bind (a : S.Act) (k : S.Res a → Prog S ε α) (f : α → Prog S ε β) :
    (act a k >>= f) = act a fun r => k r >>= f := rfl

theorem bind_assoc (p : Prog S ε α) (f : α → Prog S ε β) (g : β → Prog S ε γ) :
    ((p >>= f) >>= g) = (p >>= fun a => f a >>= g) := by
  induction p with
  | ret a => rfl
  | fail e => rfl
  | act a k ih =>
    simp only [act_bind]
    congr 1
    funext r
    exact ih r

-- The same program with other names for its steps and failures.
def embed {T : Sig} {ε' : Type} (φ : S.Act → T.Act) (ρ : (a : S.Act) → T.Res (φ a) → S.Res a) (e : ε → ε') :
    Prog S ε α → Prog T ε' α
  | ret a => ret a
  | fail x => fail (e x)
  | act a k => act (φ a) fun r => embed φ ρ e (k (ρ a r))

-- The outcome of a step or a program. One that waits for others has no outcome of its own.
inductive Outcome (ε σ α : Type) : Type where
  | done (a : α) (s : σ)
  | fail (e : ε) (s : σ)
  | wait

abbrev Step (S : Sig) (ε σ : Type) := (a : S.Act) → σ → Outcome ε σ (S.Res a)

-- Runs a program by itself, without steps of other processes in between.
def run (step : Step S ε σ) : Prog S ε α → σ → Outcome ε σ α
  | ret a, s => .done a s
  | fail e, s => .fail e s
  | act a k, s =>
    match step a s with
    | .done r s' => run step (k r) s'
    | .fail e s' => .fail e s'
    | .wait => .wait

theorem run_lift (step : Step S ε σ) (a : S.Act) (s : σ) : run step (lift a) s = step a s := by
  rw [lift, run]
  cases step a s <;> rfl

variable {p : Prog S ε α} {s : σ}

variable {step : Step S ε σ}

theorem run_ite {c : Prop} [Decidable c] {q : Prog S ε α} :
    run step (if c then p else q) s = if c then run step p s else run step q s := apply_ite (run step · s) c p q

theorem run_ne_wait (hstep : ∀ a s, step a s ≠ .wait) (p : Prog S ε α) (s : σ) :
    run step p s ≠ .wait := by
  induction p generalizing s with
  | ret a => nofun
  | fail e => nofun
  | act a k ih =>
    rw [run]
    cases h : step a s with
    | done r s' => exact ih r s'
    | fail e s' => nofun
    | wait => exact absurd h (hstep a s)

variable {f : α → Prog S ε β} {a : α} {s' : σ}

theorem run_bind
    (h : run step p s = .done a s') : run step (p >>= f) s = run step (f a) s' := by
  induction p generalizing s with
  | ret b =>
    cases h
    rfl
  | fail e => cases h
  | act b k ih =>
    rw [act_bind, run]
    rw [run] at h
    cases hstep : step b s with
    | done r t => rw [hstep] at h; exact ih r h
    | fail e t | wait => rw [hstep] at h; cases h

theorem run_bind_done {s'' : σ} {b : β} (h : run step (p >>= f) s = .done b s'') :
    ∃ a s', run step p s = .done a s' ∧ run step (f a) s' = .done b s'' := by
  induction p generalizing s with
  | ret a => exact ⟨a, s, rfl, h⟩
  | fail e => cases h
  | act a k ih =>
    rw [act_bind, run] at h
    rw [run]
    cases hstep : step a s with
    | done r t => rw [hstep] at h; exact ih r h
    | fail e t | wait => rw [hstep] at h; cases h

-- The program returns `b` in `s'`, and all of the steps it takes satisfy `V`.
def Within (step : Step S ε σ) (V : S.Act → Prop) : Prog S ε α → σ → α → σ → Prop
  | ret a, s, b, s' => a = b ∧ s = s'
  | fail _, _, _, _ => False
  | act a k, s, b, s' => V a ∧ ∃ r t, step a s = .done r t ∧ Within step V (k r) t b s'

section Within

variable {V : S.Act → Prop}

theorem within_ret (a : α) (s : σ) : Within step V (pure a) s a s := ⟨rfl, rfl⟩

theorem within_lift {a : S.Act} {r : S.Res a} (hV : V a) (h : step a s = .done r s') :
    Within step V (lift a) s r s' := ⟨hV, r, s', h, rfl, rfl⟩

theorem within_bind {t s' : σ} {b : β} (hp : Within step V p s a t)
    (hf : Within step V (f a) t b s') : Within step V (p >>= f) s b s' := by
  induction p generalizing s with
  | ret c =>
    obtain ⟨rfl, rfl⟩ := hp
    exact hf
  | fail e => exact hp.elim
  | act c k ih =>
    obtain ⟨hV, r, u, hstep, hk⟩ := hp
    exact ⟨hV, r, u, hstep, ih r hk⟩

theorem Within.run (h : Within step V p s a s') : run step p s = .done a s' := by
  induction p generalizing s with
  | ret c =>
    obtain ⟨rfl, rfl⟩ := h
    rfl
  | fail e => exact h.elim
  | act c k ih =>
    obtain ⟨-, r, u, hstep, hk⟩ := h
    rw [Prog.run, hstep]
    exact ih r hk

end Within

variable {Q Q' : α → σ → Prop} {o : Outcome ε σ α}

namespace Outcome

def Sat (E : ε → σ → Prop) (Q : α → σ → Prop) : Outcome ε σ α → Prop
  | done a s => Q a s
  | fail e s => E e s
  | wait => True

def result : Outcome ε σ α → Option α
  | done a _ => some a
  | _ => none

theorem done_of_result (h : o.result = some a) : ∃ s, o = .done a s := by
  cases o with
  | done b s =>
    cases h
    exact ⟨s, rfl⟩
  | fail e s => cases h
  | wait => cases h

theorem Sat.mono {E E' : ε → σ → Prop} (h : o.Sat E Q) (hE : ∀ e s, E e s → E' e s)
    (hQ : ∀ a s, Q a s → Q' a s) : o.Sat E' Q' := by
  cases o with
  | done a s => exact hQ a s h
  | fail e s => exact hE e s h
  | wait => trivial

end Outcome

-- The weakest precondition: a run that returns meets `Q`, and one that halts meets `E`.
def wp (step : Step S ε σ) (p : Prog S ε α) (E : ε → σ → Prop) (Q : α → σ → Prop) (s : σ) : Prop :=
  (run step p s).Sat E Q

section Wp

variable {E : ε → σ → Prop}

theorem wp_act (a : S.Act) (k : S.Res a → Prog S ε α) (Q : α → σ → Prop) (s : σ) :
    wp step (act a k) E Q s ↔ (step a s).Sat E fun r s' => wp step (k r) E Q s' := by
  unfold wp
  rw [run]
  cases step a s <;> rfl

theorem wp_done (h : wp step p E Q s) (hr : run step p s = .done a s') : Q a s' := by
  rw [wp, hr] at h
  exact h

end Wp

-- Cuts a run off after a number of atomic steps. A step that fails or waits
-- leaves the program where it is.
def cut (step : Step S ε σ) : Nat → Prog S ε α → σ → σ
  | 0, _, s => s
  | n + 1, act a k, s =>
    match step a s with
    | .done r s' => cut step n (k r) s'
    | .fail _ s' => s'
    | .wait => s
  | _ + 1, ret _, s => s
  | _ + 1, fail _, s => s

-- The weakest precondition with a crash condition: `C` holds before and after every step.
def wpc (step : Step S ε σ) (C : σ → Prop) : Prog S ε α → (α → σ → Prop) → σ → Prop
  | ret a, Q, s => C s ∧ Q a s
  | fail _, _, s => C s
  | act a k, Q, s => C s ∧ (step a s).Sat (fun _ s' => C s') fun r s' => wpc step C (k r) Q s'

section Crash

variable {C : σ → Prop}

theorem wpc_start (h : wpc step C p Q s) : C s := by
  cases p with
  | ret a => exact h.1
  | fail e => exact h
  | act a k => exact h.1

@[simp] theorem wpc_ret (a : α) (Q : α → σ → Prop) (s : σ) : wpc step C (ret a) Q s ↔ C s ∧ Q a s := Iff.rfl

@[simp] theorem wpc_pure (a : α) (Q : α → σ → Prop) (s : σ) :
    wpc step C (pure a : Prog S ε α) Q s ↔ C s ∧ Q a s := Iff.rfl

theorem wpc_mono (h : wpc step C p Q s) (hQ : ∀ a s', C s' → Q a s' → Q' a s') : wpc step C p Q' s := by
  induction p generalizing s with
  | ret a => exact ⟨h.1, hQ a s h.1 h.2⟩
  | fail e => exact h
  | act a k ih => exact ⟨h.1, h.2.mono (fun _ _ he => he) fun r s' hs => ih r hs⟩

theorem wpc_crash {C' : σ → Prop} (h : wpc step C p Q s) (hC : ∀ s', C s' → C' s') : wpc step C' p Q s := by
  induction p generalizing s with
  | ret a => exact ⟨hC s h.1, h.2⟩
  | fail e => exact hC s h
  | act a k ih => exact ⟨hC s h.1, h.2.mono (fun _ s' he => hC s' he) fun r s' hs => ih r hs⟩

theorem wpc_bind {Q : β → σ → Prop}
    (h : wpc step C p (fun a s' => wpc step C (f a) Q s') s) : wpc step C (p >>= f) Q s := by
  induction p generalizing s with
  | ret a => exact h.2
  | fail e => exact h
  | act a k ih => exact ⟨h.1, h.2.mono (fun _ _ he => he) fun r s' hs => ih r hs⟩

theorem wpc_lift {a : S.Act} {Q : S.Res a → σ → Prop} (hC : C s)
    (h : (step a s).Sat (fun _ s' => C s') fun r s' => C s' ∧ Q r s') :
    wpc step C (lift a : Prog S ε _) Q s :=
  ⟨hC, h⟩

theorem cut_of_wpc (n : Nat) (h : wpc step C p Q s) : C (cut step n p s) := by
  induction n generalizing p s with
  | zero => exact wpc_start h
  | succ n ih =>
    cases p with
    | ret a => exact h.1
    | fail e => exact h
    | act a k =>
      have hs := h.2
      rw [cut]
      cases hstep : step a s with
      | done r s' => rw [hstep] at hs; exact ih hs
      | fail e s' => rw [hstep] at hs; exact hs
      | wait => exact h.1

theorem wp_of_wpc (h : wpc step C p Q s) : wp step p (fun _ s' => C s') (fun a s' => C s' ∧ Q a s') s := by
  induction p generalizing s with
  | ret a => exact h
  | fail e => exact h
  | act a k ih =>
    rw [wp_act]
    exact h.2.mono (fun _ _ he => he) fun r s' hs => ih r hs

end Crash

end Prog
