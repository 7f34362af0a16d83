import Xv6.Prog.Pool

-- Processors that execute contexts over one state. A step can change the context, and an interrupt
-- puts a handler in front of the program.

namespace Prog

open Function

-- `current s c` is the context that processor `c` executes. `body t x` is what the
-- context `t` runs for the call `x`, and `spawn a` a context that the step `a` sets up.
structure Cpus (S : Sig) (ε χ η σ κ τ : Type) where
  step : κ → Step S ε σ
  current : σ → κ → τ
  body : τ → χ → Prog S ε Unit
  handler : η → Prog S ε Unit
  enabled : σ → κ → Bool
  spawn : S.Act → Option (τ × Prog S ε Unit)

-- The programs that are left to the contexts, and the steps that they have made.
structure Config (S : Sig) (ε σ τ : Type) where
  state : σ
  program : τ → Prog S ε Unit
  past : τ → List (Event S)

inductive Beat (χ η κ : Type) where
  | step (c : κ)
  | call (c : κ) (x : χ)
  | interrupt (c : κ) (h : η)

variable {S : Sig} {ε χ η σ κ τ υ : Type}

namespace Config

variable [DecidableEq τ]

def after (P : Config S ε σ τ) (t : τ) (s : σ) (p : Prog S ε Unit) (e : Event S) : Config S ε σ τ where
  state := s
  program := update P.program t p
  past := update P.past t (P.past t ++ [e])

def setup (P : Config S ε σ τ) : Option (τ × Prog S ε Unit) → Config S ε σ τ
  | none => P
  | some (t, p) => { P with program := update P.program t p, past := update P.past t [] }

end Config

namespace Cpus

variable [DecidableEq τ] (M : Cpus S ε χ η σ κ τ)

def next : Beat χ η κ → Config S ε σ τ → Option (Config S ε σ τ)
  | .step c, P =>
    match P.program (M.current P.state c) with
    | .act a k =>
      match M.step c a P.state with
      | .done r s => some ((P.after (M.current P.state c) s (k r) ⟨a, r⟩).setup (M.spawn a))
      | _ => none
    | _ => none
  | .call c x, P =>
    match P.program (M.current P.state c) with
    | .ret _ =>
      let t := M.current P.state c
      some { P with program := update P.program t (M.body t x) }
    | _ => none
  | .interrupt c h, P =>
    if M.enabled P.state c then
      let t := M.current P.state c
      some { P with program := update P.program t (M.handler h >>= fun _ => P.program t) }
    else none

def run : List (Beat χ η κ) → Config S ε σ τ → Option (Config S ε σ τ)
  | [], P => some P
  | b :: bs, P =>
    match M.next b P with
    | some P' => run bs P'
    | none => none

inductive Reach (P : Config S ε σ τ) : Config S ε σ τ → Prop where
  | refl : Reach P P
  | beat {P' P'' : Config S ε σ τ} (b : Beat χ η κ) (h : Reach P P') (hb : M.next b P' = some P'') : Reach P P''

variable {M} {P P' P'' : Config S ε σ τ}

theorem Reach.trans (h : M.Reach P P') (h' : M.Reach P' P'') : M.Reach P P'' := by
  induction h' with
  | refl => exact h
  | beat b _ hb ih => exact .beat b ih hb

theorem reach_of_run {bs : List (Beat χ η κ)} (h : M.run bs P = some P') : M.Reach P P' := by
  induction bs generalizing P with
  | nil =>
    cases h
    exact .refl
  | cons b bs ih =>
    rw [run] at h
    cases hb : M.next b P with
    | none => rw [hb] at h; cases h
    | some P1 =>
      rw [hb] at h
      exact Reach.trans (.beat b .refl hb) (ih h)

theorem reach_of_any {bs : List (Beat χ η κ)} {f : Config S ε σ τ → Bool} (h : (M.run bs P).any f = true) :
    ∃ P', M.Reach P P' ∧ f P' = true := by
  obtain ⟨P', hP', hf⟩ := (Option.any_eq_true _ _).mp h
  exact ⟨P', reach_of_run hP', hf⟩

theorem next_step {c : κ} (h : M.next (.step c) P = some P') :
    ∃ a k r s, P.program (M.current P.state c) = .act a k ∧ M.step c a P.state = .done r s ∧
      P' = (P.after (M.current P.state c) s (k r) ⟨a, r⟩).setup (M.spawn a) := by
  simp only [next] at h
  split at h
  · split at h
    · cases h
      exact ⟨_, _, _, _, ‹_›, ‹_›, rfl⟩
    · cases h
  · cases h

theorem next_call {c : κ} {x : χ} (h : M.next (.call c x) P = some P') :
    P' = { P with program := update P.program (M.current P.state c) (M.body (M.current P.state c) x) } ∧
      P.program (M.current P.state c) = .ret () := by
  simp only [next] at h
  split at h
  · cases h
    exact ⟨rfl, ‹_›⟩
  · cases h

theorem next_interrupt {c : κ} {i : η} (h : M.next (.interrupt c i) P = some P') :
    M.enabled P.state c = true ∧ P' = { P with
      program := update P.program (M.current P.state c)
        (M.handler i >>= fun _ => P.program (M.current P.state c)) } := by
  simp only [next] at h
  split at h
  · cases h
    exact ⟨‹_›, rfl⟩
  · cases h

end Cpus

def renew [DecidableEq τ] (fresh : τ → υ) (g : τ → υ) : Option (τ × Prog S ε Unit) → τ → υ
  | none => g
  | some (t, _) => update g t (fresh t)

section Discipline

variable [DecidableEq τ] (M : Cpus S ε χ η σ κ τ) (rule : τ → Rules S υ) (E : ε → Prop)
  (R : List (Event S) → υ → Prop) (Inv : σ → (τ → υ) → Prop) (idle : υ) (fresh : τ → υ)

-- How contexts keep a global invariant. Each one has an abstract state, which stays as
-- it is while the context is not executed, and which an interrupt gives back.
structure Cpus.Discipline : Prop where
  call : ∀ t x, awp (rule t) E (M.body t x) (fun _ y => y = idle) idle
  interrupt : ∀ s g c h, Inv s g → M.enabled s c = true →
    awp (rule (M.current s c)) E (M.handler h) (fun _ y => y = g (M.current s c)) (g (M.current s c))
  step : ∀ s g c a W r s', Inv s g → rule (M.current s c) a (g (M.current s c)) W → M.step c a s = .done r s' →
    ∃ y, W r y ∧ Inv s' (renew fresh (update g (M.current s c) y) (M.spawn a))
  record : ∀ t past a y W r y', R past y → rule t a y W → W r y' → R (past ++ [⟨a, r⟩]) y'
  spawn : ∀ a t p, M.spawn a = some (t, p) → R [] (fresh t) ∧ awp (rule t) E p (fun _ y => y = idle) (fresh t)

structure Governed (P : Config S ε σ τ) (g : τ → υ) : Prop where
  inv : Inv P.state g
  rest : ∀ t, R (P.past t) (g t) ∧ awp (rule t) E (P.program t) (fun _ y => y = idle) (g t)

variable {M rule E R Inv idle fresh} {P P' : Config S ε σ τ}

theorem Cpus.Discipline.beat (h : M.Discipline rule E R Inv idle fresh) {g : τ → υ}
    (hg : Governed rule E R Inv idle P g) {b : Beat χ η κ} (hb : M.next b P = some P') :
    ∃ g', Governed rule E R Inv idle P' g' := by
  cases b with
  | step c =>
    obtain ⟨a, k, r, s, hprog, hstep, rfl⟩ := next_step hb
    obtain ⟨hR, hrest⟩ := hg.rest (M.current P.state c)
    rw [hprog] at hrest
    obtain ⟨W, hrule, hk⟩ := hrest
    obtain ⟨y, hy, hinv⟩ := h.step _ _ c a W r s hg.inv hrule hstep
    have hafter : ∀ t, R ((P.after (M.current P.state c) s (k r) ⟨a, r⟩).past t)
        (update g (M.current P.state c) y t) ∧
        awp (rule t) E ((P.after (M.current P.state c) s (k r) ⟨a, r⟩).program t) (fun _ y => y = idle)
          (update g (M.current P.state c) y t) := by
      intro t
      unfold Config.after
      by_cases ht : t = M.current P.state c
      · subst ht
        simp only [update_self]
        exact ⟨h.record _ _ a _ W r y hR hrule hy, hk r y hy⟩
      · simp only [update_of_ne ht]
        exact hg.rest t
    cases hsp : M.spawn a with
    | none =>
      rw [hsp] at hinv
      exact ⟨_, hinv, hafter⟩
    | some tp =>
      obtain ⟨t', p⟩ := tp
      rw [hsp] at hinv
      refine ⟨_, hinv, fun t => ?_⟩
      unfold Config.setup renew
      by_cases ht : t = t'
      · subst ht
        simp only [update_self]
        exact h.spawn a t p hsp
      · simp only [update_of_ne ht]
        exact hafter t
  | call c x =>
    obtain ⟨rfl, hret⟩ := next_call hb
    refine ⟨g, hg.inv, fun t => ?_⟩
    by_cases ht : t = M.current P.state c
    · subst ht
      obtain ⟨hR, hrest⟩ := hg.rest (M.current P.state c)
      rw [hret] at hrest
      have hidle : g (M.current P.state c) = idle := hrest
      simp only [update_self]
      refine ⟨hR, ?_⟩
      rw [hidle]
      exact h.call _ x
    · simp only [update_of_ne ht]
      exact hg.rest t
  | interrupt c i =>
    obtain ⟨hen, rfl⟩ := next_interrupt hb
    refine ⟨g, hg.inv, fun t => ?_⟩
    by_cases ht : t = M.current P.state c
    · subst ht
      obtain ⟨hR, hrest⟩ := hg.rest (M.current P.state c)
      simp only [update_self]
      refine ⟨hR, awp_seq (h.interrupt _ _ c i hg.inv hen) fun _ y hy => ?_⟩
      rw [hy]
      exact hrest
    · simp only [update_of_ne ht]
      exact hg.rest t

theorem Cpus.Discipline.reach (h : M.Discipline rule E R Inv idle fresh)
    (hinit : ∃ g, Governed rule E R Inv idle P g) (hr : M.Reach P P') : ∃ g, Governed rule E R Inv idle P' g := by
  induction hr with
  | refl => exact hinit
  | beat b _ hb ih =>
    obtain ⟨g, hg⟩ := ih
    exact h.beat hg hb

end Discipline

end Prog
