import Xv6.Prog.Rules

-- Threads that run programs over one shared state, one atomic step at a time.

namespace Prog

open Function

abbrev Event (S : Sig) := (a : S.Act) × S.Res a

-- A call in progress: the steps it has made and the program that is left.
structure Thread (S : Sig) (ε α χ : Type) where
  call : χ
  past : List (Event S)
  rest : Prog S ε α

-- `ended` lists the calls that have returned with the steps they made.
structure Pool (S : Sig) (ε α χ σ ι : Type) where
  state : σ
  thread : ι → Option (Thread S ε α χ)
  ended : List (χ × List (Event S))

-- `body i c` is what thread `i` runs for the call `c`. It may make a call when it is ready.
structure Machine (S : Sig) (ε α χ σ ι : Type) where
  step : Step S ε σ
  body : ι → χ → Prog S ε α
  ready : ι → σ → Bool

inductive Move (ι χ : Type) where
  | start (i : ι) (c : χ)
  | step (i : ι)
  | finish (i : ι)

variable {S : Sig} {ε σ τ α χ ι : Type}

theorem update_eq_some {α : Type} [DecidableEq ι] {g : ι → Option α} {i j : ι} {t u : α} (h : update g i (some t) j = some u) :
    j = i ∧ t = u ∨ j ≠ i ∧ g j = some u := by
  by_cases hj : j = i
  · subst hj
    rw [update_self, Option.some.injEq] at h
    exact .inl ⟨rfl, h⟩
  · rw [update_of_ne hj] at h
    exact .inr ⟨hj, h⟩

namespace Machine

variable [DecidableEq ι] (M : Machine S ε α χ σ ι)

-- A step that waits is not possible yet, and one that fails is the last of all.
def next : Move ι χ → Pool S ε α χ σ ι → Option (Pool S ε α χ σ ι)
  | .start i c, P =>
    match P.thread i with
    | none =>
      if M.ready i P.state then
        some { P with thread := update P.thread i (some ⟨c, [], M.body i c⟩) }
      else none
    | some _ => none
  | .step i, P =>
    match P.thread i with
    | some ⟨c, past, .act a k⟩ =>
      match M.step a P.state with
      | .done r s => some { P with
        state := s
        thread := update P.thread i (some ⟨c, past ++ [⟨a, r⟩], k r⟩) }
      | _ => none
    | _ => none
  | .finish i, P =>
    match P.thread i with
    | some ⟨c, past, .ret _⟩ => some { P with
      thread := update P.thread i none
      ended := P.ended ++ [(c, past)] }
    | _ => none

def run : List (Move ι χ) → Pool S ε α χ σ ι → Option (Pool S ε α χ σ ι)
  | [], P => some P
  | m :: ms, P =>
    match M.next m P with
    | some P' => run ms P'
    | none => none

inductive Reach (ok : Pool S ε α χ σ ι → Move ι χ → Prop) (P : Pool S ε α χ σ ι) :
    Pool S ε α χ σ ι → Prop where
  | refl : Reach ok P P
  | move {P' P'' : Pool S ε α χ σ ι} (m : Move ι χ) (h : Reach ok P P') (hok : ok P' m)
    (hm : M.next m P' = some P'') : Reach ok P P''

variable {M} {P P' : Pool S ε α χ σ ι}

variable {ok ok' : Pool S ε α χ σ ι → Move ι χ → Prop} {ms : List (Move ι χ)} {i : ι}

theorem Reach.trans {P'' : Pool S ε α χ σ ι}
    (h : M.Reach ok P P') (h' : M.Reach ok P' P'') : M.Reach ok P P'' := by
  induction h' with
  | refl => exact h
  | move m _ hok hm ih => exact .move m ih hok hm

theorem Reach.weaken (h : M.Reach ok P P') (hok : ∀ P m, ok P m → ok' P m) : M.Reach ok' P P' := by
  induction h with
  | refl => exact .refl
  | move m _ h hm ih => exact .move m ih (hok _ _ h) hm

theorem reach_of_run (h : M.run ms P = some P') : M.Reach (fun _ _ => True) P P' := by
  induction ms generalizing P with
  | nil =>
    cases h
    exact .refl
  | cons m ms ih =>
    rw [run] at h
    cases hm : M.next m P with
    | none => rw [hm] at h; cases h
    | some P1 =>
      rw [hm] at h
      exact Reach.trans (.move m .refl trivial hm) (ih h)

theorem reach_of_any {f : Pool S ε α χ σ ι → Bool} (h : (M.run ms P).any f = true) :
    ∃ P', M.Reach (fun _ _ => True) P P' ∧ f P' = true := by
  obtain ⟨P', hP', hf⟩ := (Option.any_eq_true _ _).mp h
  exact ⟨P', reach_of_run hP', hf⟩

theorem next_start {c : χ} (h : M.next (.start i c) P = some P') :
    P.thread i = none ∧ M.ready i P.state = true ∧
      P' = { P with thread := update P.thread i (some ⟨c, [], M.body i c⟩) } := by
  simp only [next] at h
  split at h
  · split at h
    · cases h
      exact ⟨‹_›, ‹_›, rfl⟩
    · cases h
  · cases h

theorem next_step (h : M.next (.step i) P = some P') :
    ∃ c past a k r s, P.thread i = some ⟨c, past, .act a k⟩ ∧ M.step a P.state = .done r s ∧ P' = { P with
        state := s, thread := update P.thread i (some ⟨c, past ++ [⟨a, r⟩], k r⟩) } := by
  simp only [next] at h
  split at h
  · split at h
    · cases h
      exact ⟨_, _, _, _, _, _, ‹_›, ‹_›, rfl⟩
    · cases h
  · cases h

theorem next_finish (h : M.next (.finish i) P = some P') : ∃ c past v, P.thread i = some ⟨c, past, .ret v⟩ ∧
      P' = { P with thread := update P.thread i none, ended := P.ended ++ [(c, past)] } := by
  simp only [next] at h
  split at h
  · cases h
    exact ⟨_, _, _, ‹_›, rfl⟩
  · cases h

end Machine

section Discipline

variable [DecidableEq ι] (M : Machine S ε α χ σ ι) (rule : ι → χ → Rules S τ) (E : ε → Prop)
  (Q : ι → χ → α → τ → Prop) (R : χ → List (Event S) → τ → Prop)
  (Inv : σ → List (χ × List (Event S)) → (ι → τ) → Prop) (idle : τ) (ok : ι → χ → S.Act → σ → Prop)

-- How threads keep a global invariant. Each thread has an abstract state, `idle`
-- between calls. Its program follows the rules from there, `R` ties that state
-- to the steps made, and every step the rules allow keeps the invariant.
structure Discipline : Prop where
  start : ∀ s es g i c, Inv s es g → g i = idle → M.ready i s = true →
    ∃ t, Inv s es (update g i t) ∧ R c [] t ∧ awp (rule i c) E (M.body i c) (Q i c) t
  step : ∀ s es g i c a P r s', Inv s es g → rule i c a (g i) P → ok i c a s → M.step a s = .done r s' →
    ∃ t, P r t ∧ Inv s' es (update g i t)
  record : ∀ i c past a t P r t', R c past t → rule i c a t P → P r t' → R c (past ++ [⟨a, r⟩]) t'
  finish : ∀ s es g i c past v, Inv s es g → R c past (g i) → Q i c v (g i) →
    Inv s (es ++ [(c, past)]) (update g i idle)

def okMove (P : Pool S ε α χ σ ι) : Move ι χ → Prop
  | .step i => ∀ th a k, P.thread i = some th → th.rest = act a k → ok i th.call a P.state
  | _ => True

-- A pool whose threads keep to their rules from the states `g`.
structure Guarded (P : Pool S ε α χ σ ι) (g : ι → τ) : Prop where
  inv : Inv P.state P.ended g
  idle : ∀ i, P.thread i = none → g i = idle
  rest : ∀ i th, P.thread i = some th → R th.call th.past (g i) ∧ awp (rule i th.call) E th.rest (Q i th.call) (g i)

variable {M rule E Q R Inv idle ok} {P P' : Pool S ε α χ σ ι}

theorem Guarded.update {g : ι → τ} {i : ι} {t : τ} {th : Thread S ε α χ}
    (h : Guarded rule E Q R Inv idle P g) {s : σ} (hinv : Inv s P.ended (update g i t))
    (hR : R th.call th.past t) (hrest : awp (rule i th.call) E th.rest (Q i th.call) t) :
    Guarded rule E Q R Inv idle { P with state := s, thread := update P.thread i (some th) }
      (update g i t) := by
  refine ⟨hinv, fun j hj => ?_, fun j th' hj => ?_⟩
  · by_cases hji : j = i
    · subst hji
      simp at hj
    · simp only [update_of_ne hji] at hj ⊢
      exact h.idle j hj
  · by_cases hji : j = i
    · subst hji
      simp only [update_self, Option.some.injEq] at hj ⊢
      subst hj
      exact ⟨hR, hrest⟩
    · simp only [update_of_ne hji] at hj ⊢
      exact h.rest j th' hj

theorem Discipline.move (h : Discipline M rule E Q R Inv idle ok) {g : ι → τ}
    (hg : Guarded rule E Q R Inv idle P g) {m : Move ι χ} (hok : okMove ok P m)
    (hm : M.next m P = some P') : ∃ g', Guarded rule E Q R Inv idle P' g' := by
  cases m with
  | start i c =>
    obtain ⟨hnone, hready, rfl⟩ := Machine.next_start hm
    obtain ⟨t, hinv, hR, hbody⟩ := h.start _ _ _ i c hg.inv (hg.idle i hnone) hready
    exact ⟨_, hg.update hinv hR hbody⟩
  | step i =>
    obtain ⟨c, past, a, k, r, s, hth, hstep, rfl⟩ := Machine.next_step hm
    obtain ⟨hR, W, hrule, hk⟩ := hg.rest i _ hth
    obtain ⟨t, ht, hinv⟩ := h.step _ _ _ i c a W r s hg.inv hrule (hok _ _ _ hth rfl) hstep
    exact ⟨_, hg.update hinv (h.record i c past a _ W r t hR hrule ht) (hk r t ht)⟩
  | finish i =>
    obtain ⟨c, past, v, hth, rfl⟩ := Machine.next_finish hm
    obtain ⟨hR, hQ⟩ := hg.rest i _ hth
    refine ⟨_, h.finish _ _ _ i c past v hg.inv hR hQ, fun j hj => ?_, fun j th hj => ?_⟩
    · by_cases hji : j = i
      · subst hji
        exact update_self ..
      · simp only [update_of_ne hji] at hj ⊢
        exact hg.idle j hj
    · by_cases hji : j = i
      · subst hji
        simp at hj
      · simp only [update_of_ne hji] at hj ⊢
        exact hg.rest j th hj

theorem Discipline.reach (h : Discipline M rule E Q R Inv idle ok)
    (hinit : ∃ g, Guarded rule E Q R Inv idle P g) (hr : M.Reach (okMove ok) P P') :
    ∃ g, Guarded rule E Q R Inv idle P' g := by
  induction hr with
  | refl => exact hinit
  | move m _ hok hm ih =>
    obtain ⟨g, hg⟩ := ih
    exact h.move hg hok hm

end Discipline

end Prog
