import Xv6.Pipe.Fifo

-- What piperead takes out of the pipe against what it has stored for the user.

namespace Pipes

open Lts Function

variable {ι : Type}

section Tally

-- The pipe beside the bytes that each process's call has taken out so far.
structure Tally (ι : Type) where
  state : State ι
  taken : ι → List UInt8

def removed (s s' : State ι) : List UInt8 := s.pipe.contents.take (s.pipe.count - s'.pipe.count)

variable [DecidableEq ι]

def tally : Machine (Move ι) (Tally ι) (Event ι) := fun m t =>
  (pipe m t.state).map fun r => (⟨r.1, match m with
    | .call p _ => update t.taken p []
    | .step p => update t.taken p (t.taken p ++ removed t.state r.1)
    | .kill _ => t.taken⟩, r.2)

end Tally

def inRead : Pc → Bool
  | .readAcquire _ _ | .readTop _ _ | .readSleep _ _ | .readWake _ _ | .readCopy _ _ _ | .readDone _ _ _
  | .readRelease _ _ _ => true
  | _ => false

-- Every read has taken from the pipe what it has stored for the user.
def Exact {ι : Type} [DecidableEq ι] (es : List (Event ι)) (t : Tally ι) : Prop :=
  ∀ p, inRead (t.state.pc p) = true → t.taken p = current es p

-- The byte that piperead takes, if it takes one, finds an address that copyout can write.
def lands {ι : Type} (s : State ι) : Pc → Bool
  | .readCopy dst n i => decide ((i : Int) < n → ¬s.pipe.Empty → dst i = true)
  | _ => true

def Landed {ι : Type} (s : State ι) : Move ι → Prop
  | .step p => lands s (s.pc p) = true
  | _ => True

instance {ι : Type} (s : State ι) : (m : Move ι) → Decidable (Landed s m)
  | .step p => inferInstanceAs (Decidable (lands s (s.pc p) = true))
  | .call _ _ => isTrue trivial
  | .kill _ => isTrue trivial

section Invariant

-- Where a process stands that has moved the bytes `c` and taken the bytes `k`.
def Even (c k : List UInt8) : Pc → Prop
  | .user | .closeAcquire _ | .closeMark _ | .closeWake _ | .closeRelease _ => c = []
  | .readAcquire _ _ | .readTop _ _ | .readSleep _ _ | .readWake _ _ => c = [] ∧ k = []
  | .readCopy _ _ i | .readDone _ _ i | .readRelease _ _ i => c.length = i ∧ k = c
  | _ => True

variable {s s' : State ι} {p q : ι} {c k : List UInt8} {pc : Pc} {es : List (Event ι)}

theorem Even.exact (h : Even c k pc) (hr : inRead pc = true) : k = c := by
  cases pc with
  | readAcquire | readTop | readSleep | readWake => rw [h.1, h.2]
  | readCopy | readDone | readRelease => exact h.2
  | _ => cases hr

theorem removed_same (h : s'.pipe.toRingBuffer = s.pipe.toRingBuffer) : removed s s' = [] := by
  unfold removed
  rw [h, Nat.sub_self, List.take_zero]

theorem removed_pop (hring : s'.pipe.toRingBuffer = s.pipe.pop) (hne : ¬s.pipe.Empty) : removed s s' = [s.pipe.head] := by
  have hcount : s.pipe.count ≠ 0 := fun h => hne (RingBuffer.empty_iff.mpr h)
  have hpop : s.pipe.pop.count = s.pipe.count - 1 := RingBuffer.count_pop hcount
  unfold removed
  rw [hring, hpop, RingBuffer.contents_pop hcount, show s.pipe.count - (s.pipe.count - 1) = 1 by omega, List.take_succ_cons,
    List.take_zero]

variable [DecidableEq ι]

theorem step_others (hm : pipe (.step p) s = some (s', es)) (hq : q ≠ p) :
    s'.pc q = s.pc q ∧ ∀ c, es.foldl (currentNext q) c = c := by
  cases hpc : s.pc p <;> simp only [pipe, hpc, awake, acquire, leave] at hm <;> (repeat' split at hm) <;> cases hm <;>
    simp [update_of_ne hq, currentNext, hq.symm]

-- A step does nothing to the pipe, puts one byte in, or takes one out, which is stored or lost.
theorem step_turn (hm : pipe (.step p) s = some (s', es)) : (s'.pipe.toRingBuffer = s.pipe.toRingBuffer ∧
      ∀ c k, Even c k (s.pc p) → Even (es.foldl (currentNext p) c) k (s'.pc p)) ∨
    (∃ src n i ch, s.pc p = .writeBody src n i ∧ ¬s.pipe.Full ∧ s'.pipe.toRingBuffer = s.pipe.push ch ∧
      s'.pc p = .writeTop src n (i + 1)) ∨
    ∃ dst n i, s.pc p = .readCopy dst n i ∧ (i : Int) < n ∧ ¬s.pipe.Empty ∧ s'.pipe.toRingBuffer = s.pipe.pop ∧
      (dst i = true ∧ es = [.deliver p s.pipe.head] ∧ s'.pc p = .readCopy dst n (i + 1) ∨
        dst i = false ∧ es = [] ∧ s'.pc p = .readDone dst n i) := by
  cases hpc : s.pc p with
  | writeBody src n i =>
    simp only [pipe, hpc] at hm
    split at hm
    · cases hm
      exact .inl ⟨rfl, fun c k _ => by simp [Even]⟩
    · next hfull =>
      split at hm
      · cases hm
        exact .inl ⟨rfl, fun c k _ => by simp [Even]⟩
      · next ch _ =>
        cases hm
        exact .inr (.inl ⟨src, n, i, ch, rfl, hfull, rfl, by simp⟩)
  | readCopy dst n i =>
    simp only [pipe, hpc] at hm
    split at hm
    · next hcond =>
      refine .inr (.inr ⟨dst, n, i, rfl, hcond.1, hcond.2, ?_⟩)
      split at hm
      · next hdst =>
        cases hm
        exact ⟨rfl, .inl ⟨hdst, rfl, by simp⟩⟩
      · next hdst =>
        cases hm
        exact ⟨rfl, .inr ⟨by simpa using hdst, rfl, by simp⟩⟩
    · cases hm
      exact .inl ⟨rfl, fun c k h => by simpa [Even] using h⟩
  | closeMark writable =>
    simp only [pipe, hpc] at hm
    cases hm
    refine .inl ⟨?_, fun c k h => by simpa [Even] using h⟩
    cases writable <;> rfl
  | readTop dst n =>
    simp only [pipe, hpc, leave] at hm
    (repeat' split at hm) <;> cases hm <;> refine .inl ⟨rfl, fun c k h => ?_⟩
    · simp [Even, currentNext]
    · simpa [Even] using h
    · simp [Even, h.1, h.2]
  | writeAcquire | writeTop | writeSleep | writeWake | writeDone | writeRelease | readRelease =>
    simp only [pipe, hpc, awake, acquire, leave] at hm
    (repeat' split at hm) <;> cases hm <;> exact .inl ⟨rfl, fun c k _ => by simp [Even, currentNext]⟩
  | user | readAcquire | readSleep | readWake | readDone | closeAcquire | closeWake | closeRelease =>
    simp only [pipe, hpc, awake, acquire, leave] at hm
    (repeat' split at hm) <;> cases hm <;> exact .inl ⟨rfl, fun c k h => by simpa [Even] using h⟩

variable {t t' : Tally ι} {m : Move ι} {es' : List (Event ι)}

theorem current_append (es es' : List (Event ι)) (p : ι) :
    current (es ++ es') p = es'.foldl (currentNext p) (current es p) := List.foldl_append ..

theorem tally_inv (hm : tally m t = some (t', es')) : pipe m t.state = some (t'.state, es') := by
  obtain ⟨r, hr, he⟩ := Option.map_eq_some_iff.mp hm
  cases he
  exact hr

theorem tally_step (hm : tally (.step p) t = some (t', es')) :
    t'.taken = update t.taken p (t.taken p ++ removed t.state t'.state) := by
  obtain ⟨r, hr, he⟩ := Option.map_eq_some_iff.mp hm
  cases he
  rfl

-- The pipe holds at most PIPESIZE bytes, and every process is even.
structure Level (es : List (Event ι)) (t : Tally ι) : Prop where
  count : t.state.pipe.count ≤ PIPESIZE
  even : ∀ p, Even (current es p) (t.taken p) (t.state.pc p)

section

variable (h : Level es t)

include h

theorem Level.exact : Exact es t := fun p hr => (h.even p).exact hr

theorem Level.step (hland : Landed t.state (.step p)) (hm : tally (.step p) t = some (t', es')) :
    Level (es ++ es') t' := by
  have hpipe := tally_inv hm
  have htaken := tally_step hm
  have hat := h.even p
  have hsize : PIPESIZE = 512 := rfl
  have hself : t'.state.pipe.count ≤ PIPESIZE ∧ Even (es'.foldl (currentNext p) (current es p))
      (t.taken p ++ removed t.state t'.state) (t'.state.pc p) := by
    rcases step_turn hpipe with ⟨hring, heven⟩ | ⟨src, n, i, ch, hpc, hfull, hring, hnext⟩ |
      ⟨dst, n, i, hpc, hlt, hne, hring, hcase⟩
    · rw [removed_same hring, List.append_nil]
      exact ⟨hring ▸ h.count, heven _ _ hat⟩
    · have hlt : t.state.pipe.count ≠ PIPESIZE := fun he => hfull ((RingBuffer.full_iff (by decide)).mpr he)
      have hpush : (t.state.pipe.push ch).count = t.state.pipe.count + 1 := RingBuffer.count_push (by
        have hle := h.count
        omega)
      have hle := h.count
      rw [hring, hpush, hnext]
      exact ⟨by omega, trivial⟩
    · have hdst : dst i = true := by
        rw [Landed, hpc] at hland
        exact of_decide_eq_true hland hlt hne
      have hpop : t.state.pipe.pop.count = t.state.pipe.count - 1 :=
        RingBuffer.count_pop fun he => hne (RingBuffer.empty_iff.mpr he)
      have hle := h.count
      rw [hring, hpop, removed_pop hring hne]
      refine ⟨by omega, ?_⟩
      rw [hpc] at hat
      obtain ⟨hlen, heq⟩ := hat
      rcases hcase with ⟨-, he, hnext⟩ | ⟨hfault, -⟩
      · rw [hnext, he, heq]
        simp [Even, currentNext, hlen]
      · rw [hdst] at hfault
        cases hfault
  refine ⟨hself.1, fun q => ?_⟩
  rw [current_append, htaken]
  by_cases hq : q = p
  · rw [hq, update_self]
    exact hself.2
  · obtain ⟨hpc, hev⟩ := step_others hpipe hq
    rw [update_of_ne hq, hpc, hev]
    exact h.even q

theorem Level.move (hland : Landed t.state m) (hm : tally m t = some (t', es')) : Level (es ++ es') t' := by
  cases m with
  | step p => exact h.step hland hm
  | kill p =>
    cases hm
    rw [List.append_nil]
    exact ⟨h.count, h.even⟩
  | call p c =>
    obtain ⟨r, hr, he⟩ := Option.map_eq_some_iff.mp hm
    simp only [pipe] at hr
    split at hr
    · next hu =>
      cases hr
      cases he
      rw [List.append_nil]
      refine ⟨h.count, fun q => ?_⟩
      by_cases hq : q = p
      · have hat := h.even p
        rw [hu] at hat
        have hnil : current es p = [] := hat
        rw [hq]
        cases c <;> simp [begin, Even, hnil]
      · simpa [update_of_ne hq] using h.even q
    · cases hr

-- A byte that does not land is gone.
theorem Level.lost (hland : ¬Landed t.state m) (hm : tally m t = some (t', es')) :
    ¬Exact (es ++ es') t' := by
  cases m with
  | call p c | kill p => exact absurd trivial hland
  | step p =>
    intro hexact
    have hpipe := tally_inv hm
    have htaken := tally_step hm
    obtain ⟨dst, n, i, hpc, hlt, hne, hdst⟩ : ∃ dst n i, t.state.pc p = .readCopy dst n i ∧ (i : Int) < n ∧
        ¬t.state.pipe.Empty ∧ dst i ≠ true := by
      cases hpc : t.state.pc p with
      | readCopy dst n i =>
        rw [Landed, hpc] at hland
        have hfault : ¬((i : Int) < n → ¬t.state.pipe.Empty → dst i = true) := fun h => hland (decide_eq_true h)
        push Not at hfault
        exact ⟨dst, n, i, rfl, hfault⟩
      | _ =>
        rw [Landed, hpc] at hland
        exact absurd rfl hland
    have hat := h.even p
    rw [hpc] at hat
    simp only [pipe, hpc, if_pos (And.intro hlt hne), if_neg hdst] at hpipe
    obtain ⟨hs, rfl⟩ := Prod.mk.inj (Option.some.inj hpipe)
    have hring : t'.state.pipe.toRingBuffer = t.state.pipe.pop := by rw [← hs]; rfl
    have hin : inRead (t'.state.pc p) = true := by
      rw [← hs]
      simp [inRead]
    have hsame := hexact p hin
    rw [List.append_nil, htaken, update_self, removed_pop hring hne, hat.2] at hsame
    simp at hsame

theorem Level.returns (hm : tally m t = some (t', es')) {dst : Nat → Bool} {n r : Int}
    (hret : .ret p (.read dst n) r ∈ es') : r = -1 ∧ t.taken p = [] ∨ r = (t.taken p).length := by
  have hat := h.even p
  rcases ret_read_inv (tally_inv hm) hret with ⟨hr, hpc⟩ | ⟨i, hr, hpc⟩
  · rw [hpc] at hat
    exact .inl ⟨hr, hat.2⟩
  · rw [hpc] at hat
    rw [hat.2, hat.1]
    exact .inr hr

end

end Invariant

section Main

variable [DecidableEq ι]

-- In any run whose reads lose no byte to a fault, a read has taken what it has stored and returned.
-- The first step that does not land its byte ends this.
theorem piperead_exact (s : State ι) (hidle : Idle s) (hcount : s.pipe.count ≤ PIPESIZE) (es : List (Event ι)) (t : Tally ι)
    (hr : Run tally (fun _ t m => Landed t.state m) ⟨s, fun _ => []⟩ es t) :
    Exact es t ∧ ∀ m t' es', tally m t = some (t', es') →
      (∀ (p : ι) (dst : Nat → Bool) (n r : Int), .ret p (.read dst n) r ∈ es' → r = -1 ∧ t.taken p = [] ∨ r = (t.taken p).length) ∧
      (Exact (es ++ es') t' ↔ Landed t.state m) := by
  have hlevel : Level es t := by
    refine hr.inv (I := Level) ⟨hcount, fun p => ?_⟩ fun _ _ _ _ _ h hland hm => h.move hland hm
    rw [hidle.pc p]
    rfl
  refine ⟨hlevel.exact, fun m t' es' hm => ⟨fun p dst n r hret => hlevel.returns hm hret, ?_, fun hland =>
    (hlevel.move hland hm).exact⟩⟩
  intro hexact
  by_contra hland
  exact hlevel.lost hland hm hexact

end Main

def twoBytes : State Bool :=
  ⟨⟨⟨fun i => if i = 0 then 7 else 8, 0, 2⟩, true, true⟩, none, fun _ => false, fun _ => none, fun _ => .user⟩

theorem piperead_exact_mapped : ∃ es t, Run tally (fun _ t m => Landed t.state m) ⟨twoBytes, fun _ => []⟩ es t ∧
    delivered es = [7] ∧ t.taken true = [7] ∧ Exact es t := by
  have hrun : (exec tally (fun _ t m => Landed t.state m) (wholeCall true (.read (fun _ => true) 1) 5) []
      ⟨twoBytes, fun _ => []⟩).map (fun r => (delivered r.1, r.2.taken true)) = some ([7], [7]) := by
    decide
  obtain ⟨es, t, hr, hes⟩ := run_of_map hrun
  obtain ⟨hes, htaken⟩ := Prod.mk.inj hes
  exact ⟨es, t, hr, hes, htaken, (piperead_exact twoBytes ⟨rfl, fun _ => rfl⟩ (by decide) es t hr).1⟩

-- Only the first of two bytes can be stored. The read returns 1, and both are gone from the pipe.
theorem not_piperead_exact : ∃ es t t', Run tally (fun _ _ _ => True) ⟨twoBytes, fun _ => []⟩ es t ∧
    delivered es = [7] ∧ t.taken true = [7, 8] ∧ t.state.pipe.contents = [] ∧ ¬Exact es t ∧
    tally (.step true) t = some (t', [.ret true (.read (fun i => decide (i = 0)) 2) 1]) := by
  have hrun : ∀ es t, exec tally (fun _ _ _ => True) (wholeCall true (.read (fun i => decide (i = 0)) 2) 5) []
      ⟨twoBytes, fun _ => []⟩ = some (es, t) → Run tally (fun _ _ _ => True) ⟨twoBytes, fun _ => []⟩ es t :=
    fun es t h => run_of_exec .nil h
  refine ⟨_, _, _, hrun _ _ rfl, by decide, by decide, by decide, fun h => ?_, rfl⟩
  have hsame := h true rfl
  revert hsame
  decide

end Pipes
