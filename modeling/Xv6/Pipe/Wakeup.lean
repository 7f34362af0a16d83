import Xv6.Pipe

-- Who sleeps on a pipe has a reason to.

namespace Pipes

open Lts

-- What a process waits for is not there.
def Settled (pi : Pipe) : Chan → Prop
  | .nread => pi.Empty ∧ pi.writeopen = true
  | .nwrite => pi.Full ∧ pi.readopen = true

instance (pi : Pipe) : (chan : Chan) → Decidable (Settled pi chan)
  | .nread => inferInstanceAs (Decidable (_ ∧ _))
  | .nwrite => inferInstanceAs (Decidable (_ ∧ _))

-- The channel on which a process that has the lock has yet to call wakeup.
def owed : Pc → Option Chan
  | .writeTop _ _ _ | .writeBody _ _ _ | .writeDone _ _ _ => some .nread
  | .readCopy _ _ _ | .readDone _ _ _ => some .nwrite
  | .closeWake writable => some (if writable then .nread else .nwrite)
  | _ => none

variable {ι : Type} {es : List (Event ι)}

def Rested (s : State ι) : Prop := s.lock = none → ∀ p chan, s.sleeping p = some chan → Settled s.pipe chan

-- A pipewrite that gives up leaves no reader asleep that has something to read.
def Announced (s : State ι) : Move ι → Prop
  | .step p =>
    match s.pc p with
    | .writeTop _ n i => (i : Int) < n → s.pipe.readopen = false ∨ s.killed p = true →
      ∀ q, s.sleeping q = some .nread → Settled s.pipe .nread
    | _ => True
  | .call _ _ | .kill _ => True

instance [Fintype ι] (s : State ι) (m : Move ι) : Decidable (Announced s m) := by
  unfold Announced
  split
  · split <;> infer_instance
  · infer_instance
  · infer_instance

-- What a process has where it stands: the lock, and what it has seen under it.
def Poised (s : State ι) (p : ι) : Pc → Prop
  | .user | .writeAcquire _ _ | .readAcquire _ _ | .closeAcquire _ => s.sleeping p = none
  | .writeWake _ _ _ | .readWake _ _ => True
  | .writeBody _ _ _ => s.lock = some p ∧ s.sleeping p = none ∧ s.pipe.readopen = true
  | .writeSleep _ _ _ => s.lock = some p ∧ s.sleeping p = none ∧ Settled s.pipe .nwrite
  | .readSleep _ _ => s.lock = some p ∧ s.sleeping p = none ∧ Settled s.pipe .nread
  | .writeTop _ _ _ | .writeDone _ _ _ | .writeRelease _ _ _ | .readTop _ _ | .readCopy _ _ _ | .readDone _ _ _
  | .readRelease _ _ _ | .closeMark _ | .closeWake _ | .closeRelease _ => s.lock = some p ∧ s.sleeping p = none

structure Watched (s : State ι) : Prop where
  stand : ∀ p, Poised s p (s.pc p)
  asleep : ∀ p chan, s.sleeping p = some chan → Settled s.pipe chan ∨ ∃ q, s.lock = some q ∧ owed (s.pc q) = some chan

section Steps

variable {s s' : State ι} {p q : ι} {pc : Pc} {chan : Chan}

theorem Poised.keep (h : Poised s q pc) (hk : s.lock = some q → s'.lock = some q ∧ s'.pipe = s.pipe)
    (hs : s.sleeping q = none → s'.sleeping q = none) : Poised s' q pc := by
  cases pc with
  | user | writeAcquire | readAcquire | closeAcquire => exact hs h
  | writeWake | readWake => trivial
  | writeBody | writeSleep | readSleep =>
    obtain ⟨hl, hsl, hpi⟩ := h
    obtain ⟨hl', hpi'⟩ := hk hl
    simp only [Poised, hpi']
    exact ⟨hl', hs hsl, hpi⟩
  | _ => exact ⟨(hk h.1).1, hs h.2⟩

theorem Watched.rested (hw : Watched s) : Rested s := by
  intro hl p chan hp
  rcases hw.asleep p chan hp with h | ⟨q, hq, -⟩
  · exact h
  · rw [hl] at hq
    cases hq

-- Under the lock, everyone who sleeps has a reason to unless there is a wakeup still to be made.
theorem Watched.settled (hw : Watched s) (hl : s.lock = some p) (ho : owed (s.pc p) ≠ some chan)
    (hq : s.sleeping q = some chan) : Settled s.pipe chan := by
  rcases hw.asleep q chan hq with h | ⟨w, hlw, how⟩
  · exact h
  · rw [hl] at hlw
    cases hlw
    exact absurd how ho

theorem Watched.step (hw : Watched s) (ho : Others p s s')
    (hs : ∀ q, q ≠ p → s'.sleeping q = s.sleeping q ∨ s'.sleeping q = none) (hp : Poised s' p (s'.pc p))
    (ha : ∀ q chan, s'.sleeping q = some chan → Settled s'.pipe chan ∨ ∃ w, s'.lock = some w ∧ owed (s'.pc w) = some chan) :
    Watched s' := by
  refine ⟨fun q => ?_, ha⟩
  by_cases hq : q = p
  · rw [hq]
    exact hp
  rw [(ho q hq).1]
  refine (hw.stand q).keep (ho q hq).2 fun hn => ?_
  rcases hs q hq with h | h
  · exact h.trans hn
  · exact h

variable [DecidableEq ι]

section

variable (hw : Watched s) (hl : s.lock = some p)

include hw hl

theorem Watched.goto (hp : Poised (s.goto p pc) p pc)
    (hd : ∀ chan, owed (s.pc p) = some chan → owed pc = some chan) : Watched (s.goto p pc) := by
  refine hw.step (others_of_same rfl rfl rfl) (fun _ _ => .inl rfl) (by simpa using hp) ?_
  intro q chan hq
  rcases hw.asleep q chan hq with h | ⟨w, hlw, how⟩
  · exact .inl h
  · rw [hl] at hlw
    cases hlw
    exact .inr ⟨p, hl, by simpa using hd chan how⟩

theorem Watched.wakeup (hsl : s.sleeping p = none)
    (hp : Poised ((s.wakeup p chan).goto p pc) p pc) (hd : ∀ c, c ≠ chan → owed (s.pc p) ≠ some c) :
    Watched ((s.wakeup p chan).goto p pc) := by
  refine hw.step (others_of_same rfl rfl rfl) ?_ (by simpa using hp) ?_
  · intro q hq
    by_cases hc : s.sleeping q = some chan
    · exact .inr (by simp [hq, hc])
    · exact .inl (by simp [hc])
  intro q c hq
  have hqs : s.sleeping q = some c ∧ c ≠ chan := by
    by_cases hqp : q = p
    · subst hqp
      simp [hsl] at hq
    · by_cases hc : s.sleeping q = some chan
      · simp [hqp, hc] at hq
      · have hq' : s.sleeping q = some c := by simpa [hc] using hq
        exact ⟨hq', fun e => hc (e ▸ hq')⟩
  exact .inl (hw.settled hl (hd c hqs.2) hqs.1)

theorem Watched.leave (hsl : s.sleeping p = none)
    (hd : ∀ q chan, s.sleeping q = some chan → Settled s.pipe chan) : Watched ((s.setLock none).goto p .user) := by
  refine hw.step (others_of_lock (.inl hl) rfl) (fun _ _ => .inl rfl) ?_ fun q chan hq => .inl (hd q chan hq)
  simpa [Poised] using hsl

theorem Watched.sleep (hsettled : Settled s.pipe chan)
    (hd : owed (s.pc p) = none) (hp : ∀ s, Poised s p pc) : Watched ((s.sleep p chan).goto p pc) := by
  refine hw.step (others_of_lock (.inl hl) rfl) ?_ (by simpa using hp _) ?_
  · intro q hq
    exact .inl (by simp [hq])
  intro q c hq
  by_cases hqp : q = p
  · subst hqp
    have hc : chan = c := by simpa using hq
    exact .inl (hc ▸ hsettled)
  · have hq' : s.sleeping q = some c := by simpa [hqp] using hq
    exact .inl (hw.settled hl (by simp [hd]) hq')

end

variable {r : State ι × List (Event ι)}

section

variable (hw : Watched s)

include hw

theorem Watched.acquire (hm : acquire s p pc = some r)
    (hp : Poised ((s.setLock (some p)).goto p pc) p pc) : Watched r.1 := by
  unfold Pipes.acquire at hm
  cases hl : s.lock with
  | some q => simp [hl] at hm
  | none =>
    rw [hl] at hm
    cases hm
    refine hw.step (others_of_lock (.inr hl) rfl) (fun _ _ => .inl rfl) (by simpa using hp) ?_
    intro q chan hq
    exact .inl (hw.rested hl q chan hq)

theorem Watched.awake (hm : awake s p pc = some r)
    (hp : s.sleeping p = none → Poised ((s.setLock (some p)).goto p pc) p pc) : Watched r.1 := by
  unfold Pipes.awake at hm
  cases hs : s.sleeping p with
  | some chan => simp [hs] at hm
  | none =>
    rw [hs] at hm
    exact hw.acquire hm (hp hs)

theorem Watched.setPipe (hl : s.lock = some p) {pi : Pipe}
    (hp : Poised ((s.setPipe pi).goto p pc) p pc)
    (hd : ∀ q chan, s.sleeping q = some chan → owed pc = some chan ∨ Settled pi chan) :
    Watched ((s.setPipe pi).goto p pc) := by
  refine hw.step (others_of_lock (.inl hl) rfl) (fun _ _ => .inl rfl) (by simpa using hp) ?_
  intro q chan hq
  rcases hd q chan hq with h | h
  · exact .inr ⟨p, hl, by simpa using h⟩
  · exact .inl h

variable {src : Nat → Option UInt8}

variable {i : Nat} {n : Int} {m : Move ι}

theorem Watched.write (hok : Announced s (.step p)) (hm : pipe (.step p) s = some r)
    (hpc : s.pc p = .writeTop src n i) : Watched r.1 := by
  have hat := hw.stand p
  rw [hpc] at hat
  obtain ⟨hl, hsl⟩ := hat
  simp only [Announced, hpc] at hok
  simp only [pipe, hpc] at hm
  split at hm
  · next hi =>
    split at hm
    · next hcut =>
      cases hm
      refine hw.leave hl hsl fun q chan hq => ?_
      cases chan with
      | nread => exact hok hi hcut q hq
      | nwrite => exact hw.settled hl (by simp [hpc, owed]) hq
    · next hopen =>
      cases hm
      refine hw.goto hl ⟨hl, hsl, ?_⟩ (by simp [hpc, owed])
      simpa using fun h => hopen (.inl h)
  · cases hm
    exact hw.goto hl ⟨hl, hsl⟩ (by simp [hpc, owed])

theorem Watched.body (hm : pipe (.step p) s = some r)
    (hpc : s.pc p = .writeBody src n i) : Watched r.1 := by
  have hat := hw.stand p
  rw [hpc] at hat
  obtain ⟨hl, hsl, hopen⟩ := hat
  simp only [pipe, hpc] at hm
  split at hm
  · next hfull =>
    cases hm
    refine hw.wakeup hl hsl ⟨hl, by simp [hsl], hfull, hopen⟩ fun c hc => ?_
    simpa [hpc, owed] using hc.symm
  · next hfull =>
    cases hs : src i with
    | none =>
      rw [hs] at hm
      cases hm
      exact hw.goto hl ⟨hl, hsl⟩ (by simp [hpc, owed])
    | some ch =>
      rw [hs] at hm
      cases hm
      refine hw.setPipe hl ⟨hl, hsl⟩ fun q chan hq => ?_
      cases chan with
      | nread => exact .inl rfl
      | nwrite =>
        have hsettled : Settled s.pipe .nwrite := hw.settled hl (by simp [hpc, owed]) hq
        exact absurd hsettled.1 hfull

theorem Watched.copy (hm : pipe (.step p) s = some r) {dst : Nat → Bool}
    (hpc : s.pc p = .readCopy dst n i) : Watched r.1 := by
  have hat := hw.stand p
  rw [hpc] at hat
  obtain ⟨hl, hsl⟩ := hat
  have hpop : ∀ pc, (∀ s, s.lock = some p → s.sleeping p = none → Poised s p pc) → owed pc = some .nwrite →
      ¬s.pipe.Empty → Watched ((s.setPipe { s.pipe with toRingBuffer := s.pipe.pop }).goto p pc) := by
    intro pc hp ho hne
    refine hw.setPipe hl (hp _ hl hsl) fun q chan hq => ?_
    cases chan with
    | nwrite => exact .inl ho
    | nread =>
      have hsettled : Settled s.pipe .nread := hw.settled hl (by simp [hpc, owed]) hq
      exact absurd hsettled.1 hne
  simp only [pipe, hpc] at hm
  split at hm
  · next hcond =>
    split at hm
    · cases hm
      exact hpop _ (fun _ => And.intro) rfl hcond.2
    · cases hm
      exact hpop _ (fun _ => And.intro) rfl hcond.2
  · cases hm
    exact hw.goto hl ⟨hl, hsl⟩ (by simp [hpc, owed])

theorem Watched.next (hok : Announced s (.step p)) (hm : pipe (.step p) s = some r) : Watched r.1 := by
  have hat := hw.stand p
  have hstep := hm
  simp only [pipe] at hstep
  generalize hpc : s.pc p = pc at hat hstep
  cases pc with
  | writeTop src n i => exact hw.write hok hm hpc
  | writeBody src n i => exact hw.body hm hpc
  | readCopy dst n i => exact hw.copy hm hpc
  | user => cases hstep
  | writeAcquire src n | readAcquire dst n | closeAcquire writable => exact hw.acquire hstep ⟨rfl, hat⟩
  | writeWake src n i | readWake dst n => exact hw.awake hstep fun hs => ⟨rfl, hs⟩
  | writeSleep src n i | readSleep dst n =>
    cases hstep
    exact hw.sleep hat.1 hat.2.2 (by simp [hpc, owed]) fun _ => trivial
  | writeDone src n i | readDone dst n i | closeWake writable =>
    cases hstep
    refine hw.wakeup hat.1 hat.2 ⟨hat.1, by simp [hat.2]⟩ fun c hc => ?_
    simpa [hpc, owed] using hc.symm
  | writeRelease src n i | readRelease dst n i | closeRelease writable =>
    cases hstep
    exact hw.leave hat.1 hat.2 fun q chan hq => hw.settled hat.1 (by simp [hpc, owed]) hq
  | readTop dst n =>
    obtain ⟨hl, hsl⟩ := hat
    simp only at hstep
    split at hstep
    · next hcond =>
      split at hstep
      · cases hstep
        exact hw.leave hl hsl fun q chan hq => hw.settled hl (by simp [hpc, owed]) hq
      · cases hstep
        exact hw.goto hl ⟨hl, hsl, hcond⟩ (by simp [hpc, owed])
    · cases hstep
      exact hw.goto hl ⟨hl, hsl⟩ (by simp [hpc, owed])
  | closeMark writable =>
    obtain ⟨hl, hsl⟩ := hat
    cases hstep
    refine hw.setPipe hl ⟨hl, hsl⟩ fun q chan hq => ?_
    have hsettled : Settled s.pipe chan := hw.settled hl (by simp [hpc, owed]) hq
    cases writable <;> cases chan
    · exact .inr hsettled
    · exact .inl rfl
    · exact .inl rfl
    · exact .inr hsettled

theorem Watched.move (hok : Announced s m)
    (hm : pipe m s = some (s', es)) : Watched s' := by
  cases m with
  | step p => exact hw.next hok hm
  | call p c =>
    simp only [pipe] at hm
    split at hm
    · next hu =>
      cases hm
      have hat := hw.stand p
      rw [hu] at hat
      refine hw.step (others_of_same rfl rfl rfl) (fun _ _ => .inl rfl) ?_ ?_
      · cases c <;> simpa [begin, Poised] using hat
      intro q chan hq
      rcases hw.asleep q chan hq with h | ⟨w, hlw, how⟩
      · exact .inl h
      have hwp : w ≠ p := by
        intro e
        rw [e, hu] at how
        cases how
      exact .inr ⟨w, hlw, by simpa [hwp] using how⟩
    · cases hm
  | kill p =>
    cases hm
    refine ⟨fun q => (hw.stand q).keep (fun h => ⟨h, rfl⟩) fun hn => ?_, fun q chan hq => ?_⟩
    · by_cases hq : q = p <;> simp [hq, hn]
    · by_cases hqp : q = p
      · simp [hqp] at hq
      · exact hw.asleep q chan (by simpa [hqp] using hq)

end

theorem not_rested_of_not_announced (hm : pipe m s = some (s', es))
    (hna : ¬Announced s m) : ¬Rested s' := by
  cases m with
  | call p c | kill p => exact absurd trivial hna
  | step p =>
    simp only [Announced] at hna
    cases hpc : s.pc p with
    | writeTop src n i =>
      simp only [hpc] at hna
      push Not at hna
      obtain ⟨hi, hcut, q, hq, hns⟩ := hna
      simp only [pipe, hpc, hi, hcut, if_true] at hm
      cases hm
      exact fun hrest => hns (hrest rfl q .nread hq)
    | _ => simp [hpc] at hna

end Steps

section Main

variable [DecidableEq ι] {s t : State ι}

-- As long as no pipewrite gives up with a reader asleep that has something to read, whoever sleeps
-- has a reason to while the lock is free.
theorem pipe_no_lost_wakeup (hidle : Idle s) (hawake : ∀ p, s.sleeping p = none)
    (hr : Run pipe (fun _ s m => Announced s m) s es t) :
    Rested t ∧ ∀ m t' es', pipe m t = some (t', es') → (Rested t' ↔ Announced t m) := by
  have hw : Watched t := by
    refine hr.inv (I := fun _ t => Watched t) ⟨fun p => ?_, fun p chan hp => ?_⟩ ?_
    · rw [hidle.pc p]
      exact hawake p
    · rw [hawake p] at hp
      cases hp
    · intro es t m t' es' hw hok hm
      exact hw.move hok hm
  refine ⟨hw.rested, fun m t' es' hm => ⟨fun hrest => ?_, fun hok => (hw.move hok hm).rested⟩⟩
  by_contra hna
  exact not_rested_of_not_announced hm hna hrest

end Main

def fresh : State Bool :=
  ⟨⟨⟨fun _ => 0, 0, 0⟩, true, true⟩, none, fun _ => false, fun _ => none, fun _ => .user⟩

theorem pipe_no_lost_wakeup_read : ∃ es t, Run pipe (fun _ s m => Announced s m) fresh es t ∧
    t.sleeping true = some .nread ∧ Rested t := by
  have hrun : (exec pipe (fun _ s m => Announced s m) (wholeCall true (.read (fun _ => true) 1) 3) [] fresh).map
      (fun r => r.2.sleeping true) = some (some .nread) := by
    decide
  obtain ⟨es, t, hr, hs⟩ := run_of_map hrun
  exact ⟨es, t, hr, hs, (pipe_no_lost_wakeup ⟨rfl, fun _ => rfl⟩ (fun _ => rfl) hr).1⟩

-- A reader sleeps on the empty pipe. A writer stores the first of its two bytes,
-- is killed, and gives up: the pipe has a byte, and the reader sleeps on.
theorem not_pipe_no_lost_wakeup : ∃ es t, Run pipe (fun _ _ _ => True) fresh es t ∧ ¬Rested t := by
  have hrun : (exec pipe (fun _ _ _ => True)
      (wholeCall true (.read (fun _ => true) 1) 3 ++ wholeCall false (.write (fun _ => some 7) 2) 3 ++
        [.kill false, .step false]) [] fresh).map
          (fun r => (r.2.lock, r.2.sleeping true, decide r.2.pipe.Empty)) = some (none, some .nread, false) := by
    decide
  obtain ⟨es, t, hr, ht⟩ := run_of_map hrun
  simp only [Prod.mk.injEq, decide_eq_false_iff_not] at ht
  obtain ⟨hl, hs, hne⟩ := ht
  exact ⟨es, t, hr, fun hrest => hne (hrest hl true .nread hs).1⟩

end Pipes
