import Xv6.Pipe

-- The bytes that come out of a pipe are those that went in.

namespace Pipes

open Lts List Function

variable {ι : Type} {es : List (Event ι)}

section Ghost

def accepted (es : List (Event ι)) : List UInt8 :=
  es.filterMap fun | .accept _ ch => some ch | _ => none

def delivered (es : List (Event ι)) : List UInt8 :=
  es.filterMap fun | .deliver _ ch => some ch | _ => none

variable [DecidableEq ι]

def currentNext (p : ι) (c : List UInt8) : Event ι → List UInt8
  | .accept q ch => if q = p then c ++ [ch] else c
  | .deliver q ch => if q = p then c ++ [ch] else c
  | .ret q _ _ => if q = p then [] else c

-- The bytes that a process has moved since its last call returned.
def current (es : List (Event ι)) (p : ι) : List UInt8 := es.foldl (currentNext p) []

-- A call's result tells which bytes it has moved: a write those at the start of
-- its buffer, and a read that returns -1 none.
def Honest (c : ι → List UInt8) : Event ι → Prop
  | .accept _ _ | .deliver _ _ => True
  | .ret p (.write src _) r => (c p).map some = (List.range (c p).length).map src ∧ (r ≠ -1 → r = (c p).length)
  | .ret p (.read _ _) r => if r = -1 then c p = [] else r = (c p).length
  | .ret _ (.close _) _ => True

end Ghost

attribute [local simp] currentNext delivered accepted

def Mapped : {ι : Type} → Move ι → Prop
  | _, .call _ (.read dst n) => ∀ i : Nat, (i : Int) < n → dst i = true
  | _, .call _ (.write _ _) => True
  | _, .call _ (.close _) => True
  | _, .step _ => True
  | _, .kill _ => True

instance {ι : Type} : (m : Move ι) → Decidable (Mapped m)
  | .call _ (.read dst n) =>
    decidable_of_iff (∀ i, i < n.toNat → dst i = true)
      ⟨fun h i hi => h i (by omega), fun h i hi => h i (by omega)⟩
  | .call _ (.write _ _) => isTrue trivial
  | .call _ (.close _) => isTrue trivial
  | .step _ => isTrue trivial
  | .kill _ => isTrue trivial

section Invariant

variable [DecidableEq ι]

-- What a process can rely on where it stands, having moved the bytes `c`.
def At (c : List UInt8) (s : State ι) (p : ι) : Pc → Prop
  | .user => c = []
  | .writeAcquire _ _ => c = []
  | .writeTop src _ i | .writeBody src _ i | .writeSleep src _ i | .writeDone src _ i | .writeRelease src _ i =>
    s.lock = some p ∧ c.map some = (List.range i).map src
  | .writeWake src _ i => c.map some = (List.range i).map src
  | .readAcquire dst n | .readWake dst n => c = [] ∧ Mapped (.call p (.read dst n))
  | .readTop dst n | .readSleep dst n => s.lock = some p ∧ c = [] ∧ Mapped (.call p (.read dst n))
  | .readCopy dst n i => s.lock = some p ∧ c.length = i ∧ Mapped (.call p (.read dst n)) ∧
    (i = 0 → s.pipe.Empty → s.pipe.writeopen = false)
  | .readDone _ n i | .readRelease _ n i => s.lock = some p ∧ c.length = i ∧
    (i = 0 → 0 < n → s.pipe.Empty ∧ s.pipe.writeopen = false)
  | .closeAcquire _ => c = []
  | .closeMark _ | .closeWake _ | .closeRelease _ => s.lock = some p ∧ c = []

structure Flow (start : List UInt8) (es : List (Event ι)) (s : State ι) : Prop where
  count : s.pipe.count ≤ PIPESIZE
  fifo : delivered es ++ s.pipe.contents = start ++ accepted es
  stand : ∀ p, At (current es p) s p (s.pc p)
  honest : Always (fun before e => Honest (current before) e) es

end Invariant

section Steps

variable {c : List UInt8} {s s' : State ι} {p q : ι} {pc : Pc}

theorem At.keep (h : At c s q pc) (hk : s.lock = some q → s'.lock = some q ∧ s'.pipe = s.pipe) : At c s' q pc := by
  cases pc with
  | user | writeAcquire | writeWake | readAcquire | readWake | closeAcquire => exact h
  | writeTop | writeBody | writeSleep | writeDone | writeRelease => exact ⟨(hk h.1).1, h.2⟩
  | readTop | readSleep | closeMark | closeWake | closeRelease => exact ⟨(hk h.1).1, h.2⟩
  | readCopy | readDone | readRelease =>
    obtain ⟨hl, hpi⟩ := hk h.1
    simp only [At, hpi]
    exact ⟨hl, h.2⟩

variable [DecidableEq ι]

theorem current_snoc (es : List (Event ι)) (e : Event ι) (p : ι) :
    current (es ++ [e]) p = currentNext p (current es p) e := by
  simp [current]

variable {start : List UInt8}

section

variable (hf : Flow start es s)

include hf

theorem Flow.silent (ho : Others p s s')
    (hring : s'.pipe.toRingBuffer = s.pipe.toRingBuffer) (hp : At (current es p) s' p (s'.pc p)) :
    Flow start es s' := by
  refine ⟨hring ▸ hf.count, hring ▸ hf.fifo, fun q => ?_, hf.honest⟩
  by_cases hq : q = p
  · rw [hq]
    exact hp
  · rw [(ho q hq).1]
    exact (hf.stand q).keep (ho q hq).2

theorem Flow.event (ho : Others p s s') {e : Event ι}
    (he : ∀ q, q ≠ p → currentNext q (current es q) e = current es q) (hh : Honest (current es) e)
    (hcount : s'.pipe.count ≤ PIPESIZE)
    (hfifo : delivered [e] ++ s'.pipe.contents = s.pipe.contents ++ accepted [e])
    (hp : At (currentNext p (current es p) e) s' p (s'.pc p)) : Flow start (es ++ [e]) s' := by
  refine ⟨hcount, ?_, fun q => ?_, always_snoc hf.honest hh⟩
  · calc delivered (es ++ [e]) ++ s'.pipe.contents = delivered es ++ (delivered [e] ++ s'.pipe.contents) := by
          simp
      _ = (delivered es ++ s.pipe.contents) ++ accepted [e] := by rw [hfifo, append_assoc]
      _ = start ++ (accepted es ++ accepted [e]) := by rw [hf.fifo, append_assoc]
      _ = start ++ accepted (es ++ [e]) := by simp
  · rw [current_snoc]
    by_cases hq : q = p
    · rw [hq]
      exact hp
    · rw [(ho q hq).1, he q hq]
      exact (hf.stand q).keep (ho q hq).2

theorem Flow.leave (hl : s.lock = some p) {call : Call} {r : Int}
    (hh : Honest (current es) (.ret p call r)) :
    Flow start (es ++ [.ret p call r]) ((s.setLock none).goto p .user) := by
  refine hf.event (others_of_lock (.inl hl) rfl) ?_ hh hf.count ?_ ?_
  · intro q hq
    simp [hq.symm]
  · simp
  · simp [At]

variable {r : State ι × List (Event ι)}

theorem Flow.acquire (hm : acquire s p pc = some r)
    (hp : At (current es p) ((s.setLock (some p)).goto p pc) p pc) : Flow start (es ++ r.2) r.1 := by
  unfold Pipes.acquire at hm
  cases hl : s.lock with
  | some q => simp [hl] at hm
  | none =>
    rw [hl] at hm
    cases hm
    rw [append_nil]
    refine hf.silent (others_of_lock (.inr hl) rfl) rfl ?_
    simpa using hp

theorem Flow.awake (hm : awake s p pc = some r)
    (hp : At (current es p) ((s.setLock (some p)).goto p pc) p pc) : Flow start (es ++ r.2) r.1 := by
  unfold Pipes.awake at hm
  cases hs : s.sleeping p with
  | some chan => simp [hs] at hm
  | none =>
    rw [hs] at hm
    exact hf.acquire hm hp

end

variable {src : Nat → Option UInt8} {i : Nat}

theorem range_map_succ {ch : UInt8} (hc : c.map some = (List.range i).map src) (hs : src i = some ch) :
    (c ++ [ch]).map some = (List.range (i + 1)).map src := by
  rw [map_append, hc, range_succ, map_append]
  simp [hs]

theorem stored_length (hc : c.map some = (List.range i).map src) : c.length = i := by
  simpa using congrArg List.length hc

variable {n : Int}

section

variable (hf : Flow start es s)

include hf

theorem Flow.write (hm : pipe (.step p) s = some r) (hpc : s.pc p = .writeBody src n i) :
    Flow start (es ++ r.2) r.1 := by
  have hat := hf.stand p
  rw [hpc] at hat
  obtain ⟨hl, hc⟩ := hat
  simp only [pipe, hpc] at hm
  split at hm
  · cases hm
    rw [append_nil]
    refine hf.silent (others_of_same rfl rfl rfl) rfl ?_
    simpa [At, hl] using hc
  · next hfull =>
    cases hs : src i with
    | none =>
      rw [hs] at hm
      cases hm
      rw [append_nil]
      refine hf.silent (others_of_same rfl rfl rfl) rfl ?_
      simpa [At, hl] using hc
    | some ch =>
      rw [hs] at hm
      cases hm
      have hlt : s.pipe.count < PIPESIZE := by
        have hne : s.pipe.count ≠ PIPESIZE := fun h => hfull ((RingBuffer.full_iff (by decide)).mpr h)
        have hle := hf.count
        omega
      refine hf.event (others_of_lock (.inl hl) rfl) ?_ trivial ?_ ?_ ?_
      · intro q hq
        simp [hq.symm]
      · have hpush : (s.pipe.push ch).count = s.pipe.count + 1 :=
          RingBuffer.count_push (by have hsize : PIPESIZE = 512 := rfl; omega)
        show (s.pipe.push ch).count ≤ PIPESIZE
        omega
      · exact RingBuffer.contents_push (by decide) (by decide) hlt
      · simpa [At, hl] using range_map_succ hc hs

variable {dst : Nat → Bool}

theorem Flow.read (hm : pipe (.step p) s = some r)
    (hpc : s.pc p = .readCopy dst n i) : Flow start (es ++ r.2) r.1 := by
  have hat := hf.stand p
  rw [hpc] at hat
  obtain ⟨hl, hc, hmap, hfirst⟩ := hat
  simp only [pipe, hpc] at hm
  split at hm
  · next hcond =>
    obtain ⟨hin, hne⟩ := hcond
    have hdst : dst i = true := hmap i hin
    simp only [hdst, if_true] at hm
    cases hm
    have hcount : s.pipe.count ≠ 0 := fun h => hne (RingBuffer.empty_iff.mpr h)
    refine hf.event (others_of_lock (.inl hl) rfl) ?_ trivial ?_ ?_ ?_
    · intro q hq
      simp [hq.symm]
    · have hpop : s.pipe.pop.count = s.pipe.count - 1 := RingBuffer.count_pop hcount
      have hle := hf.count
      show s.pipe.pop.count ≤ PIPESIZE
      omega
    · have hcont := RingBuffer.contents_pop hcount
      simpa using hcont.symm
    · simp [At, hl, hc]
      exact hmap
  · next hcond =>
    cases hm
    rw [append_nil]
    refine hf.silent (others_of_same rfl rfl rfl) rfl ?_
    simp only [State.goto, update_self, At]
    refine ⟨hl, hc, fun h0 hn => ?_⟩
    have hempty : s.pipe.Empty := by
      by_contra hne
      exact hcond ⟨by omega, hne⟩
    exact ⟨hempty, hfirst h0 hempty⟩

theorem Flow.call {call : Call} (hmap : Mapped (.call p call)) (hu : s.pc p = .user) :
    Flow start es (s.goto p (begin call)) := by
  have hc : current es p = [] := by
    have hat := hf.stand p
    rwa [hu] at hat
  refine hf.silent (others_of_same rfl rfl rfl) rfl ?_
  simp only [State.goto, update_self]
  cases call with
  | write src n => exact hc
  | read dst n => exact ⟨hc, hmap⟩
  | close writable => exact hc

theorem Flow.step (hm : pipe (.step p) s = some r) : Flow start (es ++ r.2) r.1 := by
  have hat := hf.stand p
  -- The steps that only move on, with the lock and the ring as they are.
  have hgo : ∀ (t : State ι) (pc : Pc), t.lock = s.lock → t.pipe = s.pipe → t.pc = s.pc →
      some (t.goto p pc, []) = some r → At (current es p) (t.goto p pc) p pc → Flow start (es ++ r.2) r.1 := by
    intro t pc hlock hpipe hpcs heq hp
    cases heq
    rw [append_nil]
    have hpc : (t.goto p pc).pc = update s.pc p pc := by simp [hpcs]
    refine hf.silent (others_of_same hlock hpipe hpc) (congrArg _ hpipe) ?_
    simpa using hp
  have hstep := hm
  simp only [pipe] at hstep
  generalize hpc : s.pc p = pc at hat hstep
  cases pc with
  | writeBody src n i => exact hf.write hm hpc
  | readCopy dst n i => exact hf.read hm hpc
  | user => cases hstep
  | writeAcquire src n =>
    have hnil : current es p = [] := hat
    exact hf.acquire hstep (by simp [At, hnil])
  | readAcquire dst n | closeAcquire writable => exact hf.acquire hstep ⟨rfl, hat⟩
  | writeWake src n i | readWake dst n => exact hf.awake hstep ⟨rfl, hat⟩
  | writeDone src n i | readDone dst n i | closeWake writable => exact hgo (s.wakeup p _) _ rfl rfl rfl hstep hat
  | writeSleep src n i | readSleep dst n | closeRelease writable =>
    obtain ⟨hl, hc⟩ := hat
    cases hstep
    rw [append_nil]
    refine hf.silent (others_of_lock (.inl hl) rfl) rfl ?_
    simpa [At] using hc
  | writeTop src n i =>
    obtain ⟨hl, hc⟩ := hat
    simp only at hstep
    split at hstep
    · split at hstep
      · cases hstep
        refine hf.leave hl ⟨?_, fun h => absurd rfl h⟩
        rw [stored_length hc]
        exact hc
      · exact hgo s _ rfl rfl rfl hstep ⟨hl, hc⟩
    · exact hgo s _ rfl rfl rfl hstep ⟨hl, hc⟩
  | writeRelease src n i =>
    obtain ⟨hl, hc⟩ := hat
    cases hstep
    refine hf.leave hl ⟨?_, fun _ => ?_⟩
    · rw [stored_length hc]
      exact hc
    · rw [stored_length hc]
  | readTop dst n =>
    obtain ⟨hl, hc, hmap⟩ := hat
    simp only at hstep
    split at hstep
    · split at hstep
      · cases hstep
        exact hf.leave hl (by simpa [Honest] using hc)
      · exact hgo s _ rfl rfl rfl hstep ⟨hl, hc, hmap⟩
    · next hcond =>
      refine hgo s _ rfl rfl rfl hstep ⟨hl, by simp [hc], hmap, fun _ hempty => ?_⟩
      simpa using fun hw => hcond ⟨hempty, hw⟩
  | readRelease dst n i =>
    obtain ⟨hl, hc, -⟩ := hat
    cases hstep
    refine hf.leave hl ?_
    have hr : (i : Int) ≠ -1 := by omega
    simp [Honest, hr, hc]
  | closeMark writable =>
    obtain ⟨hl, hc⟩ := hat
    cases hstep
    rw [append_nil]
    refine hf.silent (others_of_lock (.inl hl) rfl) ?_ ?_
    · cases writable <;> rfl
    · simp [At, hl, hc]

variable {m : Move ι} {es' : List (Event ι)}

theorem Flow.move (hmap : Mapped m)
    (hm : pipe m s = some (s', es')) : Flow start (es ++ es') s' := by
  cases m with
  | step p => exact hf.step hm
  | kill p =>
    cases hm
    rw [append_nil]
    exact ⟨hf.count, hf.fifo, fun q => (hf.stand q).keep fun h => ⟨h, rfl⟩, hf.honest⟩
  | call p c =>
    simp only [pipe] at hm
    split at hm
    · next hu =>
      cases hm
      rw [append_nil]
      exact hf.call hmap hu
    · cases hm

end

theorem ret_read_inv (hm : pipe m s = some (s', es')) {r : Int} (hret : .ret p (.read dst n) r ∈ es') :
    r = -1 ∧ s.pc p = .readTop dst n ∨ ∃ i : Nat, r = i ∧ s.pc p = .readRelease dst n i := by
  cases m with
  | call q c =>
    simp only [pipe] at hm
    split at hm <;> cases hm
    cases hret
  | kill q =>
    cases hm
    cases hret
  | step q =>
    cases hpc : s.pc q <;> simp only [pipe, hpc, awake, acquire, leave] at hm <;>
      (repeat' split at hm) <;> cases hm <;> simp at hret
    · obtain ⟨rfl, ⟨rfl, rfl⟩, rfl⟩ := hret
      exact .inl ⟨rfl, hpc⟩
    · obtain ⟨rfl, ⟨rfl, rfl⟩, rfl⟩ := hret
      exact .inr ⟨_, rfl, hpc⟩

end Steps

section Main

variable [DecidableEq ι] {s t : State ι}

end Main

-- An empty pipe whose counters are about to wrap around.
def wrapping : State Bool :=
  ⟨⟨⟨fun _ => 0, -1, -1⟩, true, true⟩, none, fun _ => false, fun _ => none, fun _ => .user⟩

end Pipes
