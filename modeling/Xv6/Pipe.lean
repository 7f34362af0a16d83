import Xv6.Lts
import Xv6.RingBuffer

-- pipe.c, for one pipe and any processes. What is done under pi->lock is cut into steps, since
-- kill does not ask for the lock.

namespace Pipes

open Lts Function

abbrev PIPESIZE : Nat := 512

scoped instance : NeZero PIPESIZE := ⟨by decide⟩

structure Pipe extends RingBuffer UInt8 32 PIPESIZE where
  readopen : Bool
  writeopen : Bool

-- The addresses that pipe.c sleeps on, &pi->nread and &pi->nwrite.
inductive Chan where
  | nread
  | nwrite
  deriving DecidableEq

-- `src i` is what copyin finds at addr + i, and `dst i` says whether copyout can write there.
inductive Call where
  | write (src : Nat → Option UInt8) (n : Int)
  | read (dst : Nat → Bool) (n : Int)
  | close (writable : Bool)

inductive Pc where
  | user
  | writeAcquire (src : Nat → Option UInt8) (n : Int)
  | writeTop (src : Nat → Option UInt8) (n : Int) (i : Nat)
  | writeBody (src : Nat → Option UInt8) (n : Int) (i : Nat)
  | writeSleep (src : Nat → Option UInt8) (n : Int) (i : Nat)
  | writeWake (src : Nat → Option UInt8) (n : Int) (i : Nat)
  | writeDone (src : Nat → Option UInt8) (n : Int) (i : Nat)
  | writeRelease (src : Nat → Option UInt8) (n : Int) (i : Nat)
  | readAcquire (dst : Nat → Bool) (n : Int)
  | readTop (dst : Nat → Bool) (n : Int)
  | readSleep (dst : Nat → Bool) (n : Int)
  | readWake (dst : Nat → Bool) (n : Int)
  | readCopy (dst : Nat → Bool) (n : Int) (i : Nat)
  | readDone (dst : Nat → Bool) (n : Int) (i : Nat)
  | readRelease (dst : Nat → Bool) (n : Int) (i : Nat)
  | closeAcquire (writable : Bool)
  | closeMark (writable : Bool)
  | closeWake (writable : Bool)
  | closeRelease (writable : Bool)

inductive Event (ι : Type) where
  | accept (p : ι) (ch : UInt8)
  | deliver (p : ι) (ch : UInt8)
  | ret (p : ι) (c : Call) (r : Int)

-- `sleeping p` is the channel of a process that is SLEEPING on one of the pipe's.
structure State (ι : Type) where
  pipe : Pipe
  lock : Option ι
  killed : ι → Bool
  sleeping : ι → Option Chan
  pc : ι → Pc

inductive Move (ι : Type) where
  | call (p : ι) (c : Call)
  | step (p : ι)
  | kill (p : ι)

variable {ι : Type}

section Machine

variable [DecidableEq ι]

namespace State

@[simp]
def goto (s : State ι) (p : ι) (pc : Pc) : State ι := { s with pc := update s.pc p pc }

@[simp]
def setLock (s : State ι) (h : Option ι) : State ι := { s with lock := h }

@[simp]
def setPipe (s : State ι) (pi : Pipe) : State ι := { s with pipe := pi }

-- sleep: the process is on its channel before anyone else can have pi->lock.
@[simp]
def sleep (s : State ι) (p : ι) (chan : Chan) : State ι :=
  { s with lock := none, sleeping := update s.sleeping p (some chan) }

@[simp]
def wakeup (s : State ι) (p : ι) (chan : Chan) : State ι :=
  { s with sleeping := fun q => if q ≠ p ∧ s.sleeping q = some chan then none else s.sleeping q }

@[simp]
def kill (s : State ι) (p : ι) : State ι :=
  { s with killed := update s.killed p true, sleeping := update s.sleeping p none }

end State

abbrev Step (ι : Type) := Option (State ι × List (Event ι))

def acquire (s : State ι) (p : ι) (pc : Pc) : Step ι :=
  match s.lock with
  | none => some ((s.setLock (some p)).goto p pc, [])
  | some _ => none

def awake (s : State ι) (p : ι) (pc : Pc) : Step ι :=
  match s.sleeping p with
  | none => acquire s p pc
  | some _ => none

def leave (s : State ι) (p : ι) (es : List (Event ι)) : Step ι := some ((s.setLock none).goto p .user, es)

def begin : Call → Pc
  | .write src n => .writeAcquire src n
  | .read dst n => .readAcquire dst n
  | .close writable => .closeAcquire writable

def pipe : Machine (Move ι) (State ι) (Event ι)
  | .call p c, s =>
    match s.pc p with
    | .user => some (s.goto p (begin c), [])
    | _ => none
  | .kill p, s => some (s.kill p, [])
  | .step p, s =>
    match s.pc p with
    | .user => none
    -- pipewrite
    | .writeAcquire src n => acquire s p (.writeTop src n 0)
    | .writeTop src n i =>
      if (i : Int) < n then
        if s.pipe.readopen = false ∨ s.killed p then leave s p [.ret p (.write src n) (-1)]
        else some (s.goto p (.writeBody src n i), [])
      else some (s.goto p (.writeDone src n i), [])
    | .writeBody src n i =>
      if s.pipe.Full then some ((s.wakeup p .nread).goto p (.writeSleep src n i), [])
      else
        match src i with
        | none => some (s.goto p (.writeDone src n i), [])
        | some ch =>
          some ((s.setPipe { s.pipe with toRingBuffer := s.pipe.push ch }).goto p (.writeTop src n (i + 1)),
            [.accept p ch])
    | .writeSleep src n i => some ((s.sleep p .nwrite).goto p (.writeWake src n i), [])
    | .writeWake src n i => awake s p (.writeTop src n i)
    | .writeDone src n i => some ((s.wakeup p .nread).goto p (.writeRelease src n i), [])
    | .writeRelease src n i => leave s p [.ret p (.write src n) i]
    -- piperead
    | .readAcquire dst n => acquire s p (.readTop dst n)
    | .readTop dst n =>
      if s.pipe.Empty ∧ s.pipe.writeopen then
        if s.killed p then leave s p [.ret p (.read dst n) (-1)]
        else some (s.goto p (.readSleep dst n), [])
      else some (s.goto p (.readCopy dst n 0), [])
    | .readSleep dst n => some ((s.sleep p .nread).goto p (.readWake dst n), [])
    | .readWake dst n => awake s p (.readTop dst n)
    | .readCopy dst n i =>
      if (i : Int) < n ∧ ¬s.pipe.Empty then
        -- The byte is gone from the pipe also when copyout fails.
        if dst i then
          some ((s.setPipe { s.pipe with toRingBuffer := s.pipe.pop }).goto p (.readCopy dst n (i + 1)),
            [.deliver p s.pipe.head])
        else some ((s.setPipe { s.pipe with toRingBuffer := s.pipe.pop }).goto p (.readDone dst n i), [])
      else some (s.goto p (.readDone dst n i), [])
    | .readDone dst n i => some ((s.wakeup p .nwrite).goto p (.readRelease dst n i), [])
    | .readRelease dst n i => leave s p [.ret p (.read dst n) i]
    -- pipeclose
    | .closeAcquire writable => acquire s p (.closeMark writable)
    | .closeMark writable =>
      some ((s.setPipe (if writable then { s.pipe with writeopen := false }
        else { s.pipe with readopen := false })).goto p (.closeWake writable), [])
    | .closeWake writable =>
      some ((s.wakeup p (if writable then .nread else .nwrite)).goto p (.closeRelease writable), [])
    | .closeRelease _ => leave s p []

end Machine

structure Idle {ι : Type} (s : State ι) : Prop where
  lock : s.lock = none
  pc : ∀ p, s.pc p = .user

section Frame

variable {s s' : State ι} {p : ι} {pc : Pc}

def Others (p : ι) (s s' : State ι) : Prop :=
  ∀ q, q ≠ p → s'.pc q = s.pc q ∧ (s.lock = some q → s'.lock = some q ∧ s'.pipe = s.pipe)

variable [DecidableEq ι]

theorem others_of_same (hl : s'.lock = s.lock) (hpi : s'.pipe = s.pipe) (hpc : s'.pc = update s.pc p pc) :
    Others p s s' := by
  intro q hq
  rw [hpc, hl]
  exact ⟨update_of_ne hq .., fun h => ⟨h, hpi⟩⟩

theorem others_of_lock (hl : s.lock = some p ∨ s.lock = none) (hpc : s'.pc = update s.pc p pc) :
    Others p s s' := by
  intro q hq
  rw [hpc]
  refine ⟨update_of_ne hq .., fun h => ?_⟩
  rcases hl with hl | hl <;> rw [h] at hl
  · cases hl
    exact absurd rfl hq
  · cases hl

end Frame

def wholeCall {ι : Type} (p : ι) (c : Call) (n : Nat) : List (Move ι) := .call p c :: List.replicate n (.step p)

end Pipes
