import Xv6.Lts
import Xv6.RingBuffer

-- console.c: the input buffer, without the echo. What a process does under cons.lock is cut into
-- steps.

namespace Console

open Lts Function

abbrev INPUT_BUF_SIZE : Nat := 128

scoped instance : NeZero INPUT_BUF_SIZE := ⟨by decide⟩

def C (x : Char) : UInt8 := UInt8.ofNat (x.toNat - '@'.toNat)

def NEWLINE : UInt8 := 10
def RETURN : UInt8 := 13
def DELETE : UInt8 := 127

structure Cons where
  buf : Fin INPUT_BUF_SIZE → UInt8
  r : BitVec 32
  w : BitVec 32
  e : BitVec 32

namespace Cons

-- What has been committed and not been read, what is being edited, and both.
def ready (s : Cons) : RingBuffer UInt8 32 INPUT_BUF_SIZE := ⟨s.buf, s.r, s.w⟩

def edited (s : Cons) : RingBuffer UInt8 32 INPUT_BUF_SIZE := ⟨s.buf, s.w, s.e⟩

def whole (s : Cons) : RingBuffer UInt8 32 INPUT_BUF_SIZE := ⟨s.buf, s.r, s.e⟩

end Cons

-- The loop of kill-line, with the number of characters that there may be to erase.
def killLine : Nat → Cons → Cons
  | 0, s => s
  | n + 1, s =>
    if s.e ≠ s.w ∧ s.buf (RingBuffer.slot (s.e - 1)) ≠ NEWLINE then killLine n { s with e := s.e - 1 } else s

def store (c : UInt8) (s : Cons) : Cons :=
  { s with buf := update s.buf (RingBuffer.slot s.e) c, e := s.e + 1 }

-- The result comes with the characters that are committed, where there is a wakeup.
def consoleintr (c : UInt8) (s : Cons) : Cons × Option (List UInt8) :=
  if c = C 'P' then (s, none)
  else if c = C 'U' then (killLine (s.e - s.w).toNat s, none)
  else if c = C 'H' ∨ c = DELETE then (if s.e ≠ s.w then { s with e := s.e - 1 } else s, none)
  else if c ≠ 0 ∧ (s.e - s.r).toNat < INPUT_BUF_SIZE then
    let c := if c = RETURN then NEWLINE else c
    let s := store c s
    if c = NEWLINE ∨ c = C 'D' ∨ (s.e - s.r).toNat = INPUT_BUF_SIZE then
      ({ s with w := s.e }, some s.edited.contents)
    else (s, none)
  else (s, none)

-- Where a process is in consoleread of `n` characters, `i` of them stored; `dst i` says whether dst
-- + i can be written.
inductive Pc where
  | user
  | readAcquire (dst : Nat → Bool) (n : Int)
  | readTop (dst : Nat → Bool) (n : Int) (i : Nat)
  | readWait (dst : Nat → Bool) (n : Int) (i : Nat)
  | readSleep (dst : Nat → Bool) (n : Int) (i : Nat)
  | readWake (dst : Nat → Bool) (n : Int) (i : Nat)
  | readChar (dst : Nat → Bool) (n : Int) (i : Nat)
  | readDone (n : Int) (i : Nat)

inductive Event (ι : Type) where
  | commit (cs : List UInt8)
  | deliver (p : ι) (c : UInt8)
  -- a read takes an end-of-file
  | eof (p : ι)
  | kill (p : ι)
  | ret (p : ι) (n r : Int)

-- `sleeping p` says that the process is SLEEPING on &cons.r.
structure State (ι : Type) where
  cons : Cons
  lock : Option ι
  killed : ι → Bool
  sleeping : ι → Bool
  pc : ι → Pc

inductive Move (ι : Type) where
  | call (p : ι) (dst : Nat → Bool) (n : Int)
  | step (p : ι)
  | intr (c : UInt8)
  | kill (p : ι)

section Machine

variable {ι : Type} [DecidableEq ι]

namespace State

@[simp]
def goto (s : State ι) (p : ι) (pc : Pc) : State ι := { s with pc := update s.pc p pc }

@[simp]
def setLock (s : State ι) (h : Option ι) : State ι := { s with lock := h }

@[simp]
def setCons (s : State ι) (cons : Cons) : State ι := { s with cons := cons }

-- sleep: the process is on its channel before anyone else can have cons.lock.
@[simp]
def sleep (s : State ι) (p : ι) : State ι :=
  { s with lock := none, sleeping := update s.sleeping p true }

@[simp]
def wakeup (s : State ι) : State ι := { s with sleeping := fun _ => false }

@[simp]
def kill (s : State ι) (p : ι) : State ι :=
  { s with killed := update s.killed p true, sleeping := update s.sleeping p false }

end State

abbrev Step (ι : Type) := Option (State ι × List (Event ι))

def acquire (s : State ι) (p : ι) (pc : Pc) : Step ι :=
  match s.lock with
  | none => some ((s.setLock (some p)).goto p pc, [])
  | some _ => none

def leave (s : State ι) (p : ι) (n r : Int) : Step ι := some ((s.setLock none).goto p .user, [.ret p n r])

-- An end-of-file stays in the buffer for the next read if this one has stored something.
def readChar (s : State ι) (p : ι) (dst : Nat → Bool) (n : Int) (i : Nat) : State ι × List (Event ι) :=
  let c := s.cons.buf (RingBuffer.slot s.cons.r)
  let cons := { s.cons with r := s.cons.r + 1 }
  if c = C 'D' then
    if 0 < i then ((s.setCons { cons with r := cons.r - 1 }).goto p (.readDone n i), [])
    else ((s.setCons cons).goto p (.readDone n i), [.eof p])
  else if dst i then
    if c = NEWLINE then ((s.setCons cons).goto p (.readDone n (i + 1)), [.deliver p c])
    else ((s.setCons cons).goto p (.readTop dst n (i + 1)), [.deliver p c])
  else ((s.setCons cons).goto p (.readDone n i), [])

def console : Machine (Move ι) (State ι) (Event ι)
  | .call p dst n, s =>
    match s.pc p with
    | .user => some (s.goto p (.readAcquire dst n), [])
    | _ => none
  | .kill p, s => some (s.kill p, [.kill p])
  | .intr c, s =>
    match s.lock with
    | some _ => none
    | none =>
      match consoleintr c s.cons with
      | (cons, some cs) => some ((s.setCons cons).wakeup, [.commit cs])
      | (cons, none) => some (s.setCons cons, [])
  | .step p, s =>
    match s.pc p with
    | .user => none
    | .readAcquire dst n => acquire s p (.readTop dst n 0)
    | .readTop dst n i =>
      if (i : Int) < n then some (s.goto p (.readWait dst n i), []) else some (s.goto p (.readDone n i), [])
    | .readWait dst n i =>
      if s.cons.r = s.cons.w then
        if s.killed p then leave s p n (-1) else some (s.goto p (.readSleep dst n i), [])
      else some (s.goto p (.readChar dst n i), [])
    | .readSleep dst n i => some ((s.sleep p).goto p (.readWake dst n i), [])
    | .readWake dst n i => if s.sleeping p then none else acquire s p (.readWait dst n i)
    | .readChar dst n i => some (readChar s p dst n i)
    | .readDone n i => leave s p n i

end Machine

structure Idle {ι : Type} (s : State ι) : Prop where
  lock : s.lock = none
  pc : ∀ p, s.pc p = .user

end Console
