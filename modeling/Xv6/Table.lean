import Xv6.Lts
import Xv6.Param

-- The process table of proc.c under fork, exit, wait and kill. A section under a p->lock is one
-- step; what the holder of wait_lock does is cut into steps.

namespace Table

open Lts Function

abbrev Slot := Fin NPROC
abbrev Pid := BitVec 32

def initproc : Slot := 0

inductive ProcState where
  | unused
  | used
  | sleeping
  | runnable
  | running
  | zombie
  deriving DecidableEq, Repr

-- `chan` is the address of a process; `trapframe` and `pagetable` say whether the pointers are set.
structure Proc where
  state : ProcState
  chan : Option Slot
  killed : Bool
  xstate : Int
  pid : Pid
  parent : Option Slot
  sz : UInt64
  trapframe : Bool
  pagetable : Bool
  deriving DecidableEq

def freeproc : Proc := ⟨.unused, none, false, 0, 0, none, 0, false, false⟩

-- The rest of allocproc, for an entry that is UNUSED and if there is memory.
def allocproc (pid : Pid) (p : Proc) : Proc := { p with pid, state := .used, trapframe := true, pagetable := true }

-- The status address of a wait: 0, or one that copyout can or cannot write to.
inductive Addr where
  | null
  | good
  | bad
  deriving DecidableEq

inductive Call where
  | fork
  | exit (status : Int)
  | wait (addr : Addr)
  | kill (pid : Pid)

inductive Pc where
  | user
  | forkScan (i : Nat)
  | forkParent (np : Slot) (pid : Pid)
  | forkRun (np : Slot) (pid : Pid)
  | exitAcquire (status : Int)
  | exitReparent (status : Int) (i : Nat)
  | exitWake (status : Int)
  | exitZombie (status : Int)
  | waitAcquire (addr : Addr)
  | waitScan (addr : Addr) (i : Nat) (havekids : Bool)
  | waitSleep (addr : Addr)
  | killScan (pid : Pid) (i : Nat)
  deriving DecidableEq

-- `failed` is a call that returns -1. `badAddr p q` is a wait that finds the
-- zombie q and cannot write its status.
inductive Event where
  | forked (p np : Slot) (pid : Pid)
  | exited (p : Slot) (status : Int)
  | reaped (p q : Slot) (pid : Pid) (status : Int)
  | badAddr (p q : Slot)
  | killed (p : Slot) (r : Int)
  | failed (p : Slot)
  deriving DecidableEq

structure State where
  proc : Slot → Proc
  nextpid : Pid
  waitLock : Option Slot
  pc : Slot → Pc

-- `mem` says whether fork finds memory. A process may get or lose a CPU at any time, unless it has
-- wait_lock.
inductive Move where
  | call (p : Slot) (c : Call)
  | step (p : Slot) (mem : Bool)
  | dispatch (p : Slot)
  | yield (p : Slot)

def wakeup (t : Slot → Proc) (me : Slot) (chan : Option Slot) : Slot → Proc := fun q =>
  if q ≠ me ∧ (t q).state = .sleeping ∧ (t q).chan = chan then { t q with state := .runnable } else t q

-- The section of kill on the process that has the pid.
def setKilled (p : Proc) : Proc :=
  { p with killed := true, state := if p.state = .sleeping then .runnable else p.state }

def kill (pid : Pid) (t : Slot → Proc) : Int × (Slot → Proc) :=
  match (List.finRange NPROC).find? fun q => decide ((t q).pid = pid) with
  | some q => (0, update t q (setKilled (t q)))
  | none => (-1, t)

namespace State

@[simp]
def goto (s : State) (p : Slot) (pc : Pc) : State := { s with pc := update s.pc p pc }

@[simp]
def setProc (s : State) (p : Slot) (x : Proc) : State := { s with proc := update s.proc p x }

@[simp]
def setProcs (s : State) (t : Slot → Proc) : State := { s with proc := t }

@[simp]
def setLock (s : State) (h : Option Slot) : State := { s with waitLock := h }

end State

-- fork, up to the first release of np->lock.
def forkScan (s : State) (p : Slot) (mem : Bool) (i : Nat) : State × List Event :=
  if h : i < NPROC then
    let np : Slot := ⟨i, h⟩
    if (s.proc np).state = .unused then
      let pid := s.nextpid
      let s := { s with nextpid := pid + 1 }
      if mem then
        let child := { allocproc pid (s.proc np) with sz := (s.proc p).sz }
        (((s.setProc np child).goto np .user).goto p (.forkParent np pid), [])
      else ((s.setProc np freeproc).goto p .user, [.failed p])
    else (s.goto p (.forkScan (i + 1)), [])
  else (s.goto p .user, [.failed p])

def exitReparent (s : State) (p : Slot) (status : Int) (i : Nat) : State × List Event :=
  if h : i < NPROC then
    let pp : Slot := ⟨i, h⟩
    if (s.proc pp).parent = some p then
      let s := s.setProc pp { s.proc pp with parent := some initproc }
      ((s.setProcs (wakeup s.proc p (some initproc))).goto p (.exitReparent status (i + 1)), [])
    else (s.goto p (.exitReparent status (i + 1)), [])
  else (s.goto p (.exitWake status), [])

def waitScan (s : State) (p : Slot) (addr : Addr) (i : Nat) (havekids : Bool) : State × List Event :=
  if h : i < NPROC then
    let pp : Slot := ⟨i, h⟩
    if (s.proc pp).parent = some p then
      if (s.proc pp).state = .zombie then
        if addr = .bad then ((s.setLock none).goto p .user, [.badAddr p pp])
        else (((s.setProc pp freeproc).setLock none).goto p .user, [.reaped p pp (s.proc pp).pid (s.proc pp).xstate])
      else (s.goto p (.waitScan addr (i + 1) true), [])
    else (s.goto p (.waitScan addr (i + 1) havekids), [])
  else if havekids = false ∨ (s.proc p).killed then ((s.setLock none).goto p .user, [.failed p])
  else (((s.setProc p { s.proc p with chan := some p, state := .sleeping }).setLock none).goto p
    (.waitSleep addr), [])

def killScan (s : State) (p : Slot) (pid : Pid) (i : Nat) : State × List Event :=
  if h : i < NPROC then
    let q : Slot := ⟨i, h⟩
    if (s.proc q).pid = pid then ((s.setProc q (setKilled (s.proc q))).goto p .user, [.killed p 0])
    else (s.goto p (.killScan pid (i + 1)), [])
  else (s.goto p .user, [.killed p (-1)])

def acquire (s : State) (p : Slot) (pc : Pc) : Option (State × List Event) :=
  match s.waitLock with
  | none => some ((s.setLock (some p)).goto p pc, [])
  | some _ => none

def start : Call → Pc
  | .fork => .forkScan 0
  | .exit status => .exitAcquire status
  | .wait addr => .waitAcquire addr
  | .kill pid => .killScan pid 0

def stepOf (s : State) (p : Slot) (mem : Bool) : Option (State × List Event) :=
  match s.pc p with
  | .user => none
  | .forkScan i => some (forkScan s p mem i)
  | .forkParent np pid =>
    match s.waitLock with
    | none => some ((s.setProc np { s.proc np with parent := some p }).goto p (.forkRun np pid), [])
    | some _ => none
  | .forkRun np pid =>
    some ((s.setProc np { s.proc np with state := .runnable }).goto p .user, [.forked p np pid])
  | .exitAcquire status => acquire s p (.exitReparent status 0)
  | .exitReparent status i => some (exitReparent s p status i)
  | .exitWake status =>
    some ((s.setProcs (wakeup s.proc p (s.proc p).parent)).goto p (.exitZombie status), [])
  | .exitZombie status =>
    some (((s.setProc p { s.proc p with xstate := status, state := .zombie }).setLock none).goto p .user,
      [.exited p status])
  | .waitAcquire addr => acquire s p (.waitScan addr 0 false)
  | .waitScan addr i havekids => some (waitScan s p addr i havekids)
  | .waitSleep addr => some ((s.setProc p { s.proc p with chan := none }).goto p (.waitAcquire addr), [])
  | .killScan pid i => some (killScan s p pid i)

-- The first process does not exit: that is a panic.
def table : Machine Move State Event
  | .call p c, s =>
    if (s.proc p).state = .running ∧ s.pc p = .user then
      match c with
      | .exit _ => if p = initproc then none else some (s.goto p (start c), [])
      | _ => some (s.goto p (start c), [])
    else none
  | .step p mem, s => if (s.proc p).state = .running then stepOf s p mem else none
  | .dispatch p, s =>
    if (s.proc p).state = .runnable then some (s.setProc p { s.proc p with state := .running }, []) else none
  | .yield p, s =>
    if (s.proc p).state = .running ∧ s.waitLock ≠ some p then
      some (s.setProc p { s.proc p with state := .runnable }, [])
    else none

def boot : State where
  proc p := if p = initproc then ⟨.runnable, none, false, 0, 1, none, 4096, true, true⟩ else freeproc
  nextpid := 2
  waitLock := none
  pc _ := .user

end Table
