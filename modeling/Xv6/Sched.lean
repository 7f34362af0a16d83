import Xv6.Prog.Cpus
import Xv6.Table

-- The scheduler of proc.c, with sleep, wakeup and all that changes p->state. A step is an access to
-- a lock, or what is done to a process under its lock. Interrupts come while a processor holds no
-- lock.

namespace Sched

open Prog Function

abbrev Slot := Table.Slot
abbrev Pid := Table.Pid
abbrev ProcState := Table.ProcState

abbrev initproc : Slot := Table.initproc

inductive Lock where
  | proc (p : Slot)
  | wait
  | pid
  | other (n : Nat)
  deriving DecidableEq

inductive Chan where
  | null
  | proc (p : Slot)
  | other (n : Nat)
  deriving DecidableEq

structure Proc where
  state : ProcState
  chan : Chan
  killed : Bool
  xstate : Int
  pid : Pid
  parent : Option Slot
  deriving DecidableEq

-- struct cpu; `run` is the process whose context the processor executes, if it is
-- not the scheduler's. Every push_off belongs to an acquire here.
structure Cpu where
  proc : Option Slot
  run : Option Slot
  noff : Nat

structure State (κ : Type) where
  proc : Slot → Proc
  lock : Lock → Option κ
  cpu : κ → Cpu
  nextpid : Pid

-- The panics; `null` is the trap of a null pointer, `context` the return to one never set up.
inductive Halt where
  | acquire
  | release
  | schedLock
  | schedLocks
  | schedRunning
  | initExiting
  | zombieExit
  | null
  | context

inductive Fn where
  | sleep (chan : Chan) (lk : Lock)
  | wakeup (chan : Chan)
  deriving DecidableEq

inductive Act where
  | enter (f : Fn)
  | leave (f : Fn)
  | acquire (lk : Lock)
  | release (lk : Lock)
  | myproc
  | state (p : Slot)
  | setState (p : Slot) (state : ProcState)
  -- the test and the assignment in wakeup, and those in kill
  | rouse (p : Slot) (chan : Chan)
  | strike (p : Slot) (pid : Pid)
  | killed (p : Slot)
  | setChan (p : Slot) (chan : Chan)
  | setProc (p : Option Slot)
  -- the calls of swtch in scheduler and in sched
  | swtch (p : Slot)
  | sched (p : Slot)
  | nextpid
  | setPid (p : Slot) (pid : Pid)
  | context (p : Slot)
  | freeproc (p : Slot)
  | parent (p : Slot)
  | setParent (p : Slot) (parent : Option Slot)
  | setXstate (p : Slot) (status : Int)
  | never

def sig : Sig where
  Act := Act
  Res
    | .myproc => Option Slot
    | .state _ => ProcState
    | .strike _ _ => Bool
    | .killed _ => Bool
    | .nextpid => Pid
    | .parent _ => Option Slot
    | _ => Unit

variable {κ : Type}

section Steps

variable [DecidableEq κ]

namespace State

@[simp]
def setProc (s : State κ) (p : Slot) (x : Proc) : State κ := { s with proc := update s.proc p x }

@[simp]
def setCpu (s : State κ) (c : κ) (x : Cpu) : State κ := { s with cpu := update s.cpu c x }

def take (s : State κ) (c : κ) (lk : Lock) : State κ :=
  { s.setCpu c { s.cpu c with noff := (s.cpu c).noff + 1 } with lock := update s.lock lk (some c) }

def give (s : State κ) (c : κ) (lk : Lock) : State κ :=
  { s.setCpu c { s.cpu c with noff := (s.cpu c).noff - 1 } with lock := update s.lock lk none }

end State

def roused (x : Proc) (chan : Chan) : Proc :=
  if x.state = .sleeping ∧ x.chan = chan then { x with state := .runnable } else x

def struck (x : Proc) : Proc :=
  if x.state = .sleeping then { x with killed := true, state := .runnable } else { x with killed := true }

def freed (_ : Proc) : Proc := ⟨.unused, .null, false, 0, 0, none⟩

-- The callers of sleep hold its lock, and those of wakeup hold one.
def step (c : κ) : Step sig Halt (State κ)
  | .enter (.sleep _ lk), s => if s.lock lk = some c then .done () s else .wait
  | .enter (.wakeup _), s => if (s.cpu c).noff = 0 then .wait else .done () s
  | .leave _, s => .done () s
  | .acquire lk, s =>
    match s.lock lk with
    | none => .done () (s.take c lk)
    | some c' => if c' = c then .fail .acquire s else .wait
  | .release lk, s => if s.lock lk = some c then .done () (s.give c lk) else .fail .release s
  | .myproc, s => .done (s.cpu c).proc s
  | .state p, s => .done (s.proc p).state s
  | .setState p state, s => .done () (s.setProc p { s.proc p with state := state })
  | .rouse p chan, s => .done () (s.setProc p (roused (s.proc p) chan))
  | .strike p pid, s =>
    if (s.proc p).pid = pid then .done true (s.setProc p (struck (s.proc p))) else .done false s
  | .killed p, s => .done (s.proc p).killed s
  | .setChan p chan, s => .done () (s.setProc p { s.proc p with chan := chan })
  | .setProc p, s => .done () (s.setCpu c { s.cpu c with proc := p })
  | .swtch p, s => .done () (s.setCpu c { s.cpu c with run := some p })
  | .sched p, s =>
    if s.lock (.proc p) ≠ some c then .fail .schedLock s
    else if (s.cpu c).noff ≠ 1 then .fail .schedLocks s
    else if (s.proc p).state = .running then .fail .schedRunning s
    else .done () (s.setCpu c { s.cpu c with run := none })
  | .nextpid, s => .done s.nextpid { s with nextpid := s.nextpid + 1 }
  | .setPid p pid, s => .done () (s.setProc p { s.proc p with pid := pid })
  | .context _, s => .done () s
  | .freeproc p, s => .done () (s.setProc p (freed (s.proc p)))
  | .parent p, s => .done (s.proc p).parent s
  | .setParent p parent, s => .done () (s.setProc p { s.proc p with parent := parent })
  | .setXstate p status, s => .done () (s.setProc p { s.proc p with xstate := status })
  | .never, _ => .wait

end Steps

abbrev Kern := Prog sig Halt

def act (a : Act) : Kern (sig.Res a) := Prog.lift (S := sig) a

def sched : Kern Unit := do
  let me : Option Slot ← act .myproc
  match me with
  | none => .fail .null
  | some p => act (.sched p)

def yield : Kern Unit := do
  let me : Option Slot ← act .myproc
  match me with
  | none => .fail .null
  | some p => do
    act (.acquire (.proc p))
    act (.setState p .runnable)
    sched
    act (.release (.proc p))

def sleep (chan : Chan) (lk : Lock) : Kern Unit := do
  act (.enter (.sleep chan lk))
  let me : Option Slot ← act .myproc
  match me with
  | none => .fail .null
  | some p => do
    act (.acquire (.proc p))
    act (.release lk)
    act (.setChan p chan)
    act (.setState p .sleeping)
    sched
    act (.setChan p .null)
    act (.release (.proc p))
    act (.acquire lk)
    act (.leave (.sleep chan lk))

def wakeups (chan : Chan) : List Slot → Kern Unit
  | [] => pure ()
  | p :: ps => do
    let me : Option Slot ← act .myproc
    if me = some p then wakeups chan ps
    else do
      act (.acquire (.proc p))
      act (.rouse p chan)
      act (.release (.proc p))
      wakeups chan ps

def wakeup (chan : Chan) : Kern Unit := do
  act (.enter (.wakeup chan))
  wakeups chan (List.finRange NPROC)
  act (.leave (.wakeup chan))

def kills (pid : Pid) : List Slot → Kern Unit
  | [] => pure ()
  | p :: ps => do
    act (.acquire (.proc p))
    let found : Bool ← act (.strike p pid)
    act (.release (.proc p))
    if found then pure () else kills pid ps

def kill (pid : Pid) : Kern Unit := kills pid (List.finRange NPROC)

def killed (p : Slot) : Kern Bool := do
  act (.acquire (.proc p))
  let k : Bool ← act (.killed p)
  act (.release (.proc p))
  pure k

-- `memory` says whether the trapframe and the page table can be allocated.
def allocprocs (memory : Bool) : List Slot → Kern (Option Slot)
  | [] => pure none
  | p :: ps => do
    act (.acquire (.proc p))
    let state : ProcState ← act (.state p)
    if state = .unused then do
      act (.acquire .pid)
      let pid : Pid ← act .nextpid
      act (.release .pid)
      act (.setPid p pid)
      act (.setState p .used)
      if memory then do
        act (.context p)
        pure (some p)
      else do
        act (.freeproc p)
        act (.release (.proc p))
        pure none
    else do
      act (.release (.proc p))
      allocprocs memory ps

def allocproc (memory : Bool) : Kern (Option Slot) := allocprocs memory (List.finRange NPROC)

-- `copied` says whether uvmcopy succeeds.
def fork (memory copied : Bool) : Kern Unit := do
  let p : Option Slot ← act .myproc
  let np ← allocproc memory
  match np with
  | none => pure ()
  | some np =>
    if copied then do
      act (.release (.proc np))
      act (.acquire .wait)
      act (.setParent np p)
      act (.release .wait)
      act (.acquire (.proc np))
      act (.setState np .runnable)
      act (.release (.proc np))
    else do
      act (.freeproc np)
      act (.release (.proc np))

def reparent (p : Slot) : List Slot → Kern Unit
  | [] => pure ()
  | pp :: ps => do
    let parent : Option Slot ← act (.parent pp)
    if parent = some p then do
      act (.setParent pp (some initproc))
      wakeup (.proc initproc)
      reparent p ps
    else reparent p ps

def chanOf : Option Slot → Chan
  | none => .null
  | some p => .proc p

def exit (status : Int) : Kern Unit := do
  let me : Option Slot ← act .myproc
  match me with
  | none => .fail .null
  | some p =>
    if p = initproc then .fail .initExiting
    else do
      act (.acquire .wait)
      reparent p (List.finRange NPROC)
      let parent : Option Slot ← act (.parent p)
      wakeup (chanOf parent)
      act (.acquire (.proc p))
      act (.setXstate p status)
      act (.setState p .zombie)
      act (.release .wait)
      sched
      .fail .zombieExit

-- `copied` says whether the status can be written. The result tells whether there are children.
def waits (p : Slot) (copied : Bool) : List Slot → Bool → Kern (Option Bool)
  | [], havekids => pure (some havekids)
  | pp :: ps, havekids => do
    let parent : Option Slot ← act (.parent pp)
    if parent = some p then do
      act (.acquire (.proc pp))
      let state : ProcState ← act (.state pp)
      if state = .zombie then
        if copied then do
          act (.freeproc pp)
          act (.release (.proc pp))
          act (.release .wait)
          pure none
        else do
          act (.release (.proc pp))
          act (.release .wait)
          pure none
      else do
        act (.release (.proc pp))
        waits p copied ps true
    else waits p copied ps havekids

-- At most `rounds` rounds of the loop.
def waitLoop (p : Slot) (copied : Bool) : Nat → Kern Unit
  | 0 => act .never
  | rounds + 1 => do
    let r ← waits p copied (List.finRange NPROC) false
    match r with
    | none => pure ()
    | some false => act (.release .wait)
    | some true => do
      let k ← killed p
      if k then act (.release .wait)
      else do
        sleep (.proc p) .wait
        waitLoop p copied rounds

def wait (copied : Bool) (rounds : Nat) : Kern Unit := do
  let me : Option Slot ← act .myproc
  match me with
  | none => .fail .null
  | some p => do
    act (.acquire .wait)
    waitLoop p copied rounds

def scheduler : List Slot → Kern Unit
  | [] => pure ()
  | p :: ps => do
    act (.acquire (.proc p))
    let state : ProcState ← act (.state p)
    if state = .runnable then do
      act (.setState p .running)
      act (.setProc (some p))
      act (.swtch p)
      act (.setProc none)
      act (.release (.proc p))
      scheduler ps
    else do
      act (.release (.proc p))
      scheduler ps

def forkret : Kern Unit := do
  let me : Option Slot ← act .myproc
  match me with
  | none => .fail .null
  | some p => act (.release (.proc p))

-- What a process does in the kernel, with locks of its own choice.
inductive Op where
  | acquire (n : Nat)
  | release (n : Nat)
  | sleep (chan : Chan) (n : Nat)
  | wakeup (chan : Chan)
  | yield
  | kill (pid : Pid)
  | fork (memory copied : Bool)
  | exit (status : Int)
  | wait (copied : Bool) (rounds : Nat)

def Op.body : Op → Kern Unit
  | .acquire n => act (.acquire (.other n))
  | .release n => act (.release (.other n))
  | .sleep chan n => Sched.sleep chan (.other n)
  | .wakeup chan => Sched.wakeup chan
  | .yield => Sched.yield
  | .kill pid => Sched.kill pid
  | .fork memory copied => Sched.fork memory copied
  | .exit status => Sched.exit status
  | .wait copied rounds => Sched.wait copied rounds

def ops : List Op → Kern Unit
  | [] => pure ()
  | o :: os => do
    o.body
    ops os

inductive IntrOp where
  | acquire (n : Nat)
  | release (n : Nat)
  | wakeup (chan : Chan)

def IntrOp.body : IntrOp → Kern Unit
  | .acquire n => act (.acquire (.other n))
  | .release n => act (.release (.other n))
  | .wakeup chan => Sched.wakeup chan

def intrOps : List IntrOp → Kern Unit
  | [] => pure ()
  | o :: os => do
    o.body
    intrOps os

structure Intr where
  ops : List IntrOp
  timer : Bool

-- devintr, and the yield of usertrap and kerneltrap.
def trap (i : Intr) : Kern Unit := do
  intrOps i.ops
  if i.timer then do
    let me : Option Slot ← act .myproc
    if me = none then pure () else yield
  else pure ()

inductive Ctx (κ : Type) where
  | sched (c : κ)
  | proc (p : Slot)
  deriving DecidableEq

def current (s : State κ) (c : κ) : Ctx κ :=
  match (s.cpu c).run with
  | none => .sched c
  | some p => .proc p

def body : Ctx κ → List Op → Kern Unit
  | .sched _, _ => scheduler (List.finRange NPROC)
  | .proc _, os => ops os

def machine (κ : Type) [DecidableEq κ] : Cpus sig Halt (List Op) Intr (State κ) κ (Ctx κ) where
  step := step
  current := current
  body := body
  handler := trap
  enabled s c := (s.cpu c).noff = 0
  spawn
    | .context p => some (.proc p, forkret)
    | _ => none

-- After userinit, when every processor enters its scheduler.
def boot : Config sig Halt (State κ) (Ctx κ) where
  state := {
    proc := fun p => if p = initproc then ⟨.runnable, .null, false, 0, 1, none⟩ else ⟨.unused, .null, false, 0, 0, none⟩
    lock := fun _ => none
    cpu := fun _ => ⟨none, none, 0⟩
    nextpid := 2 }
  program
    | .sched _ => .ret ()
    | .proc p => if p = initproc then forkret else .fail .context
  past _ := []

end Sched
