import Xv6.Log
import Xv6.Fs.Layout

-- Entries of itable, ftable and proc, which the source addresses by pointer.
abbrev Slot := Fin NINODE
abbrev Fd := Fin NFILE
abbrev Pid := Fin NPROC

def initproc : Pid := 0

-- struct inode. The lock is the process that holds it, and `din` the copy of the disk inode.
structure Inode where
  dev : Nat
  inum : Nat
  ref : Int
  lock : Option Pid
  valid : Bool
  din : Dinode

inductive FdType where
  | none
  | pipe
  | inode
  | device
  deriving DecidableEq, Repr

-- struct file, with the address of the pipe. Closing a file leaves `ip` as it was.
structure File where
  type : FdType
  ref : Int
  readable : Bool
  writable : Bool
  pipe : Option Nat
  ip : Option Slot
  off : UInt32
  major : Int16

inductive ProcState where
  | unused
  | used
  | sleeping
  | runnable
  | running
  | zombie
  deriving DecidableEq, Repr

-- The part of struct proc that the file system reads.
structure Proc where
  state : ProcState
  parent : Option Pid
  ofile : Fin NOFILE → Option Fd
  cwd : Option Slot

-- The kernel's state. There is one device, so block numbers alone name blocks.
structure World where
  dev : Log.Dev
  log : Log
  itable : Slot → Inode
  ftable : Fd → File
  proc : Pid → Proc

namespace World

def cache (w : World) : Nat → Block := w.dev.cache

def setCache (w : World) (c : Nat → Block) : World := { w with dev := { w.dev with cache := c } }

def setLog (w : World) (log : Log) : World := { w with log := log }

def setInode (w : World) (k : Slot) (ip : Inode) : World :=
  { w with itable := Function.update w.itable k ip }

theorem setInode_self (w : World) (k : Slot) (ip : Inode) : (w.setInode k ip).itable k = ip := Function.update_self ..

def setFile (w : World) (f : Fd) (file : File) : World :=
  { w with ftable := Function.update w.ftable f file }

theorem setFile_self (w : World) (f : Fd) (file : File) : (w.setFile f file).ftable f = file := Function.update_self ..

def setProc (w : World) (p : Pid) (proc : Proc) : World :=
  { w with proc := Function.update w.proc p proc }

end World

-- The atomic steps: a section under one spinlock, the use of one buffer between bread and brelse,
-- or an access to what its caller owns.
inductive Act where
  | beginOp
  | endOp
  | commit
  | endCommit
  | bread (b : Nat)
  -- a buffer is read, and modified and passed to log_write if the second
  -- component of the result says so
  | bsection (b : Nat) (f : Block → Option Nat × Option Block)
  -- a buffer is modified without a log_write
  | bstore (b : Nat) (f : Block → Block)
  | iget (dev inum : Nat)
  | idup (k : Slot)
  | inode (k : Slot)
  -- what a permission check reads of an inode, and the assignments to ip->mode
  | perm (k : Slot)
  | setMode (k : Slot) (mode : UInt16)
  | setDin (k : Slot) (f : Dinode → Dinode)
  -- the copy of the disk inode in block `b`, after which the entry is valid
  | iload (k : Slot) (b : Nat)
  | setValid (k : Slot) (valid : Bool)
  | acquiresleep (k : Slot) (p : Pid)
  | releasesleep (k : Slot)
  -- the first section of iput; it keeps the inode locked where it returns true
  | iputEnter (k : Slot) (p : Pid)
  | iputLeave (k : Slot)
  | filealloc
  | filedup (f : Fd)
  -- the section of fileclose; it returns the file where its last use is gone
  | fileUnref (f : Fd)
  | file (f : Fd)
  | setFile (f : Fd) (g : File → File)
  | setOff (f : Fd) (g : UInt32 → UInt32)
  | proc (p : Pid)
  | setOfile (p : Pid) (fd : Fin NOFILE) (f : Option Fd)
  | setCwd (p : Pid) (k : Option Slot)
  | setState (p : Pid) (state : ProcState)
  | setParent (p : Pid) (parent : Option Pid)
  | allocproc
  -- the sections of exit and wait under wait_lock; `addrOk`: wait can store the status, `killed`:
  -- the caller has been killed
  | zombie (p : Pid)
  | reap (p : Pid) (addrOk killed : Bool)

def Act.Res : Act → Type
  | .endOp => Bool
  | .bread _ => Block
  | .bsection _ _ => Option Nat
  | .iget _ _ => Slot
  | .inode _ => Inode
  | .perm _ => Inode
  | .iload _ _ => Dinode
  | .iputEnter _ _ => Bool
  | .filealloc => Option Fd
  | .fileUnref _ => Option File
  | .file _ => File
  | .proc _ => Proc
  | .allocproc => Option Pid
  | .reap _ _ _ => Option Pid
  | _ => Unit

def kernelSig : Prog.Sig := ⟨Act, Act.Res⟩

namespace World

def logWrite (w : World) (b : Nat) (data : Block) : Prog.Outcome Panic World Unit :=
  match w.log.logWrite b with
  | .ok log => .done () ((w.setCache (Function.update w.cache b data)).setLog log)
  | .error e => .fail e w

-- The entry of the table that holds the inode, else the first free one.
def findInode (w : World) (dev inum : Nat) : Option Slot :=
  (List.finRange NINODE).find? fun k =>
    decide (0 < (w.itable k).ref ∧ (w.itable k).dev = dev ∧ (w.itable k).inum = inum)

def freeInode (w : World) : Option Slot :=
  (List.finRange NINODE).find? fun k => decide ((w.itable k).ref = 0)

def freeFile (w : World) : Option Fd :=
  (List.finRange NFILE).find? fun f => decide ((w.ftable f).ref = 0)

def freeProc (w : World) : Option Pid :=
  (List.finRange NPROC).find? fun p => decide ((w.proc p).state = .unused)

def zombieChild (w : World) (p : Pid) : Option Pid :=
  (List.finRange NPROC).find? fun c =>
    decide ((w.proc c).parent = some p ∧ (w.proc c).state = .zombie)

def haveKids (w : World) (p : Pid) : Bool :=
  (List.finRange NPROC).any fun c => decide ((w.proc c).parent = some p)

def reparent (w : World) (p : Pid) : World :=
  { w with proc := fun c =>
      if (w.proc c).parent = some p then { w.proc c with parent := some initproc } else w.proc c }

end World

def kernelStep : Prog.Step kernelSig Panic World
  | .beginOp, w =>
    match w.log.beginOp with
    | some log => .done () (w.setLog log)
    | none => .wait
  | .endOp, w =>
    match w.log.endOp with
    | .ok (docommit, log) => .done docommit (w.setLog log)
    | .error e => .fail e w
  | .commit, w =>
    match Prog.run Log.devStep (Log.commit w.log.start w.log.lh) w.dev with
    | .done _ dev => .done () { w with dev := dev, log := { w.log with lh := [] } }
    | .fail e _ => .fail e w
    | .wait => .wait
  | .endCommit, w => .done () (w.setLog w.log.endCommit)
  | .bread b, w => .done (w.cache b) w
  | .bsection b f, w =>
    match f (w.cache b) with
    | (r, none) => .done r w
    | (r, some data) =>
      match w.logWrite b data with
      | .done _ w' => .done r w'
      | .fail e w' => .fail e w'
      | .wait => .wait
  | .bstore b f, w => .done () (w.setCache (Function.update w.cache b (f (w.cache b))))
  | .iget dev inum, w =>
    match w.findInode dev inum with
    | some k => .done k (w.setInode k { w.itable k with ref := (w.itable k).ref + 1 })
    | none =>
      match w.freeInode with
      | some k => .done k (w.setInode k
        { w.itable k with dev := dev, inum := inum, ref := 1, valid := false })
      | none => .fail .igetNoInodes w
  | .idup k, w => .done () (w.setInode k { w.itable k with ref := (w.itable k).ref + 1 })
  | .inode k, w => .done (w.itable k) w
  | .perm k, w => .done (w.itable k) w
  | .setMode k mode, w => .done () (w.setInode k
    { w.itable k with din := { (w.itable k).din with mode := mode } })
  | .setDin k f, w => .done () (w.setInode k { w.itable k with din := f (w.itable k).din })
  | .iload k b, w => .done (w.cache b).dinode
    (w.setInode k { w.itable k with din := (w.cache b).dinode, valid := true })
  | .setValid k valid, w => .done () (w.setInode k { w.itable k with valid := valid })
  | .acquiresleep k p, w =>
    match (w.itable k).lock with
    | none => .done () (w.setInode k { w.itable k with lock := some p })
    | some _ => .wait
  | .releasesleep k, w => .done () (w.setInode k { w.itable k with lock := none })
  | .iputEnter k p, w =>
    let ip := w.itable k
    if ip.ref = 1 ∧ ip.valid = true ∧ ip.din.nlink = 0 then
      match ip.lock with
      | none => .done true (w.setInode k { ip with lock := some p })
      | some _ => .wait
    else .done false (w.setInode k { ip with ref := ip.ref - 1 })
  | .iputLeave k, w => .done () (w.setInode k { w.itable k with ref := (w.itable k).ref - 1 })
  | .filealloc, w =>
    match w.freeFile with
    | some f => .done (some f) (w.setFile f { w.ftable f with ref := 1 })
    | none => .done none w
  | .filedup f, w =>
    if (w.ftable f).ref < 1 then .fail .filedup w
    else .done () (w.setFile f { w.ftable f with ref := (w.ftable f).ref + 1 })
  | .fileUnref f, w =>
    let file := w.ftable f
    if file.ref < 1 then .fail .fileclose w
    else if file.ref - 1 > 0 then .done none (w.setFile f { file with ref := file.ref - 1 })
    else .done (some file) (w.setFile f { file with ref := 0, type := .none })
  | .file f, w => .done (w.ftable f) w
  | .setFile f g, w => .done () (w.setFile f (g (w.ftable f)))
  | .setOff f g, w => .done () (w.setFile f { w.ftable f with off := g (w.ftable f).off })
  | .proc p, w => .done (w.proc p) w
  | .setOfile p fd f, w => .done () (w.setProc p
    { w.proc p with ofile := Function.update (w.proc p).ofile fd f })
  | .setCwd p k, w => .done () (w.setProc p { w.proc p with cwd := k })
  | .setState p state, w => .done () (w.setProc p { w.proc p with state := state })
  | .setParent p parent, w => .done () (w.setProc p { w.proc p with parent := parent })
  | .allocproc, w =>
    match w.freeProc with
    | some p => .done (some p) (w.setProc p { w.proc p with state := .used })
    | none => .done none w
  | .zombie p, w =>
    let w := w.reparent p
    .done () (w.setProc p { w.proc p with state := .zombie })
  | .reap p addrOk killed, w =>
    match w.zombieChild p with
    | some c =>
      if addrOk then
        .done (some c) (w.setProc c { w.proc c with parent := none, state := .unused })
      else .done none w
    | none => if w.haveKids p = false ∨ killed = true then .done none w else .wait

theorem bsection_done {w w' : World} {b : Nat} {f : Block → Option Nat × Option Block} {r : Option Nat}
    (h : kernelStep (.bsection b f) w = .done r w') :
    f (w.cache b) = (r, none) ∧ w' = w ∨ ∃ data log, f (w.cache b) = (r, some data) ∧ w.log.logWrite b = .ok log ∧
      w' = (w.setCache (Function.update w.cache b data)).setLog log := by
  simp only [kernelStep, World.logWrite] at h
  match hf : f (w.cache b) with
  | (_, none) =>
    rw [hf] at h
    cases h
    exact .inl ⟨rfl, rfl⟩
  | (_, some data) =>
    rw [hf] at h
    cases hl : w.log.logWrite b with
    | error e =>
      rw [hl] at h
      cases h
    | ok log =>
      rw [hl] at h
      cases h
      exact .inr ⟨data, log, rfl, rfl, rfl⟩

abbrev Kernel := Prog kernelSig Panic

namespace Kernel

def act (a : Act) : Kernel a.Res := Prog.lift (S := kernelSig) a

def panic {α : Type} (e : Panic) : Kernel α := Prog.fail e

theorem run_act (a : Act) (w : World) : Prog.run kernelStep (act a) w = kernelStep a w :=
  Prog.run_lift (S := kernelSig) kernelStep a w

end Kernel
