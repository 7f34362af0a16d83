import Xv6.Circular
import Xv6.Log
import Xv6.Prog.Pool

-- bio.c, and where log.c pins buffers. A step is done under bcache.lock or log.lock, or to the data
-- of a locked buffer.

namespace Bcache

open Prog Function

structure Buf where
  valid : Bool
  dev : Nat
  blockno : Nat
  refcnt : BitVec 32
  data : Block

-- `lock b` is the process that has b->lock. virtio_disk_rw looks at b->blockno only.
-- `inOp` are the processes between begin_op and end_op.
structure State (ι : Type) where
  buf : Fin NBUF → Buf
  list : Circular (Fin NBUF)
  lock : Fin NBUF → Option ι
  disk : Nat → Block
  log : Log
  inOp : ι → Bool

inductive Halt where
  | bget
  | bwrite
  | brelse
  | log (e : Panic)

inductive Act (ι : Type) where
  | bget (p : ι) (dev blockno : Nat)
  | acquiresleep (p : ι) (b : Fin NBUF)
  | releasesleep (p : ι) (b : Fin NBUF)
  | holdingsleep (p : ι) (b : Fin NBUF)
  -- reads the block if the buffer is not valid
  | fill (b : Fin NBUF)
  | write (b : Fin NBUF)
  | data (b : Fin NBUF)
  | memmove (b : Fin NBUF) (data : Block)
  | unref (b : Fin NBUF)
  | bunpin (b : Fin NBUF)
  | log
  | beginOp (p : ι)
  | logWrite (b : Fin NBUF)
  | endOp (p : ι)
  | clear
  | endCommit
  -- what a process in an operation stores in a buffer that it has locked
  | store (p : ι) (b : Fin NBUF) (data : Block)
  -- passes if the process has locked the buffer, of the disk with the log
  | mine (p : ι) (b : Fin NBUF)

def sig (ι : Type) : Sig where
  Act := Act ι
  Res
    | .bget _ _ _ => Fin NBUF
    | .holdingsleep _ _ => Bool
    | .data _ => Block
    | .log => Log
    | .endOp _ => Bool
    | _ => Unit

variable {ι : Type}

section Steps

variable [DecidableEq ι]

namespace State

@[simp]
def setBuf (s : State ι) (b : Fin NBUF) (x : Buf) : State ι := { s with buf := update s.buf b x }

def setRefcnt (s : State ι) (b : Fin NBUF) (n : BitVec 32) : State ι := s.setBuf b { s.buf b with refcnt := n }

def recycle (s : State ι) (b : Fin NBUF) (dev blockno : Nat) : State ι :=
  s.setBuf b { s.buf b with valid := false, dev := dev, blockno := blockno, refcnt := 1 }

def setData (s : State ι) (b : Fin NBUF) (data : Block) : State ι := s.setBuf b { s.buf b with data := data }

@[simp]
def setLog (s : State ι) (log : Log) : State ι := { s with log := log }

def home (s : State ι) : Nat := s.log.start + s.log.size

end State

def cached (s : State ι) (dev blockno : Nat) (b : Fin NBUF) : Bool :=
  (s.buf b).dev = dev ∧ (s.buf b).blockno = blockno

def unused (s : State ι) (b : Fin NBUF) : Bool := (s.buf b).refcnt = 0

-- A loop that meets no end waits for ever.
def bgetStep (s : State ι) (dev blockno : Nat) : Outcome Halt (State ι) (Fin NBUF) :=
  match Circular.find s.list.next (cached s dev blockno) (NBUF + 1) (s.list.next none) with
  | none => .wait
  | some (some b) => .done b (s.setRefcnt b ((s.buf b).refcnt + 1))
  | some none =>
    match Circular.find s.list.prev (unused s) (NBUF + 1) (s.list.prev none) with
    | none => .wait
    | some (some b) => .done b (s.recycle b dev blockno)
    | some none => .fail .bget s

def unrefStep (s : State ι) (b : Fin NBUF) : State ι :=
  let s := s.setRefcnt b ((s.buf b).refcnt - 1)
  if (s.buf b).refcnt = 0 then { s with list := (s.list.unlink b).pushFront b } else s

def logWriteStep (s : State ι) (b : Fin NBUF) : Outcome Halt (State ι) Unit :=
  let blockno := (s.buf b).blockno
  match s.log.logWrite blockno with
  | .error e => .fail (.log e) s
  | .ok log =>
    if blockno ∈ s.log.lh then .done () (s.setLog log)
    else .done () ((s.setLog log).setRefcnt b ((s.buf b).refcnt + 1))

def bstep : Step (sig ι) Halt (State ι)
  | .bget _ dev blockno, s => bgetStep s dev blockno
  | .acquiresleep p b, s =>
    match s.lock b with
    | none => .done () { s with lock := update s.lock b (some p) }
    | some _ => .wait
  | .releasesleep _ b, s => .done () { s with lock := update s.lock b none }
  | .holdingsleep p b, s => .done (decide (s.lock b = some p)) s
  | .fill b, s =>
    if (s.buf b).valid then .done () s
    else .done () (s.setBuf b { s.buf b with valid := true, data := s.disk (s.buf b).blockno })
  | .write b, s => .done () { s with disk := update s.disk (s.buf b).blockno (s.buf b).data }
  | .data b, s => .done (s.buf b).data s
  | .memmove b data, s => .done () (s.setData b data)
  | .unref b, s => .done () (unrefStep s b)
  | .bunpin b, s => .done () (s.setRefcnt b ((s.buf b).refcnt - 1))
  | .log, s => .done s.log s
  | .beginOp p, s =>
    if s.inOp p then .wait
    else
      match s.log.beginOp with
      | some log => .done () { s with log := log, inOp := update s.inOp p true }
      | none => .wait
  | .logWrite b, s => if s.home ≤ (s.buf b).blockno then logWriteStep s b else .wait
  | .endOp p, s =>
    if s.inOp p then
      match s.log.endOp with
      | .error e => .fail (.log e) s
      | .ok (commit, log) => .done commit { s with log := log, inOp := update s.inOp p false }
    else .wait
  | .clear, s => .done () (s.setLog { s.log with lh := [] })
  | .endCommit, s => .done () (s.setLog { s.log with committing := false })
  | .store p b data, s =>
    if s.lock b = some p ∧ s.inOp p ∧ s.home ≤ (s.buf b).blockno then
      .done () (s.setData b data)
    else .wait
  | .mine p b, s => if s.lock b = some p ∧ (s.buf b).dev = ROOTDEV then .done () s else .wait

end Steps

abbrev Bio (ι : Type) := Prog (sig ι) Halt

def act (a : Act ι) : Bio ι ((sig ι).Res a) := Prog.lift (S := sig ι) a

def bget (p : ι) (dev blockno : Nat) : Bio ι (Fin NBUF) := do
  let b : Fin NBUF ← act (.bget p dev blockno)
  act (.acquiresleep p b)
  pure b

def bread (p : ι) (dev blockno : Nat) : Bio ι (Fin NBUF) := do
  let b ← bget p dev blockno
  act (.fill b)
  pure b

def bwrite (p : ι) (b : Fin NBUF) : Bio ι Unit := do
  let holding : Bool ← act (.holdingsleep p b)
  if holding then act (.write b) else .fail .bwrite

def brelse (p : ι) (b : Fin NBUF) : Bio ι Unit := do
  let holding : Bool ← act (.holdingsleep p b)
  if holding then do
    act (.releasesleep p b)
    act (.unref b)
  else .fail .brelse

def writeHead (p : ι) : Bio ι Unit := do
  let log : Log ← act .log
  let buf ← bread p ROOTDEV log.start
  let hb : Block ← act (.data buf)
  act (.memmove buf (Log.putHead hb log.lh))
  bwrite p buf
  brelse p buf

def writeLog (p : ι) (start : Nat) : Nat → List Nat → Bio ι Unit
  | _, [] => pure ()
  | tail, block :: blocks => do
    let dst ← bread p ROOTDEV (start + tail + 1)
    let src ← bread p ROOTDEV block
    let data : Block ← act (.data src)
    act (.memmove dst data)
    bwrite p dst
    brelse p src
    brelse p dst
    writeLog p start (tail + 1) blocks

def installTrans (p : ι) (start : Nat) : Nat → List Nat → Bio ι Unit
  | _, [] => pure ()
  | tail, block :: blocks => do
    let lbuf ← bread p ROOTDEV (start + tail + 1)
    let dbuf ← bread p ROOTDEV block
    let data : Block ← act (.data lbuf)
    act (.memmove dbuf data)
    bwrite p dbuf
    act (.bunpin dbuf)
    brelse p lbuf
    brelse p dbuf
    installTrans p start (tail + 1) blocks

def commit (p : ι) : Bio ι Unit := do
  let log : Log ← act .log
  if log.lh.length > 0 then do
    writeLog p log.start 0 log.lh
    writeHead p
    installTrans p log.start 0 log.lh
    act .clear
    writeHead p
  else pure ()

def endOp (p : ι) : Bio ι Unit := do
  let doCommit : Bool ← act (.endOp p)
  if doCommit then do
    commit p
    act .endCommit
  else pure ()

inductive Call where
  | bread (dev blockno : Nat)
  | bwrite (b : Fin NBUF)
  | brelse (b : Fin NBUF)
  | store (b : Fin NBUF) (data : Block)
  | logWrite (b : Fin NBUF)
  | beginOp
  | endOp

def body (p : ι) : Call → Bio ι Unit
  | .bread dev blockno => do
    let _b ← bread p dev blockno
    pure ()
  | .bwrite b => do
    act (.mine p b)
    bwrite p b
  | .brelse b => brelse p b
  | .store b data => act (.store p b data)
  | .logWrite b => do
    act (.mine p b)
    act (.logWrite b)
  | .beginOp => act (.beginOp p)
  | .endOp => endOp p

def machine (ι : Type) [DecidableEq ι] : Machine (sig ι) Halt Unit Call (State ι) ι where
  step := bstep
  body := body
  ready _ _ := true

def binit (c : Circular (Fin NBUF)) : Circular (Fin NBUF) := (List.finRange NBUF).foldl Circular.pushFront c.clear

-- The buffers are zero at first.
def boot (c : Circular (Fin NBUF)) (disk : Nat → Block) (start size : Nat) : State ι where
  buf _ := ⟨false, 0, 0, 0, Block.zero⟩
  list := binit c
  lock _ := none
  disk := disk
  log := ⟨start, size, 0, false, []⟩
  inOp _ := false

end Bcache
