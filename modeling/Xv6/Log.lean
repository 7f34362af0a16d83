import Xv6.Prog
import Xv6.Block
import Xv6.Param

namespace Log

-- The device under the log. `cache` is what bread returns: the buffer of a cached block, else the
-- disk's contents. `issued` are the block writes in order.
structure Dev where
  disk : Nat → Block
  cache : Nat → Block
  issued : List (Nat × Block)

def Dev.crash (s : Dev) : Dev := { s with cache := s.disk }

inductive DevAct where
  | bread (b : Nat)
  | bstore (b : Nat) (data : Block)
  | bwrite (b : Nat)

def devSig : Prog.Sig where
  Act := DevAct
  Res
    | .bread _ => Block
    | .bstore _ _ => Unit
    | .bwrite _ => Unit

def devStep : Prog.Step devSig Panic Dev
  | .bread b, s => .done (s.cache b) s
  | .bstore b data, s => .done () { s with cache := Function.update s.cache b data }
  | .bwrite b, s => .done ()
    { s with disk := Function.update s.disk b (s.cache b), issued := s.issued ++ [(b, s.cache b)] }

abbrev LogProg := Prog devSig Panic

def bread (b : Nat) : LogProg Block := Prog.lift (S := devSig) (.bread b)
def bstore (b : Nat) (data : Block) : LogProg Unit := Prog.lift (S := devSig) (.bstore b data)
def bwrite (b : Nat) : LogProg Unit := Prog.lift (S := devSig) (.bwrite b)

-- struct logheader in its block: the count, then the block numbers. A negative count runs no loop.
def headCount (buf : Block) : Nat :=
  if (buf.word 0).toNat < 2 ^ 31 then (buf.word 0).toNat else 0

def headBlocks (buf : Block) : List Nat :=
  (List.range (headCount buf)).map fun i => (buf.word (i + 1)).toNat

def putBlocks (buf : Block) (i : Nat) : List Nat → Block
  | [] => buf
  | b :: bs => putBlocks (buf.setWord (i + 1) (UInt32.ofNat b)) (i + 1) bs

-- Entries past the count keep what an earlier transaction left there.
def putHead (buf : Block) (lh : List Nat) : Block :=
  putBlocks (buf.setWord 0 (UInt32.ofNat lh.length)) 0 lh

def readHead (start : Nat) : LogProg (List Nat) := do
  let buf ← bread start
  pure (headBlocks buf)

def writeHead (start : Nat) (lh : List Nat) : LogProg Unit := do
  let buf ← bread start
  bstore start (putHead buf lh)
  bwrite start

-- Copy committed blocks from the log to their home location.
def installTrans (start : Nat) : Nat → List Nat → LogProg Unit
  | _, [] => pure ()
  | tail, b :: bs => do
    let lbuf ← bread (start + tail + 1)
    let _dbuf ← bread b
    bstore b lbuf
    bwrite b
    installTrans start (tail + 1) bs

def recoverFromLog (start : Nat) : LogProg Unit := do
  let lh ← readHead start
  installTrans start 0 lh
  writeHead start []

-- Copy modified blocks from the cache to the log.
def writeLog (start : Nat) : Nat → List Nat → LogProg Unit
  | _, [] => pure ()
  | tail, b :: bs => do
    let _to ← bread (start + tail + 1)
    let src ← bread b
    bstore (start + tail + 1) src
    bwrite (start + tail + 1)
    writeLog start (tail + 1) bs

def commit (start : Nat) (lh : List Nat) : LogProg Unit := do
  if lh.length > 0 then
    writeLog start 0 lh
    writeHead start lh
    installTrans start 0 lh
    writeHead start []
  else
    pure ()

end Log

-- struct log, without its spinlock. The count is the length of the list of blocks.
structure Log where
  start : Nat
  size : Nat
  outstanding : Int
  committing : Bool
  lh : List Nat

namespace Log

def mayBegin (log : Log) : Bool :=
  !log.committing && (log.lh.length + (log.outstanding + 1) * MAXOPBLOCKS ≤ LOGSIZE : Bool)

def beginOp (log : Log) : Option Log :=
  if log.mayBegin then some { log with outstanding := log.outstanding + 1 } else none

-- The first section of end_op. The result says whether the caller commits.
def endOp (log : Log) : Except Panic (Bool × Log) :=
  let log := { log with outstanding := log.outstanding - 1 }
  if log.committing then .error .logCommitting
  else if log.outstanding = 0 then .ok (true, { log with committing := true })
  else .ok (false, log)

-- commit() has emptied the header by the time end_op clears the flag.
def endCommit (log : Log) : Log := { log with committing := false, lh := [] }

def logWrite (log : Log) (blockno : Nat) : Except Panic Log :=
  if log.lh.length ≥ LOGSIZE ∨ log.lh.length + 1 ≥ log.size then .error .tooBigTransaction
  else if log.outstanding < 1 then .error .logWriteOutsideTrans
  else if blockno ∈ log.lh then .ok log
  else .ok { log with lh := log.lh ++ [blockno] }

theorem logWrite_eq {log log' : Log} {b : Nat} (h : log.logWrite b = .ok log') :
    log' = { log with lh := if b ∈ log.lh then log.lh else log.lh ++ [b] } ∧
      log.lh.length < LOGSIZE ∧ log.lh.length + 1 < log.size := by
  unfold logWrite at h
  split at h
  · cases h
  · split at h
    · cases h
    · split at h <;> rename_i hmem <;> cases h <;> simp only [hmem, if_true, if_false] <;>
        exact ⟨trivial, by omega, by omega⟩

-- One operation: each block is modified in its buffer and passed to log_write.
def logWrites (log : Log) : List (Nat × Block) → LogProg Log
  | [] => pure log
  | (b, data) :: rest => do
    let _bp ← bread b
    bstore b data
    match log.logWrite b with
    | .ok log' => logWrites log' rest
    | .error e => .fail e

def transaction (log : Log) (txn : List (Nat × Block)) : LogProg Unit := do
  let log ← logWrites { log with outstanding := 1, lh := [] } txn
  commit log.start log.lh

def transactions (log : Log) : List (List (Nat × Block)) → LogProg Unit
  | [] => pure ()
  | txn :: rest => do
    transaction log txn
    transactions log rest

end Log
