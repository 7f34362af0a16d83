import Xv6.Fs.Dir

-- log.c: begin_op and end_op. file.c: open files.

namespace Fs

open Kernel

def beginOp : Kernel Unit := act .beginOp

def endOp : Kernel Unit := do
  let doCommit : Bool ← act .endOp
  if doCommit then do
    act .commit
    act .endCommit
  else pure ()

variable (sb : Superblock)

def filealloc : Kernel (Option Fd) := act .filealloc

def filedup (f : Fd) : Kernel Fd := do
  act (.filedup f)
  pure f

-- pipeclose works on the pipe alone, which is not modelled.
def fileclose (p : Pid) (f : Fd) : Kernel Unit := do
  let ff : Option File ← act (.fileUnref f)
  match ff with
  | none => pure ()
  | some ff =>
    if ff.type = .inode ∨ ff.type = .device then do
      beginOp
      let k ← deref ff.ip
      iput sb p k
      endOp
    else pure ()

structure Stat where
  dev : Nat
  ino : Nat
  type : Int16
  nlink : Int16
  size : UInt64
  mode : UInt16

def stati (ip : Inode) : Stat where
  dev := ip.dev
  ino := ip.inum
  type := ip.din.type
  nlink := ip.din.nlink
  size := ip.din.size.toUInt64
  mode := ip.din.mode

def fileOf (f : Fd) : Kernel File := act (.file f)

def filestat (p : Pid) (f : Fd) (dst : Bool) : Kernel (Int × Option Stat) := do
  let ff ← fileOf f
  if ff.type = .inode ∨ ff.type = .device then do
    let k ← deref ff.ip
    ilock sb p k
    let ip ← inode k
    iunlock p k
    if dst then pure (0, some (stati ip)) else pure (-1, none)
  else pure (-1, none)

-- The devices that have a read and a write routine: the console alone.
def CONSOLE : Int16 := 1

def hasDriver (major : Int16) : Bool := major = CONSOLE

def advance (f : Fd) (r : Int) : Kernel Unit :=
  if r > 0 then act (.setOff f fun off => off + UInt32.ofNat r.toNat) else pure ()

-- `io` is what the routine of the pipe or of the device returns.
def fileread (p : Pid) (f : Fd) (dst : Nat → Bool) (n : UInt32) (io : Int) : Kernel (Int × List UInt8) := do
  let ff ← fileOf f
  if ff.readable = false then pure (-1, [])
  else
    match ff.type with
    | .pipe => pure (io, [])
    | .device => if hasDriver ff.major then pure (io, []) else pure (-1, [])
    | .inode => do
      let k ← deref ff.ip
      ilock sb p k
      let ff ← fileOf f
      let r ← readi sb k dst ff.off n
      advance f r.1
      iunlock p k
      pure r
    | .none => panic .fileread

def MAXWRITE : Nat := (MAXOPBLOCKS - 1 - 1 - 2) / 2 * BSIZE

def writeChunks (p : Pid) (f : Fd) (k : Slot) (src : Nat → Option UInt8) (n : Nat) : Nat → Nat → Kernel Nat
  | 0, i => pure i
  | fuel + 1, i =>
    if i < n then do
      let n1 := min (n - i) MAXWRITE
      beginOp
      ilock sb p k
      let ff ← fileOf f
      let r ← writei sb k (fun j => src (i + j)) ff.off (UInt32.ofNat n1)
      advance f r
      iunlock p k
      endOp
      if r ≠ n1 then pure i else writeChunks p f k src n fuel (i + n1)
    else pure i

def filewrite (p : Pid) (f : Fd) (src : Nat → Option UInt8) (n : Int32) (io : Int) : Kernel Int := do
  let ff ← fileOf f
  if ff.writable = false then pure (-1)
  else
    match ff.type with
    | .pipe => pure io
    | .device => if hasDriver ff.major then pure io else pure (-1)
    | .inode => do
      let k ← deref ff.ip
      let i ← writeChunks sb p f k src n.toInt.toNat n.toInt.toNat 0
      if (i : Int) = n.toInt then pure n.toInt else pure (-1)
    | .none => panic .filewrite

end Fs
