import Xv6.Kernel

-- fs.c: blocks, inodes and their contents.

namespace Fs

open Kernel

variable (sb : Superblock)

def bzero (b : Nat) : Kernel Unit := do
  let _ ← act (.bsection b fun _ => (none, some Block.zero))

-- The inner loop of balloc, over the bits of the bitmap block for `b`.
def scanBits (data : Block) (b : Nat) : Nat → Nat → Option Nat
  | 0, _ => none
  | n + 1, bi =>
    if b + bi < sb.size then
      if data.bit bi then scanBits data b n (bi + 1) else some bi
    else none

def markFree (b : Nat) (data : Block) : Option Nat × Option Block :=
  match scanBits sb data b BPB 0 with
  | some bi => (some bi, some (data.setBit bi))
  | none => (none, none)

def ballocFrom : Nat → Nat → Kernel Nat
  | 0, _ => pure 0
  | n + 1, b =>
    if b < sb.size then do
      match ← act (.bsection (sb.BBLOCK b) (markFree sb b)) with
      | some bi => do
        bzero (b + bi)
        pure (b + bi)
      | none => ballocFrom n (b + BPB)
    else pure 0

def balloc : Kernel Nat := ballocFrom sb (sb.size / BPB + 1) 0

def unmark (b : Nat) (data : Block) : Option Nat × Option Block :=
  if data.bit (b % BPB) then (some b, some (data.clearBit (b % BPB))) else (none, none)

def bfree (b : Nat) : Kernel Unit := do
  match ← act (.bsection (sb.BBLOCK b) (unmark b)) with
  | some _ => pure ()
  | none => panic .freeingFreeBlock

def claimDinode (type : Int16) (data : Block) : Option Nat × Option Block :=
  if data.dinode.type = 0 then
    (some 0, some (Block.zero.setDinode { Dinode.zero with type := type, mode := 6 }))
  else (none, none)

def iget (dev inum : Nat) : Kernel Slot := act (.iget dev inum)

def iallocFrom (dev : Nat) (type : Int16) : Nat → Nat → Kernel (Option Slot)
  | 0, _ => pure none
  | n + 1, inum =>
    if inum < sb.ninodes then do
      match ← act (.bsection (sb.IBLOCK inum) (claimDinode type)) with
      | some _ => do
        let ip ← iget dev inum
        pure (some ip)
      | none => iallocFrom dev type n (inum + 1)
    else pure none

def ialloc (dev : Nat) (type : Int16) : Kernel (Option Slot) := iallocFrom sb dev type sb.ninodes 1

def inode (k : Slot) : Kernel Inode := act (.inode k)

def setDin (k : Slot) (f : Dinode → Dinode) : Kernel Unit := act (.setDin k f)

def iupdate (k : Slot) : Kernel Unit := do
  let ip ← inode k
  let _ ← act (.bsection (sb.IBLOCK ip.inum) fun data => (none, some (data.setDinode ip.din)))

def idup (k : Slot) : Kernel Slot := do
  act (.idup k)
  pure k

def ilock (p : Pid) (k : Slot) : Kernel Unit := do
  let ip ← inode k
  if ip.ref < 1 then panic .ilock
  else do
    act (.acquiresleep k p)
    let ip ← inode k
    if ip.valid then pure ()
    else do
      let dip : Dinode ← act (.iload k (sb.IBLOCK ip.inum))
      if dip.type = 0 then panic .ilockNoType else pure ()

def iunlock (p : Pid) (k : Slot) : Kernel Unit := do
  let ip ← inode k
  if ip.lock ≠ some p ∨ ip.ref < 1 then panic .iunlock
  else act (.releasesleep k)

-- The address in slot `i` of the inode, as balloc returned it.
def setAddr (i : Fin (NDIRECT + 1)) (addr : Nat) (d : Dinode) : Dinode :=
  { d with addrs := Function.update d.addrs i (UInt32.ofNat addr) }

def truncDirect (k : Slot) : List (Fin (NDIRECT + 1)) → Kernel Unit
  | [] => pure ()
  | i :: is => do
    let ip ← inode k
    if ip.din.addrs i ≠ 0 then do
      bfree sb (ip.din.addrs i).toNat
      setDin k (setAddr i 0)
      truncDirect k is
    else truncDirect k is

def truncEntries (a : Block) : List Nat → Kernel Unit
  | [] => pure ()
  | j :: js =>
    if a.word j ≠ 0 then do
      bfree sb (a.word j).toNat
      truncEntries a js
    else truncEntries a js

def truncIndirect (k : Slot) : Kernel Unit := do
  let ip ← inode k
  if ip.din.addrs (Fin.last NDIRECT) ≠ 0 then do
    let a ← act (.bread (ip.din.addrs (Fin.last NDIRECT)).toNat)
    truncEntries sb a (List.range NINDIRECT)
    bfree sb (ip.din.addrs (Fin.last NDIRECT)).toNat
    setDin k (setAddr (Fin.last NDIRECT) 0)
  else pure ()

def itrunc (k : Slot) : Kernel Unit := do
  truncDirect sb k ((List.finRange NDIRECT).map Fin.castSucc)
  truncIndirect sb k
  setDin k fun d => { d with size := 0 }
  iupdate sb k

def iput (p : Pid) (k : Slot) : Kernel Unit := do
  let last : Bool ← act (.iputEnter k p)
  if last then do
    itrunc sb k
    setDin k fun d => { d with type := 0 }
    iupdate sb k
    act (.setValid k false)
    act (.releasesleep k)
    act (.iputLeave k)
  else pure ()

def iunlockput (p : Pid) (k : Slot) : Kernel Unit := do
  iunlock p k
  iput sb p k

def bmapSlot (k : Slot) (i : Fin (NDIRECT + 1)) : Kernel Nat := do
  let ip ← inode k
  if ip.din.addrs i = 0 then do
    let addr ← balloc sb
    if addr = 0 then pure 0
    else do
      setDin k (setAddr i addr)
      pure addr
  else pure (ip.din.addrs i).toNat

-- Entry `e` of the indirect block `ind`. Its buffer is used before and after balloc; the inode
-- stays locked.
def bmapEntry (ind e : Nat) : Kernel Nat := do
  let a ← act (.bread ind)
  if a.word e = 0 then do
    let addr ← balloc sb
    if addr = 0 then pure 0
    else do
      let _ ← act (.bsection ind fun a => (none, some (a.setWord e (UInt32.ofNat addr))))
      pure addr
  else pure (a.word e).toNat

def bmap (k : Slot) (bn : Nat) : Kernel Nat :=
  if h : bn < NDIRECT then bmapSlot sb k ⟨bn, by omega⟩
  else if bn - NDIRECT < NINDIRECT then do
    let ind ← bmapSlot sb k (Fin.last NDIRECT)
    if ind = 0 then pure 0 else bmapEntry sb ind (bn - NDIRECT)
  else panic .bmapOutOfRange

-- `dst` says what is writable, `src` gives what is readable. Both functions stop at the first page
-- that is not mapped.
def eitherCopyout (dst : Nat → Bool) (at_ : Nat) (bytes : List UInt8) : List UInt8 × Bool :=
  let sent := (bytes.zipIdx.takeWhile fun x => dst (at_ + x.2)).map Prod.fst
  (sent, sent.length = bytes.length)

def eitherCopyin (src : Nat → Option UInt8) (at_ m : Nat) : List UInt8 × Bool :=
  let got := ((List.range m).map fun i => src (at_ + i)).takeWhile Option.isSome
  (got.map fun b => b.getD 0, got.length = m)

-- A destination or source in the kernel's own memory.
def kernelDst : Nat → Bool := fun _ => true

def kernelSrc (bytes : List UInt8) : Nat → Option UInt8 := fun i => some (bytes.getD i 0)

def readLoop (k : Slot) (dst : Nat → Bool) : Nat → Nat → Nat → Nat → List UInt8 → Kernel (Int × List UInt8)
  | 0, _, _, tot, acc => pure (tot, acc)
  | fuel + 1, off, n, tot, acc =>
    if tot < n then do
      let addr ← bmap sb k (off / BSIZE)
      if addr = 0 then pure (tot, acc)
      else do
        let bp ← act (.bread addr)
        let m := min (n - tot) (BSIZE - off % BSIZE)
        match eitherCopyout dst tot (bp.read (off % BSIZE) m) with
        | (sent, true) => readLoop k dst fuel (off + m) n (tot + m) (acc ++ sent)
        | (sent, false) => pure (-1, acc ++ sent)
    else pure (tot, acc)

def readi (k : Slot) (dst : Nat → Bool) (off n : UInt32) : Kernel (Int × List UInt8) := do
  let ip ← inode k
  if off > ip.din.size ∨ off + n < off then pure (0, [])
  else
    let n := if off + n > ip.din.size then ip.din.size - off else n
    readLoop sb k dst n.toNat off.toNat n.toNat 0 []

def writeLoop (k : Slot) (src : Nat → Option UInt8) : Nat → Nat → Nat → Nat → Kernel (Nat × Nat)
  | 0, off, _, tot => pure (tot, off)
  | fuel + 1, off, n, tot =>
    if tot < n then do
      let addr ← bmap sb k (off / BSIZE)
      if addr = 0 then pure (tot, off)
      else
        let m := min (n - tot) (BSIZE - off % BSIZE)
        match eitherCopyin src tot m with
        | (bytes, true) => do
          let _ ← act (.bsection addr fun bp => (none, some (bp.write (off % BSIZE) bytes)))
          writeLoop k src fuel (off + m) n (tot + m)
        | (bytes, false) => do
          -- what was copied before the fault stays in the buffer
          act (.bstore addr fun bp => bp.write (off % BSIZE) bytes)
          pure (tot, off)
    else pure (tot, off)

def writei (k : Slot) (src : Nat → Option UInt8) (off n : UInt32) : Kernel Int := do
  let ip ← inode k
  if off > ip.din.size ∨ off + n < off then pure (-1)
  else if (off + n).toNat > MAXFILE * BSIZE then pure (-1)
  else do
    let (tot, off) ← writeLoop sb k src n.toNat off.toNat n.toNat 0
    if off > ip.din.size.toNat then setDin k fun d => { d with size := UInt32.ofNat off }
    else pure ()
    iupdate sb k
    pure tot

end Fs
