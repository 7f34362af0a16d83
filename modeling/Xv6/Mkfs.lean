import Xv6.Fs.Dir

-- mkfs/mkfs.c, on a host with the disk's byte order. No result is a failed assertion or die.

namespace Mkfs

abbrev sb : Superblock := .mkfs

-- The image file, as far as it is written, and the two counters.
structure Image where
  disk : Nat → Block
  sectors : Nat
  freeinode : Nat
  freeblock : Nat

def wsect (s : Image) (sec : Nat) (buf : Block) : Image :=
  { s with disk := Function.update s.disk sec buf, sectors := max s.sectors (sec + 1) }

def rsect (s : Image) (sec : Nat) : Option Block := if sec < s.sectors then some (s.disk sec) else none

-- A struct dinode is as large as a block, so a copy of it is the whole block.
def winode (s : Image) (inum : Nat) (din : Block) : Option Image := do
  let _ ← rsect s (sb.IBLOCK inum)
  some (wsect s (sb.IBLOCK inum) din)

def rinode (s : Image) (inum : Nat) : Option Block := rsect s (sb.IBLOCK inum)

def ialloc (s : Image) (type : Int16) : Option (Nat × Image) := do
  let inum := s.freeinode
  let din : Dinode := { Dinode.zero with type := type, nlink := 1, size := 0, mode := 6 }
  let s ← winode { s with freeinode := inum + 1 } inum (Block.zero.setDinode din)
  some (inum, s)

-- An address that is still zero is set to the next free block.
def fillSlot (s : Image) (din : Block) (j : Fin (NDIRECT + 1)) : Image × Block :=
  if din.dinode.addrs j = 0 then
    ({ s with freeblock := s.freeblock + 1 }, din.setDinode (Fs.setAddr j s.freeblock din.dinode))
  else (s, din)

-- So is an entry of the indirect block.
def fillEntry (s : Image) (ind e : Nat) : Option (Image × Nat) := do
  let indirect ← rsect s ind
  if indirect.word e = 0 then
    let indirect := indirect.setWord e (UInt32.ofNat s.freeblock)
    some (wsect { s with freeblock := s.freeblock + 1 } ind indirect, (indirect.word e).toNat)
  else some (s, (indirect.word e).toNat)

def locate (s : Image) (din : Block) (fbn : Nat) : Option (Image × Block × Nat) :=
  if h : fbn < NDIRECT then
    let (s, din) := fillSlot s din ⟨fbn, Nat.lt_succ_of_lt h⟩
    some (s, din, (din.dinode.addrs ⟨fbn, Nat.lt_succ_of_lt h⟩).toNat)
  else
    let (s, din) := fillSlot s din (Fin.last NDIRECT)
    do
      let (s, x) ← fillEntry s (din.dinode.addrs (Fin.last NDIRECT)).toNat (fbn - NDIRECT)
      some (s, din, x)

-- The loop of iappend; it is done before the fuel is, as a byte is written each time.
def appendLoop : Nat → Image → Block → Nat → List UInt8 → Option (Image × Block × Nat)
  | _, s, din, off, [] => some (s, din, off)
  | 0, _, _, _, _ :: _ => none
  | n + 1, s, din, off, b :: bs =>
    if off / BSIZE < MAXFILE then do
      let (s, din, x) ← locate s din (off / BSIZE)
      let n1 := min (b :: bs).length ((off / BSIZE + 1) * BSIZE - off)
      let buf ← rsect s x
      let s := wsect s x (buf.write (off - off / BSIZE * BSIZE) ((b :: bs).take n1))
      appendLoop n s din (off + n1) ((b :: bs).drop n1)
    else none

def iappend (s : Image) (inum : Nat) (bytes : List UInt8) : Option Image := do
  let din ← rinode s inum
  let (s, din, off) ← appendLoop bytes.length s din din.dinode.size.toNat bytes
  winode s inum (din.setDinode { din.dinode with size := UInt32.ofNat off })

def bitmap (used : Nat) : Block := (List.range used).foldl Block.setBit Block.zero

def balloc (s : Image) (used : Nat) : Option Image :=
  if used < BPB then some (wsect s sb.bmapstart (bitmap used)) else none

-- A file of the host: its argument, and what each read of it returns.
structure HostFile where
  arg : List UInt8
  chunks : List (List UInt8)
  arg_nul : 0 ∉ arg
  chunk_size : ∀ c ∈ chunks, 0 < c.length ∧ c.length ≤ BSIZE

def HostFile.bytes (f : HostFile) : List UInt8 := f.chunks.flatten

-- "user/"
def USER : List UInt8 := [117, 115, 101, 114, 47]

def UNDERSCORE : UInt8 := 95

def stripped (arg : List UInt8) : List UInt8 := if arg.take 5 = USER then arg.drop 5 else arg

def shortname (arg : List UInt8) : Fs.Name :=
  if (stripped arg).head? = some UNDERSCORE then (stripped arg).tail else stripped arg

def dirent (inum : Nat) (name : Fs.Name) : List UInt8 :=
  Fs.Dirent.toBytes ⟨UInt16.ofNat inum, Fs.strncpy name DIRSIZ⟩

def Accepted (arg : List UInt8) : Prop := Fs.SLASH ∉ stripped arg ∧ (shortname arg).length ≤ DIRSIZ

instance (arg : List UInt8) : Decidable (Accepted arg) := inferInstanceAs (Decidable (_ ∧ _))

def appendChunks (s : Image) (inum : Nat) (chunks : List (List UInt8)) : Option Image :=
  chunks.foldlM (fun s c => iappend s inum c) s

def addFile (s : Image) (f : HostFile) : Option Image :=
  if Accepted f.arg then do
    let (inum, s) ← ialloc s T_FILE
    let s ← iappend s ROOTINO (dirent inum (shortname f.arg))
    appendChunks s inum f.chunks
  else none

def fixRoot (s : Image) : Option Image := do
  let din ← rinode s ROOTINO
  let off := din.dinode.size.toNat
  winode s ROOTINO (din.setDinode { din.dinode with size := UInt32.ofNat ((off / BSIZE + 1) * BSIZE) })

def FSMAGIC : UInt32 := 0x10203040

def superblock : Block :=
  Block.zero.write 0 (Block.le32 FSMAGIC ++ Block.le32 (UInt32.ofNat sb.size) ++
    Block.le32 (UInt32.ofNat (sb.size - sb.nmeta)) ++ Block.le32 (UInt32.ofNat sb.ninodes) ++
    Block.le32 (UInt32.ofNat sb.nlog) ++ Block.le32 (UInt32.ofNat sb.logstart) ++
    Block.le32 (UInt32.ofNat sb.inodestart) ++ Block.le32 (UInt32.ofNat sb.bmapstart))

-- All sectors zero but the superblock.
def blank : Image := wsect ⟨fun _ => Block.zero, FSSIZE, 1, sb.nmeta⟩ 1 superblock

-- ".", ".."
def DOTS : List Fs.Name := [[46], [46, 46]]

def makeRoot (s : Image) : Option Image := do
  let (rootino, s) ← ialloc s T_DIR
  if rootino = ROOTINO then
    DOTS.foldlM (fun s name => iappend s rootino (dirent rootino name)) s
  else none

def main (files : List HostFile) : Option Image := do
  let s ← makeRoot blank
  let s ← files.foldlM addFile s
  let s ← fixRoot s
  balloc s s.freeblock

end Mkfs
