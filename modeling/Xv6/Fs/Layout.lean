import Xv6.Block
import Xv6.Param

-- fs.h and stat.h

abbrev ROOTINO : Nat := 1
abbrev NDIRECT : Nat := 12
abbrev NINDIRECT : Nat := BSIZE / 4
abbrev MAXFILE : Nat := NDIRECT + NINDIRECT
abbrev DIRSIZ : Nat := 14

-- sizeof(struct dinode) is BSIZE: an inode fills its block.
abbrev IPB : Nat := BSIZE / 1024

abbrev BPB : Nat := BSIZE * 8

abbrev T_DIR : Int16 := 1
abbrev T_FILE : Int16 := 2
abbrev T_DEVICE : Int16 := 3

-- The superblock, with the order of the regions. The number of data blocks and the magic number
-- are not read.
structure Superblock where
  size : Nat
  ninodes : Nat
  nlog : Nat
  logstart : Nat
  inodestart : Nat
  bmapstart : Nat
  two_le_logstart : 2 ≤ logstart
  log_end : logstart + nlog ≤ inodestart
  inode_end : inodestart + ninodes ≤ bmapstart
  bmap_end : bmapstart + (size / BPB + 1) ≤ size
  size_lt : size < 2 ^ 31
  ninodes_le : ninodes ≤ 2 ^ 16
  root_lt : ROOTINO < ninodes

namespace Superblock

def IBLOCK (sb : Superblock) (i : Nat) : Nat := i / IPB + sb.inodestart

def BBLOCK (sb : Superblock) (b : Nat) : Nat := b / BPB + sb.bmapstart

-- The number of metadata blocks: the first data block.
def nmeta (sb : Superblock) : Nat := sb.bmapstart + (sb.size / BPB + 1)

-- What mkfs writes.
def mkfs : Superblock where
  size := FSSIZE
  ninodes := 200
  nlog := LOGSIZE
  logstart := 2
  inodestart := 2 + LOGSIZE
  bmapstart := 2 + LOGSIZE + (200 / IPB + 1)
  two_le_logstart := by decide
  log_end := by decide
  inode_end := by decide
  bmap_end := by decide
  size_lt := by decide
  ninodes_le := by decide
  root_lt := by decide

theorem IBLOCK_eq (sb : Superblock) (i : Nat) : sb.IBLOCK i = i + sb.inodestart := by
  simp [IBLOCK]

theorem IBLOCK_inj (sb : Superblock) {i j : Nat} (h : sb.IBLOCK i = sb.IBLOCK j) : i = j := by
  rw [IBLOCK_eq, IBLOCK_eq] at h
  omega

theorem bmapstart_lt (sb : Superblock) : sb.bmapstart < sb.nmeta :=
  Nat.lt_add_of_pos_right (Nat.succ_pos _)

end Superblock

-- struct dinode, without its padding.
@[ext] structure Dinode where
  type : Int16
  major : Int16
  minor : Int16
  nlink : Int16
  size : UInt32
  addrs : Fin (NDIRECT + 1) → UInt32
  mode : UInt16

namespace Dinode

def zero : Dinode := ⟨0, 0, 0, 0, 0, fun _ => 0, 0⟩

def byte (d : Dinode) (o : Nat) : UInt8 :=
  if o < 2 then Block.byteOf d.type.toUInt16.toNat o
  else if o < 4 then Block.byteOf d.major.toUInt16.toNat (o - 2)
  else if o < 6 then Block.byteOf d.minor.toUInt16.toNat (o - 4)
  else if o < 8 then Block.byteOf d.nlink.toUInt16.toNat (o - 6)
  else if o < 12 then Block.byteOf d.size.toNat (o - 8)
  else if h : (o - 12) / 4 < NDIRECT + 1 then Block.byteOf (d.addrs ⟨(o - 12) / 4, h⟩).toNat ((o - 12) % 4)
  else Block.byteOf d.mode.toNat (o - 64)

end Dinode

namespace Block

def dinode (b : Block) : Dinode where
  type := (b.get16 0).toInt16
  major := (b.get16 2).toInt16
  minor := (b.get16 4).toInt16
  nlink := (b.get16 6).toInt16
  size := b.get32 8
  addrs j := b.get32 (12 + 4 * j.val)
  mode := b.get16 64

def setDinode (b : Block) (d : Dinode) : Block := fun j => if j.val < 66 then d.byte j.val else b j

theorem get_setDinode (b : Block) (d : Dinode) (o : Nat) (ho : o < 66) : (b.setDinode d).get o = d.byte o := by
  have hb : o < BSIZE := by simp only [BSIZE]; omega
  simp [get, setDinode, hb, ho]

@[simp] theorem dinode_setDinode (b : Block) (d : Dinode) : (b.setDinode d).dinode = d := by
  have h16 : ∀ o v, o + 1 < 66 → d.byte o = byteOf v.toNat 0 → d.byte (o + 1) = byteOf v.toNat 1 →
      (b.setDinode d).get16 o = v := by
    intro o v ho h0 h1
    exact get16_of_bytes _ _ _ (by rw [get_setDinode _ _ _ (by omega), h0])
      (by rw [get_setDinode _ _ _ ho, h1])
  ext1
  · simp [dinode, h16 0 d.type.toUInt16 (by omega) rfl rfl]
  · simp [dinode, h16 2 d.major.toUInt16 (by omega) rfl rfl]
  · simp [dinode, h16 4 d.minor.toUInt16 (by omega) rfl rfl]
  · simp [dinode, h16 6 d.nlink.toUInt16 (by omega) rfl rfl]
  · apply get32_of_bytes <;> rw [get_setDinode _ _ _ (by omega)] <;> rfl
  · funext ⟨j, hj⟩
    have hbyte : ∀ r < 4, d.byte (12 + 4 * j + r) = byteOf (d.addrs ⟨j, hj⟩).toNat r := by
      intro r hr
      have hd : (12 + 4 * j + r - 12) / 4 = j := by omega
      have hm : (12 + 4 * j + r - 12) % 4 = r := by omega
      simp only [Dinode.byte, hd, hm]
      rw [if_neg (by omega), if_neg (by omega), if_neg (by omega), if_neg (by omega), if_neg (by omega), dif_pos hj]
    simp only [NDIRECT] at hj
    apply get32_of_bytes
    · rw [get_setDinode _ _ _ (by simp only; omega)]; exact hbyte 0 (by omega)
    · rw [get_setDinode _ _ _ (by simp only; omega)]; exact hbyte 1 (by omega)
    · rw [get_setDinode _ _ _ (by simp only; omega)]; exact hbyte 2 (by omega)
    · rw [get_setDinode _ _ _ (by simp only; omega)]; exact hbyte 3 (by omega)
  · exact h16 64 d.mode (by omega) rfl rfl

end Block
