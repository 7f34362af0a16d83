import Xv6.Fs.Dir

-- The file system as the blocks on disk, or in the buffer cache, hold it.

namespace Loc

-- A place that holds a block number: a slot of the inode or an entry of its indirect block.
inductive Pos where
  | slot (j : Fin (NDIRECT + 1))
  | entry (e : Nat)
  deriving DecidableEq

def pos (bn : Nat) : Pos :=
  if h : bn < NDIRECT then .slot ⟨bn, Nat.lt_succ_of_lt h⟩ else .entry (bn - NDIRECT)

theorem pos_inj {m n : Nat} (h : pos m = pos n) : m = n := by
  unfold pos at h
  by_cases hm : m < NDIRECT <;> by_cases hn : n < NDIRECT
  · simpa [hm, hn] using h
  · simp [hm, hn] at h
  · simp [hm, hn] at h
  · rw [dif_neg hm, dif_neg hn, Pos.entry.injEq] at h
    omega

theorem pos_ne_last (bn : Nat) : pos bn ≠ .slot (Fin.last NDIRECT) := by
  unfold pos
  by_cases h : bn < NDIRECT
  · rw [dif_pos h, ne_eq, Pos.slot.injEq, Fin.ext_iff]
    exact h.ne
  · simp [h]

theorem nmeta_pos (sb : Superblock) : 0 < sb.nmeta := lt_of_le_of_lt (Nat.zero_le _) sb.bmapstart_lt

end Loc

namespace Fs

open Loc List

theorem length_strncpy (t : List UInt8) (n : Nat) : (strncpy t n).length = n := by
  induction n generalizing t with
  | zero => rfl
  | succ n ih =>
    rw [strncpy]
    by_cases h : t.headD 0 = 0
    · rw [if_pos h, length_replicate]
    · rw [if_neg h, length_cons, ih]

theorem Dirent.length_toBytes {de : Dirent} (h : de.name.length = DIRSIZ) : de.toBytes.length = DIRENT := by
  simp only [toBytes, length_cons, h, DIRENT]
  omega

theorem Dirent.ofBytes_toBytes {de : Dirent} (h : de.name.length = DIRSIZ) : ofBytes de.toBytes = de := by
  have hlt := de.inum.toNat_lt
  obtain ⟨inum, name⟩ := de
  simp only [ofBytes, toBytes, Dirent.mk.injEq]
  constructor
  · apply UInt16.toNat.inj
    simp only [getD_cons_zero, getD_cons_succ, UInt8.toNat_ofNat', UInt16.toNat_ofNat']
    simp only at hlt
    omega
  · simp only [drop_succ_cons, drop_zero]
    exact take_of_length_le h.le

theorem off_succ (j : Nat) : j * DIRENT + DIRENT = (j + 1) * DIRENT := (Nat.succ_mul j DIRENT).symm

theorem eitherCopyout_eq (dst : Nat → Bool) (at_ : Nat) (bytes : List UInt8)
    (h : ∀ j < bytes.length, dst (at_ + j) = true) : eitherCopyout dst at_ bytes = (bytes, true) := by
  have hall : bytes.zipIdx.takeWhile (fun x => dst (at_ + x.2)) = bytes.zipIdx := by
    rw [takeWhile_eq_self_iff]
    intro x hx
    exact h x.2 (by simpa using snd_lt_add_of_mem_zipIdx hx)
  simp [eitherCopyout, hall]

theorem not_wrap {off n : UInt32} (h : ¬off + n < off) : (off + n).toNat = off.toNat + n.toNat := by
  have h1 := off.toNat_lt
  have h2 := n.toNat_lt
  rw [UInt32.lt_iff_toNat_lt, UInt32.toNat_add] at h
  rw [UInt32.toNat_add]
  omega

theorem readCount {off n size : UInt32} (hoff : off.toNat ≤ size.toNat) (hwrap : ¬off + n < off) :
    (if off + n > size then size - off else n).toNat = min n.toNat (size.toNat - off.toNat) := by
  have hsum := not_wrap hwrap
  by_cases h : off + n > size
  · have hlt := UInt32.lt_iff_toNat_lt.mp h
    rw [if_pos h, UInt32.toNat_sub_of_le _ _ hoff]
    omega
  · have hle := UInt32.not_lt.mp h
    rw [UInt32.le_iff_toNat_le] at hle
    rw [if_neg h]
    omega

section Defs

variable (sb : Superblock) (c : Nat → Block)

def inodeOf (i : Nat) : Dinode := (c (sb.IBLOCK i)).dinode

-- The block number at a place of an inode, 0 if there is none.
def addrOf (d : Dinode) : Pos → Nat
  | .slot j => (d.addrs j).toNat
  | .entry e => if d.addrs (Fin.last NDIRECT) = 0 then 0
    else ((c (d.addrs (Fin.last NDIRECT)).toNat).word e).toNat

def blockOf (d : Dinode) (bn : Nat) : Nat := addrOf c d (pos bn)

def byteOf (d : Dinode) (o : Nat) : UInt8 :=
  if blockOf c d (o / BSIZE) = 0 then 0 else (c (blockOf c d (o / BSIZE))).get (o % BSIZE)

def direntOf (d : Dinode) (j : Nat) : Dirent :=
  Dirent.ofBytes ((List.range DIRENT).map fun r => byteOf c d (j * DIRENT + r))

end Defs

end Fs
