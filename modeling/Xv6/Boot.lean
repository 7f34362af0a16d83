import Xv6.Refs.Exact

-- The state in which the first process starts, and small disks to run it on.

namespace Fs

open Prog

-- After fsinit and userinit; namei has not read the root directory from the disk.
def boot (sb : Superblock) (disk : Nat → Block) : World where
  dev := ⟨disk, disk, []⟩
  log := ⟨sb.logstart, sb.nlog, 0, false, []⟩
  itable k := if k = 0 then ⟨ROOTDEV, ROOTINO, 1, none, false, Dinode.zero⟩
    else ⟨0, 0, 0, none, false, Dinode.zero⟩
  ftable _ := ⟨.none, 0, false, false, none, none, 0, 0⟩
  proc p := if p = initproc then ⟨.runnable, none, fun _ => none, some 0⟩
    else ⟨.unused, none, fun _ => none, none⟩

section Boot

variable (sb : Superblock) (disk : Nat → Block)

theorem boot_ofile (p : Pid) : ((boot sb disk).proc p).ofile = fun _ => none := by
  simp only [boot]
  split <;> rfl

theorem boot_cwd (p : Pid) : ((boot sb disk).proc p).cwd = if p = initproc then some 0 else none := by
  simp only [boot]
  split <;> rfl

theorem boot_ref (k : Slot) : ((boot sb disk).itable k).ref = if k = 0 then 1 else 0 := by
  simp only [boot]
  split <;> rfl

theorem boot_lock (k : Slot) : ((boot sb disk).itable k).lock = none := by
  simp only [boot]
  split <;> rfl

theorem boot_files (k : Slot) : files (boot sb disk) k = 0 := by
  simp [files, fileCount, boot]

theorem boot_cwds (k : Slot) : cwds (boot sb disk) k = if k = 0 then 1 else 0 := by
  unfold cwds
  simp only [boot_cwd]
  rw [Finset.sum_eq_single initproc]
  · simp [cwdCount, eq_comm]
  · intro p _ hp
    simp [cwdCount, hp]
  · intro h
    exact absurd (Finset.mem_univ _) h

theorem settled_boot : Settled (boot sb disk) where
  outstanding := rfl
  lock := boot_lock sb disk
  iref k := by rw [boot_ref, boot_files, boot_cwds, Int.zero_add]
  fref f := by
    simp only [boot_ofile, fdCount_none, Finset.sum_const_zero]
    rfl
  free _ _ := rfl
  used p := by
    simp only [boot]
    split <;> decide
  gone p hp := by
    refine ⟨boot_ofile sb disk p, ?_⟩
    simp only [boot] at hp ⊢
    split at hp
    · rcases hp with hp | hp <;> cases hp
    · next h => rw [if_neg h]

end Boot

-- One block of free map and seven data blocks.
def tiny : Superblock where
  size := 48
  ninodes := 8
  nlog := LOGSIZE
  logstart := 2
  inodestart := 2 + LOGSIZE
  bmapstart := 40
  two_le_logstart := Superblock.mkfs.two_le_logstart
  log_end := Superblock.mkfs.log_end
  inode_end := by decide
  bmap_end := by decide
  size_lt := by decide
  ninodes_le := by decide
  root_lt := by decide

def dirent (inum : UInt16) (name : Name) : List UInt8 := Dirent.toBytes ⟨inum, strncpy name DIRSIZ⟩

def oneBlock (type nlink : Int16) (size addr : UInt32) (mode : UInt16) : Dinode :=
  ⟨type, 0, 0, nlink, size, fun j => if j = 0 then addr else 0, mode⟩

def F : Name := [102]

-- The root directory with the file "f" of two bytes, which may only be read.
def readOnlyDisk (b : Nat) : Block :=
  if b = tiny.IBLOCK 1 then Block.zero.setDinode (oneBlock T_DIR 1 48 41 (S_IRUSR ||| S_IWUSR))
  else if b = tiny.IBLOCK 2 then Block.zero.setDinode (oneBlock T_FILE 1 2 42 S_IRUSR)
  else if b = tiny.bmapstart then Block.zero.write 0 [255, 255, 255, 255, 255, 7]
  else if b = 41 then Block.zero.write 0 (dirent 1 DOT ++ dirent 1 DOTDOT ++ dirent 2 F)
  else if b = 42 then Block.zero.write 0 [7, 9]
  else Block.zero

def ends {α : Type} (P : α → World → Bool) : Outcome Panic World α → Bool
  | .done r w => P r w
  | _ => false

theorem done_of_ends {α : Type} {P : α → World → Bool} {o : Outcome Panic World α} (h : ends P o = true) :
    ∃ r w, o = .done r w ∧ P r w = true := by
  cases o with
  | done r w => exact ⟨r, w, rfl, h⟩
  | fail e w => cases h
  | wait => cases h

-- One call from its start to its return, in `n` steps.
def oneCall (p : Pid) (c : Syscall) (n : Nat) : List (Move Pid Syscall) :=
  .start p c :: List.replicate n (.step p) ++ [.finish p]

end Fs
