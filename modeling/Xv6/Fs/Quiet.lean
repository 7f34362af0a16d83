import Xv6.Proc

-- The functions that take no lock, no reference and no transaction.

namespace Fs

open Prog

-- The steps that work on the contents of the file system alone.
def quiet : Act → Prop
  | .commit | .endCommit | .bread _ | .bsection _ _ | .bstore _ _ | .inode _ | .setDin _ _ | .iload _ _
  | .setValid _ _ | .file _ | .setOff _ _ | .setParent _ _ => True
  | _ => False

abbrev Quiet {α : Type} (m : Kernel α) : Prop := m.All quiet

def inner : Act → Prop
  | .bread _ | .bsection _ _ | .bstore _ _ | .inode _ | .setDin _ _ => True
  | _ => False

abbrev Inner {α : Type} (m : Kernel α) : Prop := m.All inner

theorem quiet_of_inner {α : Type} {m : Kernel α} (h : Inner m) : Quiet m := all_mono h fun a ha => by
  cases a <;> trivial

section Inner

variable (sb : Superblock)

theorem inode_inner (k : Slot) : Inner (inode k) := all_lift trivial

theorem setDin_inner (k : Slot) (f : Dinode → Dinode) : Inner (setDin k f) := all_lift trivial

theorem bzero_inner (b : Nat) : Inner (bzero b) := ⟨trivial, fun _ => trivial⟩

theorem ballocFrom_inner (n b : Nat) : Inner (ballocFrom sb n b) := by
  induction n generalizing b with
  | zero => trivial
  | succ n ih =>
    rw [ballocFrom]
    split
    · refine all_bind (all_lift trivial) fun r => ?_
      cases (r : Option Nat) with
      | none => exact ih _
      | some bi => exact all_bind (bzero_inner _) fun _ => trivial
    · trivial

theorem balloc_inner : Inner (balloc sb) := ballocFrom_inner sb _ _

theorem bmapSlot_inner (k : Slot) (i : Fin (NDIRECT + 1)) : Inner (bmapSlot sb k i) := by
  refine all_bind (inode_inner k) fun ip => ?_
  split
  · refine all_bind (balloc_inner sb) fun addr => ?_
    split
    · trivial
    · exact all_bind (setDin_inner k _) fun _ => trivial
  · trivial

theorem bmapEntry_inner (ind e : Nat) : Inner (bmapEntry sb ind e) := by
  refine all_bind (all_lift trivial) fun (a : Block) => ?_
  split
  · refine all_bind (balloc_inner sb) fun addr => ?_
    split
    · trivial
    · exact all_bind (all_lift trivial) fun _ => trivial
  · trivial

theorem bmap_inner (k : Slot) (bn : Nat) : Inner (bmap sb k bn) := by
  unfold bmap
  split
  · exact bmapSlot_inner sb k _
  split
  · refine all_bind (bmapSlot_inner sb k _) fun ind => ?_
    split
    · trivial
    · exact bmapEntry_inner sb ind _
  · trivial

theorem readLoop_inner (k : Slot) (dst : Nat → Bool) (fuel off n tot : Nat) (acc : List UInt8) :
    Inner (readLoop sb k dst fuel off n tot acc) := by
  induction fuel generalizing off tot acc with
  | zero => trivial
  | succ fuel ih =>
    rw [readLoop]
    split
    · refine all_bind (bmap_inner sb k _) fun addr => ?_
      split
      · trivial
      refine all_bind (all_lift trivial) fun (bp : Block) => ?_
      dsimp only
      split
      · exact ih _ _ _
      · trivial
    · trivial

theorem readi_inner (k : Slot) (dst : Nat → Bool) (off n : UInt32) : Inner (readi sb k dst off n) := by
  refine all_bind (inode_inner k) fun ip => ?_
  split
  · trivial
  · exact readLoop_inner sb k dst _ _ _ _ _

theorem bfree_inner (b : Nat) : Inner (bfree sb b) := by
  refine all_bind (all_lift trivial) fun r => ?_
  cases (r : Option Nat) <;> trivial

theorem iupdate_inner (k : Slot) : Inner (iupdate sb k) :=
  all_bind (inode_inner k) fun _ => all_bind (all_lift trivial) fun _ => trivial

theorem truncDirect_inner (k : Slot) (is : List (Fin (NDIRECT + 1))) : Inner (truncDirect sb k is) := by
  induction is with
  | nil => trivial
  | cons i is ih =>
    refine all_bind (inode_inner k) fun ip => ?_
    split
    · exact all_bind (bfree_inner sb _) fun _ => all_bind (setDin_inner k _) fun _ => ih
    · exact ih

theorem truncEntries_inner (a : Block) (js : List Nat) : Inner (truncEntries sb a js) := by
  induction js with
  | nil => trivial
  | cons j js ih =>
    rw [truncEntries]
    split
    · exact all_bind (bfree_inner sb _) fun _ => ih
    · exact ih

theorem truncIndirect_inner (k : Slot) : Inner (truncIndirect sb k) := by
  refine all_bind (inode_inner k) fun ip => ?_
  split
  · exact all_bind (all_lift trivial) fun a => all_bind (truncEntries_inner sb a _) fun _ =>
      all_bind (bfree_inner sb _) fun _ => setDin_inner k _
  · trivial

theorem itrunc_inner (k : Slot) : Inner (itrunc sb k) :=
  all_bind (truncDirect_inner sb k _) fun _ => all_bind (truncIndirect_inner sb k) fun _ =>
    all_bind (setDin_inner k _) fun _ => iupdate_inner sb k

theorem writeLoop_inner (k : Slot) (src : Nat → Option UInt8) (fuel off n tot : Nat) :
    Inner (writeLoop sb k src fuel off n tot) := by
  induction fuel generalizing off tot with
  | zero => trivial
  | succ fuel ih =>
    rw [writeLoop]
    split
    · refine all_bind (bmap_inner sb k _) fun addr => ?_
      split
      · trivial
      · dsimp only
        split
        · exact all_bind (all_lift trivial) fun _ => ih _ _
        · exact all_bind (all_lift trivial) fun _ => trivial
    · trivial

theorem writei_inner (k : Slot) (src : Nat → Option UInt8) (off n : UInt32) : Inner (writei sb k src off n) := by
  refine all_bind (inode_inner k) fun ip => ?_
  split
  · trivial
  split
  · trivial
  refine all_bind (writeLoop_inner sb k src _ _ _ _) fun r => ?_
  dsimp only
  split
  · exact all_bind (setDin_inner k _) fun _ => all_bind (iupdate_inner sb k) fun _ => trivial
  · exact all_bind (iupdate_inner sb k) fun _ => trivial

end Inner

section Quiet

variable (sb : Superblock)

section

variable (k : Slot)

theorem inode_quiet : Quiet (inode k) := all_lift trivial

theorem setDin_quiet (f : Dinode → Dinode) : Quiet (setDin k f) := all_lift trivial

theorem iupdate_quiet : Quiet (iupdate sb k) := quiet_of_inner (iupdate_inner sb k)

theorem itrunc_quiet : Quiet (itrunc sb k) := quiet_of_inner (itrunc_inner sb k)

theorem readi_quiet (dst : Nat → Bool) (off n : UInt32) : Quiet (readi sb k dst off n) :=
  quiet_of_inner (readi_inner sb k dst off n)

theorem writei_quiet (src : Nat → Option UInt8) (off n : UInt32) :
    Quiet (writei sb k src off n) := quiet_of_inner (writei_inner sb k src off n)

theorem searchFrom_quiet (name : Name) (fuel off : Nat) : Quiet (searchFrom sb k name fuel off) := by
  induction fuel generalizing off with
  | zero => trivial
  | succ fuel ih =>
    refine all_bind (inode_quiet k) fun dp => ?_
    split
    · refine all_bind (readi_quiet sb k _ _ _) fun r => ?_
      dsimp only
      split
      · trivial
      · split
        · trivial
        · exact ih _
    · trivial

theorem freeFrom_quiet (fuel off : Nat) : Quiet (freeFrom sb k fuel off) := by
  induction fuel generalizing off with
  | zero => trivial
  | succ fuel ih =>
    refine all_bind (inode_quiet k) fun dp => ?_
    split
    · refine all_bind (readi_quiet sb k _ _ _) fun r => ?_
      dsimp only
      split
      · trivial
      · split
        · trivial
        · exact ih _
    · trivial

theorem writeDirent_quiet (de : Dirent) (off : Nat) : Quiet (writeDirent sb k de off) :=
  writei_quiet sb k _ _ _

theorem emptyFrom_quiet (fuel off : Nat) : Quiet (emptyFrom sb k fuel off) := by
  induction fuel generalizing off with
  | zero => trivial
  | succ fuel ih =>
    refine all_bind (inode_quiet k) fun dp => ?_
    split
    · refine all_bind (readi_quiet sb k _ _ _) fun r => ?_
      dsimp only
      split
      · trivial
      · split
        · trivial
        · exact ih _
    · trivial

theorem isdirempty_quiet : Quiet (isdirempty sb k) :=
  all_bind (inode_quiet k) fun _ => emptyFrom_quiet sb k _ _

end

theorem deref_quiet (ip : Option Slot) : Quiet (deref ip) := by
  cases ip <;> trivial

theorem fileOf_quiet (f : Fd) : Quiet (fileOf f) := all_lift trivial

theorem addParent_quiet (n : Int16) (dp : Slot) (type : Int16) : Quiet (addParent sb n dp type) := by
  unfold addParent
  exact all_ite (all_bind (setDin_quiet dp _) fun _ => iupdate_quiet sb dp) trivial

theorem mayUnlink_quiet (k : Slot) (type : Int16) : Quiet (mayUnlink sb k type) :=
  all_ite (isdirempty_quiet sb k) trivial

theorem openTrunc_quiet (k : Slot) (omode : UInt32) (type : Int16) : Quiet (openTrunc sb k omode type) :=
  all_ite (itrunc_quiet sb k) trivial

theorem loadseg_quiet (k : Slot) (offset sz : UInt32) (fuel : Nat) (i : UInt32) :
    Quiet (loadseg sb k offset sz fuel i) := by
  induction fuel generalizing i with
  | zero => trivial
  | succ fuel ih =>
    rw [loadseg]
    exact all_ite (all_bind (readi_quiet sb k _ _ _) fun _ => all_ite trivial (ih _)) trivial

theorem loadProg_quiet (k : Slot) (vm : Nat → Bool) (n : Nat) (off : UInt32) : Quiet (loadProg sb k vm n off) := by
  induction n generalizing off with
  | zero => trivial
  | succ n ih =>
    refine all_bind (readi_quiet sb k _ _ _) fun r => ?_
    dsimp only
    generalize number r.2 0 4 = type, number r.2 40 8 = memsz, number r.2 32 8 = filesz,
      number r.2 16 8 = vaddr, number r.2 8 8 = offset
    refine all_ite trivial (all_ite (ih _) (all_ite trivial (all_ite trivial (all_ite trivial
      (all_ite trivial ?_)))))
    exact all_bind (loadseg_quiet sb k _ _ _ _) fun _ => all_ite (ih _) trivial

theorem execLoad_quiet (k : Slot) (vm : Nat → Bool) (pagetable : Bool) : Quiet (execLoad sb k vm pagetable) := by
  refine all_bind (readi_quiet sb k _ _ _) fun r => ?_
  dsimp only
  generalize number r.2 0 4 = magic
  exact all_ite trivial (all_ite trivial (all_ite trivial (loadProg_quiet sb k vm _ _)))

end Quiet

end Fs
