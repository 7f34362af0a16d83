import Xv6.Sys.Own

-- What each call does to the pages: it gives back what it takes, or the process has it afterwards.

namespace Sys

open Vm Sep Prog
open scoped Pointwise

section Plain

variable {α : Type} (sb : Superblock) (p : Pid)

abbrev Plain (m : Kernel α) : Prop := m.All plain

theorem quiet_plain {m : Kernel α} (h : Fs.Quiet m) : Plain m := all_mono h fun a ha => by
  cases a <;> trivial

theorem endOp_plain : Plain Fs.endOp :=
  all_bind (all_lift trivial) fun (_ : Bool) =>
    all_ite (all_bind (all_lift trivial) fun _ => all_lift trivial) trivial

theorem idup_plain (k : Slot) : Plain (Fs.idup k) := all_bind (all_lift trivial) fun _ => trivial

theorem ilock_plain (k : Slot) : Plain (Fs.ilock sb p k) := by
  refine all_bind (quiet_plain (Fs.inode_quiet k)) fun ip => all_ite trivial ?_
  refine all_bind (all_lift trivial) fun _ => all_bind (quiet_plain (Fs.inode_quiet k)) fun ip => all_ite trivial ?_
  exact all_bind (all_lift trivial) fun (_ : Dinode) => all_ite trivial trivial

theorem iunlock_plain (k : Slot) : Plain (Fs.iunlock p k) :=
  all_bind (quiet_plain (Fs.inode_quiet k)) fun _ => all_ite trivial (all_lift trivial)

theorem iput_plain (k : Slot) : Plain (Fs.iput sb p k) := by
  refine all_bind (all_lift trivial) fun (_ : Bool) => all_ite ?_ trivial
  refine all_bind (quiet_plain (Fs.itrunc_quiet sb k)) fun _ => all_bind (quiet_plain (Fs.setDin_quiet k _)) fun _ => ?_
  refine all_bind (quiet_plain (Fs.iupdate_quiet sb k)) fun _ => all_bind (all_lift trivial) fun _ => ?_
  exact all_bind (all_lift trivial) fun _ => all_lift trivial

theorem iunlockput_plain (k : Slot) : Plain (Fs.iunlockput sb p k) :=
  all_bind (iunlock_plain p k) fun _ => iput_plain sb p k

theorem dirlookup_plain (k : Slot) (name : Fs.Name) : Plain (Fs.dirlookup sb k name) := by
  refine all_bind (quiet_plain (Fs.inode_quiet k)) fun dp => all_ite trivial ?_
  refine all_bind (quiet_plain (Fs.searchFrom_quiet sb k name _ _)) fun r => ?_
  match r with
  | none => trivial
  | some (inum, off) => exact all_bind (all_lift trivial) fun (_ : Slot) => trivial

theorem startDir_plain (path : List UInt8) : Plain (Fs.startDir p path) := by
  refine all_ite (all_lift trivial) (all_bind (all_lift trivial) fun (pr : Proc) => ?_)
  exact all_bind (quiet_plain (Fs.deref_quiet _)) fun cwd => idup_plain cwd

theorem namexFrom_plain (parent : Bool) (names : List Fs.Name) (k : Slot) : Plain (Fs.namexFrom sb p parent names k) := by
  induction names generalizing k with
  | nil => exact all_ite (all_bind (iput_plain sb p k) fun _ => trivial) trivial
  | cons name names ih =>
    refine all_bind (ilock_plain sb p k) fun _ => all_bind (quiet_plain (Fs.inode_quiet k)) fun ip => ?_
    refine all_ite (all_bind (iunlockput_plain sb p k) fun _ => trivial) ?_
    refine all_ite (all_bind (iunlock_plain p k) fun _ => trivial) ?_
    refine all_bind (dirlookup_plain sb k name) fun r => ?_
    match r with
    | none => exact all_bind (iunlockput_plain sb p k) fun _ => trivial
    | some (next, _) => exact all_bind (iunlockput_plain sb p k) fun _ => ih next

theorem namei_plain (path : List UInt8) : Plain (Fs.namei sb p path) := by
  refine all_bind (all_bind (startDir_plain p path) fun k => namexFrom_plain sb p false _ k) fun r => ?_
  match r with
  | none => trivial
  | some (k, _) => trivial

end Plain

def Has (P : Assn Nat Page) (me : ProcMem) (kid : Option (Pid × ProcMem)) (ends : List (Nat × Bool)) :
    Set (Option Own) :=
  {o | ∃ h ∈ P, Valid h ∧ o = some ⟨h, me, kid, ends⟩}

-- The panics of the memory system do not happen.
def benign : SysPanic → Prop
  | .fs _ => True
  | .vm _ => False

abbrev Does {α : Type} (L : Layout) (p : Pid) (A : Set (Option Own)) (m : SysM α) (B : α → Set (Option Own)) : Prop :=
  Hoare (OwnRule L p) benign A m B

variable {L : Layout} {kid : Option (Pid × ProcMem)} {ends : List (Nat × Bool)}

section Does

variable {α β : Type} {p q : Pid} {P P' R F : Assn Nat Page} {me pr : ProcMem} {B : α → Set (Option Own)}

theorem has_mono (h : P ⊆ P') : Has P me kid ends ⊆ Has P' me kid ends := by
  rintro o ⟨s, hs, hv, rfl⟩
  exact ⟨s, h hs, hv, rfl⟩

theorem has_ex {ι : Sort*} {P : ι → Assn Nat Page} {m : SysM α} (h : ∀ i, Does L p (Has (P i) me kid ends) m B) :
    Does L p (Has (⋃ i, P i) me kid ends) m B := by
  rintro o ⟨s, hs, hv, rfl⟩
  obtain ⟨i, hi⟩ := Set.mem_iUnion.mp hs
  exact h i _ ⟨s, hi, hv, rfl⟩

theorem has_know {φ : Prop} {m : SysM α} (hφ : ∀ h ∈ P, Valid h → φ) (h : φ → Does L p (Has P me kid ends) m B) :
    Does L p (Has P me kid ends) m B := by
  rintro o ⟨s, hs, hv, rfl⟩
  exact h (hφ s hs hv) _ ⟨s, hs, hv, rfl⟩

variable {Q R : α → Assn Nat Page} {B : β → Set (Option Own)} {k : α → SysM β} {m : Kernel α}

theorem ofMem_own {m : Phys α} (h : Spec L P m Q) (F : Assn Nat Page) :
    Does L p (Has (P * F) me kid ends) (ofMem m) fun a => Has (Q a * F) me kid ends := by
  rintro o ⟨_, ⟨s, hs, f, hf, rfl⟩, hv, rfl⟩
  have hrule : ∀ (a : MemAct Nat Page) (t : Heap Nat Page) (P : a.Res → Heap Nat Page → Prop),
      memRule (· ∈ L.frames) (.fill 5) a t P → ∃ P' : a.Res → Option Own → Prop,
        OwnRule L p (.mem a) (some ⟨t, me, kid, ends⟩) P' ∧
        ∀ r u, P' r u → ∃ t', u = some ⟨t', me, kid, ends⟩ ∧ P r t' := fun a t P hr =>
    ⟨_, .mem hr, fun r u ⟨h', hP, hu⟩ => ⟨h', hu, hP⟩⟩
  have hemb := awp_embed (T := sysSig) SysAct.mem (fun _ r => r) SysPanic.vm (OwnRule L p) benign
    (fun h => some ⟨h, me, kid, ends⟩) hrule (fun _ h => h.elim) (h s f hs hv)
  refine awp_mono hemb ?_
  rintro a u ⟨h', rfl, hv', q, hq, rfl⟩
  exact ⟨q * f, Set.mul_mem_mul hq hf, hv', rfl⟩

theorem mem_seq {m : Phys α} (F : Assn Nat Page)
    (h : Spec L P m R) (hP : P' ⊆ P * F) (hk : ∀ a, Does L p (Has (R a * F) me kid ends) (k a) B) :
    Does L p (Has P' me kid ends) (ofMem m >>= k) B :=
  ((ofMem_own h F).bind hk).pre (has_mono hP)

theorem ofFs_own (h : Plain m) : Does L p (Has P me kid ends) (ofFs m) fun _ => Has P me kid ends := by
  rintro o ⟨s, hs, hv, rfl⟩
  induction m with
  | ret a => exact ⟨s, hs, hv, rfl⟩
  | fail e => trivial
  | act a k ih =>
    refine ⟨_, .plain _ h.1, fun r t' ht => ?_⟩
    subst ht
    exact ih r (h.2 r)

theorem fs_seq (h : Plain m)
    (hk : ∀ a, Does L p (Has P me kid ends) (k a) B) : Does L p (Has P me kid ends) (ofFs m >>= k) B :=
  (ofFs_own h).bind hk

theorem procOf_seq {k : ProcMem → SysM β} (h : Does L p (Has P me kid ends) (k me) B) :
    Does L p (Has P me kid ends) (procOf p >>= k) B := by
  rintro o ⟨s, hs, hv, rfl⟩
  refine awp_seq (awp_lift (.proc _)) fun r t' ht => ?_
  obtain ⟨hr, rfl⟩ := ht
  obtain rfl : r = me := hr
  exact h _ ⟨s, hs, hv, rfl⟩

theorem setProc_own (f : ProcMem → ProcMem) :
    Does L p (Has P me kid ends) (setProc p f) fun _ => Has P (f me) kid ends := by
  rintro o ⟨s, hs, hv, rfl⟩
  refine awp_mono (awp_lift (.setProc _ f)) fun _ t' ht => ?_
  subst ht
  exact ⟨s, hs, hv, rfl⟩

end Does

section Single

variable {p : Pid} {P F : Assn Nat Page} {me : ProcMem}

-- The address space of the process among all that the call has.
def space (L : Layout) (me : ProcMem) : Assn Nat Page := Space L me.pagetable (upper L me.trapframe) (pages me.sz)

end Single

end Sys
