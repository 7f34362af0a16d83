import Xv6.Fs.Quiet

-- What a system call owns while it runs: its transaction, the inodes it has
-- locked, and its share of the reference counts of inodes and files.

namespace Fs

open Prog Function

section Counts

variable {ι : Type} [DecidableEq ι]

def bump (f : ι → Int) (i : ι) (n : Int) : ι → Int := fun j => f j + if j = i then n else 0

variable (f : ι → Int)

theorem bump_self (i : ι) (n : Int) : bump f i n i = f i + n := by simp [bump]

theorem bump_ne {i j : ι} (n : Int) (h : j ≠ i) : bump f i n j = f j := by simp [bump, h]

theorem bump_bump (i : ι) (m n : Int) : bump (bump f i m) i n = bump f i (m + n) := by
  funext j
  by_cases h : j = i
  · simp [bump, h, Int.add_assoc]
  · simp [bump, h]

theorem bump_zero (i : ι) : bump f i 0 = f := by
  funext j
  simp [bump]

theorem bump_comm (i j : ι) (m n : Int) : bump (bump f i m) j n = bump (bump f j n) i m := by
  funext x
  simp only [bump]
  omega

theorem le_bump (i j : ι) {n : Int} (hn : 0 ≤ n) : f j ≤ bump f i n j := by
  unfold bump
  split <;> omega

end Counts

def Points (ff : File) (k : Slot) : Prop := (ff.type = .inode ∨ ff.type = .device) ∧ ff.ip = some k

instance (ff : File) (k : Slot) : Decidable (Points ff k) := inferInstanceAs (Decidable (_ ∧ _))

-- How often a file occurs in a table of open files, and an inode as a directory.
def fdCount (ofile : Fin NOFILE → Option Fd) (f : Fd) : Int :=
  ∑ fd, if ofile fd = some f then 1 else 0

def cwdCount (cwd : Option Slot) (k : Slot) : Int := if cwd = some k then 1 else 0

theorem fdCount_none (f : Fd) : fdCount (fun _ => none) f = 0 := by simp [fdCount]

theorem fdCount_nonneg (ofile : Fin NOFILE → Option Fd) (f : Fd) : 0 ≤ fdCount ofile f :=
  Finset.sum_nonneg fun _ _ => by split <;> decide

theorem fdCount_pos {ofile : Fin NOFILE → Option Fd} {fd : Fin NOFILE} {f : Fd}
    (h : ofile fd = some f) : 1 ≤ fdCount ofile f := by
  have h1 : (if ofile fd = some f then (1 : Int) else 0) ≤ fdCount ofile f :=
    Finset.single_le_sum (f := fun fd => if ofile fd = some f then (1 : Int) else 0)
      (fun _ _ => by split <;> decide) (Finset.mem_univ fd)
  rwa [if_pos h] at h1

theorem fdCount_update (ofile : Fin NOFILE → Option Fd) (fd : Fin NOFILE) (v : Option Fd) (f : Fd) :
    fdCount (update ofile fd v) f =
      fdCount ofile f + (if v = some f then 1 else 0) - (if ofile fd = some f then 1 else 0) := by
  have h := sum_update_add (fun x => if x = some f then (1 : Int) else 0) ofile (Finset.mem_univ fd) v
  unfold fdCount
  omega

theorem cwdCount_nonneg (cwd : Option Slot) (k : Slot) : 0 ≤ cwdCount cwd k := by
  unfold cwdCount
  split <;> decide

structure Child where
  pid : Pid
  ofile : Fin NOFILE → Option Fd
  cwd : Option Slot

-- `ir` and `fr` are the references to inodes and files that the process answers for, its own tables
-- included. `fresh` are files allocated and not yet filled in, `use` one through which it uses an
-- inode, `leak` references it will never drop.
@[ext] structure Th where
  depth : Nat
  denied : Bool
  held : Set Slot
  ir : Slot → Int
  leak : Slot → Int
  fr : Fd → Int
  fresh : Set Fd
  use : Option (Fd × Slot)
  ofile : Fin NOFILE → Option Fd
  cwd : Option Slot
  child : Option Child

namespace Th

def start (pr : Proc) : Th where
  depth := 0
  denied := false
  held := ∅
  ir := cwdCount pr.cwd
  leak _ := 0
  fr := fdCount pr.ofile
  fresh := ∅
  use := none
  ofile := pr.ofile
  cwd := pr.cwd
  child := none

def ref (t : Th) (k : Slot) (n : Int) : Th := { t with ir := bump t.ir k n }

def fref (t : Th) (f : Fd) (n : Int) : Th := { t with fr := bump t.fr f n }

def lock (t : Th) (k : Slot) : Th := { t with held := insert k t.held }

def unlock (t : Th) (k : Slot) : Th := { t with held := t.held \ {k} }

def «at» (t : Th) (depth : Nat) : Th := { t with depth := depth }

def leaks (t : Th) (k : Slot) : Th := { t with leak := bump t.leak k 1 }

def withFresh (t : Th) (fs : Set Fd) : Th := { t with fresh := fs }

def withUse (t : Th) (u : Option (Fd × Slot)) : Th := { t with use := u }

def withOfile (t : Th) (fd : Fin NOFILE) (v : Option Fd) : Th :=
  { t with ofile := update t.ofile fd v }

def withCwd (t : Th) (cwd : Option Slot) : Th := { t with cwd := cwd }

def withChild (t : Th) (c : Option Child) : Th := { t with child := c }

def takeRef (t : Th) (ff : File) : Th :=
  { t with ir := fun k => t.ir k + if Points ff k then 1 else 0 }

def release (t : Th) (c : Child) : Th :=
  { t with
    child := none
    ir := fun k => t.ir k - cwdCount c.cwd k
    fr := fun f => t.fr f - fdCount c.ofile f }

-- The process has a reference that keeps slot `k` in use.
def Claim (t : Th) (k : Slot) : Prop := 1 ≤ t.ir k ∨ ∃ f, t.use = some (f, k)

structure Ok (t : Th) : Prop where
  ir_nonneg : ∀ k, 0 ≤ t.ir k
  fr_nonneg : ∀ f, 0 ≤ t.fr f
  claim : ∀ k ∈ t.held, t.Claim k
  use : ∀ f k, t.use = some (f, k) → 1 ≤ t.fr f ∧ f ∉ t.fresh
  fresh : ∀ f ∈ t.fresh, t.fr f = 1

theorem ref_neg (t : Th) (k : Slot) : (t.ref k 1).ref k (-1) = t := by
  simp only [ref, bump_bump]
  rw [show (1 : Int) + -1 = 0 from rfl, bump_zero]

theorem ref_comm (t : Th) (j k : Slot) (m n : Int) : (t.ref j m).ref k n = (t.ref k n).ref j m := by
  simp only [ref, bump_comm]

theorem fref_neg (t : Th) (f : Fd) : (t.fref f 1).fref f (-1) = t := by
  simp only [fref, bump_bump]
  rw [show (1 : Int) + -1 = 0 from rfl, bump_zero]

theorem unlock_lock {t : Th} {k : Slot} (h : k ∉ t.held) : (t.lock k).unlock k = t := by
  simp only [lock, unlock]
  rw [Set.insert_sdiff_of_mem _ (Set.mem_singleton k), Set.sdiff_singleton_eq_self h]

theorem lock_comm (t : Th) (j k : Slot) : (t.lock j).lock k = (t.lock k).lock j := by
  simp only [lock, Set.insert_comm]

theorem Ok.ref {t : Th} (h : t.Ok) (k : Slot) : (t.ref k 1).Ok where
  ir_nonneg j := le_trans (h.ir_nonneg j) (le_bump _ _ _ (by decide))
  fr_nonneg := h.fr_nonneg
  claim j hj := (h.claim j hj).imp_left fun hc => le_trans hc (le_bump _ _ _ (by decide))
  use := h.use
  fresh := h.fresh

theorem Ok.claim_ref {t : Th} (h : t.Ok) (k : Slot) : (t.ref k 1).Claim k := by
  refine .inl ?_
  have hk := h.ir_nonneg k
  change 1 ≤ bump t.ir k 1 k
  rw [bump_self]
  omega

theorem Ok.lock {t : Th} (h : t.Ok) {k : Slot} (hk : t.Claim k) : (t.lock k).Ok where
  ir_nonneg := h.ir_nonneg
  fr_nonneg := h.fr_nonneg
  claim j hj := by
    rcases Set.mem_insert_iff.mp hj with rfl | hj
    · exact hk
    · exact h.claim j hj
  use := h.use
  fresh := h.fresh

theorem Ok.unlock {t : Th} (h : t.Ok) (k : Slot) : (t.unlock k).Ok where
  ir_nonneg := h.ir_nonneg
  fr_nonneg := h.fr_nonneg
  claim j hj := h.claim j hj.1
  use := h.use
  fresh := h.fresh

theorem start_ok (pr : Proc) : (start pr).Ok where
  ir_nonneg k := cwdCount_nonneg pr.cwd k
  fr_nonneg f := fdCount_nonneg pr.ofile f
  claim _ hk := absurd hk (Set.notMem_empty _)
  use _ _ h := by cases h
  fresh _ h := absurd h (Set.notMem_empty _)

end Th

-- The check of sys_open that fails for an inode which may not be written.
def DeniedOpen (d : Dinode) : Syscall → Prop
  | .open _ omode => Denied omode O_WRONLY S_IWUSR d
  | _ => False

instance (d : Dinode) (c : Syscall) : Decidable (DeniedOpen d c) := by
  cases c <;> unfold DeniedOpen <;> infer_instance

def isChmod : Syscall → Bool
  | .chmod _ _ => true
  | _ => false

def logs : Syscall → Bool
  | .dup _ => false
  | .read _ _ _ _ => false
  | .fstat _ _ => false
  | .lseek _ _ _ => false
  | .fork _ => false
  | .wait _ _ => false
  | _ => true

-- What each step of process `p` in the call `c` does to what it owns.
inductive RefRule (p : Pid) (c : Syscall) : Rules kernelSig (Option Th)
  | quiet {a : Act} (t : Th) (h : quiet a) : RefRule p c a (some t) fun _ t' => t' = some t
  | beginOp {t : Th} (hc : logs c = true) (h : t.depth = 0) : RefRule p c .beginOp (some t) fun _ t' => t' = some (t.at 1)
  | endOp {t : Th} (h : t.depth = 1) : RefRule p c .endOp (some t) fun _ t' => t' = some (t.at 0)
  | iget (t : Th) (dev inum : Nat) : RefRule p c (.iget dev inum) (some t) fun (k : Slot) t' =>
    t' = some (t.ref k 1)
  | idup (t : Th) (k : Slot) : RefRule p c (.idup k) (some t) fun _ t' => t' = some (t.ref k 1)
  | perm (t : Th) (k : Slot) : RefRule p c (.perm k) (some t) fun (ip : Inode) t' =>
    t' = some { t with denied := t.denied || DeniedOpen ip.din c }
  | setMode (t : Th) (k : Slot) (mode : UInt16) : RefRule p c (.setMode k mode) (some t) fun _ t' =>
    t' = some (if isChmod c then t.leaks k else t)
  | acquiresleep {t : Th} {k : Slot} (h : t.Claim k) : RefRule p c (.acquiresleep k p) (some t)
    fun _ t' => k ∉ t.held ∧ t' = some (t.lock k)
  | releasesleep {t : Th} {k : Slot} (h : k ∈ t.held) : RefRule p c (.releasesleep k) (some t)
    fun _ t' => t' = some (t.unlock k)
  | iputEnter {t : Th} {k : Slot} (h : (t.ref k (-1)).Ok) : RefRule p c (.iputEnter k p) (some t)
    fun (last : Bool) t' =>
      if last then k ∉ t.held ∧ t' = some (t.lock k) else t' = some (t.ref k (-1))
  | iputLeave {t : Th} {k : Slot} (h : (t.ref k (-1)).Ok) : RefRule p c (.iputLeave k) (some t)
    fun _ t' => t' = some (t.ref k (-1))
  | filealloc (t : Th) : RefRule p c .filealloc (some t) fun (r : Option Fd) t' =>
    match r with
    | none => t' = some t
    | some f => t.fr f = 0 ∧ t' = some ((t.fref f 1).withFresh (insert f t.fresh))
  | filedup {t : Th} {f : Fd} (h : 1 ≤ t.fr f) (hf : f ∉ t.fresh) :
    RefRule p c (.filedup f) (some t) fun _ t' => t' = some (t.fref f 1)
  | fileUnref {t : Th} {f : Fd} (h : 1 ≤ t.fr f) (hu : t.use = none) :
    RefRule p c (.fileUnref f) (some t) fun (r : Option File) t' =>
      match r with
      | none => f ∉ t.fresh ∧ t' = some (t.fref f (-1))
      | some ff => (f ∈ t.fresh → ff.type = .none) ∧ t' = some (((t.fref f (-1)).takeRef ff).withFresh (t.fresh \ {f}))
  | file {t : Th} {f : Fd} (h : 1 ≤ t.fr f) (hu : t.use = none ∧ f ∉ t.fresh) :
    RefRule p c (.file f) (some t) fun (ff : File) t' =>
      (t' = some t ∧ ∀ k, ¬Points ff k) ∨ ∃ k, Points ff k ∧ t' = some (t.withUse (some (f, k)))
  | setFile {t : Th} {f : Fd} {g : File → File} {k : Slot} (hf : f ∈ t.fresh) (hk : 1 ≤ t.ir k)
    (hg : ∀ ff, Points (g ff) k ∧ (g ff).ref = ff.ref) (hu : t.use = none)
    (hok : (((t.ref k (-1)).withFresh (t.fresh \ {f})).withUse (some (f, k))).Ok) :
    RefRule p c (.setFile f g) (some t) fun _ t' =>
      t' = some (((t.ref k (-1)).withFresh (t.fresh \ {f})).withUse (some (f, k)))
  | setPipe {t : Th} {f : Fd} {g : File → File} (hf : f ∈ t.fresh)
    (hg : ∀ ff, (g ff).type = .pipe ∧ (g ff).ref = ff.ref) :
    RefRule p c (.setFile f g) (some t) fun _ t' => t' = some (t.withFresh (t.fresh \ {f}))
  | proc (t : Th) : RefRule p c (.proc p) (some t) fun (pr : Proc) t' =>
    t' = some t ∧ pr.ofile = t.ofile ∧ pr.cwd = t.cwd
  | setOfile (t : Th) (fd : Fin NOFILE) (v : Option Fd) : RefRule p c (.setOfile p fd v) (some t)
    fun _ t' => t' = some (t.withOfile fd v)
  | childOfile {t : Th} (ch : Child) (h : t.child = some ch) (fd : Fin NOFILE) (v : Option Fd) :
    RefRule p c (.setOfile ch.pid fd v) (some t) fun _ t' =>
      t' = some (t.withChild (some { ch with ofile := update ch.ofile fd v }))
  | setCwd (t : Th) (cwd : Option Slot) : RefRule p c (.setCwd p cwd) (some t) fun _ t' =>
    t' = some (t.withCwd cwd)
  | childCwd {t : Th} (ch : Child) (h : t.child = some ch) (cwd : Option Slot) :
    RefRule p c (.setCwd ch.pid cwd) (some t) fun _ t' =>
      t' = some (t.withChild (some { ch with cwd := cwd }))
  | allocproc {t : Th} (h : t.child = none) : RefRule p c .allocproc (some t) fun (r : Option Pid) t' =>
    match r with
    | none => t' = some t
    | some np => t' = some (t.withChild (some ⟨np, fun _ => none, none⟩))
  | setState {t : Th} (ch : Child) (h : t.child = some ch) {st : ProcState}
    (hst : st = .runnable ∨ ((st = .unused ∨ st = .zombie) ∧ ch.ofile = (fun _ => none) ∧ ch.cwd = none))
    (hok : (t.release ch).Ok) :
    RefRule p c (.setState ch.pid st) (some t) fun _ t' => t' = some (t.release ch)
  | reap (t : Th) (addrOk killed : Bool) : RefRule p c (.reap p addrOk killed) (some t) fun _ t' => t' = some t
  | zombie {t : Th} (hd : t.depth = 0) (hh : t.held = ∅) (hi : ∀ k, t.ir k = t.leak k) (hl : ∀ k, t.leak k = 0)
    (hf : ∀ f, t.fr f = 0) (hc : t.child = none) (hdeny : t.denied = false)
    (ho : t.ofile = fun _ => none) (hcwd : t.cwd = none) :
    RefRule p c (.zombie p) (some t) fun _ t' => t' = none

def RefPost : Option Th → Prop
  | none => True
  | some t => t.held = ∅ ∧ t.child = none ∧ t.depth = (if t.denied then 1 else 0) ∧
    (∀ k, t.ir k = cwdCount t.cwd k + t.leak k) ∧ ∀ f, t.fr f = fdCount t.ofile f

end Fs
