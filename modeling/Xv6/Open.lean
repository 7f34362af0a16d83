import Xv6.Fs.Quiet
import Xv6.Boot

-- What open grants, against the mode of the inode that it opens.

namespace Fs

open Kernel Prog

def within : Act → Prop
  | .beginOp | .endOp => False
  | _ => True

variable {α : Type} {m : Kernel α}

abbrev Within (m : Kernel α) : Prop := m.All within

theorem within_of_quiet (h : Quiet m) : Within m := all_mono h fun a ha => by
  cases a <;> trivial

section Within

variable (sb : Superblock)

theorem iget_within (dev inum : Nat) : Within (iget dev inum) := all_lift trivial

theorem ilock_within (p : Pid) (k : Slot) : Within (ilock sb p k) := by
  refine all_bind (all_lift trivial) fun ip => all_ite trivial ?_
  refine all_bind (all_lift trivial) fun _ => all_bind (all_lift trivial) fun ip => all_ite trivial ?_
  exact all_bind (all_lift trivial) fun dip => all_ite trivial trivial

theorem iunlock_within (p : Pid) (k : Slot) : Within (iunlock p k) :=
  all_bind (all_lift trivial) fun _ => all_ite trivial (all_lift trivial)

theorem iput_within (p : Pid) (k : Slot) : Within (iput sb p k) := by
  refine all_bind (all_lift trivial) fun last => all_ite ?_ trivial
  refine all_bind (within_of_quiet (itrunc_quiet sb k)) fun _ => all_bind (all_lift trivial) fun _ => ?_
  refine all_bind (within_of_quiet (iupdate_quiet sb k)) fun _ => all_bind (all_lift trivial) fun _ => ?_
  exact all_bind (all_lift trivial) fun _ => all_lift trivial

theorem iunlockput_within (p : Pid) (k : Slot) : Within (iunlockput sb p k) :=
  all_bind (iunlock_within p k) fun _ => iput_within sb p k

theorem dirlookup_within (k : Slot) (name : Name) : Within (dirlookup sb k name) := by
  refine all_bind (all_lift trivial) fun dp => all_ite trivial ?_
  refine all_bind (within_of_quiet (searchFrom_quiet sb k name _ _)) fun r => ?_
  cases r with
  | none => trivial
  | some e => exact all_bind (iget_within _ _) fun _ => trivial

theorem dirlink_within (p : Pid) (k : Slot) (name : Name) (inum : Nat) : Within (dirlink sb p k name inum) := by
  refine all_bind (dirlookup_within sb k name) fun r => ?_
  cases r with
  | some e => exact all_bind (iput_within sb p _) fun _ => trivial
  | none =>
    refine all_bind (all_lift trivial) fun dp => ?_
    refine all_bind (within_of_quiet (freeFrom_quiet sb k _ _)) fun off => ?_
    exact all_bind (within_of_quiet (writeDirent_quiet sb k _ off)) fun _ => all_ite trivial trivial

theorem iallocFrom_within (dev : Nat) (type : Int16) (n inum : Nat) : Within (iallocFrom sb dev type n inum) := by
  induction n generalizing inum with
  | zero => trivial
  | succ n ih =>
    rw [iallocFrom]
    refine all_ite (all_bind (all_lift trivial) fun r => ?_) trivial
    cases (r : Option Nat) with
    | none => exact ih _
    | some _ => exact all_bind (iget_within _ _) fun _ => trivial

theorem namexFrom_within (p : Pid) (parent : Bool) (names : List Name) (k : Slot) :
    Within (namexFrom sb p parent names k) := by
  induction names generalizing k with
  | nil => exact all_ite (all_bind (iput_within sb p k) fun _ => trivial) trivial
  | cons name names ih =>
    rw [namexFrom]
    refine all_bind (ilock_within sb p k) fun _ => all_bind (all_lift trivial) fun ip => all_ite ?_ (all_ite ?_ ?_)
    · exact all_bind (iunlockput_within sb p k) fun _ => trivial
    · exact all_bind (iunlock_within p k) fun _ => trivial
    · refine all_bind (dirlookup_within sb k name) fun r => ?_
      cases r with
      | none => exact all_bind (iunlockput_within sb p k) fun _ => trivial
      | some e => exact all_bind (iunlockput_within sb p k) fun _ => ih _

theorem namex_within (p : Pid) (path : List UInt8) (parent : Bool) : Within (namex sb p path parent) := by
  refine all_bind (all_ite (iget_within _ _) ?_) fun k => namexFrom_within sb p parent _ k
  refine all_bind (all_lift trivial) fun pr => all_bind (within_of_quiet (deref_quiet _)) fun cwd => ?_
  exact all_bind (all_lift trivial) fun _ => trivial

theorem createFail_within (p : Pid) (dp k : Slot) : Within (createFail sb p dp k) :=
  all_bind (all_lift trivial) fun _ => all_bind (within_of_quiet (iupdate_quiet sb k)) fun _ =>
    all_bind (iunlockput_within sb p k) fun _ => all_bind (iunlockput_within sb p dp) fun _ => trivial

theorem createNew_within (p : Pid) (dp k : Slot) (name : Name) (type major minor : Int16) :
    Within (createNew sb p dp k name type major minor) := by
  refine all_bind (ilock_within sb p k) fun _ => all_bind (all_lift trivial) fun _ => ?_
  refine all_bind (within_of_quiet (iupdate_quiet sb k)) fun _ => all_bind ?_ fun ok => all_ite ?_ (createFail_within sb p dp k)
  · refine all_ite (all_bind (all_lift trivial) fun ip => all_bind (dirlink_within sb p k _ _) fun r => ?_) trivial
    exact all_ite trivial (all_bind (all_lift trivial) fun d => all_bind (dirlink_within sb p k _ _) fun _ => trivial)
  · refine all_bind (all_lift trivial) fun ip => all_bind (dirlink_within sb p dp name _) fun r => ?_
    refine all_ite (createFail_within sb p dp k) (all_bind (within_of_quiet (addParent_quiet sb 1 dp type)) fun _ => ?_)
    exact all_bind (iunlockput_within sb p dp) fun _ => all_bind (all_lift trivial) fun _ => trivial

theorem create_within (p : Pid) (path : Path) (type major minor : Int16) : Within (create sb p path type major minor) := by
  refine all_bind (namex_within sb p path true) fun r => ?_
  cases r with
  | none => trivial
  | some e =>
    refine all_bind (ilock_within sb p e.1) fun _ => all_bind (dirlookup_within sb e.1 e.2) fun r => ?_
    cases r with
    | some f =>
      refine all_bind (iunlockput_within sb p e.1) fun _ => all_bind (ilock_within sb p f.1) fun _ => ?_
      refine all_bind (all_lift trivial) fun ip => all_ite trivial ?_
      exact all_bind (iunlockput_within sb p f.1) fun _ => trivial
    | none =>
      refine all_bind (all_lift trivial) fun d => all_bind (iallocFrom_within sb _ _ _ _) fun r => ?_
      cases r with
      | none => exact all_bind (iunlockput_within sb p e.1) fun _ => trivial
      | some k => exact createNew_within sb p e.1 k e.2 type major minor

theorem openInode_within (p : Pid) (path : Path) (omode : UInt32) : Within (openInode sb p path omode) := by
  refine all_ite (create_within sb p path _ _ _) ?_
  refine all_bind (all_bind (namex_within sb p path false) fun _ => trivial) fun r => ?_
  cases r with
  | none => trivial
  | some k =>
    refine all_bind (ilock_within sb p k) fun _ => all_bind (all_lift trivial) fun ip => all_ite ?_ trivial
    exact all_bind (iunlockput_within sb p k) fun _ => trivial

end Within

variable {w w' : World} {fd : Fin NOFILE} {f : Fd} {r : α}

theorem outstanding_of_within {a : Act} {r : a.Res} (ha : within a) (h : kernelStep a w = .done r w') :
    w'.log.outstanding = w.log.outstanding := by
  cases a with
  | beginOp | endOp => exact ha.elim
  | bsection b f =>
    rcases bsection_done h with ⟨-, rfl⟩ | ⟨data, log, -, hl, rfl⟩
    · rfl
    · obtain ⟨rfl, -, -⟩ := Log.logWrite_eq hl
      rfl
  | commit | iget _ _ | acquiresleep _ _ | iputEnter _ _ | filealloc | filedup _ | fileUnref _ | allocproc | reap _ _ _ =>
    simp only [kernelStep] at h
    repeat' split at h
    all_goals
      cases h
      try rfl
  | endCommit | bread _ | bstore _ _ | idup _ | inode _ | perm _ | setMode _ _ | setDin _ _ | iload _ _ | setValid _ _
  | releasesleep _ | iputLeave _ | file _ | setFile _ _ | setOff _ _ | proc _ | setOfile _ _ _ | setCwd _ _
  | setState _ _ | setParent _ _ | zombie _ =>
    cases h
    rfl

theorem Within.outstanding (hm : Within m) (h : run kernelStep m w = .done r w') :
    w'.log.outstanding = w.log.outstanding :=
  run_of_all (I := fun w' => w'.log.outstanding = w.log.outstanding)
    (fun _ _ _ _ ha hI hs => (outstanding_of_within ha hs).trans hI) hm rfl h

def fileless : Act → Prop
  | .endOp | .commit | .endCommit | .bread _ | .bsection _ _ | .bstore _ _ | .inode _ | .setDin _ _ | .releasesleep _ => True
  | _ => False

theorem files_of_fileless {a : Act} {r : a.Res} (ha : fileless a) (h : kernelStep a w = .done r w') :
    w'.ftable = w.ftable ∧ w'.proc = w.proc := by
  cases a with
  | bsection b f =>
    rcases bsection_done h with ⟨-, rfl⟩ | ⟨data, log, -, hl, rfl⟩
    · exact ⟨rfl, rfl⟩
    · exact ⟨rfl, rfl⟩
  | commit | endOp =>
    simp only [kernelStep] at h
    split at h
    all_goals
      cases h
      try exact ⟨rfl, rfl⟩
  | endCommit | bread _ | bstore _ _ | inode _ | setDin _ _ | releasesleep _ =>
    cases h
    exact ⟨rfl, rfl⟩
  | _ => exact ha.elim

theorem files_of_run (hm : m.All fileless) (h : run kernelStep m w = .done r w') :
    w'.ftable = w.ftable ∧ w'.proc = w.proc :=
  run_of_all (I := fun w' => w'.ftable = w.ftable ∧ w'.proc = w.proc)
    (fun _ _ _ _ ha hI hs => ⟨(files_of_fileless ha hs).1.trans hI.1, (files_of_fileless ha hs).2.trans hI.2⟩)
    hm ⟨rfl, rfl⟩ h

def Grants (w : World) (p : Pid) (r : Int) (mode : UInt16) : Prop :=
  ∀ (fd : Fin NOFILE) f, r = fd.val → (w.proc p).ofile fd = some f →
    ((w.ftable f).readable = true → mode &&& S_IRUSR ≠ 0) ∧ ((w.ftable f).writable = true → mode &&& S_IWUSR ≠ 0)

-- Nothing of the file, the descriptors and the log has changed.
structure Untouched (w w' : World) (p : Pid) : Prop where
  cache : w'.cache = w.cache
  ofile : (w'.proc p).ofile = (w.proc p).ofile
  log : w'.log = w.log

-- A device that has no driver.
def NoDriver (d : Dinode) : Prop := d.type = T_DEVICE ∧ (d.major < 0 ∨ NDEV ≤ d.major.toInt)

def Refuses (omode : UInt32) (d : Dinode) : Prop :=
  ¬NoDriver d ∧ (Denied omode O_RDONLY S_IRUSR d ∨ Denied omode O_WRONLY S_IWUSR d)

-- No file is free, or no descriptor of the process.
def Full (w : World) (p : Pid) : Prop :=
  (∀ f, (w.ftable f).ref ≠ 0) ∨ ∀ fd, (w.proc p).ofile fd ≠ none

def Covers (mode : UInt16) (omode : UInt32) : Prop :=
  (omode &&& O_WRONLY = 0 → mode &&& S_IRUSR ≠ 0) ∧ (omode &&& O_RDWR ≠ 0 → mode &&& S_IWUSR ≠ 0)

section Rights

variable {sb : Superblock} {p : Pid} {path : Path} {omode : UInt32} {k : Slot} {r : Int}

theorem fileless_of_inner (h : Inner m) : m.All fileless := all_mono h fun a ha => by
  cases a <;> trivial

theorem openTail_fileless (sb : Superblock) (p : Pid) (k : Slot) (omode : UInt32) (type : Int16) (r : Int) :
    (do openTrunc sb k omode type; iunlock p k; endOp; pure r : Kernel Int).All fileless := by
  refine all_bind (all_ite (fileless_of_inner (itrunc_inner sb k)) trivial) fun _ => ?_
  refine all_bind (all_bind (all_lift trivial) fun _ => all_ite trivial (all_lift trivial)) fun _ => ?_
  refine all_bind (all_bind (all_lift trivial) fun b => all_ite ?_ trivial) fun _ => trivial
  exact all_bind (all_lift trivial) fun _ => all_lift trivial

theorem openFill_done (h : run kernelStep (openFill sb p k omode f fd) w = .done r w') :
    r = fd.val ∧ w'.proc = w.proc ∧ (w'.ftable f).readable = decide (omode &&& O_WRONLY = 0) ∧
      (w'.ftable f).writable = decide (omode &&& O_WRONLY ≠ 0 ∨ omode &&& O_RDWR ≠ 0) := by
  obtain ⟨ip, w₁, hino, h⟩ := run_bind_done h
  obtain ⟨_, w₂, hset, htail⟩ := run_bind_done h
  replace hino : kernelStep (.inode k) w = .done ip w₁ := (Kernel.run_act _ _).symm.trans hino
  replace hset := (Kernel.run_act _ _).symm.trans hset
  cases hino
  cases hset
  obtain ⟨hft, hproc⟩ := files_of_run (openTail_fileless sb p k omode _ _) htail
  refine ⟨?_, hproc, ?_, ?_⟩
  · obtain ⟨_, _, _, htail⟩ := run_bind_done htail
    obtain ⟨_, _, _, htail⟩ := run_bind_done htail
    obtain ⟨_, _, _, htail⟩ := run_bind_done htail
    cases htail
    rfl
  · rw [hft, World.setFile_self]
  · rw [hft, World.setFile_self]

theorem filealloc_done {f : Option Fd} (h : run kernelStep filealloc w = .done f w') :
    w'.proc = w.proc ∧ (f = none ↔ ∀ g, (w.ftable g).ref ≠ 0) := by
  replace h : kernelStep .filealloc w = .done f w' := (Kernel.run_act _ _).symm.trans h
  simp only [kernelStep] at h
  split at h
  · next g hg =>
    cases h
    have hfree := List.find?_some hg
    exact ⟨rfl, (fun hn => by cases hn), fun hall => absurd (of_decide_eq_true hfree) (hall g)⟩
  · next hnone =>
    cases h
    refine ⟨rfl, fun _ g => ?_, fun _ => rfl⟩
    simpa using List.find?_eq_none.mp hnone g (List.mem_finRange g)

theorem fdalloc_done {fd : Option (Fin NOFILE)} (h : run kernelStep (fdalloc p f) w = .done fd w') :
    (∀ i, fd = some i → (w'.proc p).ofile i = some f) ∧ (fd = none ↔ ∀ i, (w.proc p).ofile i ≠ none) := by
  have hof : run kernelStep (ofile p) w = .done (w.proc p).ofile w := rfl
  rw [fdalloc, run_bind hof] at h
  split at h
  · next i hi =>
    obtain ⟨_, w₂, hset, h⟩ := run_bind_done h
    replace hset := (Kernel.run_act _ _).symm.trans hset
    cases hset
    cases h
    have hfree := List.find?_some hi
    refine ⟨fun j hj => ?_, (fun hn => by cases hn), fun hall => absurd (Option.isNone_iff_eq_none.mp hfree) (hall i)⟩
    cases hj
    simp [World.setProc]
  · next hnone =>
    cases h
    refine ⟨(fun i hi => by cases hi), fun _ i => ?_, fun _ => rfl⟩
    simpa using List.find?_eq_none.mp hnone i (List.mem_finRange i)

theorem openBad_done (h : run kernelStep (openBad sb p k) w = .done r w') : r = -1 := by
  obtain ⟨_, _, _, h⟩ := run_bind_done h
  obtain ⟨_, _, _, h⟩ := run_bind_done h
  cases h
  rfl

theorem openFile_done (h : run kernelStep (openFile sb p k omode) w = .done r w') :
    Full w p ∧ r = -1 ∨ ¬Full w p ∧ ∃ (fd : Fin NOFILE) (f : Fd), r = fd.val ∧ (w'.proc p).ofile fd = some f ∧
      (w'.ftable f).readable = decide (omode &&& O_WRONLY = 0) ∧
      (w'.ftable f).writable = decide (omode &&& O_WRONLY ≠ 0 ∨ omode &&& O_RDWR ≠ 0) := by
  obtain ⟨f, w₁, hf, h⟩ := run_bind_done h
  obtain ⟨hsame, hfull⟩ := filealloc_done hf
  cases f with
  | none => exact .inl ⟨.inl (hfull.mp rfl), openBad_done h⟩
  | some f =>
    obtain ⟨fd, w₂, hfd, h⟩ := run_bind_done h
    obtain ⟨hof, hnone⟩ := fdalloc_done hfd
    rw [hsame] at hnone
    cases fd with
    | none =>
      obtain ⟨_, _, _, h⟩ := run_bind_done h
      exact .inl ⟨.inr (hnone.mp rfl), openBad_done h⟩
    | some fd =>
      obtain ⟨hr, hproc, hread, hwrite⟩ := openFill_done h
      refine .inr ⟨?_, fd, f, hr, by rw [hproc]; exact hof fd rfl, hread, hwrite⟩
      rintro (hall | hall)
      · cases hfull.mpr hall
      · cases hnone.mpr hall

theorem beginOp_outstanding (h : run kernelStep beginOp w = .done () w') : w'.log.outstanding = w.log.outstanding + 1 := by
  replace h : kernelStep .beginOp w = .done () w' := (Kernel.run_act _ _).symm.trans h
  simp only [kernelStep, Log.beginOp] at h
  split at h
  · rename_i log hlog
    split at hlog
    · cases hlog
      cases h
      rfl
    · cases hlog
  · cases h

theorem grants_neg {mode : UInt16} : Grants w p (-1) mode := by
  intro fd f hr
  omega

theorem grants_iff {d : Dinode} (hf : (w.proc p).ofile fd = some f)
    (hread : (w.ftable f).readable = decide (omode &&& O_WRONLY = 0))
    (hwrite : (w.ftable f).writable = decide (omode &&& O_WRONLY ≠ 0 ∨ omode &&& O_RDWR ≠ 0))
    (hgood : ¬Denied omode O_WRONLY S_IWUSR d) (hdir : d.type ≠ T_DIR) :
    Grants w p fd.val d.mode ↔ Covers d.mode omode := by
  constructor
  · intro h
    obtain ⟨h1, h2⟩ := h fd f rfl hf
    rw [hread, decide_eq_true_eq] at h1
    rw [hwrite, decide_eq_true_eq] at h2
    exact ⟨h1, fun hrw => h2 (.inr hrw)⟩
  · intro ⟨h1, h2⟩ fd' f' hr hf'
    have hfd : fd' = fd := Fin.ext (by omega)
    rw [hfd, hf] at hf'
    cases hf'
    rw [hread, hwrite, decide_eq_true_eq, decide_eq_true_eq]
    refine ⟨h1, fun hw => ?_⟩
    rcases hw with hw | hw
    · intro hmode
      exact hgood ⟨hw, hmode, hdir⟩
    · exact h2 hw

theorem not_denied_rdonly (omode : UInt32) (bit : UInt16) (d : Dinode) : ¬Denied omode O_RDONLY bit d := by
  rintro ⟨h, -, -⟩
  exact h (by simp [O_RDONLY])

-- Split where the inode has been found: the property holds exactly when the call fails for another
-- reason than the mode (no driver, no file or no descriptor), or the mode covers the flags.
theorem open_rights {w₁ w₂ : World} (hbegin : run kernelStep beginOp w = .done () w₁)
    (hopen : run kernelStep (openInode sb p path omode) w₁ = .done (some k) w₂)
    (hdir : (w₂.itable k).din.type ≠ T_DIR) (hrun : run kernelStep (sysOpen sb p (some path) omode) w = .done r w') :
    (Grants w' p r (w₂.itable k).din.mode ∧ (Refuses omode (w₂.itable k).din → Untouched w w' p)) ↔
      ¬Refuses omode (w₂.itable k).din ∧
        (NoDriver (w₂.itable k).din ∨ Full w₂ p ∨ Covers (w₂.itable k).din.mode omode) := by
  obtain ⟨d, hd⟩ : ∃ d, d = (w₂.itable k).din := ⟨_, rfl⟩
  have hino : run kernelStep (inode k) w₂ = .done (w₂.itable k) w₂ := Kernel.run_act _ _
  have hperm : run kernelStep (act (.perm k)) w₂ = .done (w₂.itable k) w₂ := Kernel.run_act _ _
  rw [sysOpen, run_bind hbegin, run_bind hopen] at hrun
  dsimp only at hrun
  rw [run_bind hino] at hrun
  rw [← hd] at hdir hrun ⊢
  by_cases hdev : d.type = T_DEVICE ∧ (d.major < 0 ∨ NDEV ≤ d.major.toInt)
  · rw [if_pos hdev] at hrun
    have hr := openBad_done hrun
    subst hr
    exact ⟨fun _ => ⟨fun h => h.1 hdev, .inl hdev⟩, fun _ => ⟨grants_neg, fun h => absurd hdev h.1⟩⟩
  rw [if_neg hdev] at hrun
  replace hrun := (run_bind hperm).symm.trans hrun
  rw [← hd, if_neg (not_denied_rdonly omode _ d)] at hrun
  by_cases hden : Denied omode O_WRONLY S_IWUSR d
  · -- the transaction that begin_op opened stays open
    rw [if_pos hden] at hrun
    have hout : w'.log.outstanding = w.log.outstanding + 1 := by
      have htail : Within (openDenied sb p k) := all_bind (iunlockput_within sb p k) fun _ => trivial
      rw [htail.outstanding hrun, (openInode_within sb p path omode).outstanding hopen]
      exact beginOp_outstanding hbegin
    have href : Refuses omode d := ⟨hdev, .inr hden⟩
    constructor
    · intro h
      have hlog := (h.2 href).log
      rw [hlog] at hout
      omega
    · intro h
      exact absurd href h.1
  · rw [if_neg hden] at hrun
    have href : ¬Refuses omode d := by
      rintro ⟨-, h | h⟩
      · exact not_denied_rdonly omode _ d h
      · exact hden h
    rcases openFile_done hrun with ⟨hfull, hr⟩ | ⟨hfree, fd, f, hr, hf, hread, hwrite⟩
    · subst hr
      exact ⟨fun _ => ⟨href, .inr (.inl hfull)⟩, fun _ => ⟨grants_neg, fun h => absurd h href⟩⟩
    have hgrants := grants_iff hf hread hwrite hden hdir
    rw [hr, hgrants]
    constructor
    · intro h
      exact ⟨href, .inr (.inr h.1)⟩
    · rintro ⟨-, h | h | h⟩
      · exact absurd h hdev
      · exact absurd h hfree
      · exact ⟨h, fun h => absurd h href⟩

-- open of the file "f", up to where its inode has been found and as a whole.
def findF (omode : UInt32) : Outcome Panic World (Option Slot) :=
  run kernelStep (beginOp >>= fun _ => openInode tiny initproc [SLASH, 102] omode) (boot tiny readOnlyDisk)

def openReadOnly (omode : UInt32) : Outcome Panic World Int :=
  run kernelStep (sysOpen tiny initproc (some [SLASH, 102]) omode) (boot tiny readOnlyDisk)

def foundF (r : Option Slot) (w : World) : Bool :=
  match r with
  | some k => decide ((w.itable k).din.type = T_FILE ∧ (w.itable k).din.mode = S_IRUSR)
  | none => false

theorem findF_done (omode : UInt32) (h : ends foundF (findF omode) = true) :
    ∃ w₁ w₂ k, run kernelStep beginOp (boot tiny readOnlyDisk) = .done () w₁ ∧
      run kernelStep (openInode tiny initproc [SLASH, 102] omode) w₁ = .done (some k) w₂ ∧
      (w₂.itable k).din.type = T_FILE ∧ (w₂.itable k).din.mode = S_IRUSR := by
  obtain ⟨r, w₂, hrun, hP⟩ := done_of_ends h
  obtain ⟨_, w₁, hbegin, hopen⟩ := run_bind_done hrun
  cases r with
  | none => cases hP
  | some k => exact ⟨w₁, w₂, k, hbegin, hopen, of_decide_eq_true hP⟩

theorem open_rights_rdonly : ∃ w₁ w₂ w' k, run kernelStep beginOp (boot tiny readOnlyDisk) = .done () w₁ ∧
    run kernelStep (openInode tiny initproc [SLASH, 102] O_RDONLY) w₁ = .done (some k) w₂ ∧ openReadOnly O_RDONLY = .done 0 w' ∧
    Grants w' initproc 0 (w₂.itable k).din.mode := by
  obtain ⟨w₁, w₂, k, hbegin, hopen, htype, hmode⟩ := findF_done O_RDONLY (by decide)
  have hends : ends (fun r _ => decide (r = 0)) (openReadOnly O_RDONLY) = true := by decide
  obtain ⟨r, w', hrun, hr⟩ := done_of_ends hends
  have hr : r = 0 := of_decide_eq_true hr
  subst hr
  refine ⟨w₁, w₂, w', k, hbegin, hopen, hrun, ?_⟩
  refine ((open_rights hbegin hopen (by rw [htype]; decide) hrun).mpr ⟨?_, .inr (.inr ?_)⟩).1
  · rintro ⟨-, ⟨h, -, -⟩ | ⟨h, -, -⟩⟩
    · exact h (by decide)
    · exact h (by decide)
  · rw [hmode]
    exact ⟨by decide, by decide⟩

-- With O_RDWR it may be written too.
theorem not_open_rights : ∃ w₁ w₂ w' k, run kernelStep beginOp (boot tiny readOnlyDisk) = .done () w₁ ∧
    run kernelStep (openInode tiny initproc [SLASH, 102] O_RDWR) w₁ = .done (some k) w₂ ∧
    (w₂.itable k).din.type ≠ T_DIR ∧ openReadOnly O_RDWR = .done 0 w' ∧ ¬Grants w' initproc 0 (w₂.itable k).din.mode := by
  obtain ⟨w₁, w₂, k, hbegin, hopen, htype, hmode⟩ := findF_done O_RDWR (by decide)
  have hends : ends (fun r w => decide (r = 0 ∧ (w.proc initproc).ofile 0 = some 0 ∧ (w.ftable 0).writable = true))
      (openReadOnly O_RDWR) = true := by decide
  obtain ⟨r, w', hrun, hr⟩ := done_of_ends hends
  obtain ⟨rfl, hf, hwrite⟩ := of_decide_eq_true hr
  refine ⟨w₁, w₂, w', k, hbegin, hopen, by rw [htype]; decide, hrun, fun h => ?_⟩
  have := (h 0 0 rfl hf).2 hwrite
  rw [hmode] at this
  exact this (by decide)

end Rights

end Fs
