import Xv6.Refs.Calls

namespace Fs

open Prog Kernel Th List Set Function

variable {α : Type} {p : Pid} {c : Syscall} {t : Th} (sb : Superblock)

theorem start_post (pr : Proc) (u : Option (Fd × Slot)) : RefPost (some ((start pr).withUse u)) :=
  ⟨rfl, rfl, rfl, fun _ => (Int.add_zero _).symm, fun _ => rfl⟩

theorem start_post' (pr : Proc) : RefPost (some (start pr)) := start_post pr none

theorem start_at_ok (pr : Proc) (d : Nat) : ((start pr).at d).Ok :=
  let h := start_ok pr
  ⟨h.ir_nonneg, h.fr_nonneg, h.claim, h.use, h.fresh⟩

variable {k : Slot} {Q : α → Option Th → Prop} {t' : Option Th} {omode : UInt32} {path : Path} {d : Dinode}
  {dp : Slot}

section Files

variable {f : Fd}

theorem only_fresh (f : Fd) : (insert f ∅ : Set Fd) \ {f} = ∅ := by
  rw [insert_empty_eq]
  exact Set.sdiff_self

variable {ff : File}

theorem takeRef_of_points (h : Points ff k) (t : Th) : t.takeRef ff = t.ref k 1 := by
  have hp : ∀ j, Points ff j ↔ j = k := fun j =>
    ⟨fun hj => Option.some.inj (hj.2.symm.trans h.2), fun hj => hj ▸ h⟩
  simp only [takeRef, ref, hp]
  rfl

theorem takeRef_of_not (h : ∀ k, ¬Points ff k) (t : Th) : t.takeRef ff = t := by
  simp only [takeRef, h, if_false, Int.add_zero]

theorem deref_seq {ip : Option Slot} {f : Slot → Kernel α}
    (h : ∀ k, ip = some k → refWp p c (f k) Q t) : refWp p c (deref ip >>= f) Q t := by
  match ip with
  | none => trivial
  | some k => exact h k rfl

theorem closeInode_refs (hl : logs c = true) (h : t.Ok) (hd : t.depth = 0)
    (htype : ff.type = .inode ∨ ff.type = .device) : refWp p c (do
      beginOp
      let k ← deref ff.ip
      iput sb p k
      endOp) (fun _ t' => t' = some t) (t.takeRef ff) := by
  refine awp_to (beginOp_refs hl hd) fun _ => ?_
  refine deref_seq fun k hip => ?_
  rw [show (t.takeRef ff).at 1 = (t.at 1).ref k 1 by rw [takeRef_of_points ⟨htype, hip⟩]; rfl]
  have hok : (t.at 1).Ok := ⟨h.ir_nonneg, h.fr_nonneg, h.claim, h.use, h.fresh⟩
  refine awp_to (iput_refs sb hok) fun _ => ?_
  refine awp_mono (endOp_refs rfl) fun _ t' ht => ?_
  rw [ht, show (t.at 1).at 0 = t by rw [Th.at, Th.at, ← hd]]

theorem fref_pos (h : t.Ok) (f : Fd) : 1 ≤ (t.fref f 1).fr f := by
  have h1 := h.fr_nonneg f
  change 1 ≤ bump t.fr f 1 f
  rw [bump_self]
  omega

theorem fref_dropped (ff : File) (hf : f ∉ t.fresh) :
    (((t.fref f 1).fref f (-1)).takeRef ff).withFresh ((t.fref f 1).fresh \ {f}) = t.takeRef ff := by
  have hdiff : (t.fref f 1).fresh \ {f} = (t.takeRef ff).fresh := sdiff_singleton_eq_self hf
  rw [fref_neg, hdiff]
  rfl

theorem fileclose_refs (hl : logs c = true) (h : t.Ok) (hd : t.depth = 0) (hu : t.use = none) (hf : f ∉ t.fresh) :
    refWp p c (fileclose sb p f) (fun _ t' => t' = some t) (t.fref f 1) := by
  refine awp_seq (awp_lift (.fileUnref (fref_pos h f) hu)) fun (r : Option File) t' ht => ?_
  match r, ht with
  | none, ht =>
    rw [ht.2, fref_neg]
    rfl
  | some ff, ht =>
    obtain ⟨-, rfl⟩ := ht
    rw [fref_dropped ff hf]
    refine awp_ite (closeInode_refs sb hl h hd) fun htype => ?_
    rw [takeRef_of_not fun k hk => htype hk.1]
    rfl

theorem fileclose_fresh (hf : f ∈ t.fresh) (hfr : 1 ≤ t.fr f) (hu : t.use = none) :
    refWp p c (fileclose sb p f) (fun _ t' => t' = some ((t.fref f (-1)).withFresh (t.fresh \ {f}))) t := by
  refine awp_seq (awp_lift (.fileUnref hfr hu)) fun (r : Option File) t' ht => ?_
  match r, ht with
  | none, ht => exact absurd hf ht.1
  | some ff, ht =>
    obtain ⟨htype, rfl⟩ := ht
    have hnone : ∀ k, ¬Points ff k := fun k hk => by
      have h1 := hk.1
      rw [htype hf] at h1
      rcases h1 with h1 | h1 <;> cases h1
    have htype' : ¬(ff.type = .inode ∨ ff.type = .device) := by
      rw [htype hf]
      rintro (h | h) <;> cases h
    rw [takeRef_of_not hnone]
    dsimp only
    rw [if_neg htype']
    rfl

-- What a process knows when it has read an entry of the file table.
abbrev Knows (t : Th) (f : Fd) (ff : File) (t' : Option Th) : Prop :=
  (t' = some t ∧ ∀ k, ¬Points ff k) ∨ ∃ k, Points ff k ∧ t' = some (t.withUse (some (f, k)))

theorem fileOf_refs (hf : 1 ≤ t.fr f) (hu : t.use = none) (hfresh : f ∉ t.fresh) : refWp p c (fileOf f) (Knows t f) t :=
  awp_lift (.file hf ⟨hu, hfresh⟩)

theorem filedup_refs (hf : 1 ≤ t.fr f) (hfresh : f ∉ t.fresh) :
    refWp p c (filedup f) (fun r t' => r = f ∧ t' = some (t.fref f 1)) t :=
  awp_seq (awp_lift (.filedup hf hfresh)) fun _ _ ht => ⟨rfl, ht⟩

def Used (t : Th) (t' : Option Th) : Prop := ∃ u, t' = some (t.withUse u)

theorem used_self (hu : t.use = none) : Used t (some t) := ⟨none, by rw [withUse, ← hu]⟩

theorem Knows.used (h : Knows t f ff t') (hu : t.use = none) : Used t t' := by
  rcases h with ⟨rfl, -⟩ | ⟨k, -, rfl⟩
  · exact used_self hu
  · exact ⟨_, rfl⟩

theorem Knows.inode {g : Slot → Kernel α} (h : Knows t f ff t')
    (htype : ff.type = .inode ∨ ff.type = .device) (hg : ∀ k, refWp p c (g k) Q (t.withUse (some (f, k)))) :
    awp (RefRule p c) (fun _ => True) (deref ff.ip >>= g) Q t' := by
  rcases h with ⟨rfl, hno⟩ | ⟨k, hk, rfl⟩
  · exact deref_seq fun k hip => absurd ⟨htype, hip⟩ (hno k)
  · refine deref_seq fun k' hip => ?_
    obtain rfl : k' = k := Option.some.inj (hip.symm.trans hk.2)
    exact hg k'

theorem filestat_refs (hf : 1 ≤ t.fr f) (hu : t.use = none) (hfresh : f ∉ t.fresh) (dst : Bool) :
    refWp p c (filestat sb p f dst) (fun _ => Used t) t := by
  refine awp_seq (fileOf_refs hf hu hfresh) fun ff t' ht => awp_ite (fun htype => ?_) fun htype => ?_
  · refine Knows.inode ht htype fun k => ilock_to sb (.inr ⟨f, rfl⟩) fun hk => ?_
    refine quiet_seq (inode_quiet k) fun ip => awp_to (iunlock_refs hk) fun _ => ?_
    exact awp_ite (fun _ => ⟨_, rfl⟩) fun _ => ⟨_, rfl⟩
  · exact Knows.used ht hu

theorem advance_quiet (f : Fd) (r : Int) : Quiet (advance f r) := all_ite (all_lift trivial) trivial

theorem fileread_refs (hf : 1 ≤ t.fr f) (hu : t.use = none) (hfresh : f ∉ t.fresh) (dst : Nat → Bool)
    (n : UInt32) (io : Int) : refWp p c (fileread sb p f dst n io) (fun _ => Used t) t := by
  refine awp_seq (fileOf_refs hf hu hfresh) fun ff t' ht => ?_
  have hused := Knows.used ht hu
  refine awp_ite (fun _ => hused) fun _ => ?_
  match htype : ff.type with
  | .pipe => exact hused
  | .device => exact awp_ite (fun _ => hused) fun _ => hused
  | .none => trivial
  | .inode =>
    refine Knows.inode ht (.inl htype) fun k => ilock_to sb (.inr ⟨f, rfl⟩) fun hk => ?_
    refine quiet_seq (fileOf_quiet f) fun ff => quiet_seq (readi_quiet sb k _ _ _) fun r => ?_
    refine quiet_seq (advance_quiet f r.1) fun _ => awp_to (iunlock_refs hk) fun _ => ?_
    exact ⟨_, rfl⟩

theorem writeChunks_refs (hl : logs c = true) (hd : t.depth = 0) (hk : t.Claim k) (src : Nat → Option UInt8)
    (n fuel i : Nat) : refWp p c (writeChunks sb p f k src n fuel i) (fun _ t' => t' = some t) t := by
  induction fuel generalizing i with
  | zero => rfl
  | succ fuel ih =>
    rw [writeChunks]
    refine awp_ite (fun _ => ?_) fun _ => rfl
    refine awp_to (beginOp_refs hl hd) fun _ => ?_
    refine ilock_to sb hk fun hheld => ?_
    refine quiet_seq (fileOf_quiet f) fun ff => quiet_seq (writei_quiet sb k _ _ _) fun r => ?_
    refine quiet_seq (advance_quiet f r) fun _ => awp_to (iunlock_refs hheld) fun _ => ?_
    refine awp_seq (endOp_refs rfl) fun _ t' ht => ?_
    rw [show (t.at 1).at 0 = t by rw [Th.at, Th.at, ← hd]] at ht
    subst ht
    exact awp_ite (fun _ => rfl) fun _ => ih _

theorem filewrite_refs (hl : logs c = true) (hd : t.depth = 0) (hf : 1 ≤ t.fr f) (hu : t.use = none)
    (hfresh : f ∉ t.fresh) (src : Nat → Option UInt8) (n : Int32) (io : Int) :
    refWp p c (filewrite sb p f src n io) (fun _ => Used t) t := by
  refine awp_seq (fileOf_refs hf hu hfresh) fun ff t' ht => ?_
  have hused := Knows.used ht hu
  refine awp_ite (fun _ => hused) fun _ => ?_
  match htype : ff.type with
  | .pipe => exact hused
  | .device => exact awp_ite (fun _ => hused) fun _ => hused
  | .none => trivial
  | .inode =>
    refine Knows.inode ht (.inl htype) fun k => ?_
    have hd' : (t.withUse (some (f, k))).depth = 0 := hd
    refine awp_to (writeChunks_refs sb hl hd' (.inr ⟨f, rfl⟩) src _ _ _) fun i => ?_
    exact awp_ite (fun _ => ⟨_, rfl⟩) fun _ => ⟨_, rfl⟩

end Files

theorem ofile_refs (t : Th) : refWp p c (ofile p) (fun files t' => files = t.ofile ∧ t' = some t) t := by
  refine awp_seq (awp_lift (.proc t)) fun (pr : Proc) t' ht => ?_
  exact ⟨ht.2.1, ht.1⟩

theorem argfd_refs (fd : Int32) (t : Th) :
    refWp p c (argfd p fd) (fun r t' => t' = some t ∧ ∀ fd' f, r = some (fd', f) → t.ofile fd' = some f) t := by
  refine awp_seq (ofile_refs t) fun files t' ht => ?_
  obtain ⟨rfl, rfl⟩ := ht
  split
  · refine ⟨rfl, fun fd' f hr => ?_⟩
    obtain ⟨f', hf', heq⟩ := Option.map_eq_some_iff.mp hr
    cases heq
    exact hf'
  · exact ⟨rfl, nofun⟩

theorem argfd_to {f : Option (Fin NOFILE × Fd) → Kernel α} (fd : Int32) (hnone : refWp p c (f none) Q t)
    (hsome : ∀ fd' ff, t.ofile fd' = some ff → refWp p c (f (some (fd', ff))) Q t) :
    refWp p c (argfd p fd >>= f) Q t := by
  refine awp_seq (argfd_refs fd t) fun r t' ht => ?_
  obtain ⟨rfl, hr⟩ := ht
  match r, hr with
  | none, _ => exact hnone
  | some (fd', ff), hr => exact hsome fd' ff (hr fd' ff rfl)

theorem fdalloc_refs (f : Fd) (t : Th) : refWp p c (fdalloc p f) (fun r t' => match r with
      | none => t' = some t
      | some fd => t.ofile fd = none ∧ t' = some (t.withOfile fd (some f))) t := by
  refine awp_seq (ofile_refs t) fun files t' ht => ?_
  obtain ⟨rfl, rfl⟩ := ht
  match hfd : (List.finRange NOFILE).find? fun fd => (t.ofile fd).isNone with
  | none => rfl
  | some fd =>
    have hnone := find?_some hfd
    rw [Option.isNone_iff_eq_none] at hnone
    exact awp_seq (awp_lift (.setOfile t fd (some f))) fun _ t' ht => ⟨hnone, ht⟩

theorem permitted_refs (hc : ∀ d, ¬DeniedOpen d c) (f : Fd) (bit : UInt16) (t : Th) :
    refWp p c (permitted f bit) (fun _ t' => t' = some t) t := by
  refine quiet_seq (fileOf_quiet f) fun ff => ?_
  match ff.ip with
  | none => rfl
  | some k =>
    refine awp_seq (awp_lift (.perm t k)) fun (ip : Inode) t' ht => ?_
    simp only [hc, decide_false, Bool.or_false] at ht
    exact ht

section Calls

variable (pr : Proc) {fd : Fin NOFILE} {f : Fd} {ofile : Fin NOFILE → Option Fd}

theorem start_fr {pr : Proc} (h : (start pr).ofile fd = some f) :
    1 ≤ (start pr).fr f := fdCount_pos h

def withFiles (pr : Proc) (ofile : Fin NOFILE → Option Fd) : Proc := { pr with ofile := ofile }

theorem start_add {pr : Proc} (h : pr.ofile fd = none) :
    ((start pr).fref f 1).withOfile fd (some f) = start (withFiles pr (update pr.ofile fd (some f))) := by
  have hfr : bump (fdCount pr.ofile) f 1 = fdCount (update pr.ofile fd (some f)) := by
    funext f'
    rw [fdCount_update, h]
    simp only [bump, Option.some.injEq, reduceCtorEq, if_false, Int.sub_zero, eq_comm]
  simp only [start, withFiles, fref, withOfile, hfr]

theorem used_post {m : Kernel α} (h : refWp p c m (fun _ => Used (start pr)) (start pr)) :
    refWp p c m (fun _ => RefPost) (start pr) :=
  awp_mono h fun _ _ ⟨u, ht⟩ => ht ▸ start_post pr u

theorem sysDup_refs (fd : Int32) : refWp p c (sysDup p fd) (fun _ => RefPost) (start pr) := by
  refine argfd_to fd (start_post' pr) fun fd' f hr => awp_seq (fdalloc_refs f (start pr)) fun r t' ht => ?_
  match r, ht with
  | none, ht =>
    subst ht
    exact start_post' pr
  | some fd'', ht =>
    obtain ⟨hnone, rfl⟩ := ht
    have hf : 1 ≤ ((start pr).withOfile fd'' (some f)).fr f := start_fr hr
    refine awp_seq (filedup_refs hf (notMem_empty _)) fun _ t' ht => ?_
    obtain ⟨-, rfl⟩ := ht
    rw [show ((start pr).withOfile fd'' (some f)).fref f 1 = _ from start_add hnone]
    exact start_post' _

theorem sysRead_refs (hc : ∀ d, ¬DeniedOpen d c) (fd : Int32) (dst : Nat → Bool) (n : UInt32) (io : Int) :
    refWp p c (sysRead sb p fd dst n io) (fun _ => RefPost) (start pr) := by
  refine argfd_to fd (start_post' pr) fun fd' f hr => awp_to (permitted_refs hc f S_IRUSR _) fun ok => ?_
  refine awp_ite (fun _ => used_post pr ?_) fun _ => start_post' pr
  exact fileread_refs sb (start_fr hr) rfl (notMem_empty _) dst n io

theorem sysWrite_refs (hl : logs c = true) (hc : ∀ d, ¬DeniedOpen d c) (fd : Int32)
    (src : Nat → Option UInt8) (n : Int32) (io : Int) : refWp p c (sysWrite sb p fd src n io) (fun _ => RefPost) (start pr) := by
  refine argfd_to fd (start_post' pr) fun fd' f hr => awp_to (permitted_refs hc f S_IWUSR _) fun ok => ?_
  refine awp_ite (fun _ => used_post pr ?_) fun _ => start_post' pr
  exact filewrite_refs sb hl rfl (start_fr hr) rfl (notMem_empty _) src n io

theorem sysFstat_refs (fd : Int32) (dst : Bool) : refWp p c (sysFstat sb p fd dst) (fun _ => RefPost) (start pr) := by
  refine argfd_to fd (start_post' pr) fun fd' f hr => used_post pr ?_
  exact filestat_refs sb (start_fr hr) rfl (notMem_empty _) dst

theorem sysLseek_refs (fd offset whence : Int32) :
    refWp p c (sysLseek p fd offset whence) (fun _ => RefPost) (start pr) := by
  refine argfd_to fd (start_post' pr) fun fd' f _ => awp_ite (fun _ => start_post' pr) fun _ => ?_
  refine quiet_seq (fileOf_quiet f) fun ff => quiet_seq (deref_quiet _) fun k => quiet_seq (inode_quiet k) fun ip => ?_
  match seekTo ff.off ip.din.size offset whence with
  | none => exact start_post' pr
  | some off => exact quiet_seq (m := act (.setOff f fun _ => off)) (all_lift trivial) fun _ => start_post' pr

theorem fdCount_drop (h : ofile fd = some f) :
    bump (fdCount (update ofile fd none)) f 1 = fdCount ofile := by
  funext f'
  rw [bump, fdCount_update, h]
  simp only [reduceCtorEq, if_false, Option.some.injEq, eq_comm (a := f)]
  split <;> omega

theorem start_drop {pr : Proc} (h : pr.ofile fd = some f) :
    (start pr).withOfile fd none = (start (withFiles pr (update pr.ofile fd none))).fref f 1 := by
  simp only [start, withFiles, withOfile, fref, fdCount_drop h]

theorem sysClose_refs (hl : logs c = true) (fd : Int32) :
    refWp p c (sysClose sb p fd) (fun _ => RefPost) (start pr) := by
  refine argfd_to fd (start_post' pr) fun fd' f hr => awp_to (awp_lift (.setOfile _ fd' none)) fun _ => ?_
  rw [start_drop hr]
  exact awp_to (fileclose_refs sb hl (start_ok _) rfl rfl (notMem_empty _)) fun _ => start_post' _

theorem finish_refs (a : α) : refWp p c (endOp >>= fun _ => pure a) (fun _ => RefPost) ((start pr).at 1) :=
  endOp_pure rfl a (start_post' pr)

theorem finish_locked (hk : k ∉ ((start pr).at 1).held) (a : α) :
    refWp p c (iunlockput sb p k >>= fun _ => endOp >>= fun _ => pure a) (fun _ => RefPost)
      ((((start pr).at 1).ref k 1).lock k) :=
  awp_to (iunlockput_refs sb (start_at_ok pr 1) hk) fun _ => finish_refs pr a

theorem linkBad_refs (k : Slot) : refWp p c (linkBad sb p k) (fun _ => RefPost) (((start pr).at 1).ref k 1) := by
  refine ilock_to sb ((start_at_ok pr 1).claim_ref k) fun hk => ?_
  refine quiet_seq (setDin_quiet k _) fun _ => quiet_seq (iupdate_quiet sb k) fun _ => ?_
  exact finish_locked sb pr hk _

theorem linkEntry_refs (h : t.Ok) (dp k : Slot) (name : Name) :
    refWp p c (linkEntry sb p dp k name) (fun _ t' => t' = some t) t := by
  refine quiet_seq (inode_quiet dp) fun d => quiet_seq (inode_quiet k) fun ip => ?_
  exact awp_ite (fun _ => rfl) fun _ => dirlink_refs sb h dp name _

theorem sysLink_refs (hl : logs c = true) (old new : Option Path) :
    refWp p c (sysLink sb p old new) (fun _ => RefPost) (start pr) := by
  match old, new with
  | none, _ => exact start_post' pr
  | some _, none => exact start_post' pr
  | some old, some new =>
    have hok := start_at_ok pr 1
    refine awp_to (beginOp_refs hl rfl) fun _ => namei_to sb hok old (finish_refs pr _) fun k => ?_
    refine ilock_to sb (hok.claim_ref k) fun hk => ?_
    refine quiet_seq (inode_quiet k) fun ip => awp_ite (fun _ => finish_locked sb pr hk _) fun _ => ?_
    refine quiet_seq (setDin_quiet k _) fun _ => quiet_seq (iupdate_quiet sb k) fun _ => ?_
    refine awp_to (iunlock_refs hk) fun _ => nameiparent_to sb (hok.ref k) new (linkBad_refs sb pr k) fun dp name => ?_
    refine ilock_to sb ((hok.ref k).claim_ref dp) fun hdp => ?_
    have hok' := ((hok.ref k).ref dp).lock ((hok.ref k).claim_ref dp)
    refine awp_to (linkEntry_refs sb hok' dp k name) fun r => awp_to (iunlockput_refs sb (hok.ref k) hdp) fun _ => ?_
    refine awp_ite (fun _ => linkBad_refs sb pr k) fun _ => ?_
    exact awp_to (iput_refs sb hok) fun _ => finish_refs pr _

theorem unlinkBad_refs (hdp : dp ∉ ((start pr).at 1).held) :
    refWp p c (unlinkBad sb p dp) (fun _ => RefPost) ((((start pr).at 1).ref dp 1).lock dp) :=
  finish_locked sb pr hdp _

theorem unlinkEntry_refs (hdp : dp ∉ ((start pr).at 1).held)
    (hk : k ∉ ((((start pr).at 1).ref dp 1).lock dp).held) (off : Nat) :
    refWp p c (unlinkEntry sb p dp k off) (fun _ => RefPost)
      ((((((start pr).at 1).ref dp 1).lock dp).ref k 1).lock k) := by
  have hok := start_at_ok pr 1
  refine quiet_seq (writeDirent_quiet sb dp _ _) fun r => awp_ite (fun _ => trivial) fun _ => ?_
  refine quiet_seq (inode_quiet k) fun ip => quiet_seq (addParent_quiet sb (-1) dp _) fun _ => ?_
  rw [two_locked]
  refine awp_seq (iunlockput_refs sb ((hok.ref k).lock (hok.claim_ref k)) ?_) fun _ t' ht => ?_
  · rintro (rfl | hm)
    · exact hk (mem_insert _ _)
    · exact hdp hm
  · subst ht
    refine quiet_seq (setDin_quiet k _) fun _ => quiet_seq (iupdate_quiet sb k) fun _ => ?_
    exact finish_locked sb pr (fun hm => hk (Set.mem_insert_of_mem dp hm)) _

theorem sysUnlink_refs (hl : logs c = true) (path : Option Path) :
    refWp p c (sysUnlink sb p path) (fun _ => RefPost) (start pr) := by
  match path with
  | none => exact start_post' pr
  | some path =>
    have hok := start_at_ok pr 1
    refine awp_to (beginOp_refs hl rfl) fun _ => nameiparent_to sb hok path (finish_refs pr _) fun dp name => ?_
    refine ilock_to sb (hok.claim_ref dp) fun hdp => awp_ite (fun _ => unlinkBad_refs sb pr hdp) fun _ => ?_
    refine dirlookup_to sb dp name (unlinkBad_refs sb pr hdp) fun k off => ?_
    have hok' := (hok.ref dp).lock (hok.claim_ref dp)
    refine ilock_to sb (hok'.claim_ref k) fun hk => ?_
    refine quiet_seq (inode_quiet k) fun ip => awp_ite (fun _ => trivial) fun _ => ?_
    refine quiet_seq (mayUnlink_quiet sb k _) fun empty => awp_ite (fun _ => ?_) fun _ => ?_
    · exact unlinkEntry_refs sb pr hdp hk off
    · exact awp_to (iunlockput_refs sb hok' hk) fun _ => unlinkBad_refs sb pr hdp

theorem openInode_refs (h : t.Ok) (hc : isChmod c = false) (path : Path) (omode : UInt32) :
    refWp p c (openInode sb p path omode) (made t) t := by
  unfold openInode
  refine awp_ite (fun _ => create_refs sb h hc path T_FILE 0 0) fun _ => ?_
  refine namei_to sb h path rfl fun k => ilock_to sb (h.claim_ref k) fun hk => ?_
  refine quiet_seq (inode_quiet k) fun ip => awp_ite (fun _ => ?_) fun _ => ⟨hk, rfl⟩
  exact awp_to (iunlockput_refs sb h hk) fun _ => rfl

def opening (pr : Proc) (k : Slot) (f : Fd) (fd : Fin NOFILE) : Th :=
  (((((start pr).at 1).ref k 1).lock k).fref f 1).withFresh (insert f ∅) |>.withOfile fd (some f)

theorem openFill_refs (hk : k ∉ ((start pr).at 1).held) (hf : (start pr).fr f = 0)
    (hfd : pr.ofile fd = none) (omode : UInt32) :
    refWp p c (openFill sb p k omode f fd) (fun _ => RefPost) (opening pr k f fd) := by
  have hok := start_at_ok pr 1
  have hfr : 1 ≤ (opening pr k f fd).fr f := by
    change 1 ≤ bump (start pr).fr f 1 f
    rw [bump_self, hf]
    decide
  refine quiet_seq (inode_quiet k) fun ip => ?_
  refine awp_seq (awp_lift (.setFile (k := k) (mem_insert f _) ?_ (fun ff => ⟨⟨?_, rfl⟩, rfl⟩) rfl ?_)) fun _ t' ht => ?_
  · exact hok.claim_ref k |>.resolve_right fun ⟨f', hf'⟩ => by cases hf'
  · by_cases hdev : ip.din.type = T_DEVICE
    · exact .inr (if_pos hdev)
    · exact .inl (if_neg hdev)
  · refine ⟨fun j => ?_, fun f' => ?_, fun j hj => ?_, fun f' j hu => ?_,
      fun f' hf' => absurd hf'.1 fun h => h.elim hf'.2 (notMem_empty f')⟩
    · change 0 ≤ (((((start pr).at 1).ref k 1).ref k (-1)).ir j)
      rw [ref_neg]
      exact hok.ir_nonneg j
    · exact le_trans (hok.fr_nonneg f') (le_bump _ _ _ (by decide))
    · rcases Set.mem_insert_iff.mp hj with rfl | hj
      · exact .inr ⟨f, rfl⟩
      · exact absurd hj (notMem_empty j)
    · obtain ⟨rfl, rfl⟩ := Prod.mk.injEq .. ▸ Option.some.inj hu
      exact ⟨hfr, fun hf' => hf'.2 rfl⟩
  · subst ht
    refine quiet_seq (openTrunc_quiet sb k omode _) fun _ => ?_
    have heq : (((opening pr k f fd).ref k (-1)).withFresh (insert f ∅ \ {f})).withUse (some (f, k)) =
        (((((start pr).at 1).fref f 1).withOfile fd (some f)).withUse (some (f, k))).lock k := by
      rw [only_fresh]
      have hir : bump (bump (cwdCount pr.cwd) k 1) k (-1) = cwdCount pr.cwd := by
        rw [bump_bump, show (1 : Int) + -1 = 0 from rfl, bump_zero]
      simp only [opening, start, Th.at, ref, lock, fref, withFresh, withOfile, withUse, hir]
    change refWp p c _ _ ((((opening pr k f fd).ref k (-1)).withFresh (insert f ∅ \ {f})).withUse (some (f, k)))
    rw [heq]
    refine awp_to (iunlock_refs hk) fun _ => ?_
    refine endOp_pure rfl _ ⟨rfl, rfl, rfl, fun _ => (Int.add_zero _).symm, fun f' => ?_⟩
    change bump (fdCount pr.ofile) f 1 f' = fdCount (update pr.ofile fd (some f)) f'
    rw [fdCount_update, hfd]
    simp only [bump, Option.some.injEq, reduceCtorEq, if_false, Int.sub_zero, eq_comm]

theorem openFile_undo (k : Slot) (f : Fd) :
    (((((((start pr).at 1).ref k 1).lock k).fref f 1).withFresh (insert f ∅)).fref f (-1)).withFresh (insert f ∅ \ {f}) =
      (((start pr).at 1).ref k 1).lock k := by
  rw [only_fresh]
  exact fref_neg ((((start pr).at 1).ref k 1).lock k) f

theorem openFile_refs (hk : k ∉ ((start pr).at 1).held) (omode : UInt32) :
    refWp p c (openFile sb p k omode) (fun _ => RefPost) ((((start pr).at 1).ref k 1).lock k) := by
  refine awp_seq (awp_lift (.filealloc _)) fun (r : Option Fd) t' ht => ?_
  match r, ht with
  | none, ht =>
    subst ht
    exact finish_locked sb pr hk _
  | some f, ht =>
    obtain ⟨hf0, rfl⟩ := ht
    refine awp_seq (fdalloc_refs f _) fun r t' ht => ?_
    match r, ht with
    | none, ht =>
      subst ht
      have hfr : 1 ≤ (((((start pr).at 1).ref k 1).lock k).fref f 1).fr f := by
        change 1 ≤ bump _ f 1 f
        rw [bump_self, hf0]
        decide
      refine awp_seq (fileclose_fresh sb (mem_insert f _) hfr rfl) fun _ t' ht => ?_
      obtain rfl : t' = _ := ht.trans (congrArg some (openFile_undo pr k f))
      exact finish_locked sb pr hk _
    | some fd, ht =>
      obtain ⟨hnone, rfl⟩ := ht
      exact openFill_refs sb pr hk hf0 hnone omode

-- The test of O_RDONLY, which is zero, refuses nothing.
theorem not_denied_read (omode : UInt32) (d : Dinode) : ¬Denied omode O_RDONLY S_IRUSR d := by
  rintro ⟨h, -⟩
  exact h (by rw [show O_RDONLY = 0 from rfl, UInt32.and_zero])

theorem denied_open (k : Slot) (h : Denied omode O_WRONLY S_IWUSR d) :
    ({ (((start pr).at 1).ref k 1).lock k with
      denied := ((((start pr).at 1).ref k 1).lock k).denied || DeniedOpen d (.open (some path) omode) } : Th) =
      (({ (start pr).at 1 with denied := true } : Th).ref k 1).lock k := by
  have hden : DeniedOpen d (.open (some path) omode) := h
  simp [hden]
  rfl

theorem not_denied_open (k : Slot) (h : ¬Denied omode O_WRONLY S_IWUSR d) :
    ({ (((start pr).at 1).ref k 1).lock k with
      denied := ((((start pr).at 1).ref k 1).lock k).denied || DeniedOpen d (.open (some path) omode) } : Th) =
      (((start pr).at 1).ref k 1).lock k := by
  have hden : ¬DeniedOpen d (.open (some path) omode) := h
  simp [hden]

-- The transaction of an open that is refused stays open.
theorem openDenied_refs (hk : k ∉ ((start pr).at 1).held) :
    refWp p c (openDenied sb p k) (fun _ => RefPost) ((({ (start pr).at 1 with denied := true } : Th).ref k 1).lock k) := by
  have hok := start_at_ok pr 1
  have hok' : ({ (start pr).at 1 with denied := true } : Th).Ok :=
    ⟨hok.ir_nonneg, hok.fr_nonneg, hok.claim, hok.use, hok.fresh⟩
  refine awp_to (iunlockput_refs sb hok' hk) fun _ => ?_
  exact ⟨rfl, rfl, rfl, fun _ => (Int.add_zero _).symm, fun _ => rfl⟩

theorem sysOpen_refs (path : Option Path) (omode : UInt32) :
    refWp p (.open path omode) (sysOpen sb p path omode) (fun _ => RefPost) (start pr) := by
  match path with
  | none => exact start_post' pr
  | some path =>
    have hok := start_at_ok pr 1
    refine awp_to (beginOp_refs rfl rfl) fun _ => ?_
    refine awp_seq (openInode_refs sb hok rfl path omode) fun r t' ht => ?_
    match r, ht with
    | none, ht =>
      obtain rfl : t' = _ := ht
      exact finish_refs pr _
    | some k, ht =>
      obtain ⟨hk, rfl⟩ := ht
      refine quiet_seq (inode_quiet k) fun ip => awp_ite (fun _ => finish_locked sb pr hk _) fun _ => ?_
      refine awp_to (awp_lift (.perm _ k)) fun (ip : Inode) => ?_
      rw [if_neg (not_denied_read omode ip.din)]
      refine awp_ite (fun hden => ?_) fun hden => ?_
      · rw [denied_open pr k hden]
        exact openDenied_refs sb pr hk
      · rw [not_denied_open pr k hden]
        exact openFile_refs sb pr hk omode

theorem sysMake_refs (hl : logs c = true) (hc : isChmod c = false) (path : Option Path) (type major minor : Int16) :
    refWp p c (sysMake sb p path type major minor) (fun _ => RefPost) (start pr) := by
  refine awp_to (beginOp_refs hl rfl) fun _ => ?_
  match path with
  | none => exact finish_refs pr _
  | some path =>
    refine awp_seq (create_refs sb (start_at_ok pr 1) hc path type major minor) fun r t' ht => ?_
    match r, ht with
    | none, ht =>
      obtain rfl : t' = _ := ht
      exact finish_refs pr _
    | some k, ht =>
      obtain ⟨hk, rfl⟩ := ht
      exact finish_locked sb pr hk _

theorem sysChmod_refs (path : Option Path) (mode : UInt32) :
    refWp p (.chmod path mode) (sysChmod sb p path mode) (fun _ => RefPost) (start pr) := by
  match path with
  | none => exact start_post' pr
  | some path =>
    have hok := start_at_ok pr 1
    refine awp_to (beginOp_refs rfl rfl) fun _ => namei_to sb hok path (finish_refs pr _) fun k => ?_
    refine ilock_to sb (hok.claim_ref k) fun hk => awp_to (awp_lift (.setMode _ k _)) fun _ => ?_
    refine quiet_seq (iupdate_quiet sb k) fun _ => ?_
    rw [show (if isChmod (.chmod (some path) mode) then ((((start pr).at 1).ref k 1).lock k).leaks k
      else (((start pr).at 1).ref k 1).lock k) = ((((start pr).at 1).ref k 1).leaks k).lock k from rfl]
    refine awp_to (iunlock_refs hk) fun _ => endOp_pure rfl _ ⟨rfl, rfl, rfl, fun j => ?_, fun _ => rfl⟩
    change bump (cwdCount pr.cwd) k 1 j = cwdCount pr.cwd j + bump (fun _ => 0) k 1 j
    simp only [bump]
    omega

theorem sysExec_refs (hl : logs c = true) (path : Option Path) (vm : Nat → Bool) (pagetable : Bool) (argc : Int) :
    refWp p c (sysExec sb p path vm pagetable argc) (fun _ => RefPost) (start pr) := by
  match path with
  | none => exact start_post' pr
  | some path =>
    have hok := start_at_ok pr 1
    refine awp_to (beginOp_refs hl rfl) fun _ => namei_to sb hok path (finish_refs pr _) fun k => ?_
    refine ilock_to sb (hok.claim_ref k) fun hk => quiet_seq (execLoad_quiet sb k vm pagetable) fun ok => ?_
    refine awp_to (iunlockput_refs sb hok hk) fun _ => awp_to (endOp_refs rfl) fun _ => ?_
    exact awp_ite (fun _ => start_post' pr) fun _ => start_post' pr

def bare (pr : Proc) : Th := { start pr with ir := fun _ => 0 }

theorem start_eq_bare {pr : Proc} {cwd : Slot} (h : pr.cwd = some cwd) : start pr = (bare pr).ref cwd 1 := by
  have hir : cwdCount pr.cwd = bump (fun _ => 0) cwd 1 := by
    funext k
    simp only [cwdCount, bump, h, Option.some.injEq, Int.zero_add, eq_comm]
  simp only [bare, ref, start, hir]

theorem bare_at_ok (pr : Proc) (d : Nat) : ((bare pr).at d).Ok where
  ir_nonneg _ := le_rfl
  fr_nonneg f := fdCount_nonneg pr.ofile f
  claim _ hk := absurd hk (notMem_empty _)
  use _ _ h := by cases h
  fresh _ h := absurd h (notMem_empty _)

theorem sysChdir_refs (hl : logs c = true) (path : Option Path) :
    refWp p c (sysChdir sb p path) (fun _ => RefPost) (start pr) := by
  refine awp_to (beginOp_refs hl rfl) fun _ => ?_
  match path with
  | none => exact finish_refs pr _
  | some path =>
    have hok := start_at_ok pr 1
    refine namei_to sb hok path (finish_refs pr _) fun k => ilock_to sb (hok.claim_ref k) fun hk => ?_
    refine quiet_seq (inode_quiet k) fun ip => awp_ite (fun _ => finish_locked sb pr hk _) fun _ => ?_
    refine awp_to (iunlock_refs hk) fun _ => awp_seq (awp_lift (.proc _)) fun (pr' : Proc) t' ht => ?_
    obtain ⟨rfl, -, hcwd⟩ := ht
    refine deref_seq fun cwd hpr => ?_
    have hcwd' : pr.cwd = some cwd := hcwd.symm.trans hpr
    rw [show ((start pr).at 1).ref k 1 = (((bare pr).at 1).ref k 1).ref cwd 1 by
      rw [start_eq_bare hcwd', ref_comm]; rfl]
    refine awp_to (iput_refs sb ((bare_at_ok pr 1).ref k)) fun _ => awp_to (endOp_refs rfl) fun _ => ?_
    refine awp_to (awp_lift (.setCwd _ (some k))) fun _ => ⟨rfl, rfl, rfl, fun j => ?_, fun _ => rfl⟩
    change bump (fun _ => 0) k 1 j = cwdCount (some k) j + 0
    simp only [bump, cwdCount, Option.some.injEq, Int.zero_add, Int.add_zero, eq_comm]

def forking (pr : Proc) (np : Pid) (ofile : Fin NOFILE → Option Fd) : Th :=
  { start pr with
    child := some ⟨np, ofile, none⟩
    fr := fun f => fdCount pr.ofile f + fdCount ofile f }

theorem forkFiles_refs (np : Pid) (fds : List (Fin NOFILE)) (hnd : fds.Nodup)
    (ofile : Fin NOFILE → Option Fd) (hnone : ∀ fd ∈ fds, ofile fd = none) :
    refWp p c (forkFiles np pr.ofile fds) (fun _ t' => ∃ ofile', t' = some (forking pr np ofile'))
      (forking pr np ofile) := by
  induction fds generalizing ofile with
  | nil => exact ⟨ofile, rfl⟩
  | cons fd fds ih =>
    rw [nodup_cons] at hnd
    rw [forkFiles]
    match hfd : pr.ofile fd with
    | none => exact ih hnd.2 ofile fun x hx => hnone x (mem_cons_of_mem fd hx)
    | some f =>
      have hf : 1 ≤ (forking pr np ofile).fr f := by
        have h1 := fdCount_pos hfd
        have h2 := fdCount_nonneg ofile f
        change 1 ≤ fdCount pr.ofile f + fdCount ofile f
        omega
      refine awp_seq (filedup_refs hf (notMem_empty _)) fun f' t' ht => ?_
      obtain ⟨rfl, rfl⟩ := ht
      refine awp_seq (awp_lift (.childOfile ⟨np, ofile, none⟩ rfl fd (some f'))) fun _ t' ht => ?_
      have heq : t' = some (forking pr np (update ofile fd (some f'))) := by
        rw [ht]
        have hfr : bump (fun f => fdCount pr.ofile f + fdCount ofile f) f' 1 =
            fun f => fdCount pr.ofile f + fdCount (update ofile fd (some f')) f := by
          funext x
          rw [bump, fdCount_update, hnone fd mem_cons_self]
          simp only [Option.some.injEq, reduceCtorEq, if_false, eq_comm (a := f')]
          omega
        simp only [forking, fref, withChild, hfr]
      subst heq
      refine ih hnd.2 _ fun x hx => ?_
      have hne : x ≠ fd := by
        rintro rfl
        exact hnd.1 hx
      rw [update_of_ne hne]
      exact hnone x (mem_cons_of_mem fd hx)

theorem start_forking (np : Pid) :
    (start pr).withChild (some ⟨np, fun _ => none, none⟩) = forking pr np fun _ => none := by
  simp only [forking, withChild, start, fdCount_none, Int.add_zero]

theorem forking_release (np : Pid) (ofile : Fin NOFILE → Option Fd) (cwd : Slot) :
    (((forking pr np ofile).ref cwd 1).withChild (some ⟨np, ofile, some cwd⟩)).release ⟨np, ofile, some cwd⟩ =
      start pr := by
  have hir : (fun k => bump (cwdCount pr.cwd) cwd 1 k - cwdCount (some cwd) k) = cwdCount pr.cwd := by
    funext k
    simp only [bump, cwdCount, Option.some.injEq, eq_comm (a := cwd)]
    omega
  have hfr : (fun f => fdCount pr.ofile f + fdCount ofile f - fdCount ofile f) = fdCount pr.ofile := by
    funext f
    omega
  simp only [forking, release, withChild, ref, start, hir, hfr]

theorem release_bare (q : Pid) (hc : t.child = none) :
    (t.withChild (some ⟨q, fun _ => none, none⟩)).release ⟨q, fun _ => none, none⟩ = t := by
  simp only [release, withChild, fdCount_none, Int.sub_zero, cwdCount, reduceCtorEq, if_false]
  rw [← hc]

theorem sysFork_refs (mem : Bool) : refWp p c (sysFork p mem) (fun _ => RefPost) (start pr) := by
  refine awp_seq (awp_lift (.allocproc rfl)) fun (r : Option Pid) t' ht => ?_
  match r, ht with
  | none, ht =>
    subst ht
    exact start_post' pr
  | some np, ht =>
    have hok := start_ok pr
    subst ht
    refine awp_ite (fun _ => ?_) fun _ => ?_
    · rw [start_forking]
      refine awp_seq (awp_lift (.proc _)) fun (pr' : Proc) t' ht => ?_
      obtain ⟨rfl, hof, hcwd⟩ := ht
      rw [hof]
      refine awp_seq (forkFiles_refs pr np _ (nodup_finRange _) _ fun _ _ => rfl) fun _ t' ht => ?_
      obtain ⟨ofile, rfl⟩ := ht
      refine deref_seq fun cwd _ => awp_seq (idup_refs cwd _) fun cwd' t' ht => ?_
      obtain ⟨rfl, rfl⟩ := ht
      refine awp_to (awp_lift (.childCwd ⟨np, ofile, none⟩ rfl (some cwd'))) fun _ => ?_
      refine quiet_seq (m := act (.setParent np (some p))) (all_lift trivial) fun _ => ?_
      have hrel := forking_release pr np ofile cwd'
      refine awp_seq (awp_lift (.setState ⟨np, ofile, some cwd'⟩ rfl (.inl rfl) (hrel ▸ hok)))
        fun _ t' ht => ?_
      rw [hrel] at ht
      subst ht
      exact start_post' pr
    · refine quiet_seq (m := act (.setParent np none)) (all_lift trivial) fun _ => ?_
      have hrel := release_bare (t := start pr) np rfl
      refine awp_seq (awp_lift (.setState ⟨np, fun _ => none, none⟩ rfl (.inr ⟨.inl rfl, rfl, rfl⟩)
        (by rw [hrel]; exact hok))) fun _ t' ht => ?_
      rw [hrel] at ht
      subst ht
      exact start_post' pr

-- exit drops the file before the descriptor that names it.
def closing (pr : Proc) (fd : Fin NOFILE) (ofile : Fin NOFILE → Option Fd) : Th :=
  { start (withFiles pr (update ofile fd none)) with ofile := ofile }

theorem start_closing (h : ofile fd = some f) :
    start (withFiles pr ofile) = (closing pr fd ofile).fref f 1 := by
  simp only [closing, start, withFiles, fref, fdCount_drop h]

theorem closing_ok (fd : Fin NOFILE) (ofile : Fin NOFILE → Option Fd) : (closing pr fd ofile).Ok :=
  let h := start_ok (withFiles pr (update ofile fd none))
  ⟨h.ir_nonneg, h.fr_nonneg, h.claim, h.use, h.fresh⟩

theorem exitFiles_refs (hl : logs c = true) (fds : List (Fin NOFILE)) (ofile : Fin NOFILE → Option Fd) :
    refWp p c (exitFiles sb p fds) (fun _ t' => ∃ ofile', t' = some (start (withFiles pr ofile')) ∧
        (∀ fd ∈ fds, ofile' fd = none) ∧ ∀ fd, ofile fd = none → ofile' fd = none)
      (start (withFiles pr ofile)) := by
  induction fds generalizing ofile with
  | nil => exact ⟨ofile, rfl, nofun, fun _ h => h⟩
  | cons fd fds ih =>
    refine awp_seq (awp_lift (.proc _)) fun (pr' : Proc) t' ht => ?_
    obtain ⟨rfl, hof, -⟩ := ht
    rw [show pr'.ofile = ofile from hof]
    match hfd : ofile fd with
    | none =>
      refine awp_mono (ih ofile) fun _ t' ⟨ofile', ht, h1, h2⟩ => ⟨ofile', ht, fun x hx => ?_, h2⟩
      rcases mem_cons.mp hx with rfl | hx
      · exact h2 x hfd
      · exact h1 x hx
    | some f =>
      rw [start_closing pr hfd]
      refine awp_to (fileclose_refs sb hl (closing_ok pr fd ofile) rfl rfl (notMem_empty _)) fun _ => ?_
      refine awp_to (awp_lift (.setOfile _ fd none)) fun _ => ?_
      refine awp_mono (ih (update ofile fd none)) fun _ t' ⟨ofile', ht, h1, h2⟩ =>
        ⟨ofile', ht, fun x hx => ?_, fun x hx => ?_⟩
      · rcases mem_cons.mp hx with rfl | hx
        · exact h2 x (update_self ..)
        · exact h1 x hx
      · by_cases hxf : x = fd
        · subst hxf
          exact h2 x (update_self ..)
        · exact h2 x (by rwa [update_of_ne hxf])

theorem sysExit_refs (hl : logs c = true) : refWp p c (sysExit sb p) (fun _ => RefPost) (start pr) := by
  unfold sysExit
  refine awp_ite (fun _ => trivial) fun _ => ?_
  refine awp_seq (exitFiles_refs sb pr hl _ pr.ofile) fun _ t' ht => ?_
  obtain ⟨ofile, rfl, hnone, -⟩ := ht
  obtain rfl : ofile = fun _ => none := funext fun fd => hnone fd (mem_finRange fd)
  refine awp_to (beginOp_refs hl rfl) fun _ => ?_
  refine awp_seq (awp_lift (.proc _)) fun (pr' : Proc) t' ht => ?_
  obtain ⟨rfl, -, hcwd⟩ := ht
  refine deref_seq fun cwd hpr => ?_
  have hcwd' : (withFiles pr fun _ => none).cwd = some cwd := hcwd.symm.trans hpr
  rw [start_eq_bare hcwd']
  refine awp_to (iput_refs sb (bare_at_ok _ 1)) fun _ => ?_
  refine awp_to (endOp_refs rfl) fun _ => ?_
  refine awp_to (awp_lift (.setCwd _ none)) fun _ => ?_
  refine awp_seq (awp_lift (.zombie rfl rfl (fun _ => rfl) (fun _ => rfl) (fun f => ?_) rfl rfl rfl rfl))
    fun _ t' ht => ?_
  · exact fdCount_none f
  · subst ht
    trivial

-- Every call gives back what it took when it returns.
theorem syscall_refs (c : Syscall) : refWp p c (syscall sb p c) (fun _ => RefPost) (start pr) := by
  cases c with
  | dup fd => exact sysDup_refs pr fd
  | read fd dst n io => exact awp_seq (sysRead_refs sb pr (fun _ => id) fd dst n io) fun _ _ ht => ht
  | write fd src n io => exact sysWrite_refs sb pr rfl (fun _ => id) fd src n io
  | close fd => exact sysClose_refs sb pr rfl fd
  | fstat fd dst => exact awp_seq (sysFstat_refs sb pr fd dst) fun _ _ ht => ht
  | link old new => exact sysLink_refs sb pr rfl old new
  | unlink path => exact sysUnlink_refs sb pr rfl path
  | «open» path omode => exact sysOpen_refs sb pr path omode
  | mkdir path => exact sysMake_refs sb pr rfl rfl path T_DIR 0 0
  | mknod path major minor => exact sysMake_refs sb pr rfl rfl path T_DEVICE _ _
  | chdir path => exact sysChdir_refs sb pr rfl path
  | exec path vm pagetable argc => exact sysExec_refs sb pr rfl path vm pagetable argc
  | lseek fd offset whence => exact sysLseek_refs pr fd offset whence
  | chmod path mode => exact sysChmod_refs sb pr path mode
  | fork mem => exact sysFork_refs pr mem
  | exit => exact sysExit_refs sb pr rfl
  | wait addrOk killed =>
    refine awp_to (awp_lift (.reap _ addrOk killed)) fun (ch : Option Pid) => ?_
    cases ch <;> exact start_post' pr

end Calls

end Fs
