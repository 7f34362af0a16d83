import Xv6.Refs

-- Every function gives back what it takes, or returns what it keeps.

namespace Fs

open Prog Kernel Th

-- The program runs by the rules of process `p` in the call `c` from `t`.
abbrev refWp {α : Type} (p : Pid) (c : Syscall) (m : Kernel α) (Q : α → Option Th → Prop) (t : Th) : Prop :=
  awp (RefRule p c) (fun _ => True) m Q (some t)

variable {α β : Type} {p : Pid} {c : Syscall} {t : Th} (sb : Superblock) {Q : β → Option Th → Prop}

theorem quiet_refs {m : Kernel α} (h : Quiet m) (t : Th) : refWp p c m (fun _ t' => t' = some t) t := by
  induction m with
  | ret a => rfl
  | fail e => trivial
  | act a k ih =>
    refine ⟨_, .quiet t h.1, fun r t' ht => ?_⟩
    subst ht
    exact ih r (h.2 r)

theorem quiet_seq {m : Kernel α} {f : α → Kernel β} (h : Quiet m) (hf : ∀ a, refWp p c (f a) Q t) :
    refWp p c (m >>= f) Q t := awp_to (quiet_refs h t) hf

theorem beginOp_refs (hc : logs c = true) (h : t.depth = 0) : refWp p c beginOp (fun _ t' => t' = some (t.at 1)) t :=
  awp_lift (.beginOp hc h)

theorem endOp_refs (h : t.depth = 1) : refWp p c endOp (fun _ t' => t' = some (t.at 0)) t := by
  refine awp_to (awp_lift (.endOp h)) fun (doCommit : Bool) => ?_
  cases doCommit with
  | false => rfl
  | true =>
    refine quiet_seq (m := act .commit) (all_lift trivial) fun _ => ?_
    exact quiet_refs (m := act .endCommit) (all_lift trivial) _

theorem endOp_pure (h : t.depth = 1) (a : α) {Q : α → Option Th → Prop} (hQ : Q a (some (t.at 0))) :
    refWp p c (endOp >>= fun _ => pure a) Q t := awp_to (endOp_refs h) fun _ => hQ

section Inodes

variable {k : Slot}

theorem iget_refs (dev inum : Nat) (t : Th) : refWp p c (iget dev inum) (fun k t' => t' = some (t.ref k 1)) t :=
  awp_lift (.iget t dev inum)

theorem idup_refs (k : Slot) (t : Th) : refWp p c (idup k) (fun k' t' => k' = k ∧ t' = some (t.ref k 1)) t :=
  awp_seq (awp_lift (.idup t k)) fun _ _ ht => ⟨rfl, ht⟩

theorem ilock_refs (h : t.Claim k) : refWp p c (ilock sb p k) (fun _ t' => k ∉ t.held ∧ t' = some (t.lock k)) t := by
  refine quiet_seq (inode_quiet k) fun ip => ?_
  split
  · trivial
  refine awp_seq (awp_lift (.acquiresleep h)) fun _ t' ht => ?_
  obtain ⟨hk, rfl⟩ := ht
  refine quiet_seq (inode_quiet k) fun ip => ?_
  split
  · exact ⟨hk, rfl⟩
  · refine quiet_seq (all_lift trivial) fun (dip : Dinode) => ?_
    split
    · trivial
    · exact ⟨hk, rfl⟩

theorem ilock_to {f : Unit → Kernel β} (h : t.Claim k) (hf : k ∉ t.held → refWp p c (f ()) Q (t.lock k)) :
    refWp p c (ilock sb p k >>= f) Q t := by
  refine awp_seq (ilock_refs sb h) fun _ t' ht => ?_
  obtain ⟨hk, rfl⟩ := ht
  exact hf hk

theorem releasesleep_refs (h : k ∉ t.held) : refWp p c (act (.releasesleep k)) (fun _ t' => t' = some t) (t.lock k) :=
  awp_mono (awp_lift (.releasesleep (Set.mem_insert k _))) fun _ _ ht => by rw [ht, unlock_lock h]

theorem iunlock_refs (h : k ∉ t.held) : refWp p c (iunlock p k) (fun _ t' => t' = some t) (t.lock k) := by
  refine quiet_seq (inode_quiet k) fun ip => ?_
  exact awp_ite (fun _ => trivial) fun _ => releasesleep_refs h

theorem iput_refs (h : t.Ok) : refWp p c (iput sb p k) (fun _ t' => t' = some t) (t.ref k 1) := by
  have hok : ((t.ref k 1).ref k (-1)).Ok := by rwa [ref_neg]
  refine awp_seq (awp_lift (.iputEnter hok)) fun (last : Bool) t' ht => ?_
  cases last with
  | false =>
    rw [if_neg Bool.false_ne_true, ref_neg] at ht
    exact ht
  | true =>
    rw [if_pos rfl] at ht
    obtain ⟨hk, rfl⟩ := ht
    refine quiet_seq (itrunc_quiet sb k) fun _ => quiet_seq (setDin_quiet k _) fun _ => ?_
    refine quiet_seq (iupdate_quiet sb k) fun _ => quiet_seq (all_lift trivial) fun _ => ?_
    refine awp_to (releasesleep_refs hk) fun _ => ?_
    exact awp_mono (awp_lift (.iputLeave hok)) fun _ _ ht => by rw [ht, ref_neg]

theorem iunlockput_refs (h : t.Ok) (hk : k ∉ t.held) :
    refWp p c (iunlockput sb p k) (fun _ t' => t' = some t) ((t.ref k 1).lock k) :=
  awp_to (iunlock_refs hk) fun _ => iput_refs sb h

theorem iallocFrom_refs (dev : Nat) (type : Int16) (n inum : Nat) :
    refWp p c (iallocFrom sb dev type n inum) (fun r t' => match r with
      | none => t' = some t
      | some k => t' = some (t.ref k 1)) t := by
  induction n generalizing inum with
  | zero => rfl
  | succ n ih =>
    rw [iallocFrom]
    split
    · refine quiet_seq (all_lift trivial) fun (r : Option Nat) => ?_
      cases r with
      | none => exact ih _
      | some _ => exact awp_to (iget_refs dev inum t) fun _ => rfl
    · rfl

theorem dirlookup_refs (k : Slot) (name : Name) (t : Th) : refWp p c (dirlookup sb k name) (fun r t' => match r with
      | none => t' = some t
      | some (k', _) => t' = some (t.ref k' 1)) t := by
  refine quiet_seq (inode_quiet k) fun dp => ?_
  split
  · trivial
  · refine quiet_seq (searchFrom_quiet sb k name _ _) fun r => ?_
    match r with
    | none => rfl
    | some (inum, off) => exact awp_to (iget_refs _ _ t) fun _ => rfl

theorem dirlookup_to {f : Option (Slot × Nat) → Kernel β} (k : Slot) (name : Name) (hnone : refWp p c (f none) Q t)
    (hsome : ∀ k' off, refWp p c (f (some (k', off))) Q (t.ref k' 1)) : refWp p c (dirlookup sb k name >>= f) Q t := by
  refine awp_seq (dirlookup_refs sb k name t) fun r t' ht => ?_
  match r, ht with
  | none, ht => exact ht ▸ hnone
  | some (k', off), ht => exact ht ▸ hsome k' off

theorem dirlink_refs (h : t.Ok) (k : Slot) (name : Name) (inum : Nat) :
    refWp p c (dirlink sb p k name inum) (fun _ t' => t' = some t) t := by
  refine dirlookup_to sb k name ?_ fun ip _ => awp_to (iput_refs sb h) fun _ => rfl
  refine quiet_seq (inode_quiet k) fun dp => quiet_seq (freeFrom_quiet sb k _ _) fun off => ?_
  refine quiet_seq (writeDirent_quiet sb k _ _) fun r => ?_
  split <;> rfl

end Inodes

theorem startDir_refs (path : List UInt8) (t : Th) :
    refWp p c (startDir p path) (fun k t' => t' = some (t.ref k 1)) t := by
  unfold startDir
  split
  · exact iget_refs _ _ t
  · refine awp_seq (awp_lift (.proc t)) fun (pr : Proc) t' ht => ?_
    obtain ⟨rfl, -, -⟩ := ht
    refine quiet_seq (deref_quiet _) fun cwd => ?_
    exact awp_mono (idup_refs cwd t) fun k t' ⟨hk, ht⟩ => by rw [hk, ht]

def found (t : Th) : Option (Slot × Name) → Option Th
  | none => some t
  | some (k, _) => some (t.ref k 1)

theorem namexFrom_refs (h : t.Ok) (parent : Bool) (names : List Name) (k : Slot) :
    refWp p c (namexFrom sb p parent names k) (fun r t' => t' = found t r) (t.ref k 1) := by
  induction names generalizing k with
  | nil =>
    rw [namexFrom]
    split
    · exact awp_to (iput_refs sb h) fun _ => rfl
    · rfl
  | cons name names ih =>
    refine ilock_to sb (h.claim_ref k) fun hk => ?_
    refine quiet_seq (inode_quiet k) fun ip => ?_
    split
    · exact awp_to (iunlockput_refs sb h hk) fun _ => rfl
    split
    · exact awp_to (iunlock_refs hk) fun _ => rfl
    · refine dirlookup_to sb k name (awp_to (iunlockput_refs sb h hk) fun _ => rfl) fun next _ => ?_
      rw [show ((t.ref k 1).lock k).ref next 1 = ((t.ref next 1).ref k 1).lock k by rw [ref_comm]; rfl]
      exact awp_to (iunlockput_refs sb (h.ref next) hk) fun _ => ih next

theorem namex_refs (h : t.Ok) (path : List UInt8) (parent : Bool) :
    refWp p c (namex sb p path parent) (fun r t' => t' = found t r) t := by
  refine awp_to (startDir_refs path t) fun k => ?_
  exact namexFrom_refs sb h parent _ k

theorem nameiparent_to {f : Option (Slot × Name) → Kernel β} (h : t.Ok) (path : List UInt8) (hnone : refWp p c (f none) Q t)
    (hsome : ∀ dp name, refWp p c (f (some (dp, name))) Q (t.ref dp 1)) : refWp p c (nameiparent sb p path >>= f) Q t :=
  awp_to (namex_refs sb h path true) fun r =>
    match r with
    | none => hnone
    | some (dp, name) => hsome dp name

theorem namei_to {f : Option Slot → Kernel β} (h : t.Ok) (path : List UInt8) (hnone : refWp p c (f none) Q t)
    (hsome : ∀ k, refWp p c (f (some k)) Q (t.ref k 1)) : refWp p c (namei sb p path >>= f) Q t := by
  have hnamei : refWp p c (namei sb p path) (fun r t' => t' = match r with
      | none => some t
      | some k => some (t.ref k 1)) t :=
    awp_to (namex_refs sb h path false) fun r =>
      match r with
      | none => rfl
      | some (k, _) => rfl
  exact awp_to hnamei fun r =>
    match r with
    | none => hnone
    | some k => hsome k

section Create

variable {dp k : Slot}

theorem two_locked (t : Th) (dp k : Slot) :
    (((t.ref dp 1).lock dp).ref k 1).lock k = (((t.ref k 1).lock k).ref dp 1).lock dp := by
  rw [show ((t.ref dp 1).lock dp).ref k 1 = ((t.ref dp 1).ref k 1).lock dp from rfl, ref_comm, lock_comm]
  rfl

theorem createFail_refs (h : t.Ok) (hdp : dp ∉ t.held) (hk : k ∉ ((t.ref dp 1).lock dp).held) :
    refWp p c (createFail sb p dp k) (fun r t' => r = none ∧ t' = some t)
      ((((t.ref dp 1).lock dp).ref k 1).lock k) := by
  refine quiet_seq (setDin_quiet k _) fun _ => quiet_seq (iupdate_quiet sb k) fun _ => ?_
  refine awp_to (iunlockput_refs sb ((h.ref dp).lock (h.claim_ref dp)) hk) fun _ => ?_
  exact awp_seq (iunlockput_refs sb h hdp) fun _ _ ht => ⟨rfl, ht⟩

theorem createDots_refs (h : t.Ok) (type : Int16) :
    refWp p c (createDots sb p dp k type) (fun _ t' => t' = some t) t := by
  unfold createDots
  split
  · refine quiet_seq (inode_quiet k) fun ip => awp_to (dirlink_refs sb h k DOT _) fun r => ?_
    split
    · rfl
    · refine quiet_seq (inode_quiet dp) fun d => ?_
      exact awp_to (dirlink_refs sb h k DOTDOT _) fun _ => rfl
  · rfl

def made (t : Th) : Option Slot → Option Th → Prop
  | none, t' => t' = some t
  | some k, t' => k ∉ t.held ∧ t' = some ((t.ref k 1).lock k)

theorem createNew_refs (h : t.Ok) (hdp : dp ∉ t.held) (hc : isChmod c = false) (name : Name)
    (type major minor : Int16) :
    refWp p c (createNew sb p dp k name type major minor) (made t) (((t.ref dp 1).lock dp).ref k 1) := by
  have hok : ((t.ref dp 1).lock dp).Ok := (h.ref dp).lock (h.claim_ref dp)
  refine ilock_to sb (hok.claim_ref k) fun hk => ?_
  have hok' : ((((t.ref dp 1).lock dp).ref k 1).lock k).Ok := (hok.ref k).lock (hok.claim_ref k)
  have hk' : k ≠ dp ∧ k ∉ t.held := by
    constructor
    · rintro rfl
      exact hk (Set.mem_insert _ _)
    · exact fun hm => hk (Set.mem_insert_of_mem dp hm)
  refine quiet_seq (setDin_quiet k _) fun _ => quiet_seq (iupdate_quiet sb k) fun _ => ?_
  refine awp_to (createDots_refs sb hok' type) fun ok => ?_
  have hfail : refWp p c (createFail sb p dp k) (made t) ((((t.ref dp 1).lock dp).ref k 1).lock k) :=
    awp_mono (createFail_refs sb h hdp hk) fun r t' ⟨hr, ht⟩ => by subst hr; exact ht
  split
  · refine quiet_seq (inode_quiet k) fun ip => awp_to (dirlink_refs sb hok' dp name _) fun r => ?_
    split
    · exact hfail
    -- the parent is given up, the new inode stays locked
    refine quiet_seq (addParent_quiet sb 1 dp type) fun _ => ?_
    rw [two_locked]
    refine awp_seq (iunlockput_refs sb ((h.ref k).lock (h.claim_ref k)) ?_) fun _ t' ht => ?_
    · rintro (rfl | hm)
      · exact hk'.1 rfl
      · exact hdp hm
    · subst ht
      refine awp_seq (awp_lift (.setMode _ k _)) fun _ t' ht => ?_
      rw [hc, if_neg Bool.false_ne_true] at ht
      exact ⟨hk'.2, ht⟩
  · exact hfail

theorem create_refs (h : t.Ok) (hc : isChmod c = false) (path : Path) (type major minor : Int16) :
    refWp p c (create sb p path type major minor) (made t) t := by
  refine nameiparent_to sb h path rfl fun dp name => ilock_to sb (h.claim_ref dp) fun hdp => ?_
  refine dirlookup_to sb dp name ?_ fun k _ => ?_
  · refine quiet_seq (inode_quiet dp) fun d => ?_
    refine awp_seq (iallocFrom_refs sb d.dev type _ _) fun r t' ht => ?_
    match r, ht with
    | none, ht =>
      subst ht
      exact awp_to (iunlockput_refs sb h hdp) fun _ => rfl
    | some k, ht =>
      subst ht
      exact createNew_refs sb h hdp hc name type major minor
  · rw [show ((t.ref dp 1).lock dp).ref k 1 = ((t.ref k 1).ref dp 1).lock dp by rw [ref_comm]; rfl]
    refine awp_to (iunlockput_refs sb (h.ref k) hdp) fun _ => ilock_to sb (h.claim_ref k) fun hk => ?_
    refine quiet_seq (inode_quiet k) fun ip => ?_
    split
    · exact ⟨hk, rfl⟩
    · exact awp_to (iunlockput_refs sb h hk) fun _ => rfl

end Create

end Fs
