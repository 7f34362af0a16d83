import Xv6.User

-- What the calls come to when they get the blocks and entries that they need.

namespace User

open Fs Function List

attribute [local simp] Os.setBody entries

-- At least `k` of the numbers below `n` are free.
def Spare (free : Nat → Prop) (n k : Nat) : Prop := ∃ s : Finset Nat, k ≤ s.card ∧ ∀ i ∈ s, i < n ∧ free i

variable {free free' : Nat → Prop} {n k : Nat} {name : Name} {path : List UInt8}

theorem Spare.find [DecidablePred free] (h : Spare free n 1) :
    ∃ i, (List.range n).find? (fun i => free i) = some i ∧ i < n ∧ free i := by
  obtain ⟨s, hcard, hs⟩ := h
  obtain ⟨j, hj⟩ := Finset.card_pos.mp hcard
  have hsome : ((List.range n).find? fun i => free i).isSome := by
    rw [find?_isSome]
    exact ⟨j, mem_range.mpr (hs j hj).1, by simpa using (hs j hj).2⟩
  obtain ⟨i, hi⟩ := Option.isSome_iff_exists.mp hsome
  exact ⟨i, hi, mem_range.mp (mem_of_find?_eq_some hi), by simpa using find?_some hi⟩

theorem Spare.erase (h : Spare free n (k + 1)) (i : Nat)
    (hfree : ∀ j, free j → j ≠ i → free' j) : Spare free' n k := by
  obtain ⟨s, hcard, hs⟩ := h
  refine ⟨s.erase i, ?_, fun j hj => ?_⟩
  · have := Finset.pred_card_le_card_erase (s := s) (a := i)
    omega
  · obtain ⟨hne, hj⟩ := Finset.mem_erase.mp hj
    exact ⟨(hs j hj).1, hfree j (hs j hj).2 hne⟩

theorem Spare.imp (h : Spare free n k) (hfree : ∀ j, free j → free' j) : Spare free' n k := by
  obtain ⟨s, hcard, hs⟩ := h
  exact ⟨s, hcard, fun j hj => ⟨(hs j hj).1, hfree j (hs j hj).2⟩⟩

theorem Spare.mono {l : Nat} (h : Spare free n k) (hl : l ≤ k) : Spare free n l := by
  obtain ⟨s, hcard, hs⟩ := h
  exact ⟨s, Nat.le_trans hl hcard, hs⟩

theorem skipelem_name (hne : name ≠ []) (hslash : SLASH ∉ name) (hlen : name.length ≤ DIRSIZ) :
    skipelem name = some (name, []) := by
  have hmem : ∀ x ∈ name, x ≠ SLASH := fun x hx h => hslash (h ▸ hx)
  obtain ⟨x, l, rfl⟩ := exists_cons_of_ne_nil hne
  have hdrop : (x :: l).dropWhile (· = SLASH) = x :: l := by simp [hmem x (by simp)]
  have htake : (x :: l).takeWhile (· ≠ SLASH) = x :: l := by
    rw [takeWhile_eq_self_iff]
    simpa using hmem
  have hafter : (x :: l).dropWhile (· ≠ SLASH) = [] := by
    rw [dropWhile_eq_nil_iff]
    simpa using hmem
  unfold skipelem
  simp only [hdrop, htake, hafter, take_of_length_le hlen, dropWhile_nil]

theorem skipelem_append {rest : List UInt8} {n : Name} (h : skipelem path = some (n, rest)) (more : List UInt8) :
    skipelem (path ++ SLASH :: more) = some (n, (rest ++ SLASH :: more).dropWhile (· = SLASH)) := by
  unfold skipelem at h ⊢
  rw [dropWhile_append]
  cases hs : path.dropWhile (· = SLASH) with
  | nil => simp [hs] at h
  | cons x s =>
    simp only [hs] at h
    cases h
    have htake : (x :: (s ++ SLASH :: more)).takeWhile (· ≠ SLASH) = (x :: s).takeWhile (· ≠ SLASH) := by
      rw [← cons_append, takeWhile_append]
      split
      · rename_i hall
        rw [(List.takeWhile_prefix _).eq_of_length hall]
        simp
      · rfl
    have hdrop : (x :: (s ++ SLASH :: more)).dropWhile (· ≠ SLASH) = (x :: s).dropWhile (· ≠ SLASH) ++ SLASH :: more := by
      rw [← cons_append, dropWhile_append]
      split
      · rename_i hall
        rw [List.isEmpty_iff.mp hall]
        simp
      · rfl
    simp only [isEmpty_cons, Bool.false_eq_true, if_false, cons_append, htake, hdrop]
    simp only [dropWhile_append, dropWhile_idempotent]

theorem elements_slashes (h : path.dropWhile (· = SLASH) = []) (more : List UInt8) :
    elements (path ++ more) = elements more := by
  have hskip : skipelem (path ++ more) = skipelem more := by
    unfold skipelem
    simp only [dropWhile_append, h, isEmpty_nil, if_true]
  rw [elements_eq, hskip, ← elements_eq]

theorem elements_dropWhile (path : List UInt8) : elements (path.dropWhile (· = SLASH)) = elements path := by
  have h : (path.takeWhile (· = SLASH)).dropWhile (· = SLASH) = [] := by
    rw [dropWhile_eq_nil_iff]
    exact fun x hx => by simpa using mem_takeWhile_imp hx
  rw [← elements_slashes h, takeWhile_append_dropWhile]

-- path + "/" + more
theorem elements_append (path more : List UInt8) : elements (path ++ SLASH :: more) = elements path ++ elements more := by
  induction hm : path.length using Nat.strongRecOn generalizing path with
  | ind m ih =>
    rw [elements_eq path]
    cases h : skipelem path with
    | none =>
      have hpre : (path ++ [SLASH]).dropWhile (· = SLASH) = [] := by
        have hdrop : path.dropWhile (· = SLASH) = [] := by
          unfold skipelem at h
          split at h
          · assumption
          · cases h
        rw [dropWhile_append, hdrop]
        simp
      simpa using elements_slashes hpre more
    | some r =>
      obtain ⟨n, rest⟩ := r
      rw [elements_eq, skipelem_append h]
      simp only [elements_dropWhile, ih rest.length (hm ▸ skipelem_length_lt h) rest rfl, cons_append]

theorem elements_name (hne : name ≠ []) (hslash : SLASH ∉ name) (hlen : name.length ≤ DIRSIZ) :
    elements name = [name] := by
  rw [elements_eq, skipelem_name hne hslash hlen]
  rfl

namespace Os

variable {os os' : Os} {path : Path} {dp ip fd k : Nat} {name nm : Name} {omode : UInt32} {f : Desc}

def Enough (os : Os) : Prop := os.chance = fun _ => .enough

def SpareFds (os : Os) (k : Nat) : Prop := Spare (fun fd => os.ofile fd = none) NOFILE k

def SpareInodes (os : Os) (k : Nat) : Prop :=
  Spare (fun i => i ≠ 0 ∧ (os.node i).body.type = 0) os.ninodes k

theorem setFd_self {g : Option Desc} (h : os.ofile fd = g) : os.setFd fd g = os := by
  rw [setFd, ← h, update_eq_self]

theorem setBody_self {body : Body} (h : (os.node ip).body = body) : os.setBody ip body = os := by
  have hnode : update os.node ip { os.node ip with body := body } = os.node := by
    rw [← h]
    exact update_eq_self ip os.node
  rw [setBody, hnode]

@[simp] theorem setFd_setFd (g g' : Option Desc) : (os.setFd fd g).setFd fd g' = os.setFd fd g' := by
  simp [setFd]

theorem setFd_comm {fd' : Nat} (h : fd ≠ fd') (g g' : Option Desc) :
    (os.setFd fd g).setFd fd' g' = (os.setFd fd' g').setFd fd g := by
  simp [setFd, update_comm h]

@[simp] theorem setBody_setBody (b b' : Body) : (os.setBody ip b).setBody ip b' = os.setBody ip b' := by
  simp

theorem setBody_setFd (b : Body) (g : Option Desc) : (os.setFd fd g).setBody ip b = (os.setBody ip b).setFd fd g := rfl

theorem Enough.draw (h : Enough os) : os.draw = (.enough, os) := by
  obtain ⟨node, ninodes, cwd, ofile, chance, input, output⟩ := os
  obtain rfl : chance = fun _ => .enough := h
  rfl

theorem SpareFds.setFd (h : SpareFds os (k + 1)) : SpareFds (os.setFd fd (some f)) k :=
  h.erase fd fun j hj hne => by simpa [Os.setFd, hne] using hj

theorem SpareFds.keep {g : Desc} (h : SpareFds os k) (hf : os.ofile fd = some g) : SpareFds (os.setFd fd (some f)) k :=
  h.imp fun j hj => by
    have hne : j ≠ fd := by
      rintro rfl
      rw [hf] at hj
      cases hj
    simpa [Os.setFd, hne] using hj

theorem open_of_inode (os : Os) (path : Path) (omode : UInt32) (hs : SpareFds os' 1) (he : Enough os') (hlen : path.length < MAXPATH)
    (hi : os.openInode path omode = (some ip, os')) (hr : refuses (os'.node ip) omode = false)
    (htrunc : omode &&& O_TRUNC = 0) :
    ∃ fd, os.open path omode = (some fd, os'.setFd fd (some ⟨ip, 0, omode &&& O_WRONLY = 0,
      omode &&& O_WRONLY ≠ 0 ∨ omode &&& O_RDWR ≠ 0⟩)) ∧ fd < NOFILE ∧ os'.ofile fd = none := by
  obtain ⟨fd, hfd, hlt, hnone⟩ := hs.find
  have halloc : os'.fdalloc = some fd := by
    have hpred : (fun fd => (os'.ofile fd).isNone) = fun fd => decide (os'.ofile fd = none) := by
      funext i
      cases os'.ofile i <;> rfl
    rw [fdalloc, hpred, hfd]
  refine ⟨fd, ?_, hlt, hnone⟩
  simp [«open», Nat.not_le.mpr hlen, hi, hr, he.draw, halloc, htrunc]

theorem open_read (os : Os) (he : Enough os) (hs : SpareFds os 1) (hlen : path.length < MAXPATH) (hn : os.namei path = some ip)
    (hdev : (os.node ip).body.type ≠ T_DEVICE) :
    ∃ fd, os.open path O_RDONLY = (some fd, os.setFd fd (some ⟨ip, 0, true, false⟩)) ∧ fd < NOFILE ∧
      os.ofile fd = none := by
  apply open_of_inode os path O_RDONLY hs he hlen
  · simp [openInode, hn, O_RDONLY]
  · cases hb : (os.node ip).body with
    | device m => exact absurd (by rw [hb]; rfl) hdev
    | _ => simp [refuses, hb, O_RDONLY]
  · rfl

theorem open_absent (hn : os.namei path = none) : os.open path O_RDONLY = (none, os) := by
  simp [«open», openInode, hn, O_RDONLY]

theorem close_linked (fd : Nat) (f : Desc) (hf : os.ofile fd = some f) (hlink : 0 < (os.node f.ino).nlink) : os.close fd = os.setFd fd none := by
  have hne : ((os.setFd fd none).node f.ino).nlink ≠ 0 := Nat.ne_of_gt hlink
  simp only [close, hf, iput]
  rw [if_neg fun h => hne h.1]

def fileOf (os : Os) (ip : Nat) : Option (List UInt8) :=
  match (os.node ip).body with
  | .file data => some data
  | _ => none

theorem fileOf_dir (h : (os.node ip).body.type = T_DIR) : os.fileOf ip = none := by
  cases hb : (os.node ip).body with
  | file data => rw [hb] at h; cases h
  | _ => simp [fileOf, hb]

def fileAt (os : Os) (dp : Nat) (name : Name) : Option (List UInt8) := (os.dirlookup dp name).bind os.fileOf

def Room (os : Os) (dp : Nat) : Prop :=
  (∃ de ∈ os.ents dp, de.inum = 0) ∨ DIRENT * (os.ents dp).length + DIRENT ≤ MAXSIZE

def added (ents : List Dirent) (de : Dirent) : List Dirent :=
  if ents.findIdx (fun de => de.inum = 0) < ents.length then ents.set (ents.findIdx fun de => de.inum = 0) de
  else ents ++ [de]

theorem added_cut (ents : List Dirent) (de : Dirent) :
    ∃ l x r, ents = l ++ x ++ r ∧ added ents de = l ++ de :: r ∧ ∀ d ∈ x, d.inum = 0 := by
  by_cases h : ents.findIdx (fun de => de.inum = 0) < ents.length
  · obtain ⟨i, hi⟩ : ∃ i, i = ents.findIdx fun de => de.inum = 0 := ⟨_, rfl⟩
    have hfree := findIdx_getElem (w := h)
    simp only [added, if_pos h]
    simp only [← hi] at h hfree ⊢
    refine ⟨ents.take i, [ents[i]], ents.drop (i + 1), ?_, set_eq_take_append_cons_drop.trans (if_pos h), ?_⟩
    · simp
    · simpa using hfree
  · exact ⟨ents, [], [], by simp, by rw [added, if_neg h], by simp⟩

def made (os : Os) (dp : Nat) (name : Name) (ip : Nat) : Os :=
  { os with node := update os.node ip ⟨.file [], S_IRUSR ||| S_IWUSR, 1⟩ }.setBody dp
    (.dir (added (os.ents dp) ⟨UInt16.ofNat ip, strncpy name DIRSIZ⟩))

theorem made_setFd (g : Option Desc) : (os.setFd fd g).made dp name ip = (os.made dp name ip).setFd fd g := rfl

theorem dirlink_enough (os : Os) (he : Enough os) (hroom : Room os dp) (name : Name) (ip : Nat) :
    os.dirlink dp name ip = (true, os.setBody dp (.dir (added (os.ents dp) ⟨UInt16.ofNat ip, strncpy name DIRSIZ⟩))) := by
  by_cases h : (os.ents dp).findIdx (fun de => de.inum = 0) < (os.ents dp).length
  · simp [dirlink, added, h]
  have hlen : (os.ents dp).findIdx (fun de => de.inum = 0) = (os.ents dp).length :=
    Nat.le_antisymm findIdx_le_length (Nat.not_lt.mp h)
  have hsize : ¬ DIRENT * (os.ents dp).length + DIRENT > MAXSIZE := by
    rcases hroom with ⟨de, hde, hzero⟩ | hsize
    · exact absurd (findIdx_lt_length_of_exists ⟨de, hde, by simpa using hzero⟩) h
    · omega
  simp [dirlink, added, hlen, hsize, he.draw]

theorem dirlookup_eq (dp : Nat) (name : Name) : os.dirlookup dp name =
    ((os.ents dp).find? fun de => de.inum ≠ 0 ∧ namecmp name de.name = 0).map fun de => de.inum.toNat := rfl

theorem dirlookup_some (h : os.dirlookup k name = some ip) :
    ∃ de ∈ os.ents k, de.inum ≠ 0 ∧ key de.name = key name ∧ de.inum.toNat = ip := by
  rw [dirlookup_eq] at h
  obtain ⟨de, hde, rfl⟩ := Option.map_eq_some_iff.mp h
  have hprop := find?_some hde
  simp only [ne_eq, decide_eq_true_eq, namecmp_eq_zero] at hprop
  exact ⟨de, mem_of_find?_eq_some hde, hprop.1, hprop.2.symm, rfl⟩

theorem namexFrom_cons (parent : Bool) (n : Name) (names : List Name) : namexFrom os.node parent (n :: names) ip =
    if (os.node ip).body.type ≠ T_DIR then none else if parent ∧ names = [] then some (ip, n) else
      match os.dirlookup ip n with
      | none => none
      | some next => namexFrom os.node parent names next := rfl

variable {names : List Name} {parent w : Bool} {r : Nat × Name} {x : List UInt8} {off : Nat}

theorem type_of_namexFrom (h : namexFrom os.node parent names ip = some (dp, name))
    (hparent : parent = true) : (os.node dp).body.type = T_DIR := by
  induction names generalizing ip with
  | nil => simp [namexFrom, hparent] at h
  | cons n names ih =>
    rw [namexFrom_cons] at h
    split at h
    · simp at h
    rename_i htype
    split at h
    · simp only [Option.some.injEq, Prod.mk.injEq] at h
      rw [← h.1]
      simpa using htype
    · split at h
      · simp at h
      · exact ih h

theorem create_absent (os : Os) (he : Enough os) (hi : SpareInodes os 1) (hroom : Room os dp)
    (hp : os.nameiparent path = some (dp, name)) (hno : os.dirlookup dp name = none) :
    ∃ ip, os.create path = (some ip, os.made dp name ip) ∧ ip < os.ninodes ∧ ip ≠ 0 ∧ (os.node ip).body.type = 0 := by
  obtain ⟨ip, hfind, hlt, hne, hfree⟩ := hi.find
  refine ⟨ip, ?_, hlt, hne, hfree⟩
  have hdir := type_of_namexFrom hp rfl
  have hdp : dp ≠ ip := by
    rintro rfl
    rw [hfree] at hdir
    cases hdir
  have hents : { os with node := update os.node ip ⟨.file [], S_IRUSR ||| S_IWUSR, 1⟩ }.ents dp = os.ents dp := by
    simp [ents, hdp]
  have hlink := dirlink_enough { os with node := update os.node ip ⟨.file [], S_IRUSR ||| S_IWUSR, 1⟩ } he
    (show Room _ dp by rw [Room, hents]; exact hroom) name ip
  simp only [create, hp, hno, ialloc, hfind, hlink, hents, made]

structure New (os : Os) (dp ip : Nat) (name : Name) : Prop where
  dir : (os.node dp).body.type = T_DIR
  absent : os.dirlookup dp name = none
  free : (os.node ip).body.type = 0
  lt : ip < 2 ^ 16
  pos : ip ≠ 0

theorem New.ne (h : New os dp ip name) : dp ≠ ip := by
  rintro rfl
  have hdir := h.dir
  rw [h.free] at hdir
  cases hdir

theorem New.node_ip (h : New os dp ip name) : (os.made dp name ip).node ip = ⟨.file [], S_IRUSR ||| S_IWUSR, 1⟩ := by
  simp [made, h.ne.symm]

theorem node_made (hk : k ≠ dp) (hi : k ≠ ip) : (os.made dp name ip).node k = os.node k := by
  simp [made, hk, hi]

section

variable (h : New os dp ip name)

include h

theorem New.type (hk : k ≠ ip) :
    ((os.made dp name ip).node k).body.type = (os.node k).body.type := by
  by_cases hd : k = dp
  · subst hd
    rw [h.dir]
    simp [made, Body.type]
  · rw [node_made hd hk]

theorem New.nlink (hk : k ≠ ip) : ((os.made dp name ip).node k).nlink = (os.node k).nlink := by
  by_cases hd : k = dp
  · subst hd
    simp [made, h.ne]
  · rw [node_made hd hk]

theorem New.fileOf (hk : k ≠ ip) : (os.made dp name ip).fileOf k = os.fileOf k := by
  by_cases hd : k = dp
  · subst hd
    rw [fileOf_dir ((h.type hk).trans h.dir), fileOf_dir h.dir]
  · rw [Os.fileOf, Os.fileOf, node_made hd hk]

theorem New.inum_ne : UInt16.ofNat ip ≠ 0 := by
  intro h0
  have := congrArg UInt16.toNat h0
  rw [UInt16.toNat_ofNat_of_lt' h.lt] at this
  exact h.pos this

end

theorem ents_made (os : Os) (dp ip : Nat) (name : Name) : ∃ l x r, os.ents dp = l ++ x ++ r ∧
    (os.made dp name ip).ents dp = l ++ ⟨UInt16.ofNat ip, strncpy name DIRSIZ⟩ :: r ∧ ∀ d ∈ x, d.inum = 0 := by
  obtain ⟨l, x, r, hents, hadded, hx⟩ := added_cut (os.ents dp) ⟨UInt16.ofNat ip, strncpy name DIRSIZ⟩
  refine ⟨l, x, r, hents, ?_, hx⟩
  simp [made, Os.ents, ← hadded]

theorem New.dirlookup (h : New os dp ip name) (d : Nat) (nm : Name) :
    (os.made dp name ip).dirlookup d nm = if d = dp ∧ key nm = key name then some ip else os.dirlookup d nm := by
  by_cases hd : d = dp
  · subst hd
    obtain ⟨l, x, r, hents, hmade, hx⟩ := ents_made os d ip name
    have hip : (UInt16.ofNat ip).toNat = ip := UInt16.toNat_ofNat_of_lt' h.lt
    have hfree : x.find? (fun de => de.inum ≠ 0 ∧ namecmp nm de.name = 0) = none := by
      rw [find?_eq_none]
      intro de hde
      simp [hx de hde]
    simp only [dirlookup_eq, hmade, hents, find?_append, hfree, find?_cons]
    by_cases hkey : key nm = key name
    · -- No old entry has the name.
      have hsame : (fun de : Dirent => decide (de.inum ≠ 0 ∧ namecmp nm de.name = 0)) =
          fun de => decide (de.inum ≠ 0 ∧ namecmp name de.name = 0) := by
        funext de
        simp only [namecmp_eq_zero, hkey]
      have hold := h.absent
      simp only [dirlookup_eq, Option.map_eq_none_iff, hents, find?_append, Option.or_eq_none_iff] at hold
      rw [hsame, hold.1.1]
      simp [namecmp_eq_zero, key_strncpy, h.inum_ne, hip, hkey]
    · simp [namecmp_eq_zero, hkey, key_strncpy]
  · by_cases hi : d = ip
    · subst hi
      have hnone : os.ents d = [] := by
        have hfree := h.free
        cases hb : (os.node d).body with
        | free => simp [Os.ents, hb]
        | _ => rw [hb] at hfree; cases hfree
      have hmade : (os.made dp name d).ents d = [] := by
        simp [Os.ents, h.node_ip]
      simp [dirlookup_eq, hnone, hmade, hd]
    · simp [dirlookup_eq, hd, Os.ents, node_made hd hi]

theorem New.dirlookup_ne {d : Nat} (h : New os dp ip name) (hd : dp ≠ d) (nm : Name) :
    (os.made dp name ip).dirlookup d nm = os.dirlookup d nm := by
  rw [h.dirlookup, if_neg fun h => hd h.1.symm]

theorem dirlookup_congr (h : key nm = key name) (d : Nat) : os.dirlookup d nm = os.dirlookup d name := by
  simp only [dirlookup_eq, namecmp_eq_zero, h]

structure Extends (os os' : Os) : Prop where
  dir : ∀ k, (os.node k).body.type = T_DIR → (os'.node k).body.type = T_DIR
  dirlookup : ∀ d nm i, os.dirlookup d nm = some i → os'.dirlookup d nm = some i

theorem Extends.namexFrom (h : Extends os os')
    (hr : namexFrom os.node parent names ip = some r) : namexFrom os'.node parent names ip = some r := by
  induction names generalizing ip with
  | nil => exact hr
  | cons n names ih =>
    rw [namexFrom_cons] at hr ⊢
    split at hr
    · simp at hr
    rename_i htype
    rw [if_neg (by simpa using h.dir ip (by simpa using htype))]
    split at hr
    · rename_i hlast
      rw [if_pos hlast]
      exact hr
    rename_i hlast
    rw [if_neg hlast]
    cases hl : os.dirlookup ip n with
    | none => simp [hl] at hr
    | some next =>
      rw [hl] at hr
      rw [h.dirlookup ip n next hl]
      exact ih hr

theorem Extends.namex (h : Extends os os') (hcwd : os'.cwd = os.cwd)
    (hr : os.namex path parent = some r) : os'.namex path parent = some r := by
  rw [Os.namex, hcwd]
  exact h.namexFrom hr

theorem Extends.namei (h : Extends os os') (hcwd : os'.cwd = os.cwd) (hi : os.namei path = some ip) :
    os'.namei path = some ip := by
  obtain ⟨r, hr, rfl⟩ := Option.map_eq_some_iff.mp hi
  rw [Os.namei, h.namex hcwd hr, Option.map_some]

theorem Extends.trans {os1 os2 os3 : Os} (h : Extends os1 os2) (h' : Extends os2 os3) : Extends os1 os3 :=
  ⟨fun k hk => h'.dir k (h.dir k hk), fun d nm i hi => h'.dirlookup d nm i (h.dirlookup d nm i hi)⟩

theorem dirlookup_setFile {y : List UInt8} (hb : (os.node ip).body = .file x) (d : Nat) (nm : Name) :
    (os.setBody ip (.file y)).dirlookup d nm = os.dirlookup d nm := by
  by_cases hd : d = ip
  · subst hd
    simp [dirlookup_eq, ents, hb]
  · simp [dirlookup_eq, ents, hd]

theorem Extends.setFile (hb : (os.node ip).body = .file x) (y : List UInt8) :
    Extends os (os.setBody ip (.file y)) := by
  refine ⟨fun k hk => ?_, fun d nm i hi => by rw [dirlookup_setFile hb]; exact hi⟩
  by_cases hd : k = ip
  · subst hd
    rw [hb] at hk
    cases hk
  · simpa [hd] using hk

theorem New.extends (h : New os dp ip name) : Extends os (os.made dp name ip) := by
  refine ⟨fun k hk => ?_, fun d nm i hi => ?_⟩
  · rw [h.type]
    · exact hk
    · rintro rfl
      rw [h.free] at hk
      cases hk
  · rw [h.dirlookup, if_neg]
    · exact hi
    · rintro ⟨rfl, hkey⟩
      rw [dirlookup_congr hkey, h.absent] at hi
      cases hi

theorem namexFrom_parent (h : namexFrom os.node true names k = some (dp, name)) :
    namexFrom os.node false names k = (os.dirlookup dp name).map fun i => (i, []) := by
  induction names generalizing k with
  | nil => simp [namexFrom] at h
  | cons n names ih =>
    rw [namexFrom_cons] at h ⊢
    split at h
    · simp at h
    rename_i htype
    rw [if_neg htype]
    by_cases hlast : names = []
    · simp only [hlast, and_self, if_true, Option.some.injEq, Prod.mk.injEq] at h
      obtain ⟨rfl, rfl⟩ := h
      subst hlast
      cases hl : os.dirlookup k n <;> simp [namexFrom]
    · simp only [hlast, and_false, if_false] at h ⊢
      cases hl : os.dirlookup k n with
      | none => simp [hl] at h
      | some next =>
        rw [hl] at h
        simpa using ih h

theorem namei_parent (h : os.nameiparent path = some (dp, name)) : os.namei path = os.dirlookup dp name := by
  rw [namei, namex, namexFrom_parent h]
  cases os.dirlookup dp name <;> rfl

theorem namexFrom_append {more : List Name} (h : namexFrom os.node false names k = some (dp, nm))
    (hmore : parent = true → more ≠ []) :
    namexFrom os.node parent (names ++ more) k = namexFrom os.node parent more dp := by
  induction names generalizing k with
  | nil =>
    obtain ⟨rfl, -⟩ : k = dp ∧ [] = nm := by simpa [namexFrom] using h
    rfl
  | cons n names ih =>
    rw [namexFrom_cons] at h
    rw [cons_append, namexFrom_cons]
    split at h
    · simp at h
    rename_i htype
    rw [if_neg htype, if_neg fun hp => hmore hp.1 (append_eq_nil_iff.mp hp.2).2]
    cases hl : os.dirlookup k n with
    | none => simp [hl] at h
    | some next =>
      rw [hl] at h
      exact ih (by simpa using h)

theorem namex_append {more : Path} (hfound : os.namei path = some dp) (hpath : path ≠ [])
    (hmore : parent = true → elements more ≠ []) :
    os.namex (path ++ SLASH :: more) parent = namexFrom os.node parent (elements more) dp := by
  obtain ⟨⟨d, nm⟩, hr, rfl⟩ := Option.map_eq_some_iff.mp hfound
  have hhead : (path ++ SLASH :: more).head? = path.head? := by
    obtain ⟨x, l, rfl⟩ := exists_cons_of_ne_nil hpath
    rfl
  rw [namex, elements_append, hhead]
  exact namexFrom_append hr hmore

theorem nameiparent_append (hfound : os.namei path = some dp) (hdir : (os.node dp).body.type = T_DIR) (hpath : path ≠ [])
    (hne : name ≠ []) (hslash : SLASH ∉ name) (hlen : name.length ≤ DIRSIZ) :
    os.nameiparent (path ++ SLASH :: name) = some (dp, name) := by
  rw [nameiparent, namex_append hfound hpath] <;> rw [elements_name hne hslash hlen]
  · simp [namexFrom_cons, hdir]
  · simp

theorem stat_found (he : Enough os) (hs : SpareFds os 1) (hlen : path.length < MAXPATH) (hn : os.namei path = some ip)
    (hdev : (os.node ip).body.type ≠ T_DEVICE) (hlink : 0 < (os.node ip).nlink) :
    os.stat path = (some ⟨(os.node ip).body.type, (os.node ip).body.bytes.length⟩, os) := by
  obtain ⟨fd, hopen, -, hnone⟩ := open_read os he hs hlen hn hdev
  have hfd : (os.setFd fd (some ⟨ip, 0, true, false⟩)).ofile fd = some ⟨ip, 0, true, false⟩ := by simp [setFd]
  rw [stat, hopen]
  simp only [fstat, hfd, Option.map_some]
  rw [close_linked _ _ hfd hlink, setFd_setFd, setFd_self hnone]
  rfl

variable {data src : List UInt8} {n : Nat}

theorem read_file (hf : os.ofile fd = some ⟨ip, off, true, w⟩) (hb : (os.node ip).body = .file data)
    (hm : (os.node ip).mode &&& S_IRUSR ≠ 0) : os.read fd n = (some ((data.drop off).take n),
      os.setFd fd (some ⟨ip, off + ((data.drop off).take n).length, true, w⟩)) := by
  simp [read, hf, hb, permits, hm, Body.bytes]

theorem splice_append (l r c : List UInt8) : splice (l ++ r) l.length c = l ++ c ++ r.drop c.length := by
  simp [splice]

theorem write_file (os : Os) (fd : Nat) (src : List UInt8) {r : Bool} (he : Enough os) (hf : os.ofile fd = some ⟨ip, off, r, true⟩)
    (hb : (os.node ip).body = .file data) (hm : (os.node ip).mode &&& S_IWUSR ≠ 0) (hoff : off ≤ data.length)
    (hsize : off + src.length ≤ MAXSIZE) (hlen : src.length ≤ CHUNK) (hne : src ≠ []) :
    os.write fd src = (some src.length, (os.setBody ip (.file (splice data off src))).setFd fd
      (some ⟨ip, off + src.length, r, true⟩)) := by
  obtain ⟨m, hn⟩ : ∃ m, src.length = m + 1 := Nat.exists_eq_succ_of_ne_zero (by simpa using hne)
  have hwrite : os.writei ip off src = (some src.length, os.setBody ip (.file (splice data off src))) := by
    simp [writei, hb, Body.bytes, he.draw, Nat.not_lt.mpr hoff, Nat.not_lt.mpr hsize]
  have hloop : filewriteFrom src.length os fd ⟨ip, off, r, true⟩ src =
      (true, (os.setBody ip (.file (splice data off src))).setFd fd (some ⟨ip, off + src.length, r, true⟩)) := by
    nth_rewrite 1 [hn]
    rw [filewriteFrom, if_neg hne, take_of_length_le hlen, hwrite, drop_of_length_le hlen]
    simp only [ne_eq, not_true_eq_false, if_false]
    cases m <;> rfl
  simp [write, hf, hb, permits, hm, hloop]

end Os

-- A name that is not there yet, in a directory that has room for it.
structure FreshName (os : Os) (name : Path) (dp : Nat) (nm : Name) : Prop where
  parent : os.nameiparent name = some (dp, nm)
  absent : os.dirlookup dp nm = none
  room : os.Room dp

end User
