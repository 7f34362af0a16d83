import Xv6.User.Extract

-- get_current_dir of pwd.c.

namespace User

open Fs Function Os List

namespace Os

-- A system call too: sys_chdir.
def chdir (os : Os) (path : Path) : Bool × Os :=
  if path.length ≥ MAXPATH then (false, os)
  else
    match os.namei path with
    | none => (false, os)
    | some ip => if (os.node ip).body.type ≠ T_DIR then (false, os) else (true, (os.setCwd ip).iput os.cwd)

-- The field ino of struct stat.
def fstatIno (os : Os) (fd : Nat) : Option Nat := (os.ofile fd).map Desc.ino

def statIno (os : Os) (path : Path) : Option Nat × Os :=
  match os.open path O_RDONLY with
  | (none, os) => (none, os)
  | (some fd, os) => (os.fstatIno fd, os.close fd)

end Os

namespace Pwd

def MAX_PATH : Nat := 128

-- The loop over the entries. It leaves its last st.ino, which climb tests.
def scan : Nat → Os → Nat → Nat → Nat → Path → Except Fault (Nat × Path × Os)
  | 0, _, _, _, _, _ => .error .fuel
  | n + 1, os, fd, st, prev, path =>
    match os.read fd DIRENT with
    | (none, os) => .ok (st, path, os)
    | (some bytes, os) =>
      if bytes.length ≠ DIRENT then .ok (st, path, os)
      else
        let de := Dirent.ofBytes bytes
        if de.inum = 0 then scan n os fd st prev path
        -- stat reads past de.name
        else if 0 ∉ de.name then .error .overflow
        else
          match os.statIno (cstr de.name) with
          | (none, os) => scan n os fd st prev path
          | (some st, os) =>
            if st ≠ prev then scan n os fd st prev path
            else if 1 + (cstr de.name).length + path.length + 1 > MAX_PATH then .error .overflow
            else .ok (st, SLASH :: cstr de.name ++ path, os)

-- none is exit(1).
def climb : Nat → Os → Nat → Nat → Nat → Path → Except Fault (Option Path × Os)
  | 0, _, _, _, _, _ => .error .fuel
  | n + 1, os, fd, st, prev, path =>
    if st = 1 then .ok (some (if path.length = 0 then [SLASH] else path), os.close fd)
    else
      match (os.close fd).chdir [46, 46] with
      | (false, os) => .ok (none, os.printf "pwd: cannot cd to parent\n")
      | (true, os) =>
        match os.open [46] O_RDONLY with
        | (none, os) => .ok (none, os.printf "pwd: cannot open directory\n")
        | (some fd, os) => do
          let (st, path, os) ← scan n os fd st prev path
          match os.fstatIno fd with
          | none => .ok (none, (os.printf "pwd: cannot stat directory\n").close fd)
          | some prev => climb n os fd st prev path

def getCurrentDir (n : Nat) (os : Os) : Except Fault (Option Path × Os) :=
  match os.open [46] O_RDONLY with
  | (none, os) => .ok (none, os.printf "pwd: cannot open current directory\n")
  | (some fd, os) =>
    match os.fstatIno fd with
    | none => .ok (none, (os.printf "pwd: cannot stat current directory\n").close fd)
    | some st => climb n os fd st st [46]

end Pwd

def dots : List Name := [[46], [46, 46]]

-- A live entry of the directory d. A directory has one name, in its parent, and is below it.
structure Branch (node : Nat → Node) (depth : Nat → Nat) (d : Nat) (de : Dirent) : Prop where
  nonempty : key de.name ≠ []
  slash : SLASH ∉ key de.name
  found : lookup node d (key de.name) = some de.inum.toNat
  linked : 0 < (node de.inum.toNat).nlink
  parent : key de.name ∉ dots → (node de.inum.toNat).body.type = T_DIR →
    lookup node de.inum.toNat [46, 46] = some d ∧ depth de.inum.toNat = depth d + 1 ∧
      ∀ de' ∈ entries (node d), de'.inum = de.inum → key de'.name = key de.name

structure Tree (node : Nat → Node) (depth : Nat → Nat) : Prop where
  name : ∀ d, ∀ de ∈ entries (node d), de.name.length = DIRSIZ
  branch : ∀ d, ∀ de ∈ entries (node d), de.inum ≠ 0 → Branch node depth d de
  dot : ∀ d, (node d).body.type = T_DIR → lookup node d [46] = some d
  top : lookup node ROOTINO [46, 46] = some ROOTINO
  up : ∀ d, (node d).body.type = T_DIR → d ≠ ROOTINO → ∃ p, lookup node d [46, 46] = some p ∧
    ∃ de ∈ entries (node p), de.inum ≠ 0 ∧ de.inum.toNat = d ∧ key de.name ∉ dots

-- What pwd is for: an absolute path to the working directory, with no "." in it.
def Names (os : Os) (path : Path) : Prop :=
  path.head? = some SLASH ∧ os.namei path = some os.cwd ∧ [46] ∉ elements path

section

variable {os os' : Os} {depth : Nat → Nat} {d i c p n fd st st' prev : Nat} {nm : Name} {de : Dirent} {path path' : Path}
  {pre rest : List Dirent}

theorem body_of_mem (h : de ∈ os.ents d) : (os.node d).body = .dir (os.ents d) := by
  cases hb : (os.node d).body with
  | dir ents => simp [Os.ents, entries, hb]
  | _ => simp [Os.ents, entries, hb] at h

namespace Tree

theorem linked (h : Tree os.node depth) (hi : os.dirlookup d nm = some i) : 0 < (os.node i).nlink := by
  obtain ⟨de, hde, hlive, -, rfl⟩ := dirlookup_some hi
  exact (h.branch d de hde hlive).linked

-- The entry of a parent for its child is none of the dots: these lead up.
theorem not_dots (h : Tree os.node depth) (hp : (os.node p).body.type = T_DIR) (hdepth : depth c = depth p + 1)
    (hc : c ≠ ROOTINO) (hfound : os.dirlookup p nm = some c) : nm ∉ dots := by
  intro hmem
  rcases mem_pair.mp hmem with rfl | rfl
  · have hpc : p = c := Option.some.inj ((h.dot p hp).symm.trans hfound)
    subst hpc
    omega
  by_cases hroot : p = ROOTINO
  · subst hroot
    exact hc (Option.some.inj (hfound.symm.trans h.top))
  obtain ⟨q, hq, de, hde, hlive, hinum, hdots⟩ := h.up p hp hroot
  have hqc : q = c := Option.some.inj (hq.symm.trans hfound)
  subst hqc hinum
  have := ((h.branch q de hde hlive).parent hdots hp).2.1
  omega

theorem longer_name (h : Tree os.node depth) (hde : de ∈ os.ents p) (hlive : de.inum ≠ 0) (hname : FileName (key de.name))
    (hdots : key de.name ∉ dots) (hdir : (os.node de.inum.toNat).body.type = T_DIR) (d : Nat) :
    os.dirlookup d (key de.name ++ [46]) ≠ some de.inum.toNat := by
  intro hfound
  obtain ⟨e, he, helive, hkey, hinum⟩ := dirlookup_some hfound
  have hlong : key (key de.name ++ [46]) = key de.name ++ [46] := by
    have hlen : (key de.name ++ [46]).length ≤ DIRSIZ := by
      rw [length_append]
      exact hname.short
    rw [key, take_of_length_le hlen, takeWhile_eq_self_iff]
    intro x hx
    have : x ≠ 0 := by
      rintro rfl
      simp [hname.zero] at hx
    simpa using this
  have hinum' : e.inum = de.inum := UInt16.toNat_inj.mp hinum
  have hedots : key e.name ∉ dots := by
    rw [hkey, hlong]
    intro hmem
    rcases mem_pair.mp hmem with heq | heq
    · exact hname.nonempty (by simpa using heq)
    · exact hdots (by simp [dots, append_cancel_right (show key de.name ++ [46] = [46] ++ [46] from heq)])
  obtain ⟨hup, -, -⟩ := (h.branch d e he helive).parent hedots (hinum ▸ hdir)
  obtain ⟨hup', -, honce⟩ := (h.branch p de hde hlive).parent hdots hdir
  rw [hinum] at hup
  have hdp : d = p := Option.some.inj (hup.symm.trans hup')
  subst hdp
  have hsame := honce e he hinum'
  rw [hkey, hlong] at hsame
  simpa using congrArg List.length hsame

end Tree

theorem FileName.namei (h : FileName nm) (hdir : (os.node os.cwd).body.type = T_DIR) :
    os.namei nm = os.dirlookup os.cwd nm := namei_parent (h.nameiparent os hdir)

theorem fileName_dots (h : nm ∈ dots) : FileName nm := by
  rcases mem_pair.mp h with rfl | rfl <;> exact ⟨by decide, by decide, by decide, by decide⟩

theorem open_dot (os : Os) (h : Tree os.node depth) (he : Enough os) (hs : SpareFds os 1)
    (hdir : (os.node os.cwd).body.type = T_DIR) :
    ∃ fd, os.open [46] O_RDONLY = (some fd, os.setFd fd (some ⟨os.cwd, 0, true, false⟩)) ∧ os.ofile fd = none := by
  have hnamei : os.namei [46] = some os.cwd := ((fileName_dots (by decide)).namei hdir).trans (h.dot _ hdir)
  obtain ⟨fd, hopen, -, hnone⟩ := open_read os he hs (by decide) hnamei (by rw [hdir]; decide)
  exact ⟨fd, hopen, hnone⟩

theorem chdir_up (hdir : (os.node os.cwd).body.type = T_DIR) (hlink : 0 < (os.node os.cwd).nlink)
    (hp : os.dirlookup os.cwd [46, 46] = some p) (hpdir : (os.node p).body.type = T_DIR) :
    os.chdir [46, 46] = (true, os.setCwd p) := by
  have hnamei : os.namei [46, 46] = some p := ((fileName_dots (by decide)).namei hdir).trans hp
  have hput : (os.setCwd p).iput os.cwd = os.setCwd p := if_neg fun hz => Nat.ne_of_gt hlink hz.1
  simp [chdir, hnamei, hpdir, hput, MAXPATH]

theorem statIno_eq (os : Os) (he : Enough os) (hs : SpareFds os 1) (hlen : path.length < MAXPATH) (hn : os.namei path = some i)
    (hlink : 0 < (os.node i).nlink) :
    os.statIno path = (if refuses (os.node i) O_RDONLY then none else some i, os) := by
  have hi : os.openInode path O_RDONLY = (some i, os) := by simp [Os.openInode, hn, O_RDONLY]
  cases hr : refuses (os.node i) O_RDONLY with
  | true => simp [statIno, «open», Nat.not_le.mpr hlen, hi, hr]
  | false =>
    obtain ⟨fd, hopen, -, hnone⟩ := open_of_inode os path O_RDONLY hs he hlen hi hr rfl
    have hfd : ∀ f, (os.setFd fd (some f)).ofile fd = some f := by simp [setFd]
    rw [statIno, hopen]
    simp only [fstatIno, hfd, Option.map_some]
    rw [close_linked fd _ (hfd _) (by exact hlink), setFd_setFd, setFd_self hnone]
    simp

theorem refuses_dir {nd : Node} (h : nd.body.type = T_DIR) : refuses nd O_RDONLY = false := by
  cases hb : nd.body with
  | device m => rw [hb] at h; cases h
  | _ => simp [refuses, hb, O_RDONLY]

namespace Pwd

theorem scan_path (h : scan n os fd st prev path = .ok (st', path', os')) : ∃ pre, path' = pre ++ path := by
  induction n generalizing os st with
  | zero => cases h
  | succ n ih =>
    rw [scan] at h
    split at h
    · cases h
      exact ⟨[], rfl⟩
    split at h
    · cases h
      exact ⟨[], rfl⟩
    simp only at h
    split at h
    · exact ih h
    split at h
    · cases h
    split at h
    · exact ih h
    split at h
    · exact ih h
    · split at h
      · cases h
      · cases h
        exact ⟨_, rfl⟩

-- What climb can do: stop, or go up and on from what the scan left.
theorem climb_cases (h : climb (n + 1) os fd st prev path = .ok (some path', os')) :
    st = 1 ∧ path' = (if path.length = 0 then [SLASH] else path) ∨
      st ≠ 1 ∧ ∃ os₁ fd₁ os₂ st₂ path₂ os₃ prev₃, (os.close fd).chdir [46, 46] = (true, os₁) ∧
        os₁.open [46] O_RDONLY = (some fd₁, os₂) ∧ scan n os₂ fd₁ st prev path = .ok (st₂, path₂, os₃) ∧
        climb n os₃ fd₁ st₂ prev₃ path₂ = .ok (some path', os') := by
  rw [climb] at h
  split at h
  · rename_i hst
    cases h
    exact .inl ⟨hst, rfl⟩
  rename_i hst
  split at h
  · cases h
  rename_i os₁ hchdir
  split at h
  · cases h
  rename_i fd₁ os₂ hopen
  simp only [bind, Except.bind] at h
  split at h
  · cases h
  rename_i r hscan
  split at h
  · cases h
  · rename_i prev₃ _
    exact .inr ⟨hst, os₁, fd₁, os₂, r.1, r.2.1, r.2.2, prev₃, hchdir, hopen, hscan, h⟩

theorem climb_path (h : climb n os fd st prev path = .ok (some path', os')) (hne : path ≠ []) :
    ∃ pre, path' = pre ++ path := by
  induction n generalizing os fd st prev path with
  | zero => cases h
  | succ n ih =>
    obtain ⟨-, rfl⟩ | ⟨-, os₁, fd₁, os₂, st₂, path₂, os₃, prev₃, -, -, hscan, h⟩ := climb_cases h
    · exact ⟨[], if_neg (by simpa using hne)⟩
    · obtain ⟨l, rfl⟩ := scan_path hscan
      obtain ⟨l', rfl⟩ := ih h (by simp [hne])
      exact ⟨l' ++ l, by simp⟩

-- The path with the name of an entry for c in front.
def Found (os : Os) (d c : Nat) (path path' : Path) : Prop :=
  ∃ de ∈ os.ents d, de.inum ≠ 0 ∧ de.inum.toNat = c ∧ FileName (key de.name) ∧ path' = SLASH :: key de.name ++ path

theorem scan_found (os : Os) (pre : List Dirent) (h : Tree os.node depth) (he : Enough os) (hs : SpareFds os 1)
    (hents : os.ents os.cwd = pre ++ rest) (hfd : os.ofile fd = some ⟨os.cwd, DIRENT * pre.length, true, false⟩)
    (hc : (os.node c).body.type = T_DIR) (hex : ∃ de ∈ rest, de.inum ≠ 0 ∧ de.inum.toNat = c)
    (hscan : scan n os fd st c path = .ok (st', path', os')) : Found os os.cwd c path path' := by
  induction rest generalizing os pre st n with
  | nil => simp at hex
  | cons de rest ih =>
    cases n with
    | zero => cases hscan
    | succ n =>
      have hmem : de ∈ os.ents os.cwd := by simp [hents]
      have hnames := h.name os.cwd
      have hde := hnames de hmem
      have hbody := body_of_mem hmem
      have hdir : (os.node os.cwd).body.type = T_DIR := congrArg Body.type hbody
      rw [show entries (os.node os.cwd) = _ from hents] at hnames
      rw [scan, read_entry hnames hfd (hbody.trans (congrArg Body.dir hents))] at hscan
      simp only [Dirent.length_toBytes hde, ne_eq, not_true_eq_false, if_false, Dirent.ofBytes_toBytes hde] at hscan
      obtain ⟨f, hf⟩ : ∃ f : Desc, f = ⟨os.cwd, DIRENT * (pre ++ [de]).length, true, false⟩ := ⟨_, rfl⟩
      rw [← hf] at hscan
      -- The scan goes on with the other entries.
      have hnext : ∀ st, ¬ (de.inum ≠ 0 ∧ de.inum.toNat = c) →
          scan n (os.setFd fd (some f)) fd st c path = .ok (st', path', os') → Found os os.cwd c path path' := by
        intro st hne hscan
        obtain ⟨e, hmem, hlive⟩ := hex
        have hrest : e ∈ rest := (mem_cons.mp hmem).resolve_left (by rintro rfl; exact hne hlive)
        apply ih (os.setFd fd (some f)) (pre ++ [de]) h he (hs.keep hfd) _ _ hc ⟨e, hrest, hlive⟩ hscan
        · rw [append_assoc]
          exact hents
        · simp [setFd, hf]
      split at hscan
      · rename_i hzero
        exact hnext st (fun hne => hne.1 hzero) hscan
      rename_i hlive
      have hb := h.branch _ de hmem hlive
      split at hscan
      · cases hscan
      rename_i hzero
      have hname : FileName (key de.name) := fileName_key hde (not_not.mp hzero) hb.nonempty hb.slash
      have hnamei : os.namei (key de.name) = some de.inum.toNat := (hname.namei hdir).trans hb.found
      have hlen : (key de.name).length < MAXPATH := Nat.lt_trans hname.short (by decide)
      have hstat := statIno_eq (os.setFd fd (some f)) he (hs.keep hfd) hlen hnamei hb.linked
      rw [cstr_eq_key hde, hstat] at hscan
      by_cases hr : refuses (os.node de.inum.toNat) O_RDONLY
      · rw [if_pos (by exact hr)] at hscan
        apply hnext st _ hscan
        rintro ⟨-, rfl⟩
        rw [refuses_dir hc] at hr
        cases hr
      rw [if_neg (by exact hr)] at hscan
      simp only at hscan
      split at hscan
      · rename_i hne
        exact hnext _ (fun heq => hne heq.2) hscan
      rename_i heq
      split at hscan
      · cases hscan
      · cases hscan
        exact ⟨de, hmem, hlive, not_not.mp heq, hname, rfl⟩

-- The name that the first round finds keeps the "." that the path starts with.
theorem getCurrentDir_path (h : Tree os.node depth) (he : Enough os) (hs : SpareFds os 2)
    (hdir : (os.node os.cwd).body.type = T_DIR) (hrun : getCurrentDir n os = .ok (some path', os')) :
    path' = [46] ∨ ∃ p, ∃ de ∈ os.ents p, de.inum ≠ 0 ∧ de.inum.toNat = os.cwd ∧ FileName (key de.name) ∧
      key de.name ∉ dots ∧ ∃ pre, path' = pre ++ SLASH :: (key de.name ++ [46]) := by
  obtain ⟨fd, hopen, hnone⟩ := open_dot os h he (hs.mono (by decide)) hdir
  have hfd : (os.setFd fd (some ⟨os.cwd, 0, true, false⟩)).ofile fd = some ⟨os.cwd, 0, true, false⟩ := by simp [setFd]
  simp only [getCurrentDir, hopen, fstatIno, hfd, Option.map_some] at hrun
  cases n with
  | zero => cases hrun
  | succ n =>
    obtain ⟨-, rfl⟩ | ⟨hst, os₁, fd₁, os₂, st₂, path₂, os₃, prev₃, hchdir, hopen₁, hscan, hclimb⟩ := climb_cases hrun
    · exact .inl rfl
    obtain ⟨p, hp, e, hmem, hlive, hinum, hdots⟩ := h.up os.cwd hdir hst
    have hb := h.branch p e hmem hlive
    have hlink : 0 < (os.node os.cwd).nlink := hinum ▸ hb.linked
    have hpdir : (os.node p).body.type = T_DIR := congrArg Body.type (body_of_mem (show e ∈ os.ents p from hmem))
    rw [close_linked fd _ hfd hlink, setFd_setFd, setFd_self hnone, chdir_up hdir hlink hp hpdir] at hchdir
    cases hchdir
    obtain ⟨fd', hopen', hnone'⟩ := open_dot (os.setCwd p) h he (hs.mono (by decide)) hpdir
    rw [hopen'] at hopen₁
    cases hopen₁
    obtain ⟨de, hde, hlive', hinum', hname, rfl⟩ := scan_found ((os.setCwd p).setFd fd₁ (some ⟨p, 0, true, false⟩))
      [] h he (show SpareFds (os.setCwd p) 2 from hs).setFd rfl (by simp [setFd, setCwd]) hdir ⟨e, hmem, hlive, hinum⟩ hscan
    obtain ⟨pre, rfl⟩ := climb_path hclimb (by simp)
    have hdepth := (hb.parent hdots (hinum ▸ hdir)).2.1
    rw [hinum] at hdepth
    refine .inr ⟨p, de, hde, hlive', hinum', hname, ?_, pre, by simp⟩
    exact h.not_dots hpdir hdepth hst (((h.branch p de hde hlive').found).trans (congrArg some hinum'))

end Pwd

theorem lookup_last {names : List Name} {r : Nat × Name} (h : namexFrom os.node false (names ++ [nm]) i = some r) :
    ∃ d, os.dirlookup d nm = some r.1 := by
  induction names generalizing i with
  | nil =>
    rw [nil_append, namexFrom_cons] at h
    split at h
    · cases h
    rw [if_neg (by simp)] at h
    split at h
    · cases h
    · rename_i hd
      cases h
      exact ⟨i, hd⟩
  | cons x names ih =>
    rw [cons_append, namexFrom_cons] at h
    split at h
    · cases h
    · rw [if_neg (by simp)] at h
      split at h
      · cases h
      · exact ih h

end

namespace Pwd

-- The result is never the path of the working directory.
theorem getCurrentDir_wrong (os : Os) (depth : Nat → Nat) (h : Tree os.node depth) (he : Enough os) (hs : SpareFds os 2)
    (hdir : (os.node os.cwd).body.type = T_DIR) :
    ¬ ∃ path os', Ends (fun n => getCurrentDir n os) (some path, os') ∧ Names os path := by
  rintro ⟨path, os', ⟨N, hN⟩, habs, hnamei, -⟩
  obtain rfl | ⟨p, de, hde, hlive, hinum, hname, hdots, pre, rfl⟩ := getCurrentDir_path h he hs hdir (hN N (Nat.le_refl N))
  · cases habs
  obtain ⟨r, hr, hcwd⟩ := Option.map_eq_some_iff.mp hnamei
  have hlast : elements (key de.name ++ [46]) = [key de.name ++ [46]] :=
    elements_name (by simp) (by simp [hname.slash, (by decide : SLASH ≠ 46)]) (by rw [length_append]; exact hname.short)
  rw [Os.namex, elements_append, hlast] at hr
  obtain ⟨d, hd⟩ := lookup_last hr
  rw [hcwd, ← hinum] at hd
  exact h.longer_name hde hlive hname hdots (hinum ▸ hdir) d hd

-- A root with one directory, d.
def nodes : Nat → Node
  | 1 => ⟨.dir [⟨1, strncpy [46] DIRSIZ⟩, ⟨1, strncpy [46, 46] DIRSIZ⟩, ⟨2, strncpy [100] DIRSIZ⟩], 6, 1⟩
  | 2 => ⟨.dir [⟨2, strncpy [46] DIRSIZ⟩, ⟨1, strncpy [46, 46] DIRSIZ⟩], 6, 1⟩
  | _ => ⟨.free, 0, 0⟩

def inD : Os := ⟨nodes, 200, 2, fun _ => none, fun _ => .enough, [], []⟩

theorem dir_nodes {d : Nat} (h : (nodes d).body.type = T_DIR) : d ∈ [1, 2] := by
  unfold nodes at h
  split at h
  · decide
  · decide
  · cases h

theorem tree_nodes : Tree nodes fun d => if d = 1 then 0 else 1 := by
  have hmem : ∀ d, ∀ de ∈ entries (nodes d), d ∈ [1, 2] := fun d de hde =>
    dir_nodes (congrArg Body.type (body_of_mem (show de ∈ inD.ents d from hde)))
  refine ⟨fun d de hde => ?_, fun d de hde hlive => ?_, fun d hd => ?_, rfl, fun d hd hroot => ?_⟩
  · have : ∀ d ∈ [1, 2], ∀ de ∈ entries (nodes d), de.name.length = DIRSIZ := by decide
    exact this d (hmem d de hde) de hde
  · have hentry : ∀ d ∈ [1, 2], ∀ de ∈ entries (nodes d), key de.name ≠ [] ∧ SLASH ∉ key de.name ∧
        lookup nodes d (key de.name) = some de.inum.toNat ∧ 0 < (nodes de.inum.toNat).nlink := by decide
    have hchild : ∀ d ∈ [1, 2], ∀ de ∈ entries (nodes d), key de.name ∉ dots → d = 1 ∧ de.inum = 2 := by decide
    have honce : ∀ de ∈ entries (nodes 1), de.inum = 2 → key de.name = [100] := by decide
    obtain ⟨hne, hslash, hfound, hlink⟩ := hentry d (hmem d de hde) de hde
    refine ⟨hne, hslash, hfound, hlink, fun hdots _ => ?_⟩
    obtain ⟨rfl, h2⟩ := hchild d (hmem d de hde) de hde hdots
    rw [h2, honce de hde h2]
    exact ⟨rfl, rfl, honce⟩
  · have : ∀ d ∈ [1, 2], lookup nodes d [46] = some d := by decide
    exact this d (dir_nodes hd)
  · obtain rfl : d = 2 := (mem_pair.mp (dir_nodes hd)).resolve_left hroot
    exact ⟨1, rfl, ⟨2, strncpy [100] DIRSIZ⟩, by simp [entries, nodes], by decide, rfl, by decide⟩

theorem getCurrentDir_wrong_inD : Tree inD.node (fun d => if d = 1 then 0 else 1) ∧
    ¬ ∃ path os', Ends (fun n => getCurrentDir n inD) (some path, os') ∧ Names inD path :=
  ⟨tree_nodes, getCurrentDir_wrong inD _ tree_nodes rfl ⟨{3, 4}, by decide, by simp [inD, NOFILE]⟩ rfl⟩

-- The result is "/./d.", which leads nowhere.
theorem not_getCurrentDir_names : Tree inD.node (fun d => if d = 1 then 0 else 1) ∧
    (∀ n, (getCurrentDir (n + 8) inD).toOption.map Prod.fst = some (some [47, 46, 47, 100, 46])) ∧
    inD.namei [47, 46, 47, 100, 46] = none :=
  ⟨tree_nodes, fun _ => rfl, rfl⟩

end Pwd

end User
