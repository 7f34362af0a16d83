import Xv6.User.Extract

-- The round trip through an archive.

namespace User

open Fs Function Os List

attribute [local simp] setFd setBody grown

-- Where create_archive finds the names: it puts a slash after the path, which is the root
-- after an empty one.
def baseOf (path : Path) (dir : Nat) : Nat := if path = [] then ROOTINO else dir

-- The files that a listing of the directory leads to.
abbrev filesOf (os : Os) (path : Path) (dir : Nat) : List (Name × List UInt8) := filesAt os (baseOf path dir) (os.ents dir)

-- A directory of regular files and of directories, with names of up to 13 bytes.
structure Listing (os : Os) (path : Path) (dir : Nat) : Prop where
  short : path.length < MAXPATH
  found : os.namei path = some dir
  body : (os.node dir).body = .dir (os.ents dir)
  linked : 0 < (os.node dir).nlink
  base : (os.node (baseOf path dir)).body.type = T_DIR
  names : ∀ de ∈ os.ents dir, de.name.length = DIRSIZ
  entries : ∀ de ∈ os.ents dir, de.inum ≠ 0 → 0 ∈ de.name ∧ key de.name ≠ [] ∧ SLASH ∉ key de.name
  distinct : (os.ents dir).Pairwise fun d e => d.inum ≠ 0 → e.inum ≠ 0 → key d.name ≠ key e.name
  files : ∀ de ∈ os.ents dir, de.inum ≠ 0 → ∀ ip, os.dirlookup (baseOf path dir) (key de.name) = some ip →
    0 < (os.node ip).nlink ∧ ((os.node ip).body.type = T_DIR ∨ ∃ content, (os.node ip).body = .file content)
  size : archiveSize (filesOf os path dir) ≤ MAXSIZE

structure Archivable (os : Os) (path : Path) (dir : Nat) : Prop extends Listing os path dir where
  readable : ∀ de ∈ os.ents dir, de.inum ≠ 0 → ∀ ip, os.dirlookup (baseOf path dir) (key de.name) = some ip →
    ∀ content, (os.node ip).body = .file content → (os.node ip).mode &&& S_IRUSR ≠ 0
  dots : os.fileAt (baseOf path dir) [46] = none ∧ os.fileAt (baseOf path dir) [46, 46] = none

-- A directory with its two entries only, from which `again` leads to the archive.
structure EmptyDir (os : Os) (out : Nat) (again : Path) (dp : Nat) (nm : Name) : Prop where
  dir : (os.node out).body.type = T_DIR
  ne : out ≠ dp
  short : again.length < MAXPATH
  again : ∃ nm', (os.setCwd out).nameiparent again = some (dp, nm') ∧ key nm' = key nm
  dots : ∀ de ∈ os.ents out, de.inum ≠ 0 → (key de.name = [46] ∨ key de.name = [46, 46]) ∧
    (os.node de.inum.toNat).body.type = T_DIR
  two : live os out ≤ 2

-- What the prompt of create_archive reads.
def archiveName (os : Os) : Path := cstr (getsFrom (MAXLEN - 1) os.input).1

def asked (os : Os) : Os := (gets (os.printf "Entrez le nom de l'archive: ") MAXLEN).2

theorem Ends.unique {α : Type} {f : Nat → Except Fault α} {a b : α} (ha : Ends f a) (hb : Ends f b) : a = b := by
  obtain ⟨N, hN⟩ := ha
  obtain ⟨M, hM⟩ := hb
  have heq := (hN (max N M) (Nat.le_max_left _ _)).symm.trans (hM (max N M) (Nat.le_max_right _ _))
  exact Except.ok.inj heq

variable {os : Os} {path again : Path} {dir dp out : Nat} {nm : Name} {n : Nat}

theorem length_getsFrom (n : Nat) (input : List UInt8) : (getsFrom n input).1.length ≤ n := by
  induction n generalizing input with
  | zero => simp [getsFrom]
  | succ n ih =>
    cases input with
    | nil => simp [getsFrom]
    | cons c input =>
      have := ih input
      simp only [getsFrom]
      split
      · simp
      · simpa using this

theorem length_archiveName (os : Os) : (archiveName os).length < MAXPATH := by
  have h := Nat.le_trans (List.takeWhile_prefix (· ≠ 0)).length_le (length_getsFrom (MAXLEN - 1) os.input)
  exact Nat.lt_of_le_of_lt h (by decide)

variable {name : Name}

theorem Listing.paths (h : Listing os path dir) (hne : name ≠ []) (hslash : SLASH ∉ name)
    (hlen : name.length ≤ DIRSIZ) :
    os.nameiparent (path ++ SLASH :: name) = some (baseOf path dir, name) := by
  by_cases hpath : path = []
  · subst hpath
    have hbase : (os.node ROOTINO).body.type = T_DIR := h.base
    rw [Os.nameiparent, Os.namex, elements_append, elements_name hne hslash hlen]
    exact (if_neg (by simpa using hbase)).trans (if_pos ⟨rfl, rfl⟩)
  · have hbase : baseOf path dir = dir := if_neg hpath
    rw [hbase]
    exact nameiparent_append h.found (by rw [h.body]; rfl) hpath hne hslash hlen

variable {arch ip : Nat} {de : Dirent}

theorem Listing.ne_arch (h : Listing os path dir) (hnew : New os dp arch nm)
    (hde : de ∈ os.ents dir) (hlive : de.inum ≠ 0)
    (hip : os.dirlookup (baseOf path dir) (key de.name) = some ip) : ip ≠ arch := by
  rintro rfl
  have hfree := hnew.free
  obtain ⟨-, hdir | ⟨content, hfile⟩⟩ := h.files de hde hlive ip hip
  · rw [hdir] at hfree
    cases hfree
  · rw [hfile] at hfree
    cases hfree

theorem Listing.filesAt_made (h : Listing os path dir) (hnew : New os dp arch nm)
    (hbase : dp ≠ baseOf path dir) :
    filesAt (os.made dp nm arch) (baseOf path dir) (os.ents dir) = filesOf os path dir := by
  apply filterMap_congr
  intro de hde
  by_cases hlive : de.inum = 0
  · simp [hlive]
  · simp only [hlive, if_false, fileAt, hnew.dirlookup_ne hbase]
    cases hip : os.dirlookup (baseOf path dir) (key de.name) with
    | none => rfl
    | some ip => simp [hnew.fileOf (h.ne_arch hnew hde hlive hip)]

theorem Os.New.node_file {content : List UInt8} (hnew : New os dp arch nm) (hip : ip ≠ arch)
    (hfile : (os.node ip).body = .file content) : (os.made dp nm arch).node ip = os.node ip := by
  refine node_made ?_ hip
  rintro rfl
  have htype := hnew.dir
  rw [hfile] at htype
  cases htype

theorem Listing.made (h : Listing os path dir) (hnew : New os dp arch nm) (hdir : dp ≠ dir)
    (hbase : dp ≠ baseOf path dir) : Listing (os.made dp nm arch) path dir := by
  have hne : dir ≠ arch := by
    rintro rfl
    have hfree := hnew.free
    rw [h.body] at hfree
    cases hfree
  have hnode : (os.made dp nm arch).node dir = os.node dir := node_made hdir.symm hne
  have hents : (os.made dp nm arch).ents dir = os.ents dir := congrArg User.entries hnode
  refine ⟨h.short, hnew.extends.namei rfl h.found, ?_, ?_, hnew.extends.dir _ h.base, hents ▸ h.names, hents ▸ h.entries,
    hents ▸ h.distinct, ?_, ?_⟩
  · rw [hnode, hents, h.body]
  · rw [hnode]
    exact h.linked
  · intro de hde hlive ip hip
    rw [hents] at hde
    rw [hnew.dirlookup_ne hbase] at hip
    have hip' := h.ne_arch hnew hde hlive hip
    obtain ⟨hlink, hkind⟩ := h.files de hde hlive ip hip
    refine ⟨(hnew.nlink hip').symm ▸ hlink, ?_⟩
    rcases hkind with htype | ⟨content, hfile⟩
    · exact .inl ((hnew.type hip').trans htype)
    · exact .inr ⟨content, (congrArg Node.body (hnew.node_file hip' hfile)).trans hfile⟩
  · rw [filesOf, hents, h.filesAt_made hnew hbase]
    exact h.size

theorem Listing.congr {os' : Os} (h : Listing os path dir) (hnode : os'.node = os.node)
    (hcwd : os'.cwd = os.cwd) : Listing os' path dir := by
  obtain ⟨node, _, cwd, _, _, _, _⟩ := os
  obtain ⟨node', _, cwd', _, _, _, _⟩ := os'
  obtain rfl : node' = node := hnode
  obtain rfl : cwd' = cwd := hcwd
  exact ⟨h.short, h.found, h.body, h.linked, h.base, h.names, h.entries, h.distinct, h.files, h.size⟩

section Start

variable {os₁ : Os} {a : Nat} {old : List UInt8} (junk : Os → Nat → UInt8) (h : Listing os₁ path dir)
  (hopen : (asked os).open (archiveName os) (O_CREATE ||| O_WRONLY) = (some a, os₁)) (hw : Writing os₁ a arch [] old)
  (hmode : (os₁.node arch).mode &&& S_IWUSR ≠ 0) (hfds : SpareFds os₁ 2)

include h hw

theorem Listing.dir_ne : dir ≠ arch := by
  rintro rfl
  have hbody := hw.target
  rw [h.body] at hbody
  cases hbody

include hopen hmode hfds

-- The archive and the directory are open.
theorem Listing.start : ∃ s, s ≠ a ∧ os₁.ofile s = none ∧
    os₁.open path O_RDONLY = (some s, os₁.setFd s (some ⟨dir, 0, true, false⟩)) ∧
    Archiving (os₁.setFd s (some ⟨dir, 0, true, false⟩)) path a arch (baseOf path dir) [] old (os₁.ents dir) ∧
    ∀ n, createArchive junk n os path = (archiveFrom junk n (os₁.setFd s (some ⟨dir, 0, true, false⟩)) path a s >>= fun os =>
      .ok ((os.close s).close a)) := by
  obtain ⟨s, hopenS, -, hs⟩ := open_read os₁ hw.enough (hfds.mono (by decide)) h.short h.found
    (by rw [h.body]; exact (by decide : T_DIR ≠ T_DEVICE))
  have hsa : s ≠ a := by
    rintro rfl
    rw [hw.writer] at hs
    cases hs
  refine ⟨s, hsa, hs, hopenS, ⟨⟨hw.enough, ?_, hw.target, hw.linked⟩, hfds.setFd, hmode, fun name => h.paths, ?_⟩, fun n => ?_⟩
  · simpa [hsa.symm] using hw.writer
  · intro de hde hlive
    obtain ⟨hzero, hne, hslash⟩ := h.entries de hde hlive
    exact ⟨h.names de hde, hzero, hne, hslash, h.files de hde hlive⟩
  · have hname : gets (os.printf "Entrez le nom de l'archive: ") MAXLEN = ((getsFrom (MAXLEN - 1) os.input).1, asked os) := rfl
    have hopen : (asked os).open (cstr (getsFrom (MAXLEN - 1) os.input).1) (O_CREATE ||| O_WRONLY) = (some a, os₁) := hopen
    simp only [createArchive, hname, hopen, hopenS]

-- The loop over entries whose paths fit and do not lead to the archive.
theorem Listing.runs (hfits : ∀ de ∈ os₁.ents dir, PathFits path de)
    (hapart : ∀ de ∈ os₁.ents dir, de.inum ≠ 0 → os₁.dirlookup (baseOf path dir) (key de.name) ≠ some arch) :
    ∃ s bytes os₂ os3, s ≠ a ∧ os₁.ofile s = none ∧ os₁.open path O_RDONLY = (some s, os₂) ∧
      Puts (Set.range junk) (partsAt os₁ (baseOf path dir) (os₁.ents dir)) bytes ∧
      Ends (fun n => archiveFrom junk n os₂ path a s) os3 ∧
      Ends (fun n => createArchive junk n os path) ((os3.close s).close a) ∧
      os3 = (grown os₁ a arch bytes old).setFd s (some ⟨dir, DIRENT * (os₁.ents dir).length, true, false⟩) := by
  obtain ⟨s, hsa, hs, hopenS, harch, hloop⟩ := h.start junk hopen hw hmode hfds
  have hne := h.dir_ne hw
  rw [← append_nil (os₁.ents dir), ← nil_append (os₁.ents dir ++ [])] at harch
  obtain ⟨bytes, hputs, hsteps⟩ := archiveFrom_steps junk [] (os₁.ents dir) [] harch (by simpa using h.names) (update_self ..)
    (by simpa using h.body) hsa.symm hne hfits hapart (by rw [length_nil, Nat.zero_add]; exact h.size)
  have hrun : ∀ n > (os₁.ents dir).length + MAXSIZE + 1,
      archiveFrom junk n (os₁.setFd s (some ⟨dir, 0, true, false⟩)) path a s = .ok ((grown os₁ a arch bytes old).setFd s
        (some ⟨dir, DIRENT * (os₁.ents dir).length, true, false⟩)) := by
    intro n hn
    obtain ⟨m, rfl⟩ : ∃ m, n = (os₁.ents dir).length + (m + 1) := ⟨n - (os₁.ents dir).length - 1, by omega⟩
    rw [hsteps (m + 1) (by omega), archiveFrom_end junk h.names (update_self ..)
      (by simpa [hne] using h.body)]
    simp [-setFd, -setBody, setBody_setFd, setFd_comm hsa]
  refine ⟨s, bytes, _, _, hsa, hs, hopenS, hputs, ⟨_, hrun⟩, ⟨(os₁.ents dir).length + MAXSIZE + 2, fun n hn => ?_⟩, rfl⟩
  simp only [hloop, hrun n hn]
  rfl

end Start

variable {l pre : List Dirent} {old bytes : List UInt8} {files : List (Name × List UInt8)}

theorem exists_first {p : Dirent → Prop} (h : ¬ ∀ de ∈ l, p de) :
    ∃ pre de rest, l = pre ++ de :: rest ∧ (∀ e ∈ pre, p e) ∧ ¬ p de := by
  induction l with
  | nil => exact absurd (by simp) h
  | cons d l ih =>
    by_cases hd : p d
    · obtain ⟨pre, de, rest, rfl, hpre, hde⟩ := ih fun hl => h (by simpa using ⟨hd, hl⟩)
      exact ⟨d :: pre, de, rest, rfl, by simpa using ⟨hd, hpre⟩, hde⟩
    · exact ⟨[], d, l, rfl, by simp, hd⟩

theorem filesAt_append (os : Os) (base : Nat) (l r : List Dirent) :
    filesAt os base (l ++ r) = filesAt os base l ++ filesAt os base r := filterMap_append

theorem archiveFrom_overflow {a s : Nat} (junk : Os → Nat → UInt8) {rest : List Dirent}
    (h : Archiving os path a arch (baseOf path dir) [] old (pre ++ de :: rest))
    (hnames : ∀ e ∈ pre ++ de :: rest, e.name.length = DIRSIZ)
    (hs : os.ofile s = some ⟨dir, 0, true, false⟩)
    (hdir : (os.node dir).body = .dir (pre ++ de :: rest)) (has : a ≠ s) (hne : dir ≠ arch)
    (hfits : ∀ e ∈ pre, PathFits path e)
    (hapart : ∀ e ∈ pre, e.inum ≠ 0 → os.dirlookup (baseOf path dir) (key e.name) ≠ some arch)
    (hsize : archiveSize (filesAt os (baseOf path dir) (pre ++ de :: rest)) ≤ MAXSIZE)
    (hde : ¬ PathFits path de) (hn : n > pre.length + MAXSIZE + 1) :
    archiveFrom junk n os path a s = .error .overflow := by
  rw [filesAt_append, archiveSize_append] at hsize
  obtain ⟨more, -, hsteps⟩ := archiveFrom_steps junk [] pre (de :: rest) h hnames (by simpa using hs) hdir has hne hfits hapart
    (by simp; omega)
  have hgrow := (h.grow more).seek (s := s) (g := ⟨dir, DIRENT * (pre ++ [de]).length, true, false⟩)
    (by simpa [has.symm] using hs) has
  obtain ⟨m, rfl⟩ : ∃ m, n = pre.length + (m + 1) := ⟨n - pre.length - 1, by omega⟩
  rw [hsteps (m + 1) (by omega), nil_append, nil_append, archiveFrom_entry junk hnames (update_self ..)
    (by simpa [hne] using hdir), setFd_setFd, archiveEntry_overflow junk hgrow (by simp) hde]
  rfl

theorem Archivable.partsAt_made (h : Archivable os path dir) (hnew : New os dp arch nm) (hbase : dp ≠ baseOf path dir) :
    partsAt (os.made dp nm arch) (baseOf path dir) (os.ents dir) =
      (filesOf os path dir).map fun f => (f.1, f.2, f.2) := by
  rw [partsAt_readable fun de hde hlive ip hip content hfile _ => ?_, h.filesAt_made hnew hbase]
  rw [hnew.dirlookup_ne hbase] at hip
  have hne := h.ne_arch hnew hde hlive hip
  obtain ⟨-, htype | ⟨content', hold⟩⟩ := h.files de hde hlive ip hip
  · rw [← hnew.type hne, hfile] at htype
    cases htype
  · rw [hnew.node_file hne hold]
    exact h.readable de hde hlive ip hip content' hold

theorem createArchive_result (junk : Os → Nat → UInt8) (he : Enough os) (hfds : SpareFds os 3) (hinodes : SpareInodes os 1)
    (hninodes : os.ninodes ≤ 2 ^ 16) (h : Archivable os path dir) (hfresh : FreshName os (archiveName os) dp nm)
    (hdir : dp ≠ dir) (hbase : dp ≠ baseOf path dir) :
    ((∀ de ∈ os.ents dir, PathFits path de) ∧ ∃ arch bytes, New os dp arch nm ∧
        Encodes (Set.range junk) (filesOf os path dir) bytes ∧
        Ends (fun n => createArchive junk n os path) (((asked os).made dp nm arch).setBody arch (.file bytes))) ∨
      ((¬ ∀ de ∈ os.ents dir, PathFits path de) ∧ ∃ N, ∀ n ≥ N, createArchive junk n os path = .error .overflow) := by
  obtain ⟨arch, hcreate, hlt, hpos, hfree⟩ := create_absent (asked os) he hinodes hfresh.room hfresh.parent hfresh.absent
  have hnew : New os dp arch nm :=
    ⟨type_of_namexFrom hfresh.parent rfl, hfresh.absent, hfree, Nat.lt_of_lt_of_le hlt hninodes, hpos⟩
  have hnode : ((asked os).made dp nm arch).node arch = ⟨.file [], S_IRUSR ||| S_IWUSR, 1⟩ := hnew.node_ip
  obtain ⟨a, hopenA, -, ha⟩ := open_of_inode (asked os) (archiveName os) (O_CREATE ||| O_WRONLY)
    (show SpareFds ((asked os).made dp nm arch) 1 from hfds.mono (by decide)) he (length_archiveName os) hcreate (by rw [hnode]; decide)
    (by decide)
  obtain ⟨os₁, hos₁⟩ : ∃ os₁, os₁ = ((asked os).made dp nm arch).setFd a (some ⟨arch, 0, false, true⟩) := ⟨_, rfl⟩
  have hw : Writing os₁ a arch [] [] := by
    rw [hos₁]
    exact ⟨he, by simp, congrArg Node.body hnode, (congrArg Node.nlink hnode).trans_gt Nat.one_pos⟩
  have hlist : Listing os₁ path dir := (h.made hnew hdir hbase).congr (by rw [hos₁]; rfl) (by rw [hos₁]; rfl)
  have hents : os₁.ents dir = os.ents dir := by
    rw [hos₁]
    exact congrArg entries (node_made hdir.symm (hlist.dir_ne hw))
  have hlookup : ∀ nm', os₁.dirlookup (baseOf path dir) nm' = os.dirlookup (baseOf path dir) nm' := by
    rw [hos₁]
    exact hnew.dirlookup_ne hbase
  have hmode : (os₁.node arch).mode &&& S_IWUSR ≠ 0 := by
    rw [hos₁]
    exact (congrArg (·.mode &&& S_IWUSR) hnode).trans_ne (by decide : (S_IRUSR ||| S_IWUSR) &&& S_IWUSR ≠ 0)
  have hfds₁ : SpareFds os₁ 2 := by
    rw [hos₁]
    exact (show SpareFds ((asked os).made dp nm arch) 3 from hfds).setFd
  have hapart : ∀ de ∈ os.ents dir, de.inum ≠ 0 → os₁.dirlookup (baseOf path dir) (key de.name) ≠ some arch := by
    intro de hde hlive hip
    exact h.ne_arch hnew hde hlive ((hlookup _).symm.trans hip) rfl
  by_cases hall : ∀ de ∈ os.ents dir, PathFits path de
  · obtain ⟨s, bytes, -, os3, hsa, hs, -, hputs, -, hends, hos3⟩ := hlist.runs junk (hos₁ ▸ hopenA) hw hmode hfds₁
      (hents ▸ hall) (hents ▸ hapart)
    rw [hents] at hputs hos3
    have hparts : partsAt os₁ (baseOf path dir) (os.ents dir) =
        (filesOf os path dir).map fun f => (f.1, f.2, f.2) := by
      rw [hos₁]
      exact h.partsAt_made hnew hbase
    rw [hparts] at hputs
    have hclose : (os3.close s).close a = ((asked os).made dp nm arch).setBody arch (.file bytes) := by
      rw [hos3, close_linked s ⟨dir, DIRENT * (os.ents dir).length, true, false⟩ (by simp)
        (by simpa [hlist.dir_ne hw] using hlist.linked)]
      rw [close_linked a ⟨arch, bytes.length, false, true⟩ (by simp [hsa.symm])
        (by simpa using hw.linked)]
      have hbackS : (os₁.setBody arch (.file bytes)).setFd s none = os₁.setBody arch (.file bytes) := setFd_self hs
      have hbackA : (((asked os).made dp nm arch).setBody arch (.file bytes)).setFd a none =
          ((asked os).made dp nm arch).setBody arch (.file bytes) := setFd_self ha
      simp only [grown, onto, drop_nil, append_nil, setFd_setFd, setFd_comm hsa.symm, hbackS]
      rw [hos₁, setBody_setFd, setFd_setFd, hbackA]
    exact .inl ⟨hall, arch, bytes, hnew, hputs, hclose ▸ hends⟩
  · refine .inr ⟨hall, (os.ents dir).length + MAXSIZE + 2, fun n hn => ?_⟩
    obtain ⟨pre, de, rest, heq, hpre, hde⟩ := exists_first hall
    obtain ⟨s, hsa, -, -, harch, hloop⟩ := hlist.start junk (hos₁ ▸ hopenA) hw hmode hfds₁
    have hbody := hlist.body
    rw [hents, heq] at hbody harch
    rw [hloop, archiveFrom_overflow junk harch (heq ▸ h.names) (by simp) hbody hsa.symm (hlist.dir_ne hw) hpre
      (fun e he => hapart e (by simp [heq, he])) (by rw [← heq, ← hents]; exact hlist.size) hde (by simp [heq] at hn; omega)]
    rfl

-- The archived files come back, and the archive is read to its end.
def RoundTrip (junk : Os → Nat → UInt8) (os : Os) (path : Path) (dir out : Nat) (again : Path) : Prop :=
  ∃ os₁ fd os₂ os3, Ends (fun n => createArchive junk n os path) os₁ ∧
    (os₁.setCwd out).open again O_RDONLY = (some fd, os₂) ∧ Ends (fun n => extractFrom n os₂ fd) os3 ∧
    Ends (fun n => extractArchive n (os₁.setCwd out) again) (os3.close fd) ∧
    (∀ name, (os3.close fd).fileAt out name = os.fileAt dir name) ∧
    ∃ arch archive, os3.ofile fd = some ⟨arch, List.length archive, true, false⟩ ∧ (os3.node arch).body = .file archive

-- The path of each entry fits its buffer, and leads to the entry.
def Reachable (os : Os) (path : Path) (dir : Nat) : Prop :=
  ∀ de ∈ os.ents dir, de.inum ≠ 0 → path.length + 1 + (key de.name).length + 1 ≤ MAXLEN ∧
    os.fileAt (baseOf path dir) (key de.name) = os.fileAt dir (key de.name)

theorem Listing.fileName (h : Listing os path dir) (hde : de ∈ os.ents dir) (hlive : de.inum ≠ 0) :
    FileName (key de.name) := by
  obtain ⟨hzero, hne, hslash⟩ := h.entries de hde hlive
  exact fileName_key (h.names de hde) hzero hne hslash

theorem Listing.fileAt_key (h : Listing os path dir) (hde : de ∈ os.ents dir) (hlive : de.inum ≠ 0)
    (hkey : key de.name = key name) : os.fileAt dir (key de.name) = os.fileAt dir name := by
  rw [fileAt, fileAt, dirlookup_congr ((h.fileName hde hlive).key_eq.trans hkey)]

theorem Listing.distinct_files (h : Listing os path dir) :
    (filesOf os path dir).Pairwise fun f g => f.1 ≠ g.1 := by
  apply h.distinct.filterMap
  intro d e hde f hf g hg
  split at hf
  · cases hf
  split at hg
  · cases hg
  · rename_i hd he
    obtain ⟨_, -, rfl⟩ := Option.map_eq_some_iff.mp hf
    obtain ⟨_, -, rfl⟩ := Option.map_eq_some_iff.mp hg
    exact hde hd he

theorem contentIn_eq_some (hdistinct : files.Pairwise fun f g => f.1 ≠ g.1) (name : Name)
    (content : List UInt8) : contentIn files name = some content ↔ (key name, content) ∈ files := by
  constructor
  · intro h
    obtain ⟨f, hf, rfl⟩ := Option.map_eq_some_iff.mp h
    have hname := find?_some hf
    simp only [decide_eq_true_eq] at hname
    rw [← hname]
    exact mem_of_find?_eq_some hf
  · intro h
    induction files with
    | nil => cases h
    | cons f files ih =>
      obtain ⟨hne, hdistinct⟩ := pairwise_cons.mp hdistinct
      rcases mem_cons.mp h with rfl | h
      · simp [contentIn]
      · have hf : f.1 ≠ key name := hne _ h
        have := ih hdistinct h
        simpa [contentIn, hf] using this

theorem Listing.contentIn_iff (h : Listing os path dir) (name : Name) (content : List UInt8) :
    contentIn (filesOf os path dir) name = some content ↔
      (∃ de ∈ os.ents dir, de.inum ≠ 0 ∧ key de.name = key name) ∧ os.fileAt (baseOf path dir) (key name) = some content := by
  rw [contentIn_eq_some h.distinct_files]
  constructor
  · intro hmem
    obtain ⟨de, hde, hlive, hkey, hfile⟩ := mem_filesAt hmem
    simp only at hkey hfile
    rw [hkey]
    exact ⟨⟨de, hde, hlive, rfl⟩, hfile⟩
  · rintro ⟨⟨de, hde, hlive, hkey⟩, hfile⟩
    rw [← hkey] at hfile ⊢
    refine mem_filterMap.mpr ⟨de, hde, ?_⟩
    rw [if_neg hlive, hfile]
    rfl

theorem EmptyDir.lookup (h : EmptyDir os out again dp nm) (hip : os.dirlookup out name = some ip) :
    (key name = [46] ∨ key name = [46, 46]) ∧ (os.node ip).body.type = T_DIR := by
  obtain ⟨de, hde, hlive, hkey, rfl⟩ := dirlookup_some hip
  rw [← hkey]
  exact h.dots de hde hlive

theorem length_le_archiveSize (files : List (Name × List UInt8)) :
    HEADER * files.length ≤ archiveSize files := by
  induction files with
  | nil => simp [archiveSize]
  | cons f files ih =>
    simp only [archiveSize, map_cons, sum_cons, length_cons, Nat.mul_add] at *
    omega

theorem content_le_archiveSize {f : Name × List UInt8} (hf : f ∈ files) :
    f.2.length ≤ archiveSize files := by
  obtain ⟨l, r, rfl⟩ := append_of_mem hf
  simp only [archiveSize, map_append, map_cons, sum_append, sum_cons]
  omega

theorem Listing.files_iff (h : Listing os path dir) :
    (∀ name, contentIn (filesOf os path dir) name = os.fileAt dir name) ↔
      ∀ de ∈ os.ents dir, de.inum ≠ 0 → os.fileAt (baseOf path dir) (key de.name) = os.fileAt dir (key de.name) := by
  constructor
  · intro hall de hde hlive
    have hkey := (h.fileName hde hlive).key_eq
    ext content
    rw [← hall, h.contentIn_iff, hkey]
    exact (and_iff_right ⟨de, hde, hlive, rfl⟩).symm
  · intro hall name
    ext content
    rw [h.contentIn_iff]
    constructor
    · rintro ⟨⟨de, hde, hlive, hkey⟩, hfile⟩
      rw [← h.fileAt_key hde hlive hkey, ← hall de hde hlive, hkey]
      exact hfile
    · intro hfile
      obtain ⟨ip, hip, -⟩ := Option.bind_eq_some_iff.mp hfile
      obtain ⟨de, hde, hlive, hkey, -⟩ := dirlookup_some hip
      refine ⟨⟨de, hde, hlive, hkey⟩, ?_⟩
      rw [← hkey, hall de hde hlive, h.fileAt_key hde hlive hkey]
      exact hfile

-- The state after create_archive, in the directory `out`.
def packed (os : Os) (dp : Nat) (nm : Name) (arch : Nat) (bytes : List UInt8) (out : Nat) : Os :=
  (((asked os).made dp nm arch).setBody arch (.file bytes)).setCwd out

section

variable (he : Enough os) (hfds : SpareFds os 3)
  (hinodes : SpareInodes os ((filesOf os path dir).length + 1)) (hninodes : os.ninodes ≤ 2 ^ 16)
  (h : Archivable os path dir) (hout : EmptyDir os out again dp nm)

include he hfds hinodes hninodes h hout

theorem extracting_init (hnew : New os dp arch nm) (fd : Nat) (bytes : List UInt8) :
    Extracting ((packed os dp nm arch bytes out).setFd fd (some ⟨arch, 0, true, false⟩)) fd arch out 0
      (filesOf os path dir).length bytes := by
  have hnode : ∀ j, j ≠ arch → (packed os dp nm arch bytes out).node j = (os.made dp nm arch).node j := by
    intro j hj
    simp [packed, setCwd, hj]
    rfl
  have htypes : ∀ j, j ≠ arch → ((packed os dp nm arch bytes out).node j).body.type =
      (os.node j).body.type := fun j hj => (congrArg (·.body.type) (hnode j hj)).trans (hnew.type hj)
  have harch : ((asked os).made dp nm arch).node arch = ⟨.file [], S_IRUSR ||| S_IWUSR, 1⟩ := hnew.node_ip
  have hne : out ≠ arch := by
    rintro rfl
    have hfree := hnew.free
    rw [hout.dir] at hfree
    cases hfree
  refine ⟨he, ?_, ?_, hninodes, ?_, ?_, ?_, ?_, rfl, ?_, ?_, fun name ip hip => ?_⟩
  · have hfds' : SpareFds (packed os dp nm arch bytes out) 2 := hfds.mono (by decide)
    exact hfds'.setFd
  · apply hinodes.erase arch
    rintro j ⟨hpos, hfree⟩ hj
    exact ⟨hpos, (htypes j hj).trans hfree⟩
  · simp
  · simp [packed, setCwd]
  · simp [packed, setCwd, harch]
    decide
  · simp [packed, setCwd, harch]
  · exact (htypes out hne).trans hout.dir
  · have hlive : live ((packed os dp nm arch bytes out).setFd fd (some ⟨arch, 0, true, false⟩)) out = live os out := by
      rw [live, live, Os.ents, Os.ents]
      exact congrArg (fun nd => (entries nd).countP _) ((hnode out hne).trans (node_made hout.ne hne))
    have hcount := Nat.le_trans (length_le_archiveSize _) h.size
    have htwo := hout.two
    rw [hlive]
    simp only [HEADER, DIRENT, DIRSIZ, MAXLEN, MAXSIZE, MAXFILE, NDIRECT, NINDIRECT, BSIZE] at *
    omega
  · have hold : os.dirlookup out name = some ip := by
      rw [← hip, ← hnew.dirlookup_ne hout.ne.symm]
      exact (dirlookup_setFile (congrArg Node.body harch) out name).symm
    have htype := (hout.lookup hold).2
    have hne : ip ≠ arch := by
      rintro rfl
      have hfree := hnew.free
      rw [htype] at hfree
      cases hfree
    exact (htypes ip hne).trans_ne (by rw [htype]; decide)

theorem extractArchive_result (hnew : New os dp arch nm) {J : Set (Nat → UInt8)}
    (henc : Encodes J (filesOf os path dir) bytes) :
    ∃ fd os₂ os3, (packed os dp nm arch bytes out).open again O_RDONLY = (some fd, os₂) ∧
      Ends (fun n => extractFrom n os₂ fd) os3 ∧ os3.ofile fd = some ⟨arch, bytes.length, true, false⟩ ∧
      (os3.node arch).body = .file bytes ∧
      ∀ name, (os3.close fd).fileAt out name = contentIn (filesOf os path dir) name := by
  have harch : ((asked os).made dp nm arch).node arch = ⟨.file [], S_IRUSR ||| S_IWUSR, 1⟩ := hnew.node_ip
  have hfile := congrArg Node.body harch
  obtain ⟨nm', hparent, hkey⟩ := hout.again
  have hext : Extends (os.setCwd out) (packed os dp nm arch bytes out) := by
    have hext := hnew.extends.trans (Extends.setFile (congrArg Node.body hnew.node_ip) bytes)
    exact ⟨hext.dir, hext.dirlookup⟩
  have hnamei : (packed os dp nm arch bytes out).namei again = some arch := by
    rw [namei_parent (hext.namex rfl hparent)]
    refine (dirlookup_setFile hfile dp nm').trans ((hnew.dirlookup dp nm').trans (if_pos ⟨rfl, hkey⟩))
  obtain ⟨fd, hopen, -⟩ := open_read (packed os dp nm arch bytes out) he (hfds.mono (by decide)) hout.short hnamei
    (by simp [packed, setCwd, Body.type]; decide)
  have hinit := extracting_init he hfds hinodes hninodes h hout hnew fd bytes
  have hlookup : ∀ name, ((packed os dp nm arch bytes out).setFd fd
      (some ⟨arch, 0, true, false⟩)).dirlookup out name = os.dirlookup out name := fun name =>
    (dirlookup_setFile hfile out name).trans (hnew.dirlookup_ne hout.ne.symm name)
  have hnames : ∀ f ∈ filesOf os path dir, FileName f.1 := by
    intro f hf
    obtain ⟨de, hde, hlive, hkey, -⟩ := mem_filesAt hf
    rw [hkey]
    exact h.fileName hde hlive
  have habsent : ∀ f ∈ filesOf os path dir, os.dirlookup out f.1 = none := by
    intro f hf
    obtain ⟨de, -, -, hkey, hfound⟩ := mem_filesAt hf
    rw [← hkey] at hfound
    by_contra hne
    obtain ⟨ip, hip⟩ := Option.ne_none_iff_exists'.mp hne
    have hdots := (hout.lookup hip).1
    rw [(hnames f hf).key_eq] at hdots
    rcases hdots with hdot | hdot <;> rw [hdot] at hfound <;> simp [h.dots] at hfound
  obtain ⟨os3, hrun, hend, hfiles⟩ := extractFrom_all henc rfl (Nat.zero_le _) hinit hnames
    (fun f hf => Nat.le_trans (content_le_archiveSize hf) h.size) h.distinct_files
    (fun f hf => (hlookup f.1).trans (habsent f hf))
  refine ⟨fd, _, os3, hopen, ⟨_, hrun⟩, hend.reader, hend.source, fun name => ?_⟩
  rw [close_linked _ _ hend.reader hend.linked]
  refine (hfiles name).trans ?_
  rw [fileAt, hlookup]
  cases hip : os.dirlookup out name with
  | none => simp
  | some ip =>
    have hnone : ((packed os dp nm arch bytes out).setFd fd
        (some ⟨arch, 0, true, false⟩)).fileOf ip = none := fileOf_dir (hext.dir ip (hout.lookup hip).2)
    have hnew : contentIn (filesOf os path dir) name = none := by
      simp only [contentIn, Option.map_eq_none_iff, find?_eq_none, decide_eq_true_eq]
      intro f hf heq
      have hf' := habsent f hf
      rw [dirlookup_congr ((hnames f hf).key_eq.trans heq), hip] at hf'
      cases hf'
    rw [Option.bind_some, hnone, hnew]
    rfl

-- Where the paths fit, the round trip gives the files that create_archive finds.
theorem roundTrip_iff_files (junk : Os → Nat → UInt8) (hfresh : FreshName os (archiveName os) dp nm) (hdir : dp ≠ dir)
    (hbase : dp ≠ baseOf path dir) :
    RoundTrip junk os path dir out again ↔ (∀ de ∈ os.ents dir, PathFits path de) ∧
      ∀ name, contentIn (filesOf os path dir) name = os.fileAt dir name := by
  rcases createArchive_result junk he hfds (hinodes.mono (by omega)) hninodes h hfresh hdir hbase with
    ⟨hall, arch, bytes, hnew, henc, hcreate⟩ | ⟨hnot, N, herr⟩
  · obtain ⟨fd, os₂, os3, hopen, hrun, hreader, hsource, hfiles⟩ :=
      extractArchive_result he hfds hinodes hninodes h hout hnew henc
    rw [packed] at hopen
    rw [and_iff_right hall]
    simp only [← hfiles]
    constructor
    · rintro ⟨os1', fd', os2', os3', hcreate', hopen', hrun', -, hfiles', -⟩
      obtain rfl := hcreate.unique hcreate'
      obtain ⟨rfl, rfl⟩ : fd = fd' ∧ os₂ = os2' := by simpa [-setFd, -setBody, hopen] using hopen'
      obtain rfl := hrun.unique hrun'
      exact hfiles'
    · intro hfiles'
      refine ⟨_, fd, os₂, os3, hcreate, hopen, hrun, ?_, hfiles', arch, bytes, hreader, hsource⟩
      obtain ⟨N, hN⟩ := hrun
      refine ⟨N, fun n hn => ?_⟩
      simp only [extractArchive, hopen, hN n hn]
      rfl
  · refine iff_of_false ?_ fun hr => hnot hr.1
    rintro ⟨os₁, -, -, -, ⟨M, hM⟩, -⟩
    have heq := (herr (max N M) (Nat.le_max_left _ _)).symm.trans (hM (max N M) (Nat.le_max_right _ _))
    cases heq

end

-- The round trip is exact if and only if the paths fit their buffer and lead to the files.
theorem archive_round_trip (junk : Os → Nat → UInt8) (os : Os) (path again : Path)
    (dir dp out : Nat) (nm : Name) (he : Enough os) (hfds : SpareFds os 3)
    (hinodes : SpareInodes os ((filesAt os (baseOf path dir) (os.ents dir)).length + 1))
    (hninodes : os.ninodes ≤ 2 ^ 16) (h : Archivable os path dir)
    (hfresh : FreshName os (archiveName os) dp nm) (hdir : dp ≠ dir) (hbase : dp ≠ baseOf path dir)
    (hout : EmptyDir os out again dp nm) :
    RoundTrip junk os path dir out again ↔ Reachable os path dir := by
  rw [roundTrip_iff_files he hfds hinodes hninodes h hout junk hfresh hdir hbase, h.files_iff]
  constructor
  · intro hr de hde hlive
    exact ⟨hr.1 de hde hlive, hr.2 de hde hlive⟩
  · intro hr
    exact ⟨fun de hde hlive => (hr de hde hlive).1, fun de hde hlive => (hr de hde hlive).2⟩

-- The directories d, with the files a and b, and e and f; the archive is to be /f/x.
def nodes : Nat → Node
  | 1 => ⟨.dir [⟨1, strncpy [46] DIRSIZ⟩, ⟨1, strncpy [46, 46] DIRSIZ⟩, ⟨2, strncpy [100] DIRSIZ⟩, ⟨3, strncpy [101] DIRSIZ⟩,
    ⟨4, strncpy [102] DIRSIZ⟩], 6, 1⟩
  | 2 => ⟨.dir [⟨2, strncpy [46] DIRSIZ⟩, ⟨1, strncpy [46, 46] DIRSIZ⟩, ⟨5, strncpy [97] DIRSIZ⟩,
    ⟨6, strncpy [98] DIRSIZ⟩], 6, 1⟩
  | 3 => ⟨.dir [⟨3, strncpy [46] DIRSIZ⟩, ⟨1, strncpy [46, 46] DIRSIZ⟩], 6, 1⟩
  | 4 => ⟨.dir [⟨4, strncpy [46] DIRSIZ⟩, ⟨1, strncpy [46, 46] DIRSIZ⟩], 6, 1⟩
  | 5 => ⟨.file [7], 6, 1⟩
  | 6 => ⟨.file [8, 9], 6, 1⟩
  | _ => ⟨.free, 0, 0⟩

def disk (cwd : Nat) : Os := ⟨nodes, 200, cwd, fun _ => none, fun _ => .enough, [47, 102, 47, 120], []⟩

theorem archivable_disk {path : Path} {cwd : Nat} (hshort : path.length < MAXPATH)
    (hfound : (disk cwd).namei path = some 2) (hbase : baseOf path 2 ∈ [1, 2]) :
    Archivable (disk cwd) path 2 := by
  have hfiles : ∀ b ∈ [1, 2], ∀ de ∈ entries (nodes 2), (lookup nodes b (key de.name)).all fun ip =>
      0 < (nodes ip).nlink ∧ (nodes ip).mode &&& S_IRUSR ≠ 0 ∧ ((nodes ip).body.type = T_DIR ∨ ip = 5 ∨ ip = 6) := by decide
  have hfile : ∀ de ∈ entries (nodes 2), ∀ ip, (disk cwd).dirlookup (baseOf path 2) (key de.name) = some ip →
      0 < (nodes ip).nlink ∧ (nodes ip).mode &&& S_IRUSR ≠ 0 ∧ ((nodes ip).body.type = T_DIR ∨ ip = 5 ∨ ip = 6) := by
    intro de hde ip hip
    have hall := hfiles _ hbase de hde
    rw [show lookup nodes (baseOf path 2) (key de.name) = some ip from hip] at hall
    simpa only [Option.all_some, decide_eq_true_eq] using hall
  have hdots : ∀ b ∈ [1, 2], ∀ dot ∈ [[46], [46, 46]], (lookup nodes b dot).all fun ip => (nodes ip).body.type = T_DIR := by
    decide
  have hdot : ∀ dot ∈ [[46], [46, 46]], (disk cwd).fileAt (baseOf path 2) dot = none := by
    intro dot hmem
    cases hip : (disk cwd).dirlookup (baseOf path 2) dot with
    | none => rw [fileAt, hip, Option.bind_none]
    | some ip =>
      have htype := hdots _ hbase dot hmem
      rw [show lookup nodes (baseOf path 2) dot = some ip from hip] at htype
      rw [Option.all_some, decide_eq_true_eq] at htype
      rw [fileAt, hip, Option.bind_some, fileOf_dir htype]
  refine ⟨⟨hshort, hfound, rfl, Nat.one_pos, ?_, ?_, ?_, ?_, ?_, ?_⟩, ?_, hdot _ (by simp), hdot _ (by simp)⟩
  · have : ∀ b ∈ [1, 2], (nodes b).body.type = T_DIR := by decide
    exact this _ hbase
  · exact (by decide : ∀ de ∈ entries (nodes 2), de.name.length = DIRSIZ)
  · exact (by decide : ∀ de ∈ entries (nodes 2), de.inum ≠ 0 → 0 ∈ de.name ∧ key de.name ≠ [] ∧ SLASH ∉ key de.name)
  · exact (by decide : (entries (nodes 2)).Pairwise fun d e => d.inum ≠ 0 → e.inum ≠ 0 → key d.name ≠ key e.name)
  · intro de hde _ ip hip
    obtain ⟨hlink, -, hkind⟩ := hfile de hde ip hip
    refine ⟨hlink, hkind.imp_right ?_⟩
    rintro (rfl | rfl)
    · exact ⟨[7], rfl⟩
    · exact ⟨[8, 9], rfl⟩
  · have : ∀ b ∈ [1, 2], archiveSize (filesAt (disk 1) b (entries (nodes 2))) ≤ MAXSIZE := by decide
    exact this _ hbase
  · exact fun de hde _ ip hip _ _ => (hfile de hde ip hip).2.1

theorem freshName_disk (cwd : Nat) : FreshName (disk cwd) (archiveName (disk cwd)) 4 [120] :=
  ⟨rfl, rfl, .inr (by decide : DIRENT * 2 + DIRENT ≤ MAXSIZE)⟩

theorem emptyDir_disk (cwd : Nat) : EmptyDir (disk cwd) 3 [47, 102, 47, 120] 4 [120] :=
  ⟨rfl, by decide, by decide, ⟨[120], rfl, rfl⟩,
    (by decide : ∀ de ∈ entries (nodes 3), de.inum ≠ 0 → (key de.name = [46] ∨ key de.name = [46, 46]) ∧
      (nodes de.inum.toNat).body.type = T_DIR), (by decide : (entries (nodes 3)).countP (fun de => de.inum ≠ 0) ≤ 2)⟩

theorem spareFds_disk (cwd : Nat) : SpareFds (disk cwd) 3 := ⟨{3, 4, 5}, by decide, by simp [disk, NOFILE]⟩

theorem spareInodes_disk (cwd : Nat) : SpareInodes (disk cwd) 3 := ⟨{7, 8, 9}, by decide, by simp [disk, nodes, Body.type]⟩

theorem archive_round_trip_disk : Archivable (disk 1) [47, 100] 2 ∧
    (RoundTrip (fun _ _ => 0) (disk 1) [47, 100] 2 3 [47, 102, 47, 120] ↔ Reachable (disk 1) [47, 100] 2) := by
  have h : Archivable (disk 1) [47, 100] 2 := archivable_disk (by decide) rfl (by decide)
  exact ⟨h, archive_round_trip _ (disk 1) [47, 100] [47, 102, 47, 120] 2 4 3 [120] rfl (spareFds_disk 1)
    (spareInodes_disk 1) (by decide) h (freshName_disk 1) (by decide) (by decide) (emptyDir_disk 1)⟩

-- From d, the empty path is open to d itself, but the file a is looked for in the root.
theorem not_archive_round_trip : Archivable (disk 2) [] 2 ∧ FreshName (disk 2) (archiveName (disk 2)) 4 [120] ∧
    EmptyDir (disk 2) 3 [47, 102, 47, 120] 4 [120] ∧ (disk 2).fileAt 2 [97] = some [7] ∧
    ¬ RoundTrip (fun _ _ => 0) (disk 2) [] 2 3 [47, 102, 47, 120] := by
  have h : Archivable (disk 2) [] 2 := archivable_disk (by decide) rfl (by decide)
  refine ⟨h, freshName_disk 2, emptyDir_disk 2, rfl, fun hr => ?_⟩
  rw [roundTrip_iff_files (show Enough (disk 2) from rfl) (spareFds_disk 2) ((spareInodes_disk 2).mono (by decide)) (by decide) h
    (emptyDir_disk 2) _ (freshName_disk 2) (by decide) (by decide)] at hr
  exact absurd (hr.2 [97]) (by decide)

end User
