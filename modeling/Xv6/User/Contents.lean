import Xv6.User.RoundTrip

-- What create_archive writes, if the archive may be one of the files that it reads.

namespace User

open Fs Function Os List

variable {os os' : Os} {path : Path} {a s arch base dir n : Nat} {archive old : List UInt8} {ents : List Dirent}
  {de : Dirent}

theorem Writing.unique {x y : List UInt8} (hx : Writing os a arch x old) (hy : Writing os a arch y old) : x = y := by
  have hlen : x.length = y.length := by
    have := hx.writer.symm.trans hy.writer
    simpa using this
  have hbody := hx.target.symm.trans hy.target
  exact append_inj_left (Body.file.inj hbody) hlen

theorem append_more {x : List UInt8} (h : ∃ y, Writing os a arch (archive ++ x ++ y) old) :
    ∃ more, Writing os a arch (archive ++ more) old := by
  obtain ⟨y, hy⟩ := h
  exact ⟨x ++ y, by rwa [← append_assoc]⟩

section Writing

variable (h : Writing os a arch archive old)

include h

theorem Writing.same : ∃ more, Writing os a arch (archive ++ more) old := ⟨[], by rwa [append_nil]⟩

theorem Writing.setFd {fd : Nat} (hfd : fd ≠ a) (f : Option Desc) : Writing (os.setFd fd f) a arch archive old :=
  ⟨h.enough, by simpa [Os.setFd, hfd.symm] using h.writer, h.target, h.linked⟩

theorem Writing.read {fd : Nat} (hfd : fd ≠ a) (k : Nat) : Writing (os.read fd k).2 a arch archive old := by
  unfold Os.read
  split
  · exact h
  split
  · exact h
  split
  · exact ⟨h.enough, h.writer, h.target, h.linked⟩
  · exact h.setFd hfd _

theorem Writing.filewriteFrom (n : Nat) (src : List UInt8) : ∃ more,
    Writing (filewriteFrom n os a ⟨arch, archive.length, false, true⟩ src).2 a arch (archive ++ more) old := by
  induction n generalizing os archive src with
  | zero => exact h.same
  | succ n ih =>
    have hwritei : os.writei arch archive.length (src.take CHUNK) = (none, os) ∨
        os.writei arch archive.length (src.take CHUNK) =
          (some (src.take CHUNK).length, os.setBody arch (.file (onto (archive ++ src.take CHUNK) old))) := by
      simp only [Os.writei, h.enough.draw, h.target, Body.bytes, splice_onto]
      split
      · exact .inl rfl
      · exact .inr rfl
    rw [Os.filewriteFrom]
    split
    · exact h.same
    rcases hwritei with hwritei | hwritei <;> rw [hwritei]
    · exact h.same
    simp only [ne_eq, not_true_eq_false, if_false]
    have hnext : Writing ((os.setBody arch (.file (onto (archive ++ src.take CHUNK) old))).setFd a
        (some ⟨arch, (archive ++ src.take CHUNK).length, false, true⟩)) a arch (archive ++ src.take CHUNK) old :=
      ⟨h.enough, by simp [Os.setFd], by simp [Os.setFd, setBody], by simpa [Os.setFd, setBody] using h.linked⟩
    rw [← length_append]
    exact append_more (ih hnext (src.drop CHUNK))

theorem Writing.write (src : List UInt8) : ∃ more, Writing (os.write a src).2 a arch (archive ++ more) old := by
  unfold Os.write
  simp only [h.writer, h.target]
  split
  · exact h.same
  obtain ⟨more, hmore⟩ := h.filewriteFrom src.length src
  refine ⟨more, ?_⟩
  split <;> rename_i hloop <;> rwa [hloop] at hmore

theorem Writing.open (path : Path) : Writing (os.open path O_RDONLY).2 a arch archive old ∧
    (os.open path O_RDONLY).1 ≠ some a := by
  have hinode : (os.openInode path O_RDONLY).2 = os := by
    unfold Os.openInode
    rw [if_neg (by decide)]
    split
    · rfl
    · split <;> rfl
  unfold Os.open
  split
  · exact ⟨h, by simp⟩
  rcases hi : os.openInode path O_RDONLY with ⟨_ | ip, os'⟩ <;> rw [hi] at hinode <;> subst hinode
  · exact ⟨h, by simp⟩
  simp only [h.enough.draw]
  split
  · exact ⟨h, by simp⟩
  cases hfd : os'.fdalloc with
  | none => exact ⟨h, by simp⟩
  | some fd =>
    have hne : fd ≠ a := by
      rintro rfl
      have hnone := find?_some hfd
      rw [h.writer] at hnone
      cases hnone
    exact ⟨h.setFd hne _, fun heq => hne (Option.some.inj heq)⟩

theorem Writing.close {fd : Nat} (hfd : fd ≠ a) : Writing (os.close fd) a arch archive old := by
  unfold Os.close
  split
  · exact h
  rename_i f _
  rw [Os.iput]
  split
  · rename_i hfree
    have hne : f.ino ≠ arch := by
      rintro rfl
      exact absurd hfree.1 (Nat.ne_of_gt h.linked)
    have hset := h.setFd hfd none
    exact ⟨hset.enough, hset.writer, by simpa [hne.symm] using hset.target, by simpa [hne.symm] using hset.linked⟩
  · exact h.setFd hfd none

theorem Writing.contentsFrom {fd : Nat} (hfd : fd ≠ a) (hrun : contentsFrom n os fd a = .ok os') :
    ∃ more, Writing os' a arch (archive ++ more) old := by
  induction n generalizing os archive with
  | zero => cases hrun
  | succ n ih =>
    rw [User.contentsFrom] at hrun
    have hread := h.read hfd 512
    rcases hr : os.read fd 512 with ⟨_ | _ | ⟨x, buf⟩, os1⟩ <;> rw [hr] at hread <;> simp only [hr] at hrun
    · cases hrun
      exact hread.same
    · cases hrun
      exact hread.same
    · obtain ⟨more, hmore⟩ := hread.write (x :: buf)
      exact append_more (ih hmore hrun)

theorem Writing.stat (path : Path) : Writing (os.stat path).2 a arch archive old := by
  obtain ⟨hopen, hne⟩ := h.open path
  unfold Os.stat
  rcases ho : os.open path O_RDONLY with ⟨_ | fd, os1⟩ <;> rw [ho] at hopen hne
  · exact hopen
  · exact hopen.close fun heq => hne (congrArg some heq)

theorem Writing.archiveContents (path : Path) (hrun : archiveContents n os path a = .ok os') :
    ∃ more, Writing os' a arch (archive ++ more) old := by
  obtain ⟨hopen, hne⟩ := h.open path
  unfold User.archiveContents at hrun
  rcases ho : os.open path O_RDONLY with ⟨_ | fd, os1⟩ <;> rw [ho] at hopen hne hrun
  · cases hrun
    exact hopen.same
  · have hfd : fd ≠ a := fun heq => hne (congrArg some heq)
    rcases hc : User.contentsFrom n os1 fd a with e | os2 <;> simp only [hc] at hrun <;> cases hrun
    obtain ⟨more, hmore⟩ := hopen.contentsFrom hfd hc
    exact ⟨more, hmore.close hfd⟩

theorem Writing.archiveEntry (junk : Os → Nat → UInt8) (hrun : archiveEntry junk n os path a de = .ok os') :
    ∃ more, Writing os' a arch (archive ++ more) old := by
  unfold User.archiveEntry at hrun
  split at hrun
  · cases hrun
    exact h.same
  split at hrun
  · cases hrun
  have hstat := h.stat (path ++ SLASH :: cstr de.name)
  rcases hst : os.stat (path ++ SLASH :: cstr de.name) with ⟨_ | st, os1⟩ <;> rw [hst] at hstat <;> simp only [hst] at hrun
  · cases hrun
    exact hstat.same
  split at hrun
  · cases hrun
    exact hstat.same
  obtain ⟨more, hmore⟩ := hstat.write (header (junk os1) (cstr de.name) st.size)
  exact append_more (hmore.archiveContents _ hrun)

theorem Writing.archiveFrom (junk : Os → Nat → UInt8) (hs : s ≠ a) (hrun : archiveFrom junk n os path a s = .ok os') :
    ∃ more, Writing os' a arch (archive ++ more) old := by
  induction n generalizing os archive with
  | zero => cases hrun
  | succ n ih =>
    rw [User.archiveFrom] at hrun
    have hread := h.read hs DIRENT
    rcases hr : os.read s DIRENT with ⟨_ | bytes, os1⟩ <;> rw [hr] at hread <;> simp only [hr] at hrun
    · cases hrun
      exact hread.same
    split at hrun
    · cases hrun
      exact hread.same
    rcases he : User.archiveEntry junk n os1 path a (Dirent.ofBytes bytes) with e | os2 <;> rw [he] at hrun
    · cases hrun
    obtain ⟨more, hmore⟩ := hread.archiveEntry junk he
    exact append_more (ih hmore hrun)

end Writing

variable {j : Nat → UInt8} {bytes y : List UInt8} {p q parts : List (Name × List UInt8 × List UInt8)} {name : Name}
  {l : List Dirent}

theorem Puts.split {J : Set (Nat → UInt8)}
    (h : Puts J (p ++ q) bytes) : ∃ x y, bytes = x ++ y ∧ Puts J p x ∧ Puts J q y := by
  induction p generalizing bytes with
  | nil => exact ⟨[], bytes, rfl, .nil, h⟩
  | cons f p ih =>
    obtain _ | ⟨hj, h⟩ := h
    obtain ⟨x, y, rfl, hx, hy⟩ := ih h
    exact ⟨_, y, (append_assoc ..).symm, .cons hj hx, hy⟩

theorem Puts.unique {x : List UInt8} (hx : Puts {j} parts x) (hy : Puts {j} parts y) : x = y := by
  induction hx generalizing y with
  | nil =>
    cases hy
    rfl
  | cons hj _ ih =>
    obtain _ | ⟨hj', hy⟩ := hy
    rw [ih hy, Set.mem_singleton_iff.mp hj, Set.mem_singleton_iff.mp hj']

theorem Encodes.begins {files : List (Name × List UInt8)} (h : Encodes {j} files y)
    (hnames : ∀ f ∈ files, f.1.length < DIRSIZ) :
    y = [] ∨ ∃ name size z, List.length name < DIRSIZ ∧ y = header j name size ++ z := by
  cases files with
  | nil =>
    cases h
    exact .inl rfl
  | cons f files =>
    rw [Encodes, map_cons] at h
    obtain _ | ⟨hj, -⟩ := h
    rw [Set.mem_singleton_iff.mp hj, append_assoc]
    exact .inr ⟨f.1, _, _, hnames f mem_cons_self, rfl⟩

-- The path of an entry fits, and leads neither to the archive nor to bytes that may not be read.
def Archived (os : Os) (path : Path) (base arch : Nat) (de : Dirent) : Prop :=
  de.inum ≠ 0 → path.length + 1 + (key de.name).length + 1 ≤ MAXLEN ∧
    ∀ ip, os.dirlookup base (key de.name) = some ip → ip ≠ arch ∧
      ∀ content, (os.node ip).body = .file content → content ≠ [] → (os.node ip).mode &&& S_IRUSR ≠ 0

-- The entries that do not lead to the archive.
def others (os : Os) (base arch : Nat) (ents : List Dirent) : List Dirent :=
  ents.filter fun de => os.dirlookup base (key de.name) ≠ some arch

-- create_archive comes to an end, and `bytes` is what it has written to the archive.
def Written (junk : Os → Nat → UInt8) (os os₁ : Os) (path : Path) (a arch : Nat) (old bytes : List UInt8) : Prop :=
  ∃ s os₂ os3, os₁.open path O_RDONLY = (some s, os₂) ∧ Ends (fun n => archiveFrom junk n os₂ path a s) os3 ∧
    Ends (fun n => createArchive junk n os path) ((os3.close s).close a) ∧ Writing os3 a arch bytes old

theorem Archived.apart (h : Archived os path base arch de) (hlive : de.inum ≠ 0) :
    os.dirlookup base (key de.name) ≠ some arch := fun hip => ((h hlive).2 arch hip).1 rfl

theorem partsAt_archived (h : ∀ de ∈ l, Archived os path base arch de) :
    partsAt os base l = (filesAt os base l).map fun f => (f.1, f.2, f.2) :=
  partsAt_readable fun de hde hlive ip hip => ((h de hde hlive).2 ip hip).2

theorem filesAt_others (h : ∀ de ∈ l, Archived os path base arch de) :
    filesAt os base (others os base arch l) = filesAt os base l := by
  rw [filesAt, others, filterMap_filter]
  apply filterMap_congr
  intro de hde
  by_cases hlive : de.inum = 0
  · simp [hlive]
  · simp [(h de hde).apart hlive]

section

variable {os₁ : Os} (h : Listing os₁ path dir) (hbase : baseOf path dir = base)
  (hopen : (asked os).open (archiveName os) (O_CREATE ||| O_WRONLY) = (some a, os₁)) (hw : Writing os₁ a arch [] old)
  (hmode : (os₁.node arch).mode &&& S_IWUSR ≠ 0) (hfds : SpareFds os₁ 2)

include h hbase hopen hw hmode hfds

theorem Listing.written (junk : Os → Nat → UInt8) (hall : ∀ de ∈ os₁.ents dir, Archived os₁ path base arch de) :
    ∃ bytes, Written junk os os₁ path a arch old bytes ∧ Encodes (Set.range junk)
      (filesAt os₁ base (others os₁ base arch (os₁.ents dir))) bytes := by
  subst hbase
  obtain ⟨s, bytes, os₂, os3, hsa, -, hopenS, hputs, hrun, hends, rfl⟩ := h.runs junk hopen hw hmode hfds
    (fun de hde hlive => (hall de hde hlive).1) (fun de hde => (hall de hde).apart)
  refine ⟨bytes, ⟨s, os₂, _, hopenS, hrun, hends, (hw.grow bytes).setFd hsa _⟩, ?_⟩
  rw [filesAt_others hall, Encodes, ← partsAt_archived hall]
  exact hputs

-- The run after the entries of `l`, whose paths fit and do not lead to the archive.
theorem Listing.after {j : Nat → UInt8} {bytes : List UInt8} {l rest : List Dirent} (heq : os₁.ents dir = l ++ rest)
    (hfits : ∀ e ∈ l, PathFits path e)
    (hapart : ∀ e ∈ l, e.inum ≠ 0 → os₁.dirlookup base (key e.name) ≠ some arch)
    (hwritten : Written (fun _ => j) os os₁ path a arch old bytes) :
    ∃ s w os₂ os3, Puts {j} (partsAt os₁ base l) w ∧ s ≠ a ∧
      Archiving os₂ path a arch base w old (l ++ rest) ∧
      os₂.ofile s = some ⟨dir, DIRENT * l.length, true, false⟩ ∧ (os₂.node dir).body = .dir (l ++ rest) ∧
      (∀ nm, os₂.dirlookup base nm = os₁.dirlookup base nm) ∧
      (filesAt os₂ base rest ≠ [] → w.length + HEADER ≤ MAXSIZE) ∧
      Ends (fun n => archiveFrom (fun _ => j) n os₂ path a s) os3 ∧ Writing os3 a arch bytes old := by
  subst hbase
  obtain ⟨s, hsa, -, hopenS, harch, -⟩ := h.start (fun _ => j) hopen hw hmode hfds
  obtain ⟨s', os', os3, hopen', hrun, -, hos3⟩ := hwritten
  obtain ⟨rfl, rfl⟩ : s = s' ∧ _ = os' := by simpa [hopenS] using hopen'
  have hbody := h.body
  have hnames := h.names
  have hsize := h.size
  rw [heq] at harch hbody hnames
  rw [filesOf, heq, filesAt_append, archiveSize_append] at hsize
  obtain ⟨w, hputs, hsteps⟩ := archiveFrom_steps (fun _ => j) [] l rest harch hnames (update_self ..) hbody hsa.symm
    (h.dir_ne hw) hfits hapart (by rw [length_nil, Nat.zero_add]; exact Nat.le_trans (Nat.le_add_right ..) hsize)
  have hgrow := harch.grow w
  have hlen := harch.length_parts (fun de hde => by simp [hde]) hputs
  have : Nonempty Os := ⟨os⟩
  rw [Set.range_const] at hputs
  refine ⟨s, w, _, os3, hputs, hsa, hgrow.seek (f := ⟨dir, 0, true, false⟩) (g := ⟨dir, DIRENT * l.length, true, false⟩) ?_ hsa.symm,
    update_self .., ?_, harch.dirlookup_grown w _, fun hsome => ?_, ?_, hos3⟩
  · simp [grown, setFd, setBody, hsa]
  · simpa [grown, setFd, setBody, h.dir_ne hw] using hbody
  · have hpos : HEADER ≤ archiveSize (filesAt os₁ (baseOf path dir) rest) := by
      cases hfiles : filesAt os₁ (baseOf path dir) rest with
      | nil => exact absurd (harch.filesAt_nil w hfiles) hsome
      | cons f files => simp [archiveSize, Nat.add_assoc]
    have hlen : w.length ≤ archiveSize (filesAt os₁ (baseOf path dir) l) := hlen
    omega
  · obtain ⟨N, hN⟩ := hrun
    refine ⟨N + MAXSIZE + 1, fun n hn => ?_⟩
    have hstep := hsteps n (by omega)
    rw [nil_append, nil_append] at hstep
    exact hstep.symm.trans (hN _ (by omega))

-- The first entry that is not as it should be.
variable {bytes : List UInt8} {pre rest : List Dirent} (heq : os₁.ents dir = pre ++ de :: rest)
  (hpre : ∀ e ∈ pre, Archived os₁ path base arch e)

include heq hpre

omit heq hpre

end

-- /f/x has been opened.
def opened : Os := ((asked (disk 1)).made 4 [120] 7).setFd 0 (some ⟨7, 0, false, true⟩)

-- The file x, which may be written but not read, in the root.
def inside : Os :=
  { disk 1 with
    node
      | 1 => ⟨.dir [⟨1, strncpy [46] DIRSIZ⟩, ⟨1, strncpy [46, 46] DIRSIZ⟩, ⟨2, strncpy [120] DIRSIZ⟩], 6, 1⟩
      | 2 => ⟨.file [], 2, 1⟩
      | _ => ⟨.free, 0, 0⟩
    input := [120] }

end User
