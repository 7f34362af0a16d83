import Xv6.User.Copy

-- create_archive and extract_archive of ui.c.

namespace User

open Fs Function Os List

attribute [local simp] setFd setBody fileAt Body.bytes

def MAXLEN : Nat := 100

def cstr (buf : List UInt8) : List UInt8 := buf.takeWhile (· ≠ 0)

-- gets of ulib.c: what it puts into the buffer, and the input that it leaves.
def getsFrom : Nat → List UInt8 → List UInt8 × List UInt8
  | 0, input => ([], input)
  | _ + 1, [] => ([], [])
  | n + 1, c :: input =>
    if c = 10 ∨ c = 13 then ([c], input)
    else (c :: (getsFrom n input).1, (getsFrom n input).2)

def gets (os : Os) (max : Nat) : List UInt8 × Os :=
  ((getsFrom (max - 1) os.input).1, { os with input := (getsFrom (max - 1) os.input).2 })

-- struct archive_header, of which `junk` are the old bytes. strcpy leaves those after the name.
def header (junk : Nat → UInt8) (name : List UInt8) (size : Nat) : List UInt8 :=
  name ++ 0 :: (List.range (MAXLEN - 1 - name.length)).map (fun i => junk (name.length + 1 + i)) ++
    Block.le32 (UInt32.ofNat size)

-- sizeof(header)
def HEADER : Nat := MAXLEN + 4

def headerSize (bytes : List UInt8) : Nat :=
  (bytes.getD 100 0).toNat + 256 * (bytes.getD 101 0).toNat + 65536 * (bytes.getD 102 0).toNat +
    16777216 * (bytes.getD 103 0).toNat

-- The loop that copies one file to the archive; it does not look at what write returns.
def contentsFrom : Nat → Os → Nat → Nat → Except Fault Os
  | 0, _, _, _ => .error .fuel
  | n + 1, os, fdFile, fdArchive =>
    match os.read fdFile 512 with
    | (none, os) => .ok os
    | (some [], os) => .ok os
    | (some (b :: buf), os) => contentsFrom n (os.write fdArchive (b :: buf)).2 fdFile fdArchive

-- What follows the header of an entry.
def archiveContents (n : Nat) (os : Os) (path : Path) (fdArchive : Nat) : Except Fault Os :=
  match os.open path O_RDONLY with
  | (none, os) => .ok os
  | (some fdFile, os) => do
    let os ← contentsFrom n os fdFile fdArchive
    .ok (os.close fdFile)

section

variable (junk : Os → Nat → UInt8)

-- The body of the loop of create_archive, for one entry of the directory.
def archiveEntry (n : Nat) (os : Os) (path : Path) (fdArchive : Nat) (de : Dirent) : Except Fault Os :=
  if de.inum = 0 then .ok os
  -- strcpy runs past de.name, or past filepath
  else if 0 ∉ de.name ∨ path.length + 1 + (cstr de.name).length + 1 > MAXLEN then .error .overflow
  else
    match os.stat (path ++ SLASH :: cstr de.name) with
    | (none, os) => .ok os
    | (some st, os) =>
      if st.type = T_DIR then .ok os
      else
        let os := (os.write fdArchive (header (junk os) (cstr de.name) st.size)).2
        archiveContents n os (path ++ SLASH :: cstr de.name) fdArchive

def archiveFrom : Nat → Os → Path → Nat → Nat → Except Fault Os
  | 0, _, _, _, _ => .error .fuel
  | n + 1, os, path, fdArchive, fdSrc =>
    match os.read fdSrc DIRENT with
    | (none, os) => .ok os
    | (some bytes, os) =>
      if bytes.length ≠ DIRENT then .ok os
      else do
        let os ← archiveEntry junk n os path fdArchive (Dirent.ofBytes bytes)
        archiveFrom n os path fdArchive fdSrc

def createArchive (n : Nat) (os : Os) (path : Path) : Except Fault Os :=
  let (archiveName, os) := gets (os.printf "Entrez le nom de l'archive: ") MAXLEN
  match os.open (cstr archiveName) (O_CREATE ||| O_WRONLY) with
  | (none, os) => .ok (os.printf "Erreur: impossible de créer l'archive\n")
  | (some fdArchive, os) =>
    match os.open path O_RDONLY with
    | (none, os) => .ok ((os.printf "Erreur: impossible d'ouvrir le chemin source\n").close fdArchive)
    | (some fdSrc, os) => do
      let os ← archiveFrom junk n os path fdArchive fdSrc
      .ok ((os.close fdSrc).close fdArchive)

end

def restFrom : Nat → Os → Nat → Nat → Nat → Except Fault Os
  | 0, _, _, _, _ => .error .fuel
  | n + 1, os, fdArchive, fdOut, remaining =>
    if remaining = 0 then .ok os
    else
      match os.read fdArchive (min remaining 512) with
      | (none, os) => .ok os
      | (some [], os) => .ok os
      | (some (b :: buf), os) =>
        restFrom n (os.write fdOut (b :: buf)).2 fdArchive fdOut (remaining - (b :: buf).length)

def extractFrom : Nat → Os → Nat → Except Fault Os
  | 0, _, _ => .error .fuel
  | n + 1, os, fdArchive =>
    match os.read fdArchive HEADER with
    | (none, os) => .ok os
    | (some bytes, os) =>
      if bytes.length ≠ HEADER then .ok os
      -- open reads past header.name
      else if 0 ∉ bytes.take MAXLEN then .error .overflow
      else
        match os.open (cstr bytes) (O_CREATE ||| O_WRONLY) with
        | (none, os) => extractFrom n (((os.printf "Erreur: impossible de créer ").puts (cstr bytes)).printf "\n") fdArchive
        | (some fdOut, os) => do
          let os ← restFrom n os fdArchive fdOut (headerSize bytes)
          extractFrom n (os.close fdOut) fdArchive

def extractArchive (n : Nat) (os : Os) (archiveName : Path) : Except Fault Os :=
  match os.open archiveName O_RDONLY with
  | (none, os) => .ok (os.printf "Erreur: impossible d'ouvrir l'archive\n")
  | (some fdArchive, os) => do
    let os ← extractFrom n os fdArchive
    .ok (os.close fdArchive)

variable {os os' : Os} {ents : List Dirent} {name : Name}

section Loops

variable {a b s d o n : Nat} {src dst old : List UInt8}

theorem contentsFrom_of_copyFrom (h : copyFrom n os a b = .ok (.atEnd, os')) : contentsFrom n os a b = .ok os' := by
  induction n generalizing os with
  | zero => cases h
  | succ n ih =>
    rw [copyFrom, BUFFER_SIZE] at h
    rw [contentsFrom]
    rcases hread : os.read a 512 with ⟨_ | _ | ⟨x, buf⟩, os1⟩ <;> simp only [hread] at h ⊢
    · cases h
    · cases h
      rfl
    · rcases hwrite : os1.write b (x :: buf) with ⟨_ | k, os2⟩ <;> simp only [hwrite] at h
      · cases h
      · split at h
        · cases h
        · exact ih h

theorem restFrom_rest (h : Flow os a b s d o src dst old) (hr : (os.node s).mode &&& S_IRUSR ≠ 0) {r : Nat}
    (hle : o + r ≤ src.length) (hsize : dst.length + r ≤ MAXSIZE) (hn : r < n) :
    restFrom n os a b r = .ok (flowed os a b s d (o + r) (dst ++ (src.drop o).take r) old) := by
  induction n generalizing os o dst r with
  | zero => omega
  | succ n ih =>
    rw [restFrom]
    by_cases hzero : r = 0
    · subst hzero
      simp [h.flowed_self]
    rw [if_neg hzero]
    have hlen : ((src.drop o).take (min r 512)).length = min r 512 := by
      simp only [length_take, length_drop]
      omega
    obtain ⟨os', hread, hwrite⟩ := h.step hr (Nat.min_le_right r 512)
      (by rw [← length_pos_iff_ne_nil, hlen]; omega) (by omega)
    rw [hread]
    cases hchunk : (src.drop o).take (min r 512) with
    | nil =>
      rw [hchunk, length_nil] at hlen
      omega
    | cons x rest =>
      simp only
      rw [← hchunk, hwrite, hlen]
      have hrest := ih (h.flowed (o + min r 512) (dst ++ (src.drop o).take (min r 512))) ((h.mode _ _).symm ▸ hr)
        (r := r - min r 512) (by omega) (by rw [length_append]; omega) (by omega)
      have hsum : o + min r 512 + (r - min r 512) = o + r := by omega
      have htake : (src.drop o).take r =
          (src.drop o).take (min r 512) ++ (src.drop (o + min r 512)).take (r - min r 512) := by
        rw [← drop_drop, ← take_add]
        congr 1
        omega
      rw [hrest, flowed_flowed h.fd_ne, hsum, append_assoc, ← htake]

end Loops

-- The bytes of an archive: for each file its name, its content and what follows the header.
inductive Puts (J : Set (Nat → UInt8)) : List (Name × List UInt8 × List UInt8) → List UInt8 → Prop where
  | nil : Puts J [] []
  | cons {name content data bytes : List UInt8} {parts : List (Name × List UInt8 × List UInt8)} {junk : Nat → UInt8}
    (hj : junk ∈ J) (h : Puts J parts bytes) :
    Puts J ((name, content, data) :: parts) (header junk name content.length ++ data ++ bytes)

-- The archive that has to be: the contents follow.
def Encodes (J : Set (Nat → UInt8)) (files : List (Name × List UInt8)) (bytes : List UInt8) : Prop :=
  Puts J (files.map fun f => (f.1, f.2, f.2)) bytes

def archiveSize (files : List (Name × List UInt8)) : Nat := (files.map fun f => HEADER + f.2.length).sum

def filesAt (os : Os) (base : Nat) (ents : List Dirent) : List (Name × List UInt8) :=
  ents.filterMap fun de =>
    if de.inum = 0 then none else (os.fileAt base (key de.name)).map fun content => (key de.name, content)

-- What create_archive copies of a file: nothing if it may not be read.
def stored (nd : Node) : List UInt8 := if nd.mode &&& S_IRUSR = 0 then [] else nd.body.bytes

def partsAt (os : Os) (base : Nat) (ents : List Dirent) : List (Name × List UInt8 × List UInt8) :=
  ents.filterMap fun de =>
    if de.inum = 0 then none
    else (os.dirlookup base (key de.name)).bind fun ip =>
      (os.fileOf ip).map fun content => (key de.name, content, stored (os.node ip))

section Parts

variable {os : Os} {base : Nat} {J : Set (Nat → UInt8)}

theorem length_header {name : List UInt8} (junk : Nat → UInt8) (h : name.length < MAXLEN) (size : Nat) :
    (header junk name size).length = HEADER := by
  simp only [header, length_append, length_cons, length_map, length_range, Block.length_le32,
    MAXLEN, HEADER] at *
  omega

theorem cstr_eq_key (h : name.length = DIRSIZ) : cstr name = key name := by
  rw [cstr, key, take_of_length_le (by omega)]

theorem length_key_lt (h : name.length = DIRSIZ) (hzero : 0 ∈ name) : (key name).length < DIRSIZ := by
  rw [key, take_of_length_le (by omega), ← h]
  apply Nat.lt_of_le_of_ne (List.takeWhile_prefix _).length_le
  intro heq
  have hall := (List.takeWhile_prefix _).eq_of_length heq
  rw [takeWhile_eq_self_iff] at hall
  simpa using hall 0 hzero

theorem filesAt_eq (os : Os) (base : Nat) (ents : List Dirent) :
    filesAt os base ents = (partsAt os base ents).map fun p => (p.1, p.2.1) := by
  rw [filesAt, partsAt, map_filterMap]
  congr 1
  funext de
  by_cases hlive : de.inum = 0
  · simp [hlive]
  · cases hip : os.dirlookup base (key de.name) with
    | none => simp [hlive, hip]
    | some ip => simp [hlive, hip, Function.comp_def]

-- Where every file with bytes can be read, what is stored is the contents.
theorem partsAt_readable (h : ∀ de ∈ ents, de.inum ≠ 0 → ∀ ip, os.dirlookup base (key de.name) = some ip →
      ∀ content, (os.node ip).body = .file content → content ≠ [] → (os.node ip).mode &&& S_IRUSR ≠ 0) :
    partsAt os base ents = (filesAt os base ents).map fun f => (f.1, f.2, f.2) := by
  rw [partsAt, filesAt, map_filterMap]
  apply filterMap_congr
  intro de hde
  by_cases hlive : de.inum = 0
  · simp [hlive]
  simp only [hlive, if_false, fileAt]
  cases hip : os.dirlookup base (key de.name) with
  | none => rfl
  | some ip =>
    cases hfile : (os.node ip).body with
    | file content =>
      by_cases hne : content = []
      · simp [Os.fileOf, hfile, stored, hne]
      · simp [Os.fileOf, hfile, stored, h de hde hlive ip hip content hfile hne]
    | _ => simp [Os.fileOf, hfile]

theorem partsAt_cons (de : Dirent) (rest : List Dirent) :
    partsAt os base (de :: rest) = partsAt os base [de] ++ partsAt os base rest := by
  simp only [partsAt, filterMap_cons, filterMap_nil]
  split <;> simp

theorem mem_partsAt {p : Name × List UInt8 × List UInt8} (h : p ∈ partsAt os base ents) :
    ∃ de ∈ ents, de.inum ≠ 0 ∧ p.1 = key de.name ∧ ∃ ip, os.dirlookup base (key de.name) = some ip ∧
      os.fileOf ip = some p.2.1 ∧ p.2.2 = stored (os.node ip) := by
  obtain ⟨de, hde, heq⟩ := mem_filterMap.mp h
  split at heq
  · cases heq
  · rename_i hlive
    obtain ⟨ip, hip, hfile⟩ := Option.bind_eq_some_iff.mp heq
    obtain ⟨content, hc, rfl⟩ := Option.map_eq_some_iff.mp hfile
    exact ⟨de, hde, hlive, rfl, ip, hip, hc, rfl⟩

theorem mem_filesAt {f : Name × List UInt8} (h : f ∈ filesAt os base ents) :
    ∃ de ∈ ents, de.inum ≠ 0 ∧ f.1 = key de.name ∧ os.fileAt base (key de.name) = some f.2 := by
  rw [filesAt_eq] at h
  obtain ⟨p, hp, rfl⟩ := mem_map.mp h
  obtain ⟨de, hde, hlive, hname, ip, hip, hfile, -⟩ := mem_partsAt hp
  exact ⟨de, hde, hlive, hname, by rw [fileAt, hip, Option.bind_some, hfile]⟩

theorem length_stored_le {ip : Nat} {content : List UInt8} (h : os.fileOf ip = some content) :
    (stored (os.node ip)).length ≤ content.length := by
  unfold Os.fileOf at h
  split at h
  · next hb =>
    cases h
    rw [stored, hb]
    split
    · exact Nat.zero_le _
    · exact Nat.le_refl _
  · cases h

variable {parts : List (Name × List UInt8 × List UInt8)} {bytes : List UInt8}

theorem Puts.length (h : Puts J parts bytes) (hnames : ∀ p ∈ parts, p.1.length < MAXLEN) :
    bytes.length = (parts.map fun p => HEADER + p.2.2.length).sum := by
  induction h with
  | nil => rfl
  | @cons name content data bytes parts junk hj _ ih =>
    have htail := ih fun p hp => hnames p (mem_cons_of_mem _ hp)
    have hhead := length_header junk (hnames _ mem_cons_self)
    simp only [map_cons, sum_cons, length_append] at *
    rw [hhead, htail]

theorem Puts.append {parts' : List (Name × List UInt8 × List UInt8)} {bytes' : List UInt8} (h : Puts J parts bytes)
    (h' : Puts J parts' bytes') : Puts J (parts ++ parts') (bytes ++ bytes') := by
  induction h with
  | nil => exact h'
  | cons hj _ ih =>
    rw [append_assoc]
    exact .cons hj ih

theorem archiveSize_append (l r : List (Name × List UInt8)) : archiveSize (l ++ r) = archiveSize l + archiveSize r := by
  simp [archiveSize]

end Parts

structure Entry (os : Os) (base : Nat) (de : Dirent) : Prop where
  name : de.name.length = DIRSIZ
  terminated : 0 ∈ de.name
  nonempty : key de.name ≠ []
  slash : SLASH ∉ key de.name
  found : ∀ ip, os.dirlookup base (key de.name) = some ip → 0 < (os.node ip).nlink ∧
    ((os.node ip).body.type = T_DIR ∨ ∃ content, (os.node ip).body = .file content)

def PathFits (path : Path) (de : Dirent) : Prop := de.inum ≠ 0 → path.length + 1 + (key de.name).length + 1 ≤ MAXLEN

-- Through its descriptor `archive` has been written to the file, over `old`.
structure Writing (os : Os) (a arch : Nat) (archive old : List UInt8) : Prop where
  enough : Enough os
  writer : os.ofile a = some ⟨arch, archive.length, false, true⟩
  target : (os.node arch).body = .file (onto archive old)
  linked : 0 < (os.node arch).nlink

-- The state in the loop of create_archive.
structure Archiving (os : Os) (path : Path) (a arch base : Nat) (archive old : List UInt8) (ents : List Dirent) : Prop
    extends Writing os a arch archive old where
  fds : SpareFds os 1
  writable : (os.node arch).mode &&& S_IWUSR ≠ 0
  paths : ∀ name, name ≠ [] → SLASH ∉ name → name.length ≤ DIRSIZ →
    os.nameiparent (path ++ SLASH :: name) = some (base, name)
  entry : ∀ de ∈ ents, de.inum ≠ 0 → Entry os base de

def grown (os : Os) (a arch : Nat) (archive old : List UInt8) : Os :=
  (os.setBody arch (.file (onto archive old))).setFd a (some ⟨arch, archive.length, false, true⟩)

attribute [local simp] grown

variable {path : Path} {a s arch base dir n : Nat} {archive old : List UInt8} {de : Dirent} {l : List Dirent}

theorem Writing.grown_self (h : Writing os a arch archive old) : grown os a arch archive old = os := by
  rw [grown, setBody_self h.target, setFd_self h.writer]

theorem Writing.grow (h : Writing os a arch archive old) (archive' : List UInt8) :
    Writing (grown os a arch archive' old) a arch archive' old := by
  refine ⟨h.enough, ?_, ?_, ?_⟩
  · simp
  · simp
  · simpa using h.linked

theorem Entry.overflows (he : Entry os base de) :
    (0 ∉ de.name ∨ path.length + 1 + (cstr de.name).length + 1 > MAXLEN) ↔
      ¬ path.length + 1 + (key de.name).length + 1 ≤ MAXLEN := by
  rw [cstr_eq_key he.name, Nat.not_le]
  exact or_iff_right (not_not_intro he.terminated)

theorem PathFits.short (h : PathFits path de) (hlive : de.inum ≠ 0) :
    (path ++ SLASH :: key de.name).length < MAXPATH := by
  have := h hlive
  simp only [MAXLEN, MAXPATH, length_append, length_cons] at *
  omega

theorem Archiving.write_header (h : Archiving os path a arch base archive old ents) {hdr : List UInt8}
    (hlen : hdr.length = HEADER) (hsize : archive.length + HEADER ≤ MAXSIZE) :
    (os.write a hdr).2 = grown os a arch (archive ++ hdr) old := by
  rw [write_file _ _ _ h.enough h.writer h.target h.writable (length_le_onto _ _) (by omega)
    (by rw [hlen]; decide) (by rw [← length_pos_iff_ne_nil, hlen]; decide)]
  simp [splice_onto]

section Entry

variable (junk : Os → Nat → UInt8) (h : Archiving os path a arch base archive old ents) (hde : de ∈ ents)

include h hde

theorem archiveEntry_overflow (hfits : ¬ PathFits path de) : archiveEntry junk n os path a de = .error .overflow := by
  simp only [PathFits, Classical.not_imp] at hfits
  obtain ⟨hlive, hlong⟩ := hfits
  exact (if_neg hlive).trans (if_pos ((h.entry de hde hlive).overflows.mpr hlong))

variable (hlive : de.inum ≠ 0)

include hlive

theorem Archiving.namei : os.namei (path ++ SLASH :: key de.name) = os.dirlookup base (key de.name) := by
  have he := h.entry de hde hlive
  exact namei_parent (h.paths _ he.nonempty he.slash (Nat.le_of_lt (length_key_lt he.name he.terminated)))

variable (hfits : PathFits path de)

include hfits

theorem Archiving.fits : ¬ (0 ∉ de.name ∨ path.length + 1 + (cstr de.name).length + 1 > MAXLEN) :=
  fun hov => (h.entry de hde hlive).overflows.mp hov (hfits hlive)

variable {ip : Nat} {content : List UInt8} (hip : os.dirlookup base (key de.name) = some ip)
  (hfile : (os.node ip).body = .file content)

include hip hfile

theorem Archiving.stat : os.stat (path ++ SLASH :: key de.name) = (some ⟨T_FILE, content.length⟩, os) := by
  have hdev : (os.node ip).body.type ≠ T_DEVICE := by
    rw [hfile]
    exact (by decide : T_FILE ≠ T_DEVICE)
  rw [stat_found h.enough h.fds (hfits.short hlive) ((h.namei hde hlive).trans hip) hdev
    ((h.entry de hde hlive).found ip hip).1, hfile]
  rfl

theorem archiveEntry_file (hne : ip ≠ arch) (hsize : archive.length + HEADER + content.length ≤ MAXSIZE)
    (hn : content.length < n) : archiveEntry junk n os path a de = .ok (grown os a arch
      (archive ++ (header (junk os) (key de.name) content.length ++ stored (os.node ip))) old) := by
  have he := h.entry de hde hlive
  have hkey := length_key_lt he.name he.terminated
  have hnamei := (h.namei hde hlive).trans hip
  have hlink := (he.found ip hip).1
  obtain ⟨hdr, hhdr⟩ : ∃ hdr, hdr = header (junk os) (key de.name) content.length := ⟨_, rfl⟩
  have hlen : hdr.length = HEADER := by
    rw [hhdr]
    exact length_header _ (Nat.lt_trans hkey (by decide)) _
  have hwrite := h.write_header hlen (by omega)
  have hnode : (grown os a arch (archive ++ hdr) old).node ip = os.node ip := by
    simp [hne]
  obtain ⟨fd, hopen, -, hnone⟩ := open_read (grown os a arch (archive ++ hdr) old) h.enough
    ((show SpareFds (os.setBody arch _) 1 from h.fds).keep h.writer) (hfits.short hlive)
    ((Extends.setFile h.target (onto (archive ++ hdr) old)).namei rfl hnamei)
    (by rw [hnode, hfile]; exact (by decide : T_FILE ≠ T_DEVICE))
  have hfd : fd ≠ a := by
    rintro rfl
    simp at hnone
  obtain ⟨os1, hos1⟩ : ∃ os1, os1 = (grown os a arch (archive ++ hdr) old).setFd fd (some ⟨ip, 0, true, false⟩) := ⟨_, rfl⟩
  have hflow : Flow os1 fd a ip arch 0 content (archive ++ hdr) old := by
    rw [hos1]
    refine ⟨h.enough, hfd, hne, ?_, ?_, ?_, ?_, ?_⟩
    · simp
    · simp [hfd.symm]
    · exact (congrArg Node.body hnode).trans hfile
    · simp
    · simpa using h.writable
  have hmode : (os1.node ip).mode = (os.node ip).mode := by
    rw [hos1]
    exact congrArg Node.mode hnode
  have hcontents : ∃ o, contentsFrom n os1 fd a =
      .ok (flowed os1 fd a ip arch o (archive ++ hdr ++ stored (os.node ip)) old) := by
    by_cases hread : (os.node ip).mode &&& S_IRUSR = 0
    · obtain _ | n := n
      · omega
      refine ⟨0, ?_⟩
      rw [stored, if_pos hread, append_nil, hflow.flowed_self, contentsFrom]
      simp [Os.read, hflow.reader, hflow.source, permits, hmode, hread, Body.type, (by decide : T_FILE ≠ T_DIR)]
    · refine ⟨content.length, contentsFrom_of_copyFrom ?_⟩
      rw [stored, if_neg hread, hfile, copyFrom_rest hflow (by rwa [hmode]) (Nat.zero_le _)
        (by rw [length_append]; omega) (by omega)]
      rfl
  obtain ⟨o, hcontents⟩ := hcontents
  have hback : os.setFd fd none = os := by
    apply setFd_self
    simpa [hfd] using hnone
  rw [archiveEntry, if_neg hlive, if_neg (h.fits hde hlive hfits), cstr_eq_key he.name, h.stat hde hlive hfits hip hfile]
  refine (if_neg (by decide : ¬ T_FILE = T_DIR)).trans ?_
  simp only [archiveContents, ← hhdr, hwrite, hopen, ← hos1, hcontents]
  change Except.ok (Os.close _ fd) = _
  rw [close_linked _ ⟨ip, o, true, false⟩ (by simp [flowed, hfd])
    (by simpa [flowed, hos1, hne] using hlink)]
  simp [-setFd, -setBody, flowed, hos1, setFd_comm hfd.symm, ← setBody_setFd, hback]

end Entry

theorem archiveEntry_skip (junk : Os → Nat → UInt8) (h : Archiving os path a arch base archive old ents)
    (hde : de ∈ ents) (hfits : PathFits path de) (hnone : filesAt os base [de] = []) :
    archiveEntry junk n os path a de = .ok os := by
  by_cases hlive : de.inum = 0
  · rw [archiveEntry, if_pos hlive]
  have he := h.entry de hde hlive
  rw [archiveEntry, if_neg hlive, if_neg (h.fits hde hlive hfits), cstr_eq_key he.name]
  cases hip : os.dirlookup base (key de.name) with
  | none => rw [Os.stat, open_absent ((h.namei hde hlive).trans hip)]
  | some ip =>
    obtain ⟨hlink, hdir | ⟨content, hfile⟩⟩ := he.found ip hip
    · rw [stat_found h.enough h.fds (hfits.short hlive) ((h.namei hde hlive).trans hip) (by rw [hdir]; decide) hlink]
      exact if_pos hdir
    · simp [filesAt, hlive, hip, Os.fileOf, hfile] at hnone

theorem Archiving.file (h : Archiving os path a arch base archive old ents) (hde : de ∈ ents)
    (hsome : filesAt os base [de] ≠ []) : de.inum ≠ 0 ∧ ∃ ip content, os.dirlookup base (key de.name) = some ip ∧
      (os.node ip).body = .file content := by
  have hlive : de.inum ≠ 0 := fun hdead => hsome (by simp [filesAt, hdead])
  cases hip : os.dirlookup base (key de.name) with
  | none => exact absurd (by simp [filesAt, hip]) hsome
  | some ip =>
    obtain ⟨-, hdir | ⟨content, hfile⟩⟩ := (h.entry de hde hlive).found ip hip
    · exact absurd (by simp [filesAt, hip, fileOf_dir hdir]) hsome
    · exact ⟨hlive, ip, content, rfl, hfile⟩

theorem archiveEntry_parts (junk : Os → Nat → UInt8) (h : Archiving os path a arch base archive old ents)
    (hde : de ∈ ents) (hfits : PathFits path de) (hapart : de.inum ≠ 0 → os.dirlookup base (key de.name) ≠ some arch)
    (hsize : archive.length + archiveSize (filesAt os base [de]) ≤ MAXSIZE) :
    ∃ more, Puts (Set.range junk) (partsAt os base [de]) more ∧
      ∀ n > MAXSIZE, archiveEntry junk n os path a de = .ok (grown os a arch (archive ++ more) old) := by
  by_cases hsome : filesAt os base [de] = []
  · refine ⟨[], ?_, fun n _ => ?_⟩
    · rw [filesAt_eq, map_eq_nil_iff] at hsome
      rw [hsome]
      exact .nil
    · rw [append_nil, h.grown_self, archiveEntry_skip junk h hde hfits hsome]
  obtain ⟨hlive, ip, content, hip, hfile⟩ := h.file hde hsome
  have hparts : partsAt os base [de] = [(key de.name, content, stored (os.node ip))] := by
    simp [partsAt, hlive, hip, Os.fileOf, hfile]
  rw [filesAt_eq, hparts] at hsize
  have hlen : archive.length + HEADER + content.length ≤ MAXSIZE := by
    simpa [archiveSize, Nat.add_assoc] using hsize
  have hne : ip ≠ arch := fun heq => hapart hlive (heq ▸ hip)
  refine ⟨_, ?_, fun n hn => archiveEntry_file junk h hde hlive hfits hip hfile hne hlen (by omega)⟩
  rw [hparts, ← append_nil (header _ _ _ ++ _)]
  exact .cons ⟨os, rfl⟩ .nil

section

variable (h : Archiving os path a arch base archive old ents)

include h

theorem Archiving.dirlookup_grown (archive' : List UInt8) (d : Nat) (nm : Name) :
    (grown os a arch archive' old).dirlookup d nm = os.dirlookup d nm := dirlookup_setFile h.target d nm

theorem Archiving.found_grown (archive' : List UInt8) {ip : Nat} (hlink : 0 < (os.node ip).nlink)
    (hkind : (os.node ip).body.type = T_DIR ∨ ∃ content, (os.node ip).body = .file content) :
    0 < ((grown os a arch archive' old).node ip).nlink ∧ (((grown os a arch archive' old).node ip).body.type = T_DIR ∨
      ∃ content, ((grown os a arch archive' old).node ip).body = .file content) := by
  by_cases heq : ip = arch
  · subst heq
    exact ⟨by simpa using hlink, .inr ⟨_, by simp; rfl⟩⟩
  · simpa [heq] using ⟨hlink, hkind⟩

theorem Archiving.grow (archive' : List UInt8) :
    Archiving (grown os a arch archive' old) path a arch base archive' old ents := by
  refine ⟨h.toWriting.grow archive', (show SpareFds (os.setBody arch _) 1 from h.fds).keep h.writer, ?_, ?_, ?_⟩
  · simpa using h.writable
  · intro name hne hslash hlen
    exact (Extends.setFile h.target (onto archive' old)).namex rfl (h.paths name hne hslash hlen)
  · intro de hde hlive
    have he := h.entry de hde hlive
    refine ⟨he.name, he.terminated, he.nonempty, he.slash, fun ip hip => ?_⟩
    rw [h.dirlookup_grown] at hip
    exact h.found_grown archive' (he.found ip hip).1 (he.found ip hip).2

theorem Archiving.partsAt_grown (archive' : List UInt8)
    (hapart : ∀ de ∈ l, de.inum ≠ 0 → os.dirlookup base (key de.name) ≠ some arch) :
    partsAt (grown os a arch archive' old) base l = partsAt os base l := by
  apply filterMap_congr
  intro de hde
  by_cases hlive : de.inum = 0
  · simp [hlive]
  simp only [hlive, if_false, h.dirlookup_grown]
  cases hip : os.dirlookup base (key de.name) with
  | none => rfl
  | some ip =>
    have hne : ip ≠ arch := fun heq => hapart de hde hlive (heq ▸ hip)
    simp [Os.fileOf, hne]

theorem Archiving.length_parts {J : Set (Nat → UInt8)} {x : List UInt8} (hl : ∀ de ∈ l, de ∈ ents)
    (hx : Puts J (partsAt os base l) x) : x.length ≤ archiveSize (filesAt os base l) := by
  rw [hx.length fun p hp => ?_, filesAt_eq, archiveSize, map_map]
  · apply sum_le_sum
    intro p hp
    obtain ⟨d, -, -, -, ip, -, hfile, hdata⟩ := mem_partsAt hp
    simpa [hdata] using length_stored_le hfile
  · obtain ⟨d, hd, hlive, heq, -⟩ := mem_partsAt hp
    have he := h.entry d (hl d hd) hlive
    rw [heq]
    exact Nat.lt_trans (length_key_lt he.name he.terminated) (by decide)

theorem Archiving.filesAt_nil (archive' : List UInt8) (hnil : filesAt os base l = []) :
    filesAt (grown os a arch archive' old) base l = [] := by
  rw [filesAt, filterMap_eq_nil_iff] at hnil ⊢
  intro de hde
  have hde := hnil de hde
  by_cases hlive : de.inum = 0
  · simp [hlive]
  simp only [hlive, if_false, Option.map_eq_none_iff, fileAt, h.dirlookup_grown] at hde ⊢
  cases hip : os.dirlookup base (key de.name) with
  | none => rfl
  | some ip =>
    rw [hip, Option.bind_some] at hde
    have hne : ip ≠ arch := by
      rintro rfl
      simp [Os.fileOf, h.target] at hde
    simpa [Os.fileOf, hne] using hde

theorem Archiving.seek {f g : Desc} (hs : os.ofile s = some f) (hne : a ≠ s) :
    Archiving (os.setFd s (some g)) path a arch base archive old ents := by
  refine ⟨⟨h.enough, ?_, h.target, h.linked⟩, h.fds.keep hs, h.writable, h.paths, fun de hde hlive => ?_⟩
  · simpa [hne] using h.writer
  · have he := h.entry de hde hlive
    exact ⟨he.name, he.terminated, he.nonempty, he.slash, he.found⟩

end

theorem read_dir {off : Nat} (hs : os.ofile s = some ⟨dir, off, true, false⟩) (hb : (os.node dir).body = .dir ents) :
    os.read s n = (some (((ents.flatMap Dirent.toBytes).drop off).take n), os.setFd s
      (some ⟨dir, off + (((ents.flatMap Dirent.toBytes).drop off).take n).length, true, false⟩)) := by
  simp [Os.read, hs, hb, permits, Body.type]

variable {pre rest : List Dirent}

theorem drop_entries (h : ∀ de ∈ pre, de.name.length = DIRSIZ) (rest : List Dirent) :
    ((pre ++ rest).flatMap Dirent.toBytes).drop (DIRENT * pre.length) = rest.flatMap Dirent.toBytes := by
  have hlen : (pre.flatMap Dirent.toBytes).length = DIRENT * pre.length := by
    have hmap : pre.map (fun de => de.toBytes.length) = pre.map fun _ => DIRENT :=
      map_congr_left fun de hde => Dirent.length_toBytes (h de hde)
    rw [length_flatMap, hmap]
    simp [Nat.mul_comm]
  rw [flatMap_append, drop_left' hlen]

theorem read_entry (hnames : ∀ e ∈ pre ++ de :: rest, e.name.length = DIRSIZ)
    (hs : os.ofile s = some ⟨dir, DIRENT * pre.length, true, false⟩) (hdir : (os.node dir).body = .dir (pre ++ de :: rest)) :
    os.read s DIRENT = (some de.toBytes, os.setFd s (some ⟨dir, DIRENT * (pre ++ [de]).length, true, false⟩)) := by
  have hlen := Dirent.length_toBytes (hnames de (by simp))
  rw [read_dir hs hdir, drop_entries fun de hde => hnames de (by simp [hde]), flatMap_cons, take_left' hlen, hlen]
  simp [Nat.mul_add]

theorem archiveFrom_entry (junk : Os → Nat → UInt8)
    (hnames : ∀ e ∈ pre ++ de :: rest, e.name.length = DIRSIZ)
    (hs : os.ofile s = some ⟨dir, DIRENT * pre.length, true, false⟩) (hdir : (os.node dir).body = .dir (pre ++ de :: rest)) :
    archiveFrom junk (n + 1) os path a s =
      (archiveEntry junk n (os.setFd s (some ⟨dir, DIRENT * (pre ++ [de]).length, true, false⟩)) path a de >>= fun os =>
        archiveFrom junk n os path a s) := by
  have hde := hnames de (by simp)
  rw [archiveFrom, read_entry hnames hs hdir]
  simp only [Dirent.length_toBytes hde, ne_eq, not_true_eq_false, if_false, Dirent.ofBytes_toBytes hde]

theorem archiveFrom_end (junk : Os → Nat → UInt8) (hnames : ∀ e ∈ ents, e.name.length = DIRSIZ)
    (hs : os.ofile s = some ⟨dir, DIRENT * ents.length, true, false⟩) (hdir : (os.node dir).body = .dir ents) :
    archiveFrom junk (n + 1) os path a s = .ok os := by
  have hdrop := drop_entries hnames []
  rw [append_nil, flatMap_nil] at hdrop
  rw [archiveFrom, read_dir hs hdir, hdrop]
  simp only [take_nil, length_nil, Nat.add_zero, setFd_self hs]
  exact if_pos (by decide)

-- The entries of `l` have paths that fit and that do not lead to the archive.
theorem archiveFrom_steps (junk : Os → Nat → UInt8) (pre l rest : List Dirent)
    (h : Archiving os path a arch base archive old (pre ++ (l ++ rest)))
    (hnames : ∀ de ∈ pre ++ (l ++ rest), de.name.length = DIRSIZ)
    (hs : os.ofile s = some ⟨dir, DIRENT * pre.length, true, false⟩)
    (hdir : (os.node dir).body = .dir (pre ++ (l ++ rest))) (has : a ≠ s) (hne : dir ≠ arch)
    (hfits : ∀ de ∈ l, PathFits path de)
    (hapart : ∀ de ∈ l, de.inum ≠ 0 → os.dirlookup base (key de.name) ≠ some arch)
    (hsize : archive.length + archiveSize (filesAt os base l) ≤ MAXSIZE) :
    ∃ more, Puts (Set.range junk) (partsAt os base l) more ∧ ∀ n > MAXSIZE, archiveFrom junk (l.length + n) os path a s =
      archiveFrom junk n ((grown os a arch (archive ++ more) old).setFd s
        (some ⟨dir, DIRENT * (pre ++ l).length, true, false⟩)) path a s := by
  induction l generalizing os archive pre with
  | nil =>
    refine ⟨[], .nil, fun n _ => ?_⟩
    rw [append_nil, append_nil, h.grown_self, setFd_self hs, length_nil, Nat.zero_add]
  | cons de l ih =>
    have hseek := h.seek (g := ⟨dir, DIRENT * (pre ++ [de]).length, true, false⟩) hs has
    rw [filesAt_eq, partsAt_cons, map_append, ← filesAt_eq, ← filesAt_eq, archiveSize_append] at hsize
    obtain ⟨x, hx, hentry⟩ := archiveEntry_parts junk hseek (show de ∈ _ by simp) (hfits de mem_cons_self)
      (hapart de mem_cons_self) (Nat.le_trans (Nat.add_le_add_left (Nat.le_add_right _ _) _) hsize)
    have hlen : x.length ≤ archiveSize (filesAt os base [de]) := h.length_parts (by simp) hx
    have hgrow := hseek.grow (archive ++ x)
    have hrest : ∀ e ∈ l, e.inum ≠ 0 → os.dirlookup base (key e.name) ≠ some arch := fun e he => hapart e (mem_cons_of_mem _ he)
    have hparts := hseek.partsAt_grown (archive ++ x) hrest
    have hassoc : pre ++ (de :: l ++ rest) = pre ++ [de] ++ (l ++ rest) := by simp
    rw [hassoc] at hgrow hnames hdir
    obtain ⟨y, hy, hsteps⟩ := ih (pre ++ [de]) hgrow hnames (by simp [has.symm])
      (by simpa [hne] using hdir) (fun e he => hfits e (mem_cons_of_mem _ he))
      (fun e he hlive => (hseek.dirlookup_grown _ base _).trans_ne (hrest e he hlive))
      (by rw [filesAt_eq, hparts, length_append]; exact filesAt_eq os base l ▸ by omega)
    refine ⟨x ++ y, ?_, fun n hn => ?_⟩
    · rw [partsAt_cons]
      exact hx.append (hparts ▸ hy)
    · rw [length_cons, Nat.add_right_comm, archiveFrom_entry junk (by rwa [append_cons]) hs (by rwa [append_cons]), hentry _ (by omega)]
      refine (hsteps n hn).trans ?_
      simp [-setFd, -setBody, setBody_setFd, setFd_comm has.symm]

end User
