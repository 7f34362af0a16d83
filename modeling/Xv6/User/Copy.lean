import Xv6.User.Calls

-- cp.c, and copy_file of ui.c.

namespace User

open Fs Function Os List

attribute [local simp] setFd setBody

def BUFFER_SIZE : Nat := 512

inductive Ended where
  | atEnd
  | readError
  | writeError

def copyFrom : Nat → Os → Nat → Nat → Except Fault (Ended × Os)
  | 0, _, _, _ => .error .fuel
  | n + 1, os, fdSource, fdDest =>
    match os.read fdSource BUFFER_SIZE with
    | (none, os) => .ok (.readError, os)
    | (some [], os) => .ok (.atEnd, os)
    | (some (b :: buffer), os) =>
      match os.write fdDest (b :: buffer) with
      | (none, os) => .ok (.writeError, os)
      | (some k, os) => if k ≠ (b :: buffer).length then .ok (.writeError, os) else copyFrom n os fdSource fdDest

def copyFile (n : Nat) (os : Os) (src dst : Path) : Except Fault Os :=
  match os.open src O_RDONLY with
  | (none, os) => .ok (os.printf "Erreur: Impossible d'ouvrir le fichier source\n")
  | (some fdSrc, os) =>
    match os.open dst (O_CREATE ||| O_WRONLY) with
    | (none, os) => .ok ((os.printf "Erreur: Impossible de créer le fichier destination\n").close fdSrc)
    | (some fdDst, os) => do
      match ← copyFrom n os fdSrc fdDst with
      | (.writeError, os) => .ok ((((os.printf "Erreur d'écriture\n").close fdSrc).close fdDst).unlink dst).2
      | (_, os) => .ok ((os.close fdSrc).close fdDst)

-- The status that main exits with.
def cp (n : Nat) (os : Os) (argv : List Path) : Except Fault (Nat × Os) :=
  match argv with
  | [_, src, dst] =>
    match os.open src O_RDONLY with
    | (none, os) => .ok (1, ((os.printf "cp: cannot open ").puts src).printf "\n")
    | (some fdSource, os) =>
      match os.open dst (O_CREATE ||| O_WRONLY) with
      | (none, os) => .ok (1, (((os.printf "cp: cannot create ").puts dst).printf "\n").close fdSource)
      | (some fdDest, os) => do
        match ← copyFrom n os fdSource fdDest with
        | (.writeError, os) => .ok (1, ((os.printf "cp: write error\n").close fdSource).close fdDest)
        | (.readError, os) => .ok (1, ((os.printf "cp: read error\n").close fdSource).close fdDest)
        | (.atEnd, os) => .ok (0, (os.close fdSource).close fdDest)
  | _ => .ok (1, os.printf "Usage: cp source_file destination_file\n")

section Flow

variable {os : Os} {a b s d o n : Nat} {src dst old : List UInt8}

-- The bytes of a file whose first ones have been written over.
def onto (dst old : List UInt8) : List UInt8 := dst ++ old.drop dst.length

theorem length_le_onto (dst old : List UInt8) : dst.length ≤ (onto dst old).length := by
  rw [onto, length_append]
  exact Nat.le_add_right ..

theorem splice_onto (dst old chunk : List UInt8) : splice (onto dst old) dst.length chunk = onto (dst ++ chunk) old := by
  rw [onto, splice_append, drop_drop, onto, length_append]

-- A file is read through one descriptor, and another one is written through a second.
structure Flow (os : Os) (a b s d o : Nat) (src dst old : List UInt8) : Prop where
  enough : Enough os
  fd_ne : a ≠ b
  ino_ne : s ≠ d
  reader : os.ofile a = some ⟨s, o, true, false⟩
  writer : os.ofile b = some ⟨d, dst.length, false, true⟩
  source : (os.node s).body = .file src
  target : (os.node d).body = .file (onto dst old)
  writable : (os.node d).mode &&& S_IWUSR ≠ 0

def flowed (os : Os) (a b s d o : Nat) (dst old : List UInt8) : Os :=
  ((os.setBody d (.file (onto dst old))).setFd a (some ⟨s, o, true, false⟩)).setFd b
    (some ⟨d, dst.length, false, true⟩)

theorem flowed_flowed (hab : a ≠ b) (o' : Nat) (dst' : List UInt8) :
    flowed (flowed os a b s d o dst old) a b s d o' dst' old = flowed os a b s d o' dst' old := by
  simp [-setFd, -setBody, flowed, setBody_setFd, setFd_comm hab.symm]

section

variable (h : Flow os a b s d o src dst old)

include h

theorem Flow.flowed_self : flowed os a b s d o dst old = os := by
  rw [flowed, setBody_self h.target, setFd_self h.reader, setFd_self h.writer]

theorem Flow.flowed (o' : Nat) (dst' : List UInt8) :
    Flow (flowed os a b s d o' dst' old) a b s d o' src dst' old := by
  refine ⟨h.enough, h.fd_ne, h.ino_ne, ?_, ?_, ?_, ?_, ?_⟩
  · simp [User.flowed, h.fd_ne]
  · simp [User.flowed]
  · simpa [User.flowed, h.ino_ne] using h.source
  · simp [User.flowed]
  · simpa [User.flowed] using h.writable

theorem Flow.step (hr : (os.node s).mode &&& S_IRUSR ≠ 0) {k : Nat} (hk : k ≤ 512) (hne : (src.drop o).take k ≠ [])
    (hsize : dst.length + ((src.drop o).take k).length ≤ MAXSIZE) :
    ∃ os', os.read a k = (some ((src.drop o).take k), os') ∧ os'.write b ((src.drop o).take k) =
      (some ((src.drop o).take k).length,
        User.flowed os a b s d (o + ((src.drop o).take k).length) (dst ++ (src.drop o).take k) old) := by
  refine ⟨_, read_file h.reader h.source hr, ?_⟩
  have hlen : ((src.drop o).take k).length ≤ CHUNK :=
    Nat.le_trans (length_take_le _ _) (Nat.le_trans hk (by decide))
  rw [write_file (os.setFd a (some ⟨s, o + ((src.drop o).take k).length, true, false⟩)) b _ h.enough
    (by simpa [h.fd_ne.symm] using h.writer) h.target h.writable (length_le_onto dst old) hsize hlen hne]
  simp [splice_onto, User.flowed]

theorem Flow.mode (o' : Nat) (dst' : List UInt8) :
    ((User.flowed os a b s d o' dst' old).node s).mode = (os.node s).mode := by
  simp [User.flowed, h.ino_ne]

end

theorem take_append_rest (l : List UInt8) (k : Nat) : l.take k ++ l.drop (l.take k).length = l := by
  have heq : l.drop (l.take k).length = l.drop k := by
    rw [length_take, drop_eq_drop_iff]
    omega
  rw [heq, take_append_drop]

theorem copyFrom_rest (h : Flow os a b s d o src dst old) (hr : (os.node s).mode &&& S_IRUSR ≠ 0)
    (ho : o ≤ src.length) (hsize : dst.length + (src.length - o) ≤ MAXSIZE) (hn : src.length - o < n) :
    copyFrom n os a b = .ok (.atEnd, flowed os a b s d src.length (dst ++ src.drop o) old) := by
  induction n generalizing os o dst with
  | zero => omega
  | succ n ih =>
    have hle : ((src.drop o).take 512).length ≤ src.length - o := by simp
    rw [copyFrom, BUFFER_SIZE]
    cases hchunk : (src.drop o).take 512 with
    | nil =>
      have hend : o = src.length := by
        have : src.length ≤ o := by simpa using hchunk
        omega
      rw [← hend, drop_of_length_le (by omega), append_nil, h.flowed_self, read_file h.reader h.source hr, hchunk]
      simp only [length_nil, Nat.add_zero, setFd_self h.reader]
    | cons x rest =>
      obtain ⟨os', hread, hwrite⟩ := h.step hr (Nat.le_refl 512) (by simp [hchunk]) (by omega)
      have hpos : 0 < ((src.drop o).take 512).length := by simp [hchunk]
      rw [hread, hchunk]
      simp only
      rw [← hchunk, hwrite]
      simp only [ne_eq, not_true_eq_false, if_false]
      rw [ih (h.flowed _ _) ((h.mode _ _).symm ▸ hr) (by omega) (by simp only [length_append]; omega) (by omega),
        flowed_flowed h.fd_ne, append_assoc, ← drop_drop, take_append_rest]

end Flow

variable {os : Os} {src dst : Path} {s d a b : Nat} {data old : List UInt8} {n : Nat}

structure Source (os : Os) (path : Path) (ip : Nat) (data : List UInt8) : Prop where
  short : path.length < MAXPATH
  found : os.namei path = some ip
  file : (os.node ip).body = .file data
  readable : (os.node ip).mode &&& S_IRUSR ≠ 0
  linked : 0 < (os.node ip).nlink
  size : data.length ≤ MAXSIZE

-- Another file that it may write, or a name in a directory that has room for it.
structure Target (os : Os) (path : Path) (dp : Nat) (name : Name) (s : Nat) (old : List UInt8) : Prop where
  short : path.length < MAXPATH
  parent : os.nameiparent path = some (dp, name)
  old : (∃ d, os.dirlookup dp name = some d ∧ d ≠ s ∧ (os.node d).body = .file old ∧
      (os.node d).mode &&& S_IWUSR ≠ 0 ∧ 0 < (os.node d).nlink) ∨
    (os.dirlookup dp name = none ∧ old = [] ∧ SpareInodes os 1 ∧ os.ninodes ≤ 2 ^ 16 ∧ Room os dp)

structure Opened (os os' : Os) (dp : Nat) (name : Name) (s d : Nat) (old : List UInt8) : Prop where
  ofile : os'.ofile = os.ofile
  chance : os'.chance = os.chance
  cwd : os'.cwd = os.cwd
  «extends» : Extends os os'
  source : os'.node s = os.node s
  ne : s ≠ d
  found : os'.dirlookup dp name = some d
  file : (os'.node d).body = .file old
  writable : (os'.node d).mode &&& S_IWUSR ≠ 0
  linked : 0 < (os'.node d).nlink

variable {dp : Nat} {name : Name}

theorem Target.openInode (ht : Target os dst dp name s old) (he : Enough os)
    (hs : (os.node s).body = .file data) :
    ∃ d os', os.openInode dst (O_CREATE ||| O_WRONLY) = (some d, os') ∧ Opened os os' dp name s d old := by
  have hopen : os.openInode dst (O_CREATE ||| O_WRONLY) = os.create dst := rfl
  rw [hopen]
  rcases ht.old with ⟨d, hd, hne, hfile, hw, hlink⟩ | ⟨hnone, rfl, hinode, hlt, hroom⟩
  · refine ⟨d, os, ?_, rfl, rfl, rfl, ⟨fun _ h => h, fun _ _ _ h => h⟩, rfl, hne.symm, hd, hfile, hw, hlink⟩
    simp [Os.create, ht.parent, hd, hfile, Body.type]
  obtain ⟨d, hcreate, hd, hpos, hfree⟩ := create_absent os he hinode hroom ht.parent hnone
  have hnew : New os dp d name := ⟨type_of_namexFrom ht.parent rfl, hnone, hfree, Nat.lt_of_lt_of_le hd hlt, hpos⟩
  have hsd : s ≠ d := by
    rintro rfl
    rw [hs] at hfree
    cases hfree
  have hsdp : s ≠ dp := by
    rintro rfl
    have hdir := hnew.dir
    rw [hs] at hdir
    cases hdir
  refine ⟨d, _, hcreate, rfl, rfl, rfl, hnew.extends, node_made hsdp hsd, hsd, ?_, ?_, ?_, ?_⟩
  · rw [hnew.dirlookup, if_pos ⟨rfl, rfl⟩]
  · rw [hnew.node_ip]
  · rw [hnew.node_ip]
    decide
  · rw [hnew.node_ip]
    decide

def content (os : Os) (path : Path) : Option (List UInt8) := (os.namei path).bind os.fileOf

theorem copying (he : Enough os) (hfds : SpareFds os 2) (hs : Source os src s data)
    (ht : Target os dst dp name s old) :
    ∃ a b os₁ os₂ os3, os.open src O_RDONLY = (some a, os₁) ∧ os₁.open dst (O_CREATE ||| O_WRONLY) = (some b, os₂) ∧
      (∀ n > data.length, copyFrom n os₂ a b = .ok (.atEnd, os3)) ∧
      content ((os3.close a).close b) src = some data ∧
      content ((os3.close a).close b) dst = some (data ++ old.drop data.length) := by
  obtain ⟨a, hopenSrc, -, ha⟩ := open_read os he (hfds.mono (by decide)) hs.short hs.found (by rw [hs.file]; exact (by decide : T_FILE ≠ T_DEVICE))
  have hfds1 : SpareFds (os.setFd a (some ⟨s, 0, true, false⟩)) 1 := hfds.setFd
  have ht1 : Target (os.setFd a (some ⟨s, 0, true, false⟩)) dst dp name s old :=
    ⟨ht.short, ht.parent, ht.old⟩
  obtain ⟨d, os', hinode, ho⟩ := ht1.openInode he hs.file
  have hrefuses : refuses (os'.node d) (O_CREATE ||| O_WRONLY) = false := by
    have hmode : (os'.node d).mode &&& S_IWUSR ≠ 0 := ho.writable
    simp [refuses, ho.file, hmode, O_RDONLY]
  obtain ⟨b, hopenDst, -, hb⟩ := open_of_inode _ dst _ (by rw [SpareFds, ho.ofile]; exact hfds1)
    (by rw [Enough, ho.chance]; exact he) ht.short hinode hrefuses (by decide)
  have hab : a ≠ b := by
    rintro rfl
    rw [ho.ofile] at hb
    simp at hb
  have hsource : os'.node s = os.node s := ho.source
  have ha' : os'.ofile a = some ⟨s, 0, true, false⟩ := by
    rw [ho.ofile]
    simp
  have hflow : Flow (os'.setFd b (some ⟨d, 0, false, true⟩)) a b s d 0 data [] old := by
    refine ⟨ho.chance.trans he, hab, ho.ne, ?_, ?_, ?_, ?_, ?_⟩
    · simpa [hab] using ha'
    · simp
    · exact (congrArg Node.body hsource).trans hs.file
    · exact ho.file
    · exact ho.writable
  have hloop : ∀ n > data.length, copyFrom n (os'.setFd b (some ⟨d, 0, false, true⟩)) a b =
      .ok (.atEnd, ((os'.setBody d (.file (data ++ old.drop data.length))).setFd a
        (some ⟨s, data.length, true, false⟩)).setFd b (some ⟨d, data.length, false, true⟩)) := by
    intro n hn
    rw [copyFrom_rest hflow ((congrArg (·.mode &&& S_IRUSR) hsource).trans_ne hs.readable) (Nat.zero_le _)
      (by simpa using hs.size) (by omega)]
    simp [-setFd, -setBody, flowed, onto, setBody_setFd, setFd_comm hab.symm]
  refine ⟨a, b, _, _, _, hopenSrc, hopenDst, hloop, ?_⟩
  have hclose : ((((os'.setBody d (.file (data ++ old.drop data.length))).setFd a
      (some ⟨s, data.length, true, false⟩)).setFd b (some ⟨d, data.length, false, true⟩)).close a).close b =
        ((os'.setBody d (.file (data ++ old.drop data.length))).setFd a none).setFd b none := by
    rw [close_linked a ⟨s, data.length, true, false⟩ (by simp [hab])
      (by simpa [ho.ne, hsource] using hs.linked)]
    rw [close_linked b ⟨d, data.length, false, true⟩ (by simp [hab.symm])
      (by simpa using ho.linked)]
    simp [-setFd, setFd_comm hab.symm]
  rw [hclose]
  obtain ⟨os4, hos4⟩ : ∃ os4, os4 = ((os'.setBody d (.file (data ++ old.drop data.length))).setFd a none).setFd b none :=
    ⟨_, rfl⟩
  have hext : Extends os os4 := by
    have h := ho.extends.trans (Extends.setFile ho.file (data ++ old.drop data.length))
    rw [hos4]
    exact ⟨h.dir, h.dirlookup⟩
  have hcwd : os4.cwd = os.cwd := by
    rw [hos4]
    exact ho.cwd
  have hfound : os4.dirlookup dp name = some d := by
    rw [hos4]
    exact (dirlookup_setFile ho.file dp name).trans ho.found
  rw [← hos4, content, content, hext.namei hcwd hs.found, namei_parent (hext.namex hcwd ht.parent), hfound, hos4]
  constructor
  · simp [Os.fileOf, ho.ne, hsource, hs.file]
  · simp [Os.fileOf]

theorem copies (he : Enough os) (hfds : SpareFds os 2) (hs : Source os src s data)
    (ht : Target os dst dp name s old) (argv0 : Path) :
    ∃ os', Ends (fun n => copyFile n os src dst) os' ∧ Ends (fun n => cp n os [argv0, src, dst]) (0, os') ∧
      content os' src = some data ∧ content os' dst = some (data ++ old.drop data.length) := by
  obtain ⟨a, b, os₁, os₂, os3, hsrc, hdst, hloop, hcontent⟩ := copying he hfds hs ht
  refine ⟨(os3.close a).close b, ⟨data.length + 1, fun n hn => ?_⟩, ⟨data.length + 1, fun n hn => ?_⟩, hcontent⟩
  · simp only [copyFile, hsrc, hdst, hloop n hn]
    rfl
  · simp only [cp, hsrc, hdst, hloop n hn]
    rfl

-- The copy is exact if and only if the destination was not longer than the source: it is
-- opened without O_TRUNC.
theorem copy_exact (os : Os) (src dst : Path) (s dp : Nat) (name : Name) (data old : List UInt8) (he : Enough os)
    (hfds : SpareFds os 2) (hs : Source os src s data) (ht : Target os dst dp name s old) (argv0 : Path) :
    ∃ os₁ os₂, Ends (fun n => copyFile n os src dst) os₁ ∧ Ends (fun n => cp n os [argv0, src, dst]) (0, os₂) ∧
      ((content os₁ dst = some data ∧ content os₁ src = some data ∧ content os₂ dst = some data ∧
        content os₂ src = some data) ↔ old.length ≤ data.length) := by
  obtain ⟨os', hcopy, hcp, hsrc, hdst⟩ := copies he hfds hs ht argv0
  refine ⟨os', os', hcopy, hcp, ?_⟩
  rw [hsrc, hdst]
  simp

-- A root directory with the files a and b, of one byte and of two.
def sample : Os where
  node
    | 1 => ⟨.dir [⟨1, strncpy [46] DIRSIZ⟩, ⟨1, strncpy [46, 46] DIRSIZ⟩, ⟨2, strncpy [97] DIRSIZ⟩, ⟨3, strncpy [98] DIRSIZ⟩], 6, 1⟩
    | 2 => ⟨.file [1], 6, 1⟩
    | 3 => ⟨.file [2, 3], 6, 1⟩
    | _ => ⟨.free, 0, 0⟩
  ninodes := 200
  cwd := 1
  ofile := fun _ => none
  chance := fun _ => .enough
  input := []
  output := []

theorem spareFds_sample : SpareFds sample 2 := ⟨{3, 4}, by decide, by decide⟩

theorem source_sample_a : Source sample [97] 2 [1] := by
  refine ⟨by decide, rfl, rfl, by decide, by decide, by decide⟩

theorem source_sample_b : Source sample [98] 3 [2, 3] := by
  refine ⟨by decide, rfl, rfl, by decide, by decide, by decide⟩

theorem copy_exact_sample : Source sample [98] 3 [2, 3] ∧ Target sample [97] 1 [97] 3 [1] ∧
    ∃ os₁ os₂, Ends (fun n => copyFile n sample [98] [97]) os₁ ∧ Ends (fun n => cp n sample [[], [98], [97]]) (0, os₂) ∧
      ((content os₁ [97] = some [2, 3] ∧ content os₁ [98] = some [2, 3] ∧ content os₂ [97] = some [2, 3] ∧
        content os₂ [98] = some [2, 3]) ↔ [(1 : UInt8)].length ≤ [(2 : UInt8), 3].length) := by
  have ht : Target sample [97] 1 [97] 3 [1] :=
    ⟨by decide, rfl, .inl ⟨2, rfl, by decide, rfl, by decide, by decide⟩⟩
  exact ⟨source_sample_b, ht, copy_exact sample [98] [97] 3 1 [97] [2, 3] [1] rfl spareFds_sample source_sample_b ht []⟩

-- Copying a over b leaves the second byte of b.
theorem not_copy_exact : Source sample [97] 2 [1] ∧ Target sample [98] 1 [98] 2 [2, 3] ∧
    ∃ os₁ os₂, Ends (fun n => copyFile n sample [97] [98]) os₁ ∧ Ends (fun n => cp n sample [[], [97], [98]]) (0, os₂) ∧
      content os₁ [98] = some [1, 3] ∧ content os₂ [98] = some [1, 3] := by
  have ht : Target sample [98] 1 [98] 2 [2, 3] :=
    ⟨by decide, rfl, .inl ⟨3, rfl, by decide, rfl, by decide, by decide⟩⟩
  obtain ⟨os', hcopy, hcp, -, hdst⟩ := copies (show Enough sample from rfl) spareFds_sample source_sample_a ht []
  exact ⟨source_sample_a, ht, os', os', hcopy, hcp, hdst, hdst⟩

end User
