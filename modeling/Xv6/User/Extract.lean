import Xv6.User.Archive

-- What extract_archive makes of an archive.

namespace User

open Fs Function Os List

attribute [local simp] setFd setBody

variable {os : Os} {fd arch out o k n : Nat} {archive content rest : List UInt8} {name nm : Name}

-- A name that fits an entry with its terminator.
structure FileName (name : Name) : Prop where
  nonempty : name ≠ []
  slash : SLASH ∉ name
  zero : 0 ∉ name
  short : name.length < DIRSIZ

theorem FileName.key_eq (h : FileName name) : key name = name := by
  rw [key, take_of_length_le (Nat.le_of_lt h.short), takeWhile_eq_self_iff]
  intro x hx
  have : x ≠ 0 := fun heq => h.zero (heq ▸ hx)
  simpa using this

theorem fileName_key {de : Dirent} (hname : de.name.length = DIRSIZ) (hzero : 0 ∈ de.name) (hne : key de.name ≠ [])
    (hslash : SLASH ∉ key de.name) : FileName (key de.name) := by
  refine ⟨hne, hslash, fun hmem => ?_, length_key_lt hname hzero⟩
  have := mem_takeWhile_imp hmem
  simp at this

theorem FileName.nameiparent (os : Os) (h : FileName name) (hdir : (os.node os.cwd).body.type = T_DIR) :
    os.nameiparent name = some (os.cwd, name) := by
  have hhead : name.head? ≠ some SLASH := fun heq => h.slash (mem_of_mem_head? heq)
  rw [Os.nameiparent, Os.namex, if_neg hhead, elements_name h.nonempty h.slash (Nat.le_of_lt h.short)]
  exact (if_neg (by simpa using hdir)).trans (if_pos ⟨rfl, rfl⟩)

theorem cstr_header (h : FileName name) (junk : Nat → UInt8) (size : Nat) : cstr (header junk name size) = name := by
  have hall : name.takeWhile (· ≠ 0) = name := by
    rw [takeWhile_eq_self_iff]
    intro x hx
    have : x ≠ 0 := fun heq => h.zero (heq ▸ hx)
    simpa using this
  rw [cstr, header, append_assoc, takeWhile_append, hall]
  simp

theorem zero_mem_header (h : FileName name) (junk : Nat → UInt8) (size : Nat) :
    0 ∈ (header junk name size).take MAXLEN := by
  have hlt : name.length < MAXLEN := Nat.lt_trans h.short (by decide)
  rw [header, append_assoc, take_append]
  obtain ⟨m, hm⟩ : ∃ m, MAXLEN - name.length = m + 1 := ⟨MAXLEN - name.length - 1, by omega⟩
  simp [hm]

variable {size ip : Nat}

theorem headerSize_header (h : name.length < MAXLEN) (junk : Nat → UInt8) (hsize : size < 2 ^ 32) :
    headerSize (header junk name size) = size := by
  have hlen : (name ++ 0 :: (List.range (MAXLEN - 1 - name.length)).map fun i => junk (name.length + 1 + i)).length =
      MAXLEN := by
    simp only [length_append, length_cons, length_map, length_range, MAXLEN] at *
    omega
  have hget : ∀ i < 4, (header junk name size).getD (100 + i) 0 = (Block.le32 (UInt32.ofNat size)).getD i 0 := by
    intro i hi
    rw [header, getD_eq_getElem?_getD, getElem?_append_right (by rw [hlen, MAXLEN]; omega), hlen,
      getD_eq_getElem?_getD, MAXLEN, Nat.add_sub_cancel_left]
  have hnat : (UInt32.ofNat size).toNat = size := UInt32.toNat_ofNat_of_lt' hsize
  simp only [headerSize]
  rw [hget 0 (by decide), hget 1 (by decide), hget 2 (by decide), hget 3 (by decide)]
  simp only [Block.le32, getD_cons_zero, getD_cons_succ, Block.toNat_byteOf, hnat]
  omega

def live (os : Os) (dp : Nat) : Nat := (os.ents dp).countP fun de => de.inum ≠ 0

-- The state in the loop of extract_archive, with `k` files to come.
structure Extracting (os : Os) (fd arch out o k : Nat) (archive : List UInt8) : Prop where
  enough : Enough os
  fds : SpareFds os 1
  inodes : SpareInodes os k
  ninodes : os.ninodes ≤ 2 ^ 16
  reader : os.ofile fd = some ⟨arch, o, true, false⟩
  source : (os.node arch).body = .file archive
  readable : (os.node arch).mode &&& S_IRUSR ≠ 0
  linked : 0 < (os.node arch).nlink
  cwd : os.cwd = out
  dir : (os.node out).body.type = T_DIR
  room : DIRENT * (live os out + k) ≤ MAXSIZE
  used : ∀ nm ip, os.dirlookup out nm = some ip → (os.node ip).body.type ≠ 0

theorem Extracting.hasRoom (h : Extracting os fd arch out o (k + 1) archive) : Room os out := by
  by_cases hfree : ∃ de ∈ os.ents out, de.inum = 0
  · exact .inl hfree
  have hlive : live os out = (os.ents out).length := by
    rw [live, countP_eq_length]
    intro de hde
    simpa using fun hzero => hfree ⟨de, hde, hzero⟩
  have hroom := h.room
  rw [hlive, Nat.mul_add, Nat.mul_add] at hroom
  exact .inr (by omega)

theorem live_made (h : New os out ip name) : live (os.made out name ip) out = live os out + 1 := by
  obtain ⟨l, x, r, hents, hmade, hx⟩ := ents_made os out ip name
  have hzero : x.countP (fun de => de.inum ≠ 0) = 0 := by
    rw [countP_eq_zero]
    intro de hde
    simp [hx de hde]
  rw [live, live, hmade, hents]
  simp only [countP_append, countP_cons, hzero, ne_eq, h.inum_ne, not_false_eq_true, decide_true, if_true]
  omega

def extracted (os : Os) (fd arch out o : Nat) (name : Name) (ip : Nat) (content : List UInt8) : Os :=
  ((os.made out name ip).setBody ip (.file content)).setFd fd (some ⟨arch, o, true, false⟩)

theorem dirlookup_extracted (h : New os out ip name) (o : Nat) (content : List UInt8) (nm : Name) :
    (extracted os fd arch out o name ip content).dirlookup out nm =
      if key nm = key name then some ip else os.dirlookup out nm := by
  have hfile : ((os.made out name ip).node ip).body = .file [] := by rw [h.node_ip]
  have hset : (extracted os fd arch out o name ip content).dirlookup out nm = (os.made out name ip).dirlookup out nm :=
    dirlookup_setFile hfile out nm
  rw [hset, h.dirlookup]
  simp

theorem node_extracted (os : Os) (fd arch o : Nat) (name : Name) (content : List UInt8) {j : Nat} (hip : j ≠ ip)
    (hout : j ≠ out) : (extracted os fd arch out o name ip content).node j = os.node j := by
  have hset : (extracted os fd arch out o name ip content).node j = (os.made out name ip).node j := by
    simp [extracted, hip]
  rw [hset, node_made hout hip]

theorem Extracting.arch_ne (h : Extracting os fd arch out o k archive) (hnew : New os out ip name) :
    arch ≠ ip ∧ arch ≠ out := by
  constructor
  · rintro rfl
    have hfree := hnew.free
    rw [h.source] at hfree
    cases hfree
  · rintro rfl
    have hdir := h.dir
    rw [h.source] at hdir
    cases hdir

theorem Extracting.next (h : Extracting os fd arch out o (k + 1) archive) (hnew : New os out ip name)
    (o' : Nat) (content : List UInt8) : Extracting (extracted os fd arch out o' name ip content) fd arch out o' k archive := by
  obtain ⟨harch, hout⟩ := h.arch_ne hnew
  have hnode := node_extracted os fd arch o' name content harch hout
  have htype : ∀ j, j ≠ ip → ((extracted os fd arch out o' name ip content).node j).body.type = (os.node j).body.type := by
    intro j hj
    have hset : (extracted os fd arch out o' name ip content).node j = (os.made out name ip).node j := by
      simp [extracted, hj]
    rw [hset, hnew.type hj]
  refine ⟨h.enough, ?_, ?_, h.ninodes, ?_, ?_, ?_, ?_, h.cwd, ?_, ?_, ?_⟩
  · exact (show SpareFds ((os.made out name ip).setBody ip _) 1 from h.fds).keep h.reader
  · apply h.inodes.erase ip
    rintro j ⟨hpos, hfree⟩ hj
    exact ⟨hpos, (htype j hj).trans hfree⟩
  · simp [extracted]
  · rw [hnode, h.source]
  · rw [hnode]
    exact h.readable
  · rw [hnode]
    exact h.linked
  · rw [htype out hnew.ne, h.dir]
  · have hents : (extracted os fd arch out o' name ip content).ents out = (os.made out name ip).ents out := by
      simp [extracted, Os.ents, hnew.ne]
    rw [live, hents, ← live, live_made hnew]
    have := h.room
    rwa [Nat.add_assoc, Nat.add_comm 1 k]
  · intro nm j hj
    rw [dirlookup_extracted hnew] at hj
    by_cases hji : j = ip
    · have hfile : ((extracted os fd arch out o' name ip content).node ip).body = .file content := by
        simp [extracted]
      rw [hji, hfile]
      exact (by decide : T_FILE ≠ 0)
    · rw [htype j hji]
      split at hj
      · exact absurd (Option.some.inj hj).symm hji
      · exact h.used nm j hj

theorem fileAt_extracted (h : Extracting os fd arch out o (k + 1) archive) (hnew : New os out ip name) (o' : Nat)
    (content : List UInt8) (nm : Name) : (extracted os fd arch out o' name ip content).fileAt out nm =
      if key nm = key name then some content else os.fileAt out nm := by
  rw [fileAt, dirlookup_extracted hnew]
  split
  · simp [Os.fileOf, extracted]
  rw [fileAt]
  cases hl : os.dirlookup out nm with
  | none => rfl
  | some j =>
    have hused := h.used nm j hl
    have hj : j ≠ ip := by
      rintro rfl
      exact hused hnew.free
    by_cases hout : j = out
    · subst hout
      exact (fileOf_dir (h.next hnew o' content).dir).trans (fileOf_dir h.dir).symm
    · simp [Os.fileOf, node_extracted _ _ _ _ _ _ hj hout]

theorem extractFrom_header (h : Extracting os fd arch out o k archive) (hname : FileName name) (junk : Nat → UInt8)
    (hsize : size ≤ MAXSIZE) (hbytes : archive.drop o = header junk name size ++ rest)
    {fdOut : Nat} {os' : Os} (hopen : (os.setFd fd (some ⟨arch, o + HEADER, true, false⟩)).open name (O_CREATE ||| O_WRONLY) =
      (some fdOut, os')) (n : Nat) :
    extractFrom (n + 1) os fd = (restFrom n os' fd fdOut size >>= fun os => extractFrom n (os.close fdOut) fd) := by
  have hshort : name.length < MAXLEN := Nat.lt_trans hname.short (by decide)
  have hlen := length_header junk hshort size
  have hhead : (archive.drop o).take HEADER = header junk name size := by
    rw [hbytes]
    exact take_left' hlen
  have hread := read_file (n := HEADER) h.reader h.source h.readable
  rw [hhead, hlen] at hread
  rw [extractFrom, hread]
  simp only [hlen, ne_eq, not_true_eq_false, if_false, zero_mem_header hname, cstr_header hname, hopen,
    headerSize_header hshort junk (Nat.lt_of_le_of_lt hsize (by decide))]

theorem Extracting.nameiparent (h : Extracting os fd arch out o k archive) (hname : FileName name) (o' : Nat) :
    (os.setFd fd (some ⟨arch, o', true, false⟩)).nameiparent name = some (out, name) := by
  have hdir : (os.node os.cwd).body.type = T_DIR := by
    rw [h.cwd]
    exact h.dir
  have hparent := hname.nameiparent (os.setFd fd (some ⟨arch, o', true, false⟩)) hdir
  rwa [show (os.setFd fd (some ⟨arch, o', true, false⟩)).cwd = out from h.cwd] at hparent

theorem extractFrom_file (h : Extracting os fd arch out o (k + 1) archive) (hname : FileName name)
    (habsent : os.dirlookup out name = none) (junk : Nat → UInt8)
    (hbytes : archive.drop o = header junk name content.length ++ content ++ rest) (hsize : content.length ≤ MAXSIZE) :
    ∃ ip, New os out ip name ∧ ∀ n > content.length, extractFrom (n + 1) os fd =
      extractFrom n (extracted os fd arch out (o + HEADER + content.length) name ip content) fd := by
  have hlen := length_header junk (Nat.lt_trans hname.short (by decide)) content.length
  rw [append_assoc] at hbytes
  obtain ⟨ip, hcreate, hlt, hpos, hfree⟩ := create_absent (os.setFd fd (some ⟨arch, o + HEADER, true, false⟩))
    h.enough (h.inodes.mono (by omega)) h.hasRoom (h.nameiparent hname _) habsent
  have hnew : New os out ip name := ⟨h.dir, habsent, hfree, Nat.lt_of_lt_of_le hlt h.ninodes, hpos⟩
  refine ⟨ip, hnew, fun n hn => ?_⟩
  have hnode : ((os.setFd fd (some ⟨arch, o + HEADER, true, false⟩)).made out name ip).node ip =
      ⟨.file [], S_IRUSR ||| S_IWUSR, 1⟩ := hnew.node_ip
  have hfds : SpareFds ((os.setFd fd (some ⟨arch, o + HEADER, true, false⟩)).made out name ip) 1 := h.fds.keep h.reader
  obtain ⟨fdOut, hopen, -, hnone⟩ := open_of_inode _ name (O_CREATE ||| O_WRONLY) hfds h.enough
    (Nat.lt_trans hname.short (by decide)) hcreate (by rw [hnode]; decide) (by decide)
  have hfd : fd ≠ fdOut := by
    rintro rfl
    simp [Os.made] at hnone
  obtain ⟨harch, hout⟩ := h.arch_ne hnew
  have hsource : ((os.setFd fd (some ⟨arch, o + HEADER, true, false⟩)).made out name ip).node arch = os.node arch :=
    node_made hout harch
  have hflow : Flow (((os.setFd fd (some ⟨arch, o + HEADER, true, false⟩)).made out name ip).setFd fdOut
      (some ⟨ip, 0, false, true⟩)) fd fdOut arch ip (o + HEADER) archive [] [] := by
    refine ⟨h.enough, hfd, harch, ?_, ?_, ?_, ?_, ?_⟩
    · simp [Os.made, hfd]
    · simp
    · exact (congrArg Node.body hsource).trans h.source
    · exact congrArg Node.body hnode
    · exact (congrArg (·.mode &&& S_IWUSR) hnode).trans_ne (by decide : (S_IRUSR ||| S_IWUSR) &&& S_IWUSR ≠ 0)
  have hdrop : archive.drop (o + HEADER) = content ++ rest := by
    rw [← drop_drop, hbytes]
    exact drop_left' hlen
  have hle : o + HEADER + content.length ≤ archive.length := by
    have := congrArg List.length hbytes
    simp only [length_drop, length_append, hlen] at this
    have : 0 < HEADER := by decide
    omega
  have hrest := restFrom_rest hflow ((congrArg (·.mode &&& S_IRUSR) hsource).trans_ne h.readable) hle
    (by simpa using hsize) hn
  rw [hdrop, take_left, nil_append] at hrest
  have hback : ((os.made out name ip).setBody ip (.file content)).setFd fdOut none =
      (os.made out name ip).setBody ip (.file content) := by
    apply setFd_self
    simpa [Os.made, hfd.symm] using hnone
  have hclose : (flowed (((os.setFd fd (some ⟨arch, o + HEADER, true, false⟩)).made out name ip).setFd fdOut
      (some ⟨ip, 0, false, true⟩)) fd fdOut arch ip (o + HEADER + content.length) content []).close fdOut =
        extracted os fd arch out (o + HEADER + content.length) name ip content := by
    rw [close_linked _ ⟨ip, content.length, false, true⟩ (by simp [flowed])
      (by simp [flowed]; rw [← setFd, hnode]; decide)]
    simp only [flowed, onto, drop_nil, append_nil, extracted, made_setFd, setBody_setFd, setFd_setFd, setFd_comm hfd]
    rw [hback]
  rw [extractFrom_header h hname junk hsize hbytes hopen, ← hclose]
  exact congrArg (· >>= fun os => extractFrom n (os.close fdOut) fd) hrest

def contentIn (files : List (Name × List UInt8)) (nm : Name) : Option (List UInt8) :=
  (files.find? fun f => f.1 = key nm).map Prod.snd

theorem contentIn_cons (name : Name) (content : List UInt8) (files : List (Name × List UInt8)) (nm : Name) :
    contentIn ((name, content) :: files) nm = if key nm = name then some content else contentIn files nm := by
  by_cases hkey : key nm = name
  · simp [contentIn, hkey]
  · simp [contentIn, hkey, Ne.symm hkey]

theorem extractFrom_all {J : Set (Nat → UInt8)} {files : List (Name × List UInt8)} {bytes : List UInt8} (henc : Encodes J files bytes)
    (hbytes : archive.drop o = bytes) (hle : o ≤ archive.length) (h : Extracting os fd arch out o files.length archive)
    (hnames : ∀ f ∈ files, FileName f.1) (hsizes : ∀ f ∈ files, f.2.length ≤ MAXSIZE)
    (hdistinct : files.Pairwise fun f g => f.1 ≠ g.1)
    (habsent : ∀ f ∈ files, os.dirlookup out f.1 = none) :
    ∃ os', (∀ n > files.length + MAXSIZE + 1, extractFrom n os fd = .ok os') ∧ Extracting os' fd arch out archive.length 0 archive ∧
      ∀ nm, os'.fileAt out nm = if os.dirlookup out nm = none then contentIn files nm else os.fileAt out nm := by
  induction files generalizing os o bytes with
  | nil =>
    cases henc
    have hend : o = archive.length := by
      have := drop_eq_nil_iff.mp hbytes
      omega
    refine ⟨os, fun n hn => ?_, hend ▸ h, fun nm => ?_⟩
    · obtain _ | n := n
      · omega
      rw [extractFrom, read_file h.reader h.source h.readable, hbytes]
      simp only [take_nil, length_nil, Nat.add_zero, setFd_self h.reader]
      exact if_pos (by decide)
    · split
      · next hnone => simp [contentIn, fileAt, hnone]
      · rfl
  | cons f files ih =>
    obtain ⟨name, content⟩ := f
    rw [Encodes, map_cons] at henc
    obtain _ | @⟨_, _, _, bytes, _, junk, -, henc⟩ := henc
    have hname : FileName name := hnames _ mem_cons_self
    simp only at hbytes
    have hlen := length_header junk (Nat.lt_trans hname.short (by decide)) content.length
    have htotal := congrArg List.length hbytes
    simp only [length_drop, length_append, hlen] at htotal
    have hHEADER : 0 < HEADER := by decide
    have hdrop : archive.drop (o + HEADER + content.length) = bytes := by
      rw [← drop_drop, ← drop_drop, hbytes, append_assoc, drop_left' hlen, drop_left]
    have hothers := pairwise_cons.mp hdistinct
    have hnone : os.dirlookup out name = none := habsent _ mem_cons_self
    have hsize : content.length ≤ MAXSIZE := hsizes _ mem_cons_self
    obtain ⟨ip, hnew, hstep⟩ := extractFrom_file h hname hnone junk hbytes hsize
    obtain ⟨os', hok, hend, hfiles⟩ := ih henc hdrop (by omega) (h.next hnew _ content)
      (fun f hf => hnames f (mem_cons_of_mem _ hf)) (fun f hf => hsizes f (mem_cons_of_mem _ hf)) hothers.2 fun f hf => by
        have hkey : key f.1 ≠ key name := by
          rw [(hnames f (mem_cons_of_mem _ hf)).key_eq, hname.key_eq]
          exact (hothers.1 f hf).symm
        rw [dirlookup_extracted hnew, if_neg hkey]
        exact habsent f (mem_cons_of_mem _ hf)
    refine ⟨os', fun n hn => ?_, hend, fun nm => ?_⟩
    · rw [length_cons] at hn
      obtain _ | m := n
      · omega
      rw [hstep m (by omega), hok m (by omega)]
    · rw [hfiles nm, fileAt_extracted h hnew, dirlookup_extracted hnew, contentIn_cons, hname.key_eq]
      by_cases hkey : key nm = name
      · simp [hkey, dirlookup_congr (hkey.trans hname.key_eq.symm) out, hnone]
      · simp [hkey]

end User
