import Xv6.Mkfs.Main
import Xv6.Fs.Reading
import Xv6.Boot

-- What the kernel finds on a fresh image.

namespace Mkfs

open Fs Loc Prog List

theorem bit_zero (b : Nat) : Block.zero.bit b = false := by
  rw [Block.bit, Block.get_zero]
  simp

theorem bit_bitmap (used b : Nat) (hused : used ≤ BPB) : (bitmap used).bit b = decide (b < used) := by
  induction used with
  | zero => simp [bitmap, bit_zero]
  | succ n ih =>
    have hn : n / 8 < BSIZE := by
      simp only [BPB, BSIZE] at hused ⊢
      omega
    have hsucc : bitmap (n + 1) = (bitmap n).setBit n := by
      simp [bitmap, range_succ]
    rw [hsucc, Block.bit_setBit _ _ _ hn, ih (by omega)]
    by_cases h : b < n
    · simp [h, Nat.lt_succ_of_lt h]
    · by_cases heq : n = b
      · simp [heq]
      · have : ¬b < n + 1 := by omega
        simp [h, heq, this]

variable {i : Nat}

variable {files : List HostFile} {img : Image}

section Count

variable {s s' : Image}

variable {din din' : Block} {bytes : List UInt8}

theorem winode_freeinode (h : winode s i din = some s') : s'.freeinode = s.freeinode := by
  rw [winode] at h
  obtain ⟨_, _, h⟩ := Option.bind_eq_some_iff.mp h
  cases h
  rfl

theorem fillSlot_freeinode (s : Image) (din : Block) (j : Fin (NDIRECT + 1)) : (fillSlot s din j).1.freeinode = s.freeinode := by
  rw [fillSlot]
  split <;> rfl

theorem fillEntry_freeinode {ind e x : Nat} (h : fillEntry s ind e = some (s', x)) : s'.freeinode = s.freeinode := by
  rw [fillEntry] at h
  obtain ⟨indirect, _, h⟩ := Option.bind_eq_some_iff.mp h
  split at h
  · cases h
    rfl
  · cases h
    rfl

theorem locate_freeinode {fbn x : Nat} (h : locate s din fbn = some (s', din', x)) :
    s'.freeinode = s.freeinode := by
  rw [locate] at h
  split at h
  · cases h
    exact fillSlot_freeinode _ _ _
  · obtain ⟨⟨s1, y⟩, he, h⟩ := Option.bind_eq_some_iff.mp h
    cases h
    exact (fillEntry_freeinode he).trans (fillSlot_freeinode _ _ _)

theorem appendLoop_freeinode {fuel off off' : Nat}
    (h : appendLoop fuel s din off bytes = some (s', din', off')) : s'.freeinode = s.freeinode := by
  induction fuel generalizing s din off bytes with
  | zero =>
    cases bytes with
    | nil =>
      cases h
      rfl
    | cons b bs => cases h
  | succ fuel ih =>
    cases bytes with
    | nil =>
      cases h
      rfl
    | cons b bs =>
      rw [appendLoop] at h
      split at h
      · obtain ⟨⟨s1, din1, x⟩, hl, h⟩ := Option.bind_eq_some_iff.mp h
        obtain ⟨buf, _, h⟩ := Option.bind_eq_some_iff.mp h
        have hs1 := locate_freeinode hl
        exact (ih h).trans hs1
      · cases h

theorem iappend_freeinode (h : iappend s i bytes = some s') : s'.freeinode = s.freeinode := by
  rw [iappend] at h
  obtain ⟨din, _, h⟩ := Option.bind_eq_some_iff.mp h
  obtain ⟨⟨s1, din1, off⟩, hl, h⟩ := Option.bind_eq_some_iff.mp h
  exact (winode_freeinode h).trans (appendLoop_freeinode hl)

theorem appendChunks_freeinode {chunks : List (List UInt8)} (h : appendChunks s i chunks = some s') :
    s'.freeinode = s.freeinode := by
  induction chunks generalizing s with
  | nil =>
    cases h
    rfl
  | cons c cs ih =>
    rw [appendChunks, foldlM_cons] at h
    obtain ⟨s1, hc, h⟩ := Option.bind_eq_some_iff.mp h
    exact (ih h).trans (iappend_freeinode hc)

theorem ialloc_freeinode {type : Int16} (h : ialloc s type = some (i, s')) : s'.freeinode = s.freeinode + 1 := by
  rw [ialloc] at h
  obtain ⟨s1, hw, h⟩ := Option.bind_eq_some_iff.mp h
  cases h
  exact winode_freeinode hw

theorem addFile_freeinode {f : HostFile} (h : addFile s f = some s') : s'.freeinode = s.freeinode + 1 := by
  rw [addFile] at h
  split at h
  · obtain ⟨⟨i, s1⟩, hi, h⟩ := Option.bind_eq_some_iff.mp h
    obtain ⟨s2, ha, h⟩ := Option.bind_eq_some_iff.mp h
    rw [appendChunks_freeinode h, iappend_freeinode ha, ialloc_freeinode hi]
  · cases h

theorem addFiles_freeinode (h : files.foldlM addFile s = some s') :
    s'.freeinode = s.freeinode + files.length := by
  induction files generalizing s with
  | nil =>
    cases h
    rfl
  | cons f fs ih =>
    rw [foldlM_cons] at h
    obtain ⟨s1, hf, h⟩ := Option.bind_eq_some_iff.mp h
    rw [ih h, addFile_freeinode hf, length_cons]
    omega

theorem main_freeinode {img : Image} (h : main files = some img) : img.freeinode = files.length + 2 := by
  rw [main] at h
  obtain ⟨s0, hroot, h⟩ := Option.bind_eq_some_iff.mp h
  obtain ⟨s1, hfiles, h⟩ := Option.bind_eq_some_iff.mp h
  obtain ⟨s2, hfix, h⟩ := Option.bind_eq_some_iff.mp h
  have h0 : s0.freeinode = 2 := by
    have := makeRoot_spec.of_eq_some hroot
    exact this.freeinode
  have h2 : s2.freeinode = s1.freeinode := by
    rw [fixRoot] at hfix
    obtain ⟨_, _, hw⟩ := Option.bind_eq_some_iff.mp hfix
    exact winode_freeinode hw
  have h3 : img.freeinode = s2.freeinode := by
    rw [balloc] at h
    split at h
    · cases h
      rfl
    · cases h
  rw [h3, h2, addFiles_freeinode hfiles, h0, Nat.add_comm]

end Count

def readsb (b : Block) : List Nat := (List.range 8).map fun i => (b.word i).toNat

-- A kernel in which balloc gets no further than its first step.
def frozenStep : Step kernelSig Panic World
  | .bsection _ _, _ => .wait
  | a, w => kernelStep a w

structure ImageOk (img : Image) : Prop where
  super : readsb (img.disk 1) =
    [FSMAGIC.toNat, sb.size, sb.size - sb.nmeta, sb.ninodes, sb.nlog, sb.logstart, sb.inodestart, sb.bmapstart]
  regions : 1 < sb.logstart ∧ sb.logstart + sb.nlog ≤ sb.inodestart ∧ sb.inodestart + sb.ninodes ≤ sb.bmapstart ∧
    sb.bmapstart < sb.nmeta ∧ sb.nmeta ≤ sb.size ∧ sb.size = img.sectors ∧ img.sectors = FSSIZE
  inodes : ∀ i, 1 ≤ i → i < img.freeinode → sb.inodestart ≤ sb.IBLOCK i ∧ sb.IBLOCK i < sb.bmapstart
  data : ∀ i, 1 ≤ i → i < img.freeinode → ∀ p, addrOf img.disk (inodeOf sb img.disk i) p ≠ 0 →
    sb.nmeta ≤ addrOf img.disk (inodeOf sb img.disk i) p ∧ addrOf img.disk (inodeOf sb img.disk i) p < sb.size
  marked : ∀ b < BPB, (img.disk sb.bmapstart).bit b = true ↔
    b < sb.nmeta ∨ ∃ i, 1 ≤ i ∧ i < img.freeinode ∧ ∃ p, addrOf img.disk (inodeOf sb img.disk i) p = b
  once : ∀ i, 1 ≤ i → i < img.freeinode → ∀ j, 1 ≤ j → j < img.freeinode → ∀ p q,
    addrOf img.disk (inodeOf sb img.disk i) p = addrOf img.disk (inodeOf sb img.disk j) q →
    addrOf img.disk (inodeOf sb img.disk i) p ≠ 0 → i = j ∧ p = q
  noHole : ∀ i, 1 ≤ i → i < img.freeinode → ∀ bn, bn < blocks (inodeOf sb img.disk i).size.toNat →
    blockOf img.disk (inodeOf sb img.disk i) bn ≠ 0
  reads : ∀ i, 1 ≤ i → i < img.freeinode → ∀ w k, w.cache = img.disk → (w.itable k).din = inodeOf sb img.disk i →
    ∀ dst off n, ∃ r, run frozenStep (readi sb k dst off n) w = .done r w

theorem lt_blocks {bn len : Nat} : bn < blocks len ↔ bn * BSIZE < len := by
  simp only [blocks, BSIZE]
  omega

theorem length_dirent (i : Nat) (name : Name) : (dirent i name).length = DIRENT :=
  Dirent.length_toBytes (length_strncpy name DIRSIZ)

theorem rootBytes_length (files : List HostFile) : (rootBytes files).length = (files.length + 2) * DIRENT := by
  simp only [rootBytes, length_append, length_flatMap, length_dirent, map_const', sum_replicate_nat,
    length_zipIdx]
  rw [Nat.add_mul, Nat.add_comm]
  rfl

-- The rounded size of the root directory takes one block too many where its entries end with a
-- block.
theorem blocks_rootSize (hn : files.length ≤ 199) :
    blocks (rootSize files) = blocks (rootBytes files).length ↔ (files.length + 2) % 64 ≠ 0 := by
  rw [rootSize, rootBytes_length]
  simp only [blocks, BSIZE, DIRENT, DIRSIZ]
  omega

theorem rootSize_le (hn : files.length ≤ 199) : rootSize files ≤ MAXFILE * BSIZE := by
  rw [rootSize, rootBytes_length]
  simp only [MAXFILE, NDIRECT, NINDIRECT, BSIZE, DIRENT, DIRSIZ]
  omega

theorem Finished.size (h : Finished img files) (hi : 1 ≤ i) (him : i < files.length + 2) :
    (inodeOf sb img.disk i).size.toNat = sizeOf files i := by
  have hle : sizeOf files i ≤ 274432 := by
    rw [sizeOf]
    split
    · exact rootSize_le h.inodes
    · exact h.length i hi him
  rw [h.fields i hi him, dinode, UInt32.toNat_ofNat']
  apply Nat.mod_eq_of_lt
  omega

theorem Finished.noHole_iff (h : Finished img files) :
    (∀ i, 1 ≤ i → i < files.length + 2 → ∀ bn, bn < blocks (inodeOf sb img.disk i).size.toNat →
      blockOf img.disk (inodeOf sb img.disk i) bn ≠ 0) ↔ (files.length + 2) % 64 ≠ 0 := by
  have hshape : ∀ i, 1 ≤ i → i < files.length + 2 → ∀ bn,
      blockOf img.disk (inodeOf sb img.disk i) bn ≠ 0 ↔ bn < blocks (contentOf files i).length := by
    intro i hi him bn
    rw [blockOf, h.shape i hi him, first_pos]
  constructor
  · intro hall
    rw [← blocks_rootSize h.inodes]
    have hle : blocks (rootBytes files).length ≤ blocks (rootSize files) := by
      apply blocks_mono
      rw [rootSize]
      simp only [BSIZE]
      omega
    by_contra hne
    have hroot : ROOTINO < files.length + 2 := Nat.lt_of_lt_of_le (by decide) (Nat.le_add_left 2 _)
    have hlast : blocks (rootBytes files).length < blocks (inodeOf sb img.disk ROOTINO).size.toNat := by
      rw [h.size (Nat.le_refl 1) hroot, sizeOf, if_pos rfl]
      omega
    have hbad := hall ROOTINO (Nat.le_refl 1) hroot _ hlast
    rw [hshape ROOTINO (Nat.le_refl 1) hroot, contentOf, if_pos rfl] at hbad
    omega
  · intro hmod i hi him bn hbn
    rw [hshape i hi him]
    rw [h.size hi him, sizeOf] at hbn
    split at hbn
    · rename_i hroot
      rw [(blocks_rootSize h.inodes).mpr hmod] at hbn
      rw [contentOf, if_pos hroot]
      exact hbn
    · exact hbn

theorem Finished.solid (h : Finished img files) (hi : 1 ≤ i) (him : i < files.length + 2) :
    Solid img.disk (inodeOf sb img.disk i) (contentOf files i).length := by
  refine ⟨fun bn hbn => ?_, h.length i hi him⟩
  rw [blockOf, h.shape i hi him, first_pos]
  exact lt_blocks.mpr hbn

theorem readsAs_frozen : ReadsAs frozenStep := ⟨fun _ _ => rfl, fun _ _ => rfl⟩

theorem Finished.imageOk (h : Finished img files) (hmod : (files.length + 2) % 64 ≠ 0) : ImageOk img := by
  have hfree := h.freeinode
  have hnoHole := h.noHole_iff.mpr hmod
  refine ⟨?_, ?_, ?_, ?_, ?_, ?_, ?_, ?_⟩
  · have hone : img.disk 1 = superblock := by
      rw [h.blank 1 (by decide) (by decide) fun i hi him => ?_]
      · rfl
      · have : sb.inodestart = 32 := by decide
        rw [Superblock.IBLOCK_eq]
        omega
    rw [hone]
    decide
  · rw [h.laid.sectors]
    decide
  · intro i hi him
    have : sb.inodestart = 32 ∧ sb.bmapstart = 233 := by decide
    have := h.inodes
    rw [Superblock.IBLOCK_eq]
    omega
  · intro i hi him p hp
    have hr := h.laid.range i hi (by omega) p hp
    exact ⟨hr.1, Nat.lt_of_lt_of_le hr.2 h.room⟩
  · intro b hb
    have hroom : img.freeblock ≤ BPB := Nat.le_trans h.room (by decide)
    rw [h.bitmap, bit_bitmap _ _ hroom, decide_eq_true_eq, hfree]
    constructor
    · intro hlt
      by_cases hmeta : b < sb.nmeta
      · exact .inl hmeta
      · exact .inr (h.laid.onto b (by omega) hlt)
    · rintro (hlt | ⟨i, hi, him, p, hp⟩)
      · exact Nat.lt_of_lt_of_le hlt h.laid.meta_le
      by_cases h0 : b = 0
      · have := h.laid.free_pos
        omega
      · have := (h.laid.range i hi him p (by rw [hp]; exact h0)).2
        omega
  · intro i hi him j hj hjm
    exact h.laid.once i hi (by omega) j hj (by omega)
  · rw [hfree]
    exact hnoHole
  · intro i hi him w k hcache hdin dst off n
    have him : i < files.length + 2 := by omega
    have hsize : (w.itable k).din.size.toNat ≤ MAXFILE * BSIZE := by
      rw [hdin, h.size hi him, sizeOf]
      split
      · exact rootSize_le h.inodes
      · exact h.length i hi him
    have hsolid : Solid w.cache (w.itable k).din (w.itable k).din.size.toNat := by
      rw [hcache, hdin] at *
      exact ⟨fun bn hbn => hnoHole i hi him bn (lt_blocks.mpr hbn), hsize⟩
    obtain ⟨r, hrun, _⟩ := run_readi readsAs_frozen hsolid dst off n (Nat.min_le_right _ _)
    exact ⟨r, hrun⟩

theorem not_refused (hacc : ∀ f ∈ files, Accepted f.arg)
    (hlen : ∀ i < files.length + 2, (contentOf files i).length ≤ MAXFILE * BSIZE)
    (htotal : total (contentOf files) (files.length + 2) ≤ FSSIZE) : ¬Refused files := by
  rintro (⟨f, hf, hbad⟩ | ⟨i, _, hi, hlt⟩ | hlt)
  · exact hbad (hacc f hf)
  · exact Nat.not_lt.mpr (hlen i hi) hlt
  · exact Nat.not_lt.mpr htotal hlt

theorem main_consistent (h : main files = some img) :
    ImageOk img ↔ files.length ≤ 199 ∧ (files.length + 2) % 64 ≠ 0 := by
  have hfree := main_freeinode h
  constructor
  · intro hok
    have hn : files.length ≤ 199 := by
      by_contra hgt
      have := (hok.inodes 201 (by omega) (by omega)).2
      revert this
      decide
    have hfin := (main_spec hn).of_eq_some h
    refine ⟨hn, hfin.noHole_iff.mp ?_⟩
    rw [← hfin.freeinode]
    exact hok.noHole
  · intro ⟨hn, hmod⟩
    exact ((main_spec hn).of_eq_some h).imageOk hmod

-- The host file "user/_cat" with five bytes, which come in two reads.
def cat : HostFile where
  arg := USER ++ [95, 99, 97, 116]
  chunks := [[1, 2, 3], [4, 5]]
  arg_nul := by decide
  chunk_size := by decide

theorem main_consistent_cat : ∃ img, main [cat] = some img ∧ ImageOk img := by
  have hfit : ¬Refused [cat] := not_refused (by decide) (by decide) (by decide)
  have hlen : [cat].length ≤ 199 := by decide
  obtain ⟨img, himg, _⟩ := (main_spec hlen).of_good hfit
  exact ⟨img, himg, (main_consistent himg).mpr ⟨by decide, by decide⟩⟩

-- Empty files, as many as make the entries of the root directory fill a block.
def emptyFile (i : Fin 62) : HostFile where
  arg := [97, UInt8.ofNat (65 + i.val)]
  chunks := []
  arg_nul := by
    revert i
    decide
  chunk_size c hc := absurd hc not_mem_nil

def sixtyTwo : List HostFile := (List.finRange 62).map emptyFile

theorem not_main_consistent : ∃ img, main sixtyTwo = some img ∧ ¬ImageOk img := by
  have hfit : ¬Refused sixtyTwo := not_refused (by decide +kernel) (by decide +kernel) (by decide +kernel)
  obtain ⟨img, himg, hfin⟩ := (main_spec (by decide)).of_good hfit
  refine ⟨img, himg, fun hok => ?_⟩
  have hhole := hok.noHole
  rw [hfin.freeinode] at hhole
  exact hfin.noHole_iff.mp hhole (by decide)

section Names

theorem strncmp_strncpy (n : Nat) (a b : Name) (ha : 0 ∉ a) (hb : 0 ∉ b) (hla : a.length ≤ n) (hlb : b.length ≤ n) :
    strncmp a (strncpy b n) n = 0 ↔ a = b := by
  induction n generalizing a b with
  | zero =>
    rw [length_eq_zero_iff.mp (Nat.le_zero.mp hla), length_eq_zero_iff.mp (Nat.le_zero.mp hlb)]
    exact ⟨fun _ => rfl, fun _ => rfl⟩
  | succ n ih =>
    cases b with
    | nil =>
      cases a with
      | nil => simp [strncmp, strncpy, replicate_succ]
      | cons x xs =>
        have hx : x ≠ 0 := fun h => ha (by rw [h]; exact mem_cons_self)
        have hx' : x.toNat ≠ 0 := fun h => hx (UInt8.toNat.inj h)
        simp [strncmp, strncpy, hx, replicate_succ, hx']
    | cons y ys =>
      have hy : y ≠ 0 := fun h => hb (by rw [h]; exact mem_cons_self)
      have hcpy : strncpy (y :: ys) (n + 1) = y :: strncpy ys n := by simp [strncpy, hy]
      rw [hcpy]
      cases a with
      | nil =>
        have hy' : y.toNat ≠ 0 := fun h => hy (UInt8.toNat.inj h)
        simp [strncmp, hy']
      | cons x xs =>
        have hx : x ≠ 0 := fun h => ha (by rw [h]; exact mem_cons_self)
        have hrest := ih xs ys (fun h => ha (mem_cons_of_mem _ h)) (fun h => hb (mem_cons_of_mem _ h))
          (by simpa using hla) (by simpa using hlb)
        by_cases hxy : x = y
        · subst hxy
          simp [strncmp, hx, hrest]
        · have hne : ((x.toNat : Int) - y.toNat) ≠ 0 := by
            intro h
            exact hxy (UInt8.toNat.inj (by omega))
          simp [strncmp, hx, hxy, hne]

variable {f : HostFile}

theorem zero_not_mem_shortname (f : HostFile) : 0 ∉ shortname f.arg := by
  have hstrip : 0 ∉ stripped f.arg := by
    rw [stripped]
    split
    · exact fun h => f.arg_nul (mem_of_mem_drop h)
    · exact f.arg_nul
  rw [shortname]
  split
  · exact fun h => hstrip (mem_of_mem_tail h)
  · exact hstrip

theorem slash_not_mem_shortname (h : Accepted f.arg) : SLASH ∉ shortname f.arg := by
  rw [shortname]
  split
  · exact fun hm => h.1 (mem_of_mem_tail hm)
  · exact h.1

end Names

variable {j : Nat}

theorem getD_flatten {n : Nat} (l : List (List UInt8)) (hl : ∀ x ∈ l, x.length = n) (j r : Nat) (hr : r < n) :
    l.flatten.getD (j * n + r) 0 = (l.getD j []).getD r 0 := by
  induction l generalizing j with
  | nil => simp
  | cons x xs ih =>
    have hx : x.length = n := hl x mem_cons_self
    rw [flatten_cons]
    cases j with
    | zero => rw [Nat.zero_mul, Nat.zero_add, getD_append _ _ _ _ (by omega), getD_cons_zero]
    | succ j =>
      have hsub : (j + 1) * n + r - x.length = j * n + r := by
        rw [Nat.succ_mul]
        omega
      have hge : x.length ≤ (j + 1) * n + r := by
        rw [Nat.succ_mul]
        omega
      rw [getD_append_right _ _ _ _ hge, hsub, getD_cons_succ]
      exact ih (fun y hy => hl y (mem_cons_of_mem _ hy)) j

theorem map_getD_range (l : List UInt8) : ((List.range l.length).map fun r => l.getD r 0) = l := by
  apply ext_getElem
  · simp
  · intro i h1 h2
    simp [h2]

def entries (files : List HostFile) : List (List UInt8) :=
  DOTS.map (dirent ROOTINO) ++ (files.zipIdx 2).map fun f => dirent f.2 (shortname f.1.arg)

theorem rootBytes_eq (files : List HostFile) : rootBytes files = (entries files).flatten := by
  rw [rootBytes, entries, flatten_append]
  rfl

theorem Finished.direntOf_root (h : Finished img files) {name : Name} (hj : (entries files).getD j [] = dirent i name) :
    direntOf img.disk (inodeOf sb img.disk ROOTINO) j = ⟨UInt16.ofNat i, strncpy name DIRSIZ⟩ := by
  have hroot : ROOTINO < files.length + 2 := Nat.lt_of_lt_of_le (by decide) (Nat.le_add_left 2 _)
  have hall : ∀ x ∈ entries files, x.length = DIRENT := by
    intro x hx
    rcases mem_append.mp hx with hx | hx
    · obtain ⟨_, _, rfl⟩ := mem_map.mp hx
      exact length_dirent _ _
    · obtain ⟨_, _, rfl⟩ := mem_map.mp hx
      exact length_dirent _ _
  have hbytes : ((List.range DIRENT).map fun r => Fs.byteOf img.disk (inodeOf sb img.disk ROOTINO) (j * DIRENT + r)) =
      dirent i name := by
    rw [← map_getD_range (dirent i name), length_dirent]
    apply map_congr_left
    intro r hr
    rw [h.laid.bytes ROOTINO (Nat.le_refl 1) hroot, contentOf, if_pos rfl, rootBytes_eq,
      getD_flatten _ hall j r (mem_range.mp hr), hj]
  rw [direntOf, hbytes, dirent, Dirent.ofBytes_toBytes (length_strncpy name DIRSIZ)]

theorem entries_file (hj : j < files.length) :
    (entries files).getD (j + 2) [] = dirent (j + 2) (shortname (files.get ⟨j, hj⟩).arg) := by
  have hlen : (DOTS.map (dirent ROOTINO)).length = 2 := rfl
  rw [entries, getD_append_right _ _ _ _ (by omega), hlen, Nat.add_sub_cancel, getD_eq_getElem?_getD,
    getElem?_map, getElem?_zipIdx, getElem?_eq_getElem hj]
  simp [Nat.add_comm]

theorem Finished.hit (h : Finished img files) (hacc : ∀ f ∈ files, Accepted f.arg)
    (hnames : (files.map fun f => shortname f.arg).Nodup) (hj : j < files.length)
    (hspecial : shortname (files.get ⟨j, hj⟩).arg ∉ DOTS) :
    (direntOf img.disk (inodeOf sb img.disk ROOTINO) (j + 2)).inum.toNat = j + 2 ∧
      HitOf img.disk (inodeOf sb img.disk ROOTINO) (shortname (files.get ⟨j, hj⟩).arg) (j + 2) ∧
      ∀ x < j + 2, ¬HitOf img.disk (inodeOf sb img.disk ROOTINO) (shortname (files.get ⟨j, hj⟩).arg) x := by
  have hn := h.inodes
  have hname : ∀ i (hi : i < files.length), (shortname (files.get ⟨i, hi⟩).arg).length ≤ DIRSIZ :=
    fun i hi => (hacc _ (get_mem _ _)).2
  have hinum : (UInt16.ofNat (j + 2)).toNat = j + 2 := by
    rw [UInt16.toNat_ofNat']
    omega
  have hcmp : ∀ b : Name, 0 ∉ b → b.length ≤ DIRSIZ →
      (namecmp (shortname (files.get ⟨j, hj⟩).arg) (strncpy b DIRSIZ) = 0 ↔ shortname (files.get ⟨j, hj⟩).arg = b) :=
    fun b hb hlb => strncmp_strncpy DIRSIZ _ b (zero_not_mem_shortname _) hb (hname j hj) hlb
  refine ⟨?_, ⟨?_, ?_⟩, ?_⟩
  · rw [h.direntOf_root (entries_file hj), hinum]
  · rw [h.direntOf_root (entries_file hj)]
    intro h0
    have := congrArg UInt16.toNat h0
    rw [hinum] at this
    cases this
  · rw [h.direntOf_root (entries_file hj)]
    exact (hcmp _ (zero_not_mem_shortname _) (hname j hj)).mpr rfl
  · intro x hx ⟨_, hhit⟩
    rcases (by omega : x = 0 ∨ x = 1 ∨ 2 ≤ x) with rfl | rfl | hx2
    · have he : (entries files).getD 0 [] = dirent ROOTINO [46] := rfl
      rw [h.direntOf_root he, hcmp _ (by decide) (by decide)] at hhit
      exact hspecial (by rw [hhit]; exact mem_cons_self)
    · have he : (entries files).getD 1 [] = dirent ROOTINO [46, 46] := rfl
      rw [h.direntOf_root he, hcmp _ (by decide) (by decide)] at hhit
      exact hspecial (by rw [hhit]; exact mem_cons_of_mem _ mem_cons_self)
    · obtain ⟨i, rfl⟩ : ∃ i, x = i + 2 := ⟨x - 2, by omega⟩
      have hi : i < files.length := by omega
      rw [h.direntOf_root (entries_file hi), hcmp _ (zero_not_mem_shortname _) (hname i hi)] at hhit
      have hlen : (files.map fun f => shortname f.arg).length = files.length := length_map _
      have heq : (⟨j, by omega⟩ : Fin (files.map fun f => shortname f.arg).length) = ⟨i, by omega⟩ :=
        nodup_iff_injective_get.mp hnames (by simpa using hhit)
      have := Fin.mk.inj heq
      omega

section Found

variable {w : World}

theorem contentOf_file (hj : j < files.length) : contentOf files (j + 2) = (files.get ⟨j, hj⟩).bytes := by
  rw [contentOf, if_neg (ne_root j), dif_pos ⟨by omega, by omega⟩]
  rfl

theorem Finished.contents (h : Finished img files) (hj : j < files.length) :
    bytesOf img.disk (inodeOf sb img.disk (j + 2)) 0 (files.get ⟨j, hj⟩).bytes.length = (files.get ⟨j, hj⟩).bytes := by
  rw [← map_getD_range (files.get ⟨j, hj⟩).bytes, bytesOf, length_map, length_range]
  apply map_congr_left
  intro r _
  rw [Nat.zero_add, h.laid.bytes (j + 2) (by omega) (by omega), contentOf_file hj]

theorem Finished.found (h : Finished img files) (hacc : ∀ f ∈ files, Accepted f.arg)
    (hnames : (files.map fun f => shortname f.arg).Nodup) (hm : Mounted sb img.disk w) {a b : Slot} (hab : a ≠ b)
    (ha : (w.itable a).ref = 0) (hb : (w.itable b).ref = 0) (hj : j < files.length)
    (hempty : shortname (files.get ⟨j, hj⟩).arg ≠ []) (hspecial : shortname (files.get ⟨j, hj⟩).arg ∉ DOTS) (p : Pid) :
    ∃ k w₁ w₂, run kernelStep (namei sb p (SLASH :: shortname (files.get ⟨j, hj⟩).arg)) w = .done (some k) w₁ ∧
      (w₁.itable k).inum = j + 2 ∧ run kernelStep (ilock sb p k) w₁ = .done () w₂ ∧
      (w₂.itable k).din.type = T_FILE ∧ (w₂.itable k).din.mode = 6 ∧
      ∀ dst : Nat → Bool, (∀ i, dst i = true) → run kernelStep (readi sb k dst 0 (w₂.itable k).din.size) w₂ =
        .done (((files.get ⟨j, hj⟩).bytes.length : Int), (files.get ⟨j, hj⟩).bytes) w₂ := by
  have hroot : 1 < files.length + 2 := by omega
  have haccept := hacc _ (get_mem files ⟨j, hj⟩)
  obtain ⟨hinum, hhit, hnot⟩ := h.hit hacc hnames hj hspecial
  have hrootd := h.fields 1 (Nat.le_refl 1) hroot
  have hend : (j + 2) * DIRENT + DIRENT ≤ (rootBytes files).length := by
    rw [rootBytes_length, off_succ]
    exact Nat.mul_le_mul_right _ (by omega)
  have hsize : (inodeOf sb img.disk ROOTINO).size.toNat = rootSize files := h.size (Nat.le_refl 1) hroot
  have hrootsize : (rootBytes files).length ≤ rootSize files := by
    rw [rootSize]
    simp only [BSIZE]
    omega
  have htype : (inodeOf sb img.disk ROOTINO).type = T_DIR := by
    rw [hrootd]
    rfl
  have hlink : (inodeOf sb img.disk ROOTINO).nlink ≠ 0 := by
    rw [hrootd]
    exact (by decide : (1 : Int16) ≠ 0)
  obtain ⟨k, w₁, hnamei, hm1, href, _, hk⟩ := run_namei (p := p) hm hab ha hb htype hlink
    (h.solid (Nat.le_refl 1) hroot) hempty (slash_not_mem_shortname haccept) haccept.2 (by rw [hsize]; omega) hend hhit hnot
    (by rw [hinum]; exact ne_root j)
  rw [hinum] at hk
  have hfile := h.fields (j + 2) (by omega) (by omega)
  have hkind : (inodeOf sb img.disk (j + 2)).type = T_FILE := by
    have : kind (j + 2) = T_FILE := if_neg (ne_root j)
    rw [hfile, dinode, this]
  have hlock := run_ilock sb (p := p) href (hm1.lock k) (by rw [hm1.cache]; exact hm1.valid k href)
    (by rw [hm1.cache, hk, hkind]; decide)
  rw [hm1.cache, hk] at hlock
  obtain ⟨w₂, hw2⟩ : ∃ w₂, w₂ = w₁.setInode k (lockedAs (w₁.itable k) p (inodeOf sb img.disk (j + 2))) := ⟨_, rfl⟩
  have hdin : (w₂.itable k).din = inodeOf sb img.disk (j + 2) := by
    rw [hw2, World.setInode_self]
    rfl
  have hcache : w₂.cache = img.disk := by
    rw [hw2]
    exact hm1.cache
  have hlen : (inodeOf sb img.disk (j + 2)).size.toNat = (files.get ⟨j, hj⟩).bytes.length := by
    rw [h.size (by omega) (by omega), sizeOf, if_neg (ne_root j), contentOf_file hj]
  rw [← hw2] at hlock
  refine ⟨k, w₁, w₂, hnamei, hk, hlock, by rw [hdin, hkind], by rw [hdin, hfile]; rfl, fun dst hdst => ?_⟩
  have hsolid := h.solid (i := j + 2) (by omega) (by omega)
  rw [contentOf_file hj, ← hlen, ← hdin, ← hcache] at hsolid
  obtain ⟨r, hrun, hr⟩ := run_readi readsAs_kernel hsolid dst 0 (w₂.itable k).din.size (Nat.min_le_right _ _)
  have hgood : ¬((0 : UInt32) > (w₂.itable k).din.size ∨ 0 + (w₂.itable k).din.size < 0) := by
    simp
  have hcount : min (w₂.itable k).din.size.toNat ((w₂.itable k).din.size.toNat - (0 : UInt32).toNat) =
      (files.get ⟨j, hj⟩).bytes.length := by
    rw [hdin, hlen]
    exact Nat.min_self _
  rw [hrun, hr fun i _ => hdst i, readOf, if_neg hgood]
  dsimp only
  rw [hcount, hcache, hdin]
  exact congrArg (fun l => Outcome.done (_, l) w₂) (h.contents hj)

-- The kernel finds each file of the list on the image, with an inode of its own, and reads its
-- bytes.
theorem main_readable (files : List HostFile) (hn : files.length + 1 ≤ sb.ninodes - 1)
    (hacc : ∀ f ∈ files, Accepted f.arg) (hnames : (files.map fun f => shortname f.arg).Nodup)
    (hspecial : ∀ f ∈ files, shortname f.arg ≠ [] ∧ shortname f.arg ∉ DOTS)
    (hsize : ∀ f ∈ files, f.bytes.length ≤ MAXFILE * BSIZE)
    (hfit : total (contentOf files) (files.length + 2) ≤ FSSIZE) :
    ∃ img, main files = some img ∧ ∀ w, Mounted sb img.disk w →
      (∃ a b, a ≠ b ∧ (w.itable a).ref = 0 ∧ (w.itable b).ref = 0) → ∀ j (hj : j < files.length) (p : Pid),
      ∃ k w₁ w₂, run kernelStep (namei sb p (SLASH :: shortname (files.get ⟨j, hj⟩).arg)) w = .done (some k) w₁ ∧
        (w₁.itable k).inum = j + 2 ∧ run kernelStep (ilock sb p k) w₁ = .done () w₂ ∧
        (w₂.itable k).din.type = T_FILE ∧ (w₂.itable k).din.mode = 6 ∧
        ∀ dst : Nat → Bool, (∀ i, dst i = true) → run kernelStep (readi sb k dst 0 (w₂.itable k).din.size) w₂ =
          .done (((files.get ⟨j, hj⟩).bytes.length : Int), (files.get ⟨j, hj⟩).bytes) w₂ := by
  have hn : files.length ≤ 199 := by
    have : sb.ninodes = 200 := by decide
    omega
  have hlen : ∀ i < files.length + 2, (contentOf files i).length ≤ MAXFILE * BSIZE := by
    intro i hi
    rw [contentOf]
    split
    · rw [rootBytes_length]
      simp only [MAXFILE, NDIRECT, NINDIRECT, BSIZE, DIRENT, DIRSIZ]
      omega
    · split
      · exact hsize _ (get_mem _ _)
      · exact Nat.zero_le _
  obtain ⟨img, himg, hfin⟩ := (main_spec hn).of_good (not_refused hacc hlen hfit)
  refine ⟨img, himg, fun w hm hroom j hj p => ?_⟩
  obtain ⟨a, b, hab, ha, hb⟩ := hroom
  have hs := hspecial _ (get_mem files ⟨j, hj⟩)
  exact hfin.found hacc hnames hm hab ha hb hj hs.1 hs.2 p

theorem mounted_boot (disk : Nat → Block) : Mounted sb disk (boot sb disk) := by
  refine ⟨rfl, boot_lock sb disk, fun k => ?_, fun k _ hv => ?_⟩
  · rw [boot_ref]
    split <;> decide
  · simp only [boot] at hv
    split at hv <;> cases hv

theorem main_readable_cat : ∃ img k w₁ w₂, main [cat] = some img ∧
    run kernelStep (namei sb initproc [47, 99, 97, 116]) (boot sb img.disk) = .done (some k) w₁ ∧
    run kernelStep (ilock sb initproc k) w₁ = .done () w₂ ∧
    run kernelStep (readi sb k kernelDst 0 (w₂.itable k).din.size) w₂ = .done ((5 : Int), [1, 2, 3, 4, 5]) w₂ := by
  obtain ⟨img, himg, hall⟩ := main_readable [cat] (by decide) (by decide) (by decide) (by decide) (by decide) (by decide)
  have hfree : ∃ a b : Slot, a ≠ b ∧ ((boot sb img.disk).itable a).ref = 0 ∧ ((boot sb img.disk).itable b).ref = 0 :=
    ⟨1, 2, by decide, by rw [boot_ref]; rfl, by rw [boot_ref]; rfl⟩
  obtain ⟨k, w₁, w₂, hnamei, _, hlock, _, _, hread⟩ :=
    hall (boot sb img.disk) (mounted_boot img.disk) hfree 0 (by decide) initproc
  exact ⟨img, k, w₁, w₂, himg, hnamei, hlock, hread kernelDst fun _ => rfl⟩

-- The host file "_", whose name in the file system is empty.
def underscore : HostFile where
  arg := [UNDERSCORE]
  chunks := []
  arg_nul := by decide
  chunk_size := by decide

-- The path of its name is that of the root directory.
theorem not_main_readable : ∃ img k w, main [underscore] = some img ∧
    run kernelStep (namei sb initproc (SLASH :: shortname underscore.arg)) (boot sb img.disk) = .done (some k) w ∧
    (w.itable k).inum = ROOTINO ∧ (inodeOf sb img.disk ROOTINO).type = T_DIR := by
  have hfit : ¬Refused [underscore] := not_refused (by decide) (by decide) (by decide)
  have hlen : [underscore].length ≤ 199 := by decide
  obtain ⟨img, himg, hfin⟩ := (main_spec hlen).of_good hfit
  obtain ⟨k, ip, hget, hgot⟩ := run_iget (w := boot sb img.disk) ⟨1, by rw [boot_ref]; rfl⟩ ROOTINO
  have hstart : run kernelStep (startDir initproc [SLASH]) (boot sb img.disk) = .done k ((boot sb img.disk).setInode k ip) := hget
  have hwalk : run kernelStep (namex sb initproc [SLASH] false) (boot sb img.disk) =
      .done (some (k, [])) ((boot sb img.disk).setInode k ip) := (run_bind hstart).trans rfl
  refine ⟨img, k, _, himg, (run_bind hwalk).trans rfl, ?_, ?_⟩
  · rw [World.setInode_self]
    exact hgot.inum
  · rw [hfin.fields ROOTINO (Nat.le_refl 1) (by decide)]
    rfl

end Found

end Mkfs
