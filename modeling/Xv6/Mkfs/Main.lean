import Xv6.Mkfs.Append

-- The image that main builds from a list of files.

namespace Mkfs

open Fs Loc List Function

def Yields {α : Type} (r : Option α) (P : α → Prop) (bad : Prop) : Prop := (∃ a, r = some a ∧ P a) ∨ r = none ∧ bad

section Yields

variable {α β : Type} {r : Option α} {P Q : α → Prop} {bad bad' : Prop}

theorem Yields.of_some {a : α} (h : P a) : Yields (some a) P bad := .inl ⟨a, rfl, h⟩

theorem Yields.mono (h : Yields r P bad) (hP : ∀ a, P a → Q a) (hbad : bad → bad') : Yields r Q bad' := by
  rcases h with ⟨a, ha, hp⟩ | ⟨hn, hb⟩
  · exact .inl ⟨a, ha, hP a hp⟩
  · exact .inr ⟨hn, hbad hb⟩

theorem Yields.bind {f : α → Option β} {R : β → Prop} (h : Yields r P bad) (hf : ∀ a, P a → Yields (f a) R bad) :
    Yields (r >>= f) R bad := by
  rcases h with ⟨a, rfl, hp⟩ | ⟨rfl, hb⟩
  · exact hf a hp
  · exact .inr ⟨rfl, hb⟩

theorem Yields.of_eq_some {a : α} (h : Yields r P bad) (ha : r = some a) : P a := by
  rcases h with ⟨a', ha', hp⟩ | ⟨hn, _⟩
  · rw [ha] at ha'
    cases ha'
    exact hp
  · rw [ha] at hn
    cases hn

theorem Yields.of_good (h : Yields r P bad) (hgood : ¬bad) : ∃ a, r = some a ∧ P a := by
  rcases h with h | ⟨_, hb⟩
  · exact h
  · exact absurd hb hgood

end Yields

section Total

variable {m m' : Nat} {content content' : Nat → List UInt8}

-- The blocks that the inodes 1 to m - 1 take with the metadata.
def total (content : Nat → List UInt8) (m : Nat) : Nat :=
  sb.nmeta + ∑ i ∈ Finset.Ico 1 m, cost (blocks (content i).length)

def Unfit (content : Nat → List UInt8) (m : Nat) : Prop :=
  (∃ i, 1 ≤ i ∧ i < m ∧ MAXFILE * BSIZE < (content i).length) ∨ FSSIZE < total content m

theorem total_mono (hlen : ∀ i, 1 ≤ i → i < m → (content i).length ≤ (content' i).length) (hm : m ≤ m') :
    total content m ≤ total content' m' := by
  apply Nat.add_le_add_left
  calc ∑ i ∈ Finset.Ico 1 m, cost (blocks (content i).length)
      ≤ ∑ i ∈ Finset.Ico 1 m, cost (blocks (content' i).length) := by
        apply Finset.sum_le_sum
        intro i hi
        have := Finset.mem_Ico.mp hi
        exact cost_mono (blocks_mono (hlen i this.1 this.2))
    _ ≤ ∑ i ∈ Finset.Ico 1 m', cost (blocks (content' i).length) :=
        Finset.sum_le_sum_of_subset (Finset.Ico_subset_Ico_right hm)

theorem Unfit.mono (h : Unfit content m) (hlen : ∀ i, 1 ≤ i → i < m → (content i).length ≤ (content' i).length) (hm : m ≤ m') :
    Unfit content' m' := by
  rcases h with ⟨i, hi, him, hlt⟩ | h
  · exact .inl ⟨i, hi, by omega, Nat.lt_of_lt_of_le hlt (hlen i hi him)⟩
  · exact .inr (Nat.lt_of_lt_of_le h (total_mono hlen hm))

theorem total_update (content : Nat → List UInt8) {i0 : Nat} (hi0 : 1 ≤ i0) (hi0m : i0 < m) (new : List UInt8) :
    total (update content i0 new) m + cost (blocks (content i0).length) =
      total content m + cost (blocks new.length) := by
  have h := sum_update_add (fun bytes : List UInt8 => cost (blocks bytes.length)) content
    (Finset.mem_Ico.mpr ⟨hi0, hi0m⟩) new
  unfold total
  omega

theorem total_succ (content : Nat → List UInt8) (hm : 1 ≤ m) : total (update content m []) (m + 1) = total content m := by
  unfold total
  rw [Finset.sum_Ico_succ_top hm, update_self]
  have hrest : ∑ i ∈ Finset.Ico 1 m, cost (blocks (update content m [] i).length) =
      ∑ i ∈ Finset.Ico 1 m, cost (blocks (content i).length) := by
    apply Finset.sum_congr rfl
    intro i hi
    have := Finset.mem_Ico.mp hi
    rw [update_of_ne (by omega)]
  rw [hrest]
  rfl

end Total

def dinode (type : Int16) (len : Nat) (addrs : Fin (NDIRECT + 1) → UInt32) : Dinode where
  type := type
  major := 0
  minor := 0
  nlink := 1
  size := UInt32.ofNat len
  addrs := addrs
  mode := 6

-- Between two calls of iappend, the inodes 1 to m - 1 hold their contents.
structure Stored (s : Image) (m : Nat) (type : Nat → Int16) (content : Nat → List UInt8) : Prop where
  laid : Laid s m (inodeOf sb s.disk) content
  room : s.freeblock ≤ FSSIZE
  freeinode : s.freeinode = m
  pos : 1 ≤ m
  inodes : m ≤ 201
  shape : ∀ i, 1 ≤ i → i < m → Shape s.disk (inodeOf sb s.disk i) (blocks (content i).length)
  fields : ∀ i, 1 ≤ i → i < m → inodeOf sb s.disk i = dinode (type i) (content i).length (inodeOf sb s.disk i).addrs
  length : ∀ i, 1 ≤ i → i < m → (content i).length ≤ MAXFILE * BSIZE
  taken : s.freeblock = total content m
  blank : ∀ b < sb.nmeta, (∀ i, 1 ≤ i → i < m → b ≠ sb.IBLOCK i) → s.disk b = blank.disk b

variable {content : Nat → List UInt8} {s : Image}

section Laid

variable {s s' : Image} {m : Nat} {ino ino' : Nat → Dinode}

theorem Laid.addrOf_eq (h : Laid s m ino content) (hdisk : ∀ b, sb.nmeta ≤ b → s'.disk b = s.disk b) {i : Nat} (hi : 1 ≤ i)
    (him : i < m) (hino : (ino' i).addrs = (ino i).addrs) (p : Pos) :
    addrOf s'.disk (ino' i) p = addrOf s.disk (ino i) p := by
  apply addrOf_congr hino
  intro hne
  apply hdisk
  exact (h.range i hi him (.slot (Fin.last NDIRECT)) fun h0 => hne (UInt32.toNat.inj h0)).1

theorem Laid.congr (h : Laid s m ino content) (hsect : s'.sectors = s.sectors) (hfree : s'.freeblock = s.freeblock)
    (hdisk : ∀ b, sb.nmeta ≤ b → s'.disk b = s.disk b) (hino : ∀ i, 1 ≤ i → i < m → (ino' i).addrs = (ino i).addrs) :
    Laid s' m ino' content := by
  have haddr : ∀ i, 1 ≤ i → i < m → addrOf s'.disk (ino' i) = addrOf s.disk (ino i) := fun i hi him =>
    funext (h.addrOf_eq hdisk hi him (hino i hi him))
  refine ⟨hsect.trans h.sectors, by rw [hfree]; exact h.meta_le, ?_, ?_, ?_, ?_, ?_⟩
  · intro i hi him
    rw [haddr i hi him, hfree]
    exact h.range i hi him
  · intro i hi him j hj hjm
    rw [haddr i hi him, haddr j hj hjm]
    exact h.once i hi him j hj hjm
  · intro b hb hlt
    obtain ⟨i, hi, him, p, hp⟩ := h.onto b hb (by omega)
    exact ⟨i, hi, him, p, by rw [haddr i hi him, hp]⟩
  · intro i hi him o
    rw [← h.bytes i hi him o]
    apply byteOf_congr
    · intro bn
      exact congrFun (haddr i hi him) (Loc.pos bn)
    · intro bn hbn
      exact hdisk _ (h.range i hi him (Loc.pos bn) hbn).1
  · intro b hb hlt
    have := h.meta_le
    rw [hdisk b (by omega)]
    exact h.zero b (by omega) hlt

end Laid

section Inodes

variable {m i0 : Nat} {type : Nat → Int16}

variable {i : Nat} {ino : Nat → Dinode}

theorem IBLOCK_lt_nmeta (hi : i < 201) : sb.IBLOCK i < sb.nmeta := by
  have h : sb.nmeta = 234 ∧ sb.inodestart = 32 := by decide
  rw [Superblock.IBLOCK_eq]
  omega

theorem nmeta_lt : sb.nmeta < FSSIZE := by decide

theorem Laid.rsect_inode (h : Laid s m ino content) (hi : i < 201) :
    rsect s (sb.IBLOCK i) = some (s.disk (sb.IBLOCK i)) :=
  rsect_eq h (Nat.lt_trans (IBLOCK_lt_nmeta hi) nmeta_lt)

theorem Laid.winode_eq (h : Laid s m ino content) (hi : i < 201) (din : Block) :
    winode s i din = some (wsect s (sb.IBLOCK i) din) := by
  rw [winode, h.rsect_inode hi]
  rfl

theorem inodeOf_wsect_self (s : Image) (i : Nat) (din : Block) : inodeOf sb (wsect s (sb.IBLOCK i) din).disk i = din.dinode := by
  simp only [inodeOf, wsect, update_self]

theorem inodeOf_wsect_of_ne (s : Image) {j : Nat} (hne : j ≠ i) (din : Block) :
    inodeOf sb (wsect s (sb.IBLOCK i) din).disk j = inodeOf sb s.disk j := by
  have : sb.IBLOCK j ≠ sb.IBLOCK i := fun heq => hne (sb.IBLOCK_inj heq)
  simp only [inodeOf, wsect, update_of_ne this]

theorem Laid.sectors_wsect (h : Laid s m ino content) {b : Nat} (hb : b < sb.nmeta) (data : Block) :
    (wsect s b data).sectors = s.sectors := by
  have := h.sectors
  have := nmeta_lt
  simp only [wsect]
  omega

theorem Stored.size_eq (h : Stored s m type content) (hi : 1 ≤ i) (him : i < m) :
    (inodeOf sb s.disk i).size.toNat = (content i).length := by
  have hlen := h.length i hi him
  rw [h.fields i hi him, dinode, UInt32.toNat_ofNat']
  apply Nat.mod_eq_of_lt
  simp only [MAXFILE, NDIRECT, NINDIRECT, BSIZE] at hlen
  omega

theorem Stored.append (h : Stored s m type content) (hi0 : 1 ≤ i0) (hi0m : i0 < m) {bytes : List UInt8} {s1 : Image} {din1 : Block}
    (ha : Appended s m (inodeOf sb s.disk) content i0 bytes s1 din1) :
    Stored (wsect s1 (sb.IBLOCK i0) (din1.setDinode { din1.dinode with size := UInt32.ofNat (content i0 ++ bytes).length })) m type
      (update content i0 (content i0 ++ bytes)) := by
  have hlt : i0 < 201 := Nat.lt_of_lt_of_le hi0m h.inodes
  have hmeta := IBLOCK_lt_nmeta hlt
  obtain ⟨d, hd⟩ : ∃ d : Dinode, d = { din1.dinode with size := UInt32.ofNat (content i0 ++ bytes).length } := ⟨_, rfl⟩
  rw [← hd]
  obtain ⟨s', hs'⟩ : ∃ s', s' = wsect s1 (sb.IBLOCK i0) (din1.setDinode d) := ⟨_, rfl⟩
  have hself : inodeOf sb s'.disk i0 = d := by
    rw [hs', inodeOf_wsect_self, Block.dinode_setDinode]
  have hother : ∀ i, i ≠ i0 → i < m → inodeOf sb s'.disk i = inodeOf sb s.disk i := by
    intro i hne him
    rw [hs', inodeOf_wsect_of_ne s1 hne]
    simp only [inodeOf]
    rw [ha.grown.metadata _ (IBLOCK_lt_nmeta (Nat.lt_of_lt_of_le him h.inodes))]
  have hdata : ∀ b, sb.nmeta ≤ b → s'.disk b = s1.disk b := by
    intro b hb
    rw [hs']
    exact update_of_ne (by omega) _ _
  have hino : ∀ i, 1 ≤ i → i < m → (inodeOf sb s'.disk i).addrs = (update (inodeOf sb s.disk) i0 din1.dinode i).addrs := by
    intro i _ him
    by_cases hne : i = i0
    · subst hne
      rw [update_self, hself, hd]
    · rw [update_of_ne hne, hother i hne him]
  have hfree : s'.freeblock = s1.freeblock := by rw [hs']; rfl
  have hlaid := ha.grown.laid
  have haddr := fun i hi him => hlaid.addrOf_eq hdata (i := i) hi him (hino i hi him)
  rw [← hs']
  refine ⟨hlaid.congr ?_ hfree hdata hino, by rw [hfree]; exact ha.room, ?_, h.pos, h.inodes, ?_, ?_, ?_, ?_, ?_⟩
  · rw [hs', hlaid.sectors_wsect hmeta]
  · rw [hs', ← h.freeinode, ← ha.grown.freeinode]
    rfl
  · intro i hi him p
    rw [haddr i hi him p]
    by_cases hne : i = i0
    · subst hne
      rw [update_self, update_self]
      exact ha.shape p
    · have := ha.grown.addrs i hne hi him p
      rw [this, update_of_ne hne]
      exact h.shape i hi him p
  · intro i hi him
    by_cases hne : i = i0
    · subst hne
      have hf := ha.grown.fields
      rw [update_self, h.fields i hi him] at hf
      rw [hself, hd, update_self, hf]
      rfl
    · rw [hother i hne him, update_of_ne hne]
      exact h.fields i hi him
  · intro i hi him
    by_cases hne : i = i0
    · subst hne
      rw [update_self]
      exact ha.length
    · rw [update_of_ne hne]
      exact h.length i hi him
  · have hup := total_update content hi0 hi0m (content i0 ++ bytes)
    have := ha.taken
    have := h.taken
    omega
  · intro b hb hout
    have hne : b ≠ sb.IBLOCK i0 := hout i0 hi0 hi0m
    rw [← h.blank b hb hout, ← ha.grown.metadata b hb, hs']
    exact update_of_ne hne _ _

theorem iappend_spec (h : Stored s m type content) (hi0 : 1 ≤ i0) (hi0m : i0 < m) (bytes : List UInt8) :
    Yields (iappend s i0 bytes) (fun s' => Stored s' m type (update content i0 (content i0 ++ bytes)))
      (Unfit (update content i0 (content i0 ++ bytes)) m) := by
  have hlt : i0 < 201 := Nat.lt_of_lt_of_le hi0m h.inodes
  have hread : rinode s i0 = some (s.disk (sb.IBLOCK i0)) := h.laid.rsect_inode hlt
  have hsize : (s.disk (sb.IBLOCK i0)).dinode.size.toNat = (content i0).length := h.size_eq hi0 hi0m
  rw [iappend, hread]
  simp only [Option.bind_eq_bind, Option.bind_some, hsize]
  rcases appendLoop_spec hi0 hi0m bytes.length s (inodeOf sb s.disk) content (s.disk (sb.IBLOCK i0)) bytes h.laid rfl
    (h.shape i0 hi0 hi0m) h.room (h.length i0 hi0 hi0m) (Nat.le_refl _) with ⟨s1, din1, heq, ha⟩ | ⟨heq, hmuch⟩
  · rw [heq]
    refine .inl ⟨_, ?_, h.append hi0 hi0m ha⟩
    exact ha.grown.laid.winode_eq hlt _
  rw [heq]
  refine .inr ⟨rfl, ?_⟩
  rcases hmuch with hmuch | hmuch
  · refine .inl ⟨i0, hi0, hi0m, ?_⟩
    rw [update_self, length_append]
    exact hmuch
  · have hup := total_update content hi0 hi0m (content i0 ++ bytes)
    have := h.taken
    rw [length_append] at hup
    exact .inr (by omega)

theorem appendChunks_spec (hi0 : 1 ≤ i0) (hi0m : i0 < m) (chunks : List (List UInt8)) (h : Stored s m type content) :
    Yields (appendChunks s i0 chunks)
      (fun s' => Stored s' m type (update content i0 (content i0 ++ chunks.flatten)))
      (Unfit (update content i0 (content i0 ++ chunks.flatten)) m) := by
  induction chunks generalizing s content with
  | nil =>
    apply Yields.of_some
    rw [flatten_nil, append_nil, update_eq_self]
    exact h
  | cons c cs ih =>
    have hgrow : ∀ i, 1 ≤ i → i < m → (update content i0 (content i0 ++ c) i).length ≤
        (update content i0 (content i0 ++ (c :: cs).flatten) i).length := by
      intro i _ _
      by_cases hne : i = i0
      · subst hne
        simp only [update_self, length_append, flatten_cons]
        omega
      · simp only [update_of_ne hne, Nat.le_refl]
    have hfirst := (iappend_spec h hi0 hi0m c).mono (fun _ hs => hs) fun hbad => hbad.mono hgrow (Nat.le_refl m)
    rw [appendChunks, foldlM_cons]
    refine hfirst.bind fun s' hs' => ?_
    have hrest := ih hs'
    rwa [update_self, update_idem, append_assoc] at hrest

theorem ialloc_spec (h : Stored s m type content) (hm : m < 201) :
    ∃ s', ialloc s (type m) = some (m, s') ∧ Stored s' (m + 1) type (update content m []) := by
  have hmeta := IBLOCK_lt_nmeta hm
  obtain ⟨d, hd⟩ : ∃ d : Dinode, d = { Dinode.zero with type := type m, nlink := 1, size := 0, mode := 6 } := ⟨_, rfl⟩
  obtain ⟨s', hs'⟩ : ∃ s', s' = wsect { s with freeinode := m + 1 } (sb.IBLOCK m) (Block.zero.setDinode d) := ⟨_, rfl⟩
  have hcongr : Laid { s with freeinode := m + 1 } m (inodeOf sb s.disk) content :=
    h.laid.congr rfl rfl (fun _ _ => rfl) fun _ _ _ => rfl
  have heq : ialloc s (type m) = some (m, s') := by
    rw [ialloc, h.freeinode, ← hd, hcongr.winode_eq hm, ← hs']
    rfl
  have hself : inodeOf sb s'.disk m = d := by
    rw [hs', inodeOf_wsect_self, Block.dinode_setDinode]
  have hother : ∀ i, i ≠ m → inodeOf sb s'.disk i = inodeOf sb s.disk i := by
    intro i hne
    rw [hs', inodeOf_wsect_of_ne _ hne]
  have hdata : ∀ b, sb.nmeta ≤ b → s'.disk b = s.disk b := by
    intro b hb
    rw [hs']
    exact update_of_ne (by omega) _ _
  have hlaid : Laid s' m (inodeOf sb s'.disk) content := by
    apply h.laid.congr _ (by rw [hs']; rfl) hdata
    · intro i _ him
      rw [hother i (by omega)]
    · rw [hs', hcongr.sectors_wsect hmeta]
  -- a new inode has no addresses
  have hzero : ∀ p, addrOf s'.disk (inodeOf sb s'.disk m) p = 0 := by
    intro p
    rw [hself, hd]
    cases p with
    | slot j => rfl
    | entry e => rfl
  have hcase : ∀ i, i < m + 1 → i = m ∨ i < m := by omega
  refine ⟨s', heq, ⟨⟨hlaid.sectors, hlaid.meta_le, ?_, ?_, ?_, ?_, hlaid.zero⟩, ?_, ?_, by omega, by omega, ?_, ?_, ?_, ?_, ?_⟩⟩
  · intro i hi him p hp
    rcases hcase i him with rfl | hlt
    · exact absurd (hzero p) hp
    · exact hlaid.range i hi hlt p hp
  · intro i hi him j hj hjm p q hpq hp
    rcases hcase i him with rfl | hlt
    · exact absurd (hzero p) hp
    · rcases hcase j hjm with rfl | hjlt
      · rw [hpq, hzero q] at hp
        exact absurd rfl hp
      · exact hlaid.once i hi hlt j hj hjlt p q hpq hp
  · intro b hb hlt
    obtain ⟨i, hi, him, p, hp⟩ := hlaid.onto b hb hlt
    exact ⟨i, hi, by omega, p, hp⟩
  · intro i hi him o
    rcases hcase i him with rfl | hlt
    · rw [update_self, Fs.byteOf, blockOf, hzero, if_pos rfl]
      rfl
    · rw [update_of_ne (by omega)]
      exact hlaid.bytes i hi hlt o
  · rw [hs']
    exact h.room
  · rw [hs']
    rfl
  · intro i hi him p
    rcases hcase i him with rfl | hlt
    · rw [hzero, update_self]
      simp [blocks, BSIZE]
    · rw [update_of_ne (by omega), hother i (by omega)]
      rw [← hother i (by omega), h.laid.addrOf_eq hdata hi hlt (by rw [hother i (by omega)]) p]
      exact h.shape i hi hlt p
  · intro i hi him
    rcases hcase i him with rfl | hlt
    · rw [hself, update_self, hd]
      rfl
    · rw [update_of_ne (by omega), hother i (by omega)]
      exact h.fields i hi hlt
  · intro i hi him
    rcases hcase i him with rfl | hlt
    · rw [update_self]
      exact Nat.zero_le _
    · rw [update_of_ne (by omega)]
      exact h.length i hi hlt
  · rw [total_succ content h.pos, ← h.taken, hs']
    rfl
  · intro b hb hout
    rw [← h.blank b hb fun i hi him => hout i hi (by omega), hs']
    exact update_of_ne (hout m h.pos (by omega)) _ _

end Inodes

-- The entries of the root directory: itself, itself as its parent, and the files in their order.
def rootBytes (files : List HostFile) : List UInt8 :=
  DOTS.flatMap (dirent ROOTINO) ++ (files.zipIdx 2).flatMap fun f => dirent f.2 (shortname f.1.arg)

def contentOf (files : List HostFile) (i : Nat) : List UInt8 :=
  if i = ROOTINO then rootBytes files
  else if h : 2 ≤ i ∧ i - 2 < files.length then (files.get ⟨i - 2, h.2⟩).bytes
  else []

def kind (i : Nat) : Int16 := if i = ROOTINO then T_DIR else T_FILE

-- A list of files that main objects to, or that is too large.
def Refused (files : List HostFile) : Prop :=
  (∃ f ∈ files, ¬Accepted f.arg) ∨ Unfit (contentOf files) (files.length + 2)

section Files

variable {files rest : List HostFile} {f : HostFile}

theorem rootBytes_concat (files : List HostFile) (f : HostFile) :
    rootBytes (files ++ [f]) = rootBytes files ++ dirent (files.length + 2) (shortname f.arg) := by
  simp [rootBytes, zipIdx_append, append_assoc, Nat.add_comm]

theorem ne_root (n : Nat) : n + 2 ≠ ROOTINO := by
  simp only [ROOTINO]
  omega

theorem contentOf_new (files : List HostFile) : contentOf files (files.length + 2) = [] := by
  rw [contentOf, if_neg (ne_root _), dif_neg (by omega)]

theorem contentOf_concat (files : List HostFile) (f : HostFile) :
    update (update (contentOf files) ROOTINO (rootBytes files ++ dirent (files.length + 2) (shortname f.arg)))
      (files.length + 2) f.bytes = contentOf (files ++ [f]) := by
  funext i
  by_cases hnew : i = files.length + 2
  · subst hnew
    rw [update_self, contentOf, if_neg (ne_root _), dif_pos (by simp)]
    simp
  rw [update_of_ne hnew]
  by_cases hroot : i = ROOTINO
  · subst hroot
    rw [update_self, contentOf, if_pos rfl, rootBytes_concat]
  rw [update_of_ne hroot, contentOf, contentOf, if_neg hroot, if_neg hroot]
  by_cases hi : 2 ≤ i ∧ i - 2 < files.length
  · rw [dif_pos hi, dif_pos ⟨hi.1, by rw [length_append]; omega⟩]
    simp [getElem_append_left hi.2]
  · rw [dif_neg hi, dif_neg (by rw [length_append, length_singleton]; omega)]

theorem rootBytes_length_le (files rest : List HostFile) : (rootBytes files).length ≤ (rootBytes (files ++ rest)).length := by
  simp only [rootBytes, zipIdx_append, flatMap_append, length_append]
  omega

theorem contentOf_length_le (files rest : List HostFile) (i : Nat) :
    (contentOf files i).length ≤ (contentOf (files ++ rest) i).length := by
  unfold contentOf
  by_cases hroot : i = ROOTINO
  · rw [if_pos hroot, if_pos hroot]
    exact rootBytes_length_le files rest
  rw [if_neg hroot, if_neg hroot]
  by_cases hi : 2 ≤ i ∧ i - 2 < files.length
  · rw [dif_pos hi, dif_pos ⟨hi.1, by rw [length_append]; omega⟩]
    simp [getElem_append_left hi.2]
  · rw [dif_neg hi]
    exact Nat.zero_le _

theorem Refused.append (h : Refused files) (rest : List HostFile) : Refused (files ++ rest) := by
  rcases h with ⟨f, hf, hbad⟩ | h
  · exact .inl ⟨f, mem_append_left _ hf, hbad⟩
  · exact .inr (h.mono (fun i _ _ => contentOf_length_le files rest i) (by rw [length_append]; omega))

theorem addFile_spec (h : Stored s (files.length + 2) kind (contentOf files)) (hn : files.length < 199) (f : HostFile) :
    Yields (addFile s f) (fun s' => Stored s' ((files ++ [f]).length + 2) kind (contentOf (files ++ [f])))
      (Refused (files ++ [f])) := by
  rw [addFile]
  by_cases hacc : Accepted f.arg
  · rw [if_pos hacc]
    obtain ⟨s1, heq, h1⟩ := ialloc_spec h (by omega)
    have hkind : kind (files.length + 2) = T_FILE := if_neg (ne_root _)
    rw [hkind] at heq
    rw [← contentOf_new files, update_eq_self] at h1
    rw [heq]
    simp only [Option.bind_eq_bind, Option.bind_some]
    have hlen : (files ++ [f]).length + 2 = files.length + 2 + 1 := by simp
    have hroot : contentOf files ROOTINO = rootBytes files := if_pos rfl
    have hrootlt : ROOTINO < files.length + 2 + 1 := by simp only [ROOTINO]; omega
    have happ := iappend_spec h1 (Nat.le_refl 1) hrootlt (dirent (files.length + 2) (shortname f.arg))
    rw [hroot] at happ
    have hbad : Unfit (update (contentOf files) ROOTINO (rootBytes files ++ dirent (files.length + 2) (shortname f.arg)))
        (files.length + 2 + 1) → Refused (files ++ [f]) := by
      intro hbad
      right
      rw [hlen, ← contentOf_concat]
      apply hbad.mono _ (Nat.le_refl _)
      intro i _ _
      by_cases hnew : i = files.length + 2
      · subst hnew
        rw [update_of_ne (ne_root _), contentOf_new]
        exact Nat.zero_le _
      · rw [update_of_ne hnew]
    apply (happ.mono (fun _ hs => hs) hbad).bind
    intro s2 h2
    have hnew : update (contentOf files) ROOTINO (rootBytes files ++ dirent (files.length + 2) (shortname f.arg))
        (files.length + 2) = [] := by
      rw [update_of_ne (ne_root _), contentOf_new]
    have hch := appendChunks_spec (by omega : 1 ≤ files.length + 2) (by omega) f.chunks h2
    rw [hnew, nil_append] at hch
    change Yields _ (fun s' => Stored s' _ _ (update _ _ f.bytes)) (Unfit (update _ _ f.bytes) _) at hch
    rw [contentOf_concat, ← hlen] at hch
    exact hch.mono (fun _ hs => hs) .inr
  · rw [if_neg hacc]
    exact .inr ⟨rfl, .inl ⟨f, by simp, hacc⟩⟩

theorem addFiles_spec (files rest : List HostFile) (h : Stored s (files.length + 2) kind (contentOf files))
    (hn : files.length + rest.length ≤ 199) : Yields (rest.foldlM addFile s)
      (fun s' => Stored s' ((files ++ rest).length + 2) kind (contentOf (files ++ rest))) (Refused (files ++ rest)) := by
  induction rest generalizing s files with
  | nil =>
    apply Yields.of_some
    rw [append_nil]
    exact h
  | cons f rest ih =>
    rw [length_cons] at hn
    have hsplit : files ++ f :: rest = files ++ [f] ++ rest := by simp
    rw [foldlM_cons, hsplit]
    refine ((addFile_spec h (by omega) f).mono (fun _ hs => hs) fun hbad => hbad.append rest).bind fun s1 h1 => ?_
    exact ih _ h1 (by rw [length_append, length_singleton]; omega)

theorem stored_blank : Stored blank 1 kind fun _ => [] := by
  have hnone : ∀ {P : Nat → Prop} i, 1 ≤ i → i < 1 → P i := by
    intro P i hi him
    omega
  have hdisk : ∀ b, b ≠ 1 → blank.disk b = Block.zero := fun b hb => update_of_ne hb _ _
  refine ⟨⟨by decide, Nat.le_refl _, fun i hi him => by omega, fun i hi him => by omega, fun b hb hlt => ?_,
    fun i hi him => by omega, fun b hb _ => ?_⟩, by decide, rfl, Nat.le_refl _, by decide, fun i hi him => by omega,
    fun i hi him => by omega, fun i hi him => by omega, rfl, fun _ _ _ => rfl⟩
  · exact absurd hlt (Nat.not_lt.mpr hb)
  · have : 1 < sb.nmeta := by decide
    exact hdisk b (by change sb.nmeta ≤ b at hb; omega)

theorem makeRoot_spec : Yields (makeRoot blank) (fun s => Stored s 2 kind (contentOf [])) (Refused []) := by
  obtain ⟨s1, heq, h1⟩ := ialloc_spec stored_blank (by decide)
  have hnil : update (fun _ => ([] : List UInt8)) 1 [] = fun _ => [] := update_eq_self _ _
  rw [hnil] at h1
  have hroot : kind 1 = T_DIR := rfl
  rw [hroot] at heq
  rw [makeRoot, heq]
  simp only [Option.bind_eq_bind, Option.bind_some, if_pos]
  -- the two entries, each as a chunk
  have happ := appendChunks_spec (Nat.le_refl 1) (by decide) (DOTS.map (dirent ROOTINO)) h1
  have hcontent : update (fun _ => ([] : List UInt8)) 1 ([] ++ (DOTS.map (dirent ROOTINO)).flatten) = contentOf [] := by
    funext i
    by_cases hi : i = 1
    · subst hi
      rw [update_self, contentOf, if_pos rfl]
      rfl
    · rw [update_of_ne hi, contentOf, if_neg hi, dif_neg (fun h => Nat.not_lt_zero _ h.2)]
  rw [hcontent, appendChunks, foldlM_map] at happ
  exact happ.mono (fun _ hs => hs) .inr

end Files

section Finish

variable {s img : Image} {files : List HostFile}

def rootSize (files : List HostFile) : Nat := ((rootBytes files).length / BSIZE + 1) * BSIZE

def sizeOf (files : List HostFile) (i : Nat) : Nat := if i = ROOTINO then rootSize files else (contentOf files i).length

structure Finished (img : Image) (files : List HostFile) : Prop where
  laid : Laid img (files.length + 2) (inodeOf sb img.disk) (contentOf files)
  room : img.freeblock ≤ FSSIZE
  freeinode : img.freeinode = files.length + 2
  inodes : files.length ≤ 199
  shape : ∀ i, 1 ≤ i → i < files.length + 2 → Shape img.disk (inodeOf sb img.disk i) (blocks (contentOf files i).length)
  fields : ∀ i, 1 ≤ i → i < files.length + 2 →
    inodeOf sb img.disk i = dinode (kind i) (sizeOf files i) (inodeOf sb img.disk i).addrs
  length : ∀ i, 1 ≤ i → i < files.length + 2 → (contentOf files i).length ≤ MAXFILE * BSIZE
  bitmap : img.disk sb.bmapstart = bitmap img.freeblock
  blank : ∀ b < sb.nmeta, b ≠ sb.bmapstart → (∀ i, 1 ≤ i → i < files.length + 2 → b ≠ sb.IBLOCK i) →
    img.disk b = blank.disk b

theorem finish_spec (h : Stored s (files.length + 2) kind (contentOf files)) :
    ∃ s' img, fixRoot s = some s' ∧ balloc s' s'.freeblock = some img ∧ Finished img files := by
  have hle : files.length ≤ 199 := by
    have := h.inodes
    omega
  have hrootlt : 1 < files.length + 2 := by omega
  have hsize : (s.disk (sb.IBLOCK ROOTINO)).dinode.size.toNat = (rootBytes files).length := h.size_eq (Nat.le_refl 1) hrootlt
  obtain ⟨din, hdin⟩ : ∃ din : Block, din = (s.disk (sb.IBLOCK ROOTINO)).setDinode
      { (s.disk (sb.IBLOCK ROOTINO)).dinode with size := UInt32.ofNat (rootSize files) } := ⟨_, rfl⟩
  obtain ⟨s1, hs1⟩ : ∃ s1, s1 = wsect s (sb.IBLOCK ROOTINO) din := ⟨_, rfl⟩
  obtain ⟨img, himg⟩ : ∃ img, img = wsect s1 sb.bmapstart (Mkfs.bitmap s1.freeblock) := ⟨_, rfl⟩
  have hfix : fixRoot s = some s1 := by
    have hread : rinode s ROOTINO = some (s.disk (sb.IBLOCK ROOTINO)) := h.laid.rsect_inode (by decide)
    rw [fixRoot, hread]
    simp only [Option.bind_eq_bind, Option.bind_some, hsize]
    rw [h.laid.winode_eq (by decide), hs1, hdin]
    rfl
  have hfree : s1.freeblock = s.freeblock ∧ img.freeblock = s.freeblock := by
    rw [himg, hs1]
    exact ⟨rfl, rfl⟩
  have hused : s1.freeblock < BPB := by
    have := h.room
    have : FSSIZE < BPB := by decide
    omega
  have hballoc : balloc s1 s1.freeblock = some img := by
    rw [balloc, if_pos hused, himg]
  have hinode : ∀ i, i < files.length + 2 → sb.IBLOCK i ≠ sb.bmapstart := by
    intro i hi
    have : sb.bmapstart = 233 ∧ sb.inodestart = 32 := by decide
    rw [Superblock.IBLOCK_eq]
    omega
  have hself : inodeOf sb img.disk ROOTINO = { inodeOf sb s.disk ROOTINO with size := UInt32.ofNat (rootSize files) } := by
    have hi : inodeOf sb img.disk ROOTINO = inodeOf sb s1.disk ROOTINO := by
      rw [himg]
      simp only [inodeOf, wsect, update_of_ne (hinode 1 hrootlt)]
    rw [hi, hs1, inodeOf_wsect_self, hdin, Block.dinode_setDinode]
    rfl
  have hother : ∀ i, i ≠ ROOTINO → i < files.length + 2 → inodeOf sb img.disk i = inodeOf sb s.disk i := by
    intro i hne hi
    have hi : inodeOf sb img.disk i = inodeOf sb s1.disk i := by
      rw [himg]
      simp only [inodeOf, wsect, update_of_ne (hinode i hi)]
    rw [hi, hs1, inodeOf_wsect_of_ne _ hne]
  have hblock : ∀ b, b ≠ sb.IBLOCK ROOTINO → b ≠ sb.bmapstart → img.disk b = s.disk b := by
    intro b hb hb'
    rw [himg, hs1]
    simp only [wsect, update_of_ne hb, update_of_ne hb']
  have hdata : ∀ b, sb.nmeta ≤ b → img.disk b = s.disk b := by
    intro b hb
    have : sb.bmapstart < sb.nmeta := sb.bmapstart_lt
    have : sb.IBLOCK ROOTINO < sb.nmeta := IBLOCK_lt_nmeta (by decide)
    exact hblock b (by omega) (by omega)
  have haddrs : ∀ i, 1 ≤ i → i < files.length + 2 → (inodeOf sb img.disk i).addrs = (inodeOf sb s.disk i).addrs := by
    intro i _ hi
    by_cases hne : i = ROOTINO
    · rw [hne, hself]
    · rw [hother i hne hi]
  have hsect : img.sectors = s.sectors := by
    have hs : s1.sectors = s.sectors := by
      rw [hs1, h.laid.sectors_wsect (IBLOCK_lt_nmeta (by decide))]
    rw [himg, ← hs]
    have := h.laid.sectors
    have : sb.bmapstart < FSSIZE := by decide
    simp only [wsect]
    omega
  refine ⟨s1, img, hfix, hballoc, ⟨h.laid.congr hsect hfree.2 hdata haddrs, ?_, ?_, hle, ?_, ?_, h.length, ?_, ?_⟩⟩
  · rw [hfree.2]
    exact h.room
  · rw [himg, hs1]
    exact h.freeinode
  · intro i hi him p
    rw [h.laid.addrOf_eq hdata hi him (haddrs i hi him) p]
    exact h.shape i hi him p
  · intro i hi him
    by_cases hne : i = ROOTINO
    · subst hne
      rw [hself, h.fields _ hi him]
      rfl
    · rw [hother i hne him, sizeOf, if_neg hne]
      exact h.fields i hi him
  · rw [hfree.2, ← hfree.1, himg]
    simp only [wsect, update_self]
  · intro b hb hmap hout
    rw [hblock b (hout ROOTINO (Nat.le_refl 1) hrootlt) hmap]
    exact h.blank b hb hout

theorem main_spec (hn : files.length ≤ 199) : Yields (main files) (fun img => Finished img files) (Refused files) := by
  have hroot := makeRoot_spec.mono (fun _ hs => hs) fun hbad => Refused.append hbad files
  rw [nil_append] at hroot
  rw [main]
  apply hroot.bind
  intro s0 h₀
  have hfiles := addFiles_spec [] files h₀ (by rw [length_nil]; omega)
  rw [nil_append] at hfiles
  apply hfiles.bind
  intro s h
  obtain ⟨s', img, hfix, hballoc, hfin⟩ := finish_spec h
  rw [hfix]
  exact .inl ⟨img, hballoc, hfin⟩

end Finish

end Mkfs
