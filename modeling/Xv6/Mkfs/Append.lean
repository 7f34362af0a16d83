import Xv6.Mkfs
import Xv6.Fs.Image

-- What iappend makes of the image.

namespace Mkfs

open Fs Loc List Function

section Blocks

variable {c c' : Nat → Block} {d d' : Dinode}

theorem addrOf_congr (hd : d'.addrs = d.addrs) (hc : d.addrs (Fin.last NDIRECT) ≠ 0 →
      c' (d.addrs (Fin.last NDIRECT)).toNat = c (d.addrs (Fin.last NDIRECT)).toNat) (p : Pos) :
    addrOf c' d' p = addrOf c d p := by
  cases p with
  | slot j => simp only [addrOf, hd]
  | entry e =>
    simp only [addrOf, hd]
    split
    · rfl
    · rename_i hne
      rw [hc hne]

theorem byteOf_congr (ha : ∀ bn, blockOf c' d' bn = blockOf c d bn)
    (hc : ∀ bn, blockOf c d bn ≠ 0 → c' (blockOf c d bn) = c (blockOf c d bn)) (o : Nat) :
    Fs.byteOf c' d' o = Fs.byteOf c d o := by
  simp only [Fs.byteOf, ha]
  split
  · rfl
  · rename_i hne
    rw [hc _ hne]

end Blocks

def first : Pos → Nat
  | .slot j => j.val
  | .entry e => NDIRECT + e

theorem first_pos (bn : Nat) : first (pos bn) = bn := by
  unfold pos
  split
  · rfl
  · simp only [first]
    omega

-- The blocks of a file with `n` data blocks, with the indirect block.
def cost (n : Nat) : Nat := n + if NDIRECT < n then 1 else 0

def blocks (len : Nat) : Nat := (len + BSIZE - 1) / BSIZE

-- A file of `n` blocks has an address in each place up to there.
def Shape (c : Nat → Block) (d : Dinode) (n : Nat) : Prop := ∀ p, addrOf c d p ≠ 0 ↔ first p < n

-- The inodes 1 to m - 1, as `ino` has them, name the blocks from the metadata up to
-- freeblock, each one once. Their contents are padded with zeros.
structure Laid (s : Image) (m : Nat) (ino : Nat → Dinode) (content : Nat → List UInt8) : Prop where
  sectors : s.sectors = FSSIZE
  meta_le : sb.nmeta ≤ s.freeblock
  range : ∀ i, 1 ≤ i → i < m → ∀ p, addrOf s.disk (ino i) p ≠ 0 →
    sb.nmeta ≤ addrOf s.disk (ino i) p ∧ addrOf s.disk (ino i) p < s.freeblock
  once : ∀ i, 1 ≤ i → i < m → ∀ j, 1 ≤ j → j < m → ∀ p q,
    addrOf s.disk (ino i) p = addrOf s.disk (ino j) q → addrOf s.disk (ino i) p ≠ 0 → i = j ∧ p = q
  onto : ∀ b, sb.nmeta ≤ b → b < s.freeblock → ∃ i, 1 ≤ i ∧ i < m ∧ ∃ p, addrOf s.disk (ino i) p = b
  bytes : ∀ i, 1 ≤ i → i < m → ∀ o, Fs.byteOf s.disk (ino i) o = (content i).getD o 0
  zero : ∀ b, s.freeblock ≤ b → b < FSSIZE → s.disk b = Block.zero

theorem Laid.free_pos {s : Image} {m : Nat} {ino : Nat → Dinode} {content : Nat → List UInt8} (h : Laid s m ino content) :
    0 < s.freeblock :=
  Nat.lt_of_lt_of_le (nmeta_pos sb) h.meta_le

variable {a e ind : Nat} {j : Fin (NDIRECT + 1)}

variable {s s' : Image} {content : Nat → List UInt8} {din : Block}

section Attach

variable {m i0 : Nat} {ino ino' : Nat → Dinode} {p0 : Pos}

-- The next free block is entered at a place that was empty.
structure Attach (s s' : Image) (m : Nat) (ino ino' : Nat → Dinode) (i0 : Nat) (p0 : Pos) : Prop where
  sectors : s'.sectors = s.sectors
  freeblock : s'.freeblock = s.freeblock + 1
  empty : addrOf s.disk (ino i0) p0 = 0
  addr_self : addrOf s'.disk (ino' i0) p0 = s.freeblock
  addr_other : ∀ i, 1 ≤ i → i < m → ∀ p, (i = i0 → p ≠ p0) → addrOf s'.disk (ino' i) p = addrOf s.disk (ino i) p
  -- only the indirect block of the inode may have changed
  disk : ∀ b, b ≠ addrOf s.disk (ino i0) (.slot (Fin.last NDIRECT)) ∨ b = 0 → s'.disk b = s.disk b

theorem Attach.ne_zero_iff (ha : Attach s s' m ino ino' i0 p0) (hi0 : 1 ≤ i0) (hi0m : i0 < m) (hpos : 0 < s.freeblock)
    (p : Pos) : addrOf s'.disk (ino' i0) p ≠ 0 ↔ addrOf s.disk (ino i0) p ≠ 0 ∨ p = p0 := by
  by_cases hp : p = p0
  · subst hp
    rw [ha.addr_self]
    exact iff_of_true (by omega) (.inr rfl)
  · rw [ha.addr_other i0 hi0 hi0m p fun _ => hp]
    simp [hp]

theorem toNat_ofNat_of_le (h : a ≤ FSSIZE) : (UInt32.ofNat a).toNat = a := by
  rw [UInt32.toNat_ofNat']
  exact Nat.mod_eq_of_lt (by simp only [FSSIZE] at h; omega)

variable (h : Laid s m ino content) (hi0 : 1 ≤ i0) (hi0m : i0 < m)

include h hi0 hi0m

theorem Laid.attach (ha : Attach s s' m ino ino' i0 p0) (hroom : s.freeblock < FSSIZE) : Laid s' m ino' content := by
  have hpos := h.free_pos
  have hcases : ∀ i, 1 ≤ i → i < m → ∀ p, (i = i0 ∧ p = p0 ∧ addrOf s'.disk (ino' i) p = s.freeblock) ∨
        ((i = i0 → p ≠ p0) ∧ addrOf s'.disk (ino' i) p = addrOf s.disk (ino i) p) := by
    intro i hi him p
    by_cases hip : i = i0 ∧ p = p0
    · obtain ⟨rfl, rfl⟩ := hip
      exact .inl ⟨rfl, rfl, ha.addr_self⟩
    · have hne : i = i0 → p ≠ p0 := fun hi' hp' => hip ⟨hi', hp'⟩
      exact .inr ⟨hne, ha.addr_other i hi him p hne⟩
  have hind : addrOf s.disk (ino i0) (.slot (Fin.last NDIRECT)) ≠ 0 →
      addrOf s.disk (ino i0) (.slot (Fin.last NDIRECT)) < s.freeblock := fun hne => (h.range i0 hi0 hi0m _ hne).2
  refine ⟨ha.sectors.trans h.sectors, ?_, ?_, ?_, ?_, ?_, ?_⟩
  · have := h.meta_le
    rw [ha.freeblock]
    omega
  · intro i hi him p hp
    rw [ha.freeblock]
    rcases hcases i hi him p with ⟨-, -, heq⟩ | ⟨-, heq⟩
    · have := h.meta_le
      rw [heq]
      omega
    · rw [heq] at hp ⊢
      have := h.range i hi him p hp
      omega
  · intro i hi him j hj hjm p q heq hne
    rcases hcases i hi him p with ⟨rfl, rfl, hp⟩ | ⟨-, hp⟩ <;> rcases hcases j hj hjm q with ⟨rfl, rfl, hq⟩ | ⟨-, hq⟩
    · exact ⟨rfl, rfl⟩
    · rw [hp, hq] at heq
      have := (h.range j hj hjm q (by omega)).2
      omega
    · rw [hp, hq] at heq
      rw [hp] at hne
      have := (h.range i hi him p hne).2
      omega
    · rw [hp, hq] at heq
      rw [hp] at hne
      exact h.once i hi him j hj hjm p q heq hne
  · intro b hb hlt
    rw [ha.freeblock] at hlt
    by_cases hbf : b = s.freeblock
    · exact ⟨i0, hi0, hi0m, p0, by rw [ha.addr_self, hbf]⟩
    obtain ⟨i, hi, him, p, hp⟩ := h.onto b hb (by omega)
    refine ⟨i, hi, him, p, ?_⟩
    rcases hcases i hi him p with ⟨rfl, rfl, -⟩ | ⟨-, heq⟩
    · have hempty := ha.empty
      have hmeta : 0 < sb.nmeta := nmeta_pos sb
      omega
    · rw [heq, hp]
  · intro i hi him o
    rw [← h.bytes i hi him o]
    have hpos' : (pos (o / BSIZE)) ≠ .slot (Fin.last NDIRECT) := pos_ne_last _
    unfold Fs.byteOf blockOf
    rcases hcases i hi him (pos (o / BSIZE)) with ⟨rfl, hp, heq⟩ | ⟨-, heq⟩
    · -- The new block is zero, as the bytes of a missing block are.
      have hdisk : s'.disk s.freeblock = Block.zero := by
        rw [ha.disk s.freeblock (.inl ?_)]
        · exact h.zero _ (Nat.le_refl _) hroom
        · intro heq'
          have := hind (by omega)
          omega
      rw [heq, hp, ha.empty, if_neg (by omega), if_pos rfl, hdisk, Block.get_zero]
    · rw [heq]
      split
      · rfl
      · rename_i hne
        rw [ha.disk _ (.inl ?_)]
        intro heq'
        exact hpos' (h.once i hi him i0 hi0 hi0m _ _ heq' hne).2
  · intro b hb hlt
    rw [ha.freeblock] at hb
    rw [ha.disk b (.inl ?_)]
    · exact h.zero b (by omega) hlt
    · intro heq'
      have := h.meta_le
      have := hind (by omega)
      omega

omit hi0 hi0m in
theorem attach_slot (hroom : s.freeblock < FSSIZE) (hj : (ino i0).addrs j = 0) :
    Attach s { s with freeblock := s.freeblock + 1 } m ino
      (update ino i0 (setAddr j s.freeblock (ino i0))) i0 (.slot j) := by
  have hpos := h.free_pos
  have hto := toNat_ofNat_of_le hroom.le
  refine ⟨rfl, rfl, by simp [addrOf, hj], ?_, ?_, fun _ _ => rfl⟩
  · simp [addrOf, setAddr, hto]
  intro i hi him p hne
  by_cases hii : i = i0
  · subst hii
    rw [update_self]
    have hp := hne rfl
    cases p with
    | slot k =>
      have hkj : k ≠ j := fun heq => hp (by rw [heq])
      simp [addrOf, setAddr, update_of_ne hkj]
    | entry e =>
      by_cases hlast : j = Fin.last NDIRECT
      · -- The new indirect block has no entries.
        subst hlast
        have hne0 : UInt32.ofNat s.freeblock ≠ 0 := by
          intro h0
          have := congrArg UInt32.toNat h0
          rw [hto] at this
          simp at this
          omega
        simp only [addrOf, setAddr, update_self, if_neg hne0, hto, hj, if_true]
        rw [h.zero _ (Nat.le_refl _) hroom, Block.word_zero]
        rfl
      · simp [addrOf, setAddr, update_of_ne (Ne.symm hlast)]
  · rw [update_of_ne hii]

theorem attach_entry (hroom : s.freeblock < FSSIZE)
    (hind : addrOf s.disk (ino i0) (.slot (Fin.last NDIRECT)) = ind) (hne : ind ≠ 0) (he : e < NINDIRECT)
    (hempty : (s.disk ind).word e = 0) :
    Attach s (wsect { s with freeblock := s.freeblock + 1 } ind ((s.disk ind).setWord e (UInt32.ofNat s.freeblock)))
      m ino ino i0 (.entry e) := by
  have hind' : ((ino i0).addrs (Fin.last NDIRECT)).toNat = ind := hind
  have haddr : (ino i0).addrs (Fin.last NDIRECT) ≠ 0 := by
    intro h0
    rw [h0] at hind'
    exact hne hind'.symm
  have hlt := (h.range i0 hi0 hi0m _ (by rw [hind]; exact hne)).2
  have hto := toNat_ofNat_of_le hroom.le
  have hsect := h.sectors
  rw [hind] at hlt
  refine ⟨?_, rfl, ?_, ?_, ?_, ?_⟩
  · simp only [wsect]
    omega
  · simp only [addrOf, if_neg haddr, hind', hempty]
    rfl
  · simp only [addrOf, if_neg haddr, hind', wsect, update_self]
    rw [Block.word_setWord_self _ _ _ (by simp only [NINDIRECT, BSIZE] at *; omega), hto]
  · intro i hi him p hp
    by_cases hii : i = i0
    · subst hii
      cases p with
      | slot k => rfl
      | entry e' =>
        have hee : e ≠ e' := fun heq => hp rfl (by rw [heq])
        simp only [addrOf, if_neg haddr, hind', wsect, update_self]
        rw [Block.word_setWord_ne _ _ _ _ hee]
    · apply addrOf_congr rfl
      intro hne'
      apply update_of_ne
      intro heq
      have honce := h.once i hi him i0 hi0 hi0m (.slot (Fin.last NDIRECT)) (.slot (Fin.last NDIRECT))
        (by rw [hind]; exact heq)
        (fun h0 => hne' (UInt32.toNat.inj h0))
      exact hii honce.1
  · intro b hb
    rw [hind] at hb
    apply update_of_ne
    omega

end Attach

section Locate

variable {s s' s'' : Image} {m i0 n fbn : Nat} {ino ino' ino'' : Nat → Dinode}

-- Blocks or bytes have been added to inode `i0`, and nothing else has changed.
structure Grown (s s' : Image) (m : Nat) (ino ino' : Nat → Dinode) (content : Nat → List UInt8) (i0 : Nat) : Prop where
  laid : Laid s' m ino' content
  others : ∀ i, i ≠ i0 → ino' i = ino i
  addrs : ∀ i, i ≠ i0 → 1 ≤ i → i < m → ∀ p, addrOf s'.disk (ino' i) p = addrOf s.disk (ino i) p
  fields : ino' i0 = { ino i0 with addrs := (ino' i0).addrs }
  metadata : ∀ b < sb.nmeta, s'.disk b = s.disk b
  freeinode : s'.freeinode = s.freeinode

theorem Grown.refl (h : Laid s m ino content) : Grown s s m ino ino content i0 :=
  ⟨h, fun _ _ => rfl, fun _ _ _ _ _ => rfl, rfl, fun _ _ => rfl, rfl⟩

theorem Grown.trans {content' : Nat → List UInt8} (h : Grown s s' m ino ino' content i0)
    (h' : Grown s' s'' m ino' ino'' content' i0) : Grown s s'' m ino ino'' content' i0 := by
  refine ⟨h'.laid, fun i hi => (h'.others i hi).trans (h.others i hi), fun i hi h1 hm p => ?_, ?_, fun b hb => ?_,
    h'.freeinode.trans h.freeinode⟩
  · rw [h'.addrs i hi h1 hm p, h.addrs i hi h1 hm p]
  · rw [h'.fields, h.fields]
  · rw [h'.metadata b hb, h.metadata b hb]

theorem rsect_eq (h : Laid s m ino content) {sec : Nat} (hlt : sec < FSSIZE) : rsect s sec = some (s.disk sec) := by
  rw [rsect, h.sectors, if_pos hlt]

-- What `locate` comes to: the block for `fbn`, if there is room for it.
structure Located (s : Image) (m : Nat) (ino : Nat → Dinode) (content : Nat → List UInt8) (i0 n fbn : Nat)
    (s' : Image) (din' : Block) (x : Nat) : Prop where
  grown : Grown s s' m ino (update ino i0 din'.dinode) content i0
  shape : Shape s'.disk din'.dinode (max n (fbn + 1))
  block : x = blockOf s'.disk din'.dinode fbn
  taken : s'.freeblock + cost n = s.freeblock + cost (max n (fbn + 1))
  room : s'.freeblock ≤ FSSIZE

theorem cost_succ (n : Nat) : cost (n + 1) = cost n + if n = NDIRECT then 2 else 1 := by
  simp only [cost, NDIRECT]
  split <;> split <;> split <;> omega

theorem max_succ_of_lt (h : fbn < n) : max n (fbn + 1) = n := by omega

theorem Shape.slot {c : Nat → Block} {d : Dinode} (h : Shape c d n) (j : Fin (NDIRECT + 1)) : d.addrs j = 0 ↔ n ≤ j := by
  have hj : d.addrs j = 0 ↔ ¬ addrOf c d (.slot j) ≠ 0 := by
    rw [not_not]
    exact UInt32.toNat_inj.symm
  rw [hj, h]
  exact Nat.not_lt

theorem fillSlot_self (hj : din.dinode.addrs j ≠ 0) : fillSlot s din j = (s, din) := by
  rw [fillSlot, if_neg hj]

theorem fillSlot_zero (hj : din.dinode.addrs j = 0) :
    fillSlot s din j = ({ s with freeblock := s.freeblock + 1 }, din.setDinode (setAddr j s.freeblock din.dinode)) := by
  rw [fillSlot, if_pos hj]

theorem Shape.extend {c c' : Nat → Block} {d d' : Dinode} (h : Shape c d n)
    (hne : ∀ p, addrOf c' d' p ≠ 0 ↔ addrOf c d p ≠ 0 ∨ first p = n) : Shape c' d' (n + 1) := by
  intro p
  rw [hne p, h p]
  omega

def Full (s : Image) (n fbn : Nat) : Prop := FSSIZE + cost n < s.freeblock + cost (max n (fbn + 1))

-- The block for `fbn` is located, or the disk is full and cannot be read there.
def Locates (s : Image) (m : Nat) (ino : Nat → Dinode) (content : Nat → List UInt8) (i0 n fbn : Nat) (din : Block) : Prop :=
  (∃ s' din' x, locate s din fbn = some (s', din', x) ∧ Located s m ino content i0 n fbn s' din' x) ∨
    Full s n fbn ∧ ∀ s' din' x, locate s din fbn = some (s', din', x) → rsect s' x = none

theorem Located.here (h : Laid s m ino content) (hdin : din.dinode = ino i0) (hshape : Shape s.disk (ino i0) n)
    (hroom : s.freeblock ≤ FSSIZE) (hlt : fbn < n) :
    Located s m ino content i0 n fbn s din (blockOf s.disk (ino i0) fbn) := by
  refine ⟨?_, ?_, by rw [hdin], ?_, hroom⟩
  · rw [hdin, update_eq_self]
    exact .refl h
  · rw [max_succ_of_lt hlt, hdin]
    exact hshape
  · rw [max_succ_of_lt hlt]

variable (h : Laid s m ino content) (hi0 : 1 ≤ i0) (hi0m : i0 < m)

include h hi0 hi0m

theorem Laid.metadata_ne {b : Nat} (hb : b < sb.nmeta) (p : Pos) :
    b ≠ addrOf s.disk (ino i0) p ∨ b = 0 := by
  by_cases h0 : addrOf s.disk (ino i0) p = 0
  · omega
  · have := (h.range i0 hi0 hi0m p h0).1
    omega

theorem grown_slot (hroom : s.freeblock < FSSIZE) (hj : (ino i0).addrs j = 0) :
    Grown s { s with freeblock := s.freeblock + 1 } m ino (update ino i0 (setAddr j s.freeblock (ino i0)))
      content i0 := by
  have ha := attach_slot h hroom hj
  refine ⟨h.attach hi0 hi0m ha hroom, fun i hi => update_of_ne hi _ _, fun i hi h1 hm p => ?_, ?_, fun _ _ => rfl, rfl⟩
  · exact ha.addr_other i h1 hm p fun heq => absurd heq hi
  · rw [update_self]
    rfl

theorem grown_entry (hroom : s.freeblock < FSSIZE)
    (hind : addrOf s.disk (ino i0) (.slot (Fin.last NDIRECT)) = ind) (hne : ind ≠ 0) (he : e < NINDIRECT)
    (hempty : (s.disk ind).word e = 0) :
    Grown s (wsect { s with freeblock := s.freeblock + 1 } ind ((s.disk ind).setWord e (UInt32.ofNat s.freeblock)))
      m ino ino content i0 := by
  have ha := attach_entry h hi0 hi0m hroom hind hne he hempty
  refine ⟨h.attach hi0 hi0m ha hroom, fun _ _ => rfl, fun i hi h1 hm p => ?_, rfl, fun b hb => ?_, rfl⟩
  · exact ha.addr_other i h1 hm p fun heq => absurd heq hi
  · exact ha.disk b (h.metadata_ne hi0 hi0m hb _)

variable (hroom : s.freeblock ≤ FSSIZE)

include hroom

theorem locate_direct (hdin : din.dinode = ino i0) (hshape : Shape s.disk (ino i0) n) (hfbn : fbn ≤ n)
    (hlt : fbn < NDIRECT) : Locates s m ino content i0 n fbn din := by
  obtain ⟨j, hj⟩ : ∃ j : Fin (NDIRECT + 1), j = ⟨fbn, Nat.lt_succ_of_lt hlt⟩ := ⟨_, rfl⟩
  have hval : j.val = fbn := by rw [hj]
  have hposj : pos fbn = .slot j := by rw [pos, dif_pos hlt, hj]
  have hfill : locate s din fbn =
      some ((fillSlot s din j).1, (fillSlot s din j).2, ((fillSlot s din j).2.dinode.addrs j).toNat) := by
    rw [locate, dif_pos hlt, hj]
  rw [Locates, hfill]
  rcases Nat.lt_or_eq_of_le hfbn with hlt' | rfl
  · -- The block is there already.
    have hne : din.dinode.addrs j ≠ 0 := by
      rw [hdin, ne_eq, hshape.slot]
      omega
    have hx : (din.dinode.addrs j).toNat = blockOf s.disk (ino i0) fbn := by
      rw [blockOf, hposj, hdin]
      rfl
    rw [fillSlot_self hne, hx]
    exact .inl ⟨s, din, _, rfl, .here h hdin hshape hroom hlt'⟩
  have hzero : (ino i0).addrs j = 0 := (hshape.slot j).mpr hval.ge
  rw [fillSlot_zero (by rw [hdin]; exact hzero)]
  have hmax : max fbn (fbn + 1) = fbn + 1 := by omega
  have hcost : cost (fbn + 1) = cost fbn + 1 := by rw [cost_succ, if_neg hlt.ne]
  rcases Nat.lt_or_eq_of_le hroom with hfree | hfull
  · have hgrown := grown_slot h hi0 hi0m hfree hzero
    have hattach := attach_slot h hfree hzero
    refine .inl ⟨_, _, _, rfl, ?_, ?_, ?_, ?_, hfree⟩
    · rw [Block.dinode_setDinode, hdin]
      exact hgrown
    · rw [Block.dinode_setDinode, hdin, hmax]
      apply hshape.extend
      intro p
      have hiff := hattach.ne_zero_iff hi0 hi0m h.free_pos p
      rw [update_self] at hiff
      rw [hiff]
      have hp : p = .slot j ↔ first p = fbn := by
        cases p with
        | slot k => simp [first, Fin.ext_iff, hj]
        | entry e =>
          simp only [first, reduceCtorEq, false_iff]
          omega
      rw [hp]
    · rw [blockOf, hposj]
      rfl
    · rw [hmax, hcost]
      change s.freeblock + 1 + cost fbn = _
      omega
  · refine .inr ⟨?_, ?_⟩
    · rw [Full, hmax, hcost]
      omega
    intro s' din' x heq
    cases heq
    simp only [Block.dinode_setDinode, setAddr, update_self, rsect, h.sectors]
    rw [hfull, if_neg]
    decide

theorem Laid.indirect (hne : (ino i0).addrs (Fin.last NDIRECT) ≠ 0) :
    rsect s ((ino i0).addrs (Fin.last NDIRECT)).toNat = some (s.disk ((ino i0).addrs (Fin.last NDIRECT)).toNat) ∧
      ∀ e, addrOf s.disk (ino i0) (.entry e) = ((s.disk ((ino i0).addrs (Fin.last NDIRECT)).toNat).word e).toNat := by
  have hlt := (h.range i0 hi0 hi0m (.slot (Fin.last NDIRECT)) fun h0 => hne (UInt32.toNat.inj h0)).2
  refine ⟨rsect_eq h (Nat.lt_of_lt_of_le hlt hroom), fun e => ?_⟩
  rw [addrOf, if_neg hne]

theorem locate_entry (hdin : din.dinode = ino i0)
    (hslots : ∀ p, addrOf s.disk (ino i0) p ≠ 0 ↔ first p < NDIRECT + e ∨ p = .slot (Fin.last NDIRECT))
    (he : e < NINDIRECT) :
    ∃ s' x, fillEntry s (din.dinode.addrs (Fin.last NDIRECT)).toNat e = some (s', x) ∧
      ((Grown s s' m ino ino content i0 ∧ Shape s'.disk (ino i0) (NDIRECT + e + 1) ∧
        x = addrOf s'.disk (ino i0) (.entry e) ∧ s'.freeblock = s.freeblock + 1 ∧ s'.freeblock ≤ FSSIZE) ∨
          s.freeblock = FSSIZE ∧ rsect s' x = none) := by
  have hind0 : ((ino i0).addrs (Fin.last NDIRECT)).toNat ≠ 0 := (hslots (.slot (Fin.last NDIRECT))).mpr (.inr rfl)
  have hne : (ino i0).addrs (Fin.last NDIRECT) ≠ 0 := fun h0 => hind0 (by rw [h0]; rfl)
  obtain ⟨hread, hentry⟩ := h.indirect hi0 hi0m hroom hne
  have hzero : (s.disk ((ino i0).addrs (Fin.last NDIRECT)).toNat).word e = 0 := by
    have hnot : ¬ addrOf s.disk (ino i0) (.entry e) ≠ 0 := by
      rw [hslots]
      simp [first]
    rw [not_not, hentry] at hnot
    exact UInt32.toNat.inj hnot
  have hbound : 4 * e + 3 < BSIZE := by
    simp only [NINDIRECT, BSIZE] at he ⊢
    omega
  have hto := toNat_ofNat_of_le hroom
  rw [hdin, fillEntry, hread]
  refine ⟨_, _, if_pos hzero, ?_⟩
  rcases Nat.lt_or_eq_of_le hroom with hfree | hfull
  · left
    have hslot : addrOf s.disk (ino i0) (.slot (Fin.last NDIRECT)) = ((ino i0).addrs (Fin.last NDIRECT)).toNat := rfl
    have hgrown := grown_entry h hi0 hi0m hfree hslot hind0 he hzero
    have hattach := attach_entry h hi0 hi0m hfree hslot hind0 he hzero
    refine ⟨hgrown, ?_, ?_, rfl, hfree⟩
    · intro p
      rw [hattach.ne_zero_iff hi0 hi0m h.free_pos p, hslots]
      cases p with
      | slot k =>
        have := k.isLt
        simp only [first, Pos.slot.injEq, Fin.ext_iff, Fin.val_last, reduceCtorEq, or_false]
        omega
      | entry e' =>
        simp only [first, Pos.entry.injEq, reduceCtorEq, or_false]
        omega
    · rw [hattach.addr_self, Block.word_setWord_self _ _ _ hbound, hto]
  · right
    refine ⟨hfull, ?_⟩
    have hlt := (h.range i0 hi0 hi0m (.slot (Fin.last NDIRECT)) hind0).2
    simp only [addrOf] at hlt
    rw [Block.word_setWord_self _ _ _ hbound, hto, rsect, if_neg]
    have hsect := h.sectors
    simp only [wsect]
    omega

omit h hroom in
theorem locate_filled {s1 : Image} {din1 : Block} (hgrown : Grown s s1 m ino (update ino i0 din1.dinode) content i0)
    (hslots : ∀ p, addrOf s1.disk din1.dinode p ≠ 0 ↔ first p < fbn ∨ p = .slot (Fin.last NDIRECT)) (hge : NDIRECT ≤ fbn)
    (hmax : fbn < MAXFILE) (hroom : s1.freeblock ≤ FSSIZE) (hfill : fillSlot s din (Fin.last NDIRECT) = (s1, din1))
    (hcost : s1.freeblock + 1 + cost fbn = s.freeblock + cost (fbn + 1)) : Locates s m ino content i0 fbn fbn din := by
  have he : fbn - NDIRECT < NINDIRECT := by
    simp only [MAXFILE] at hmax
    omega
  have hadd : NDIRECT + (fbn - NDIRECT) = fbn := by omega
  have hmaxn : max fbn (fbn + 1) = fbn + 1 := by omega
  have hdin1 : din1.dinode = update ino i0 din1.dinode i0 := by rw [update_self]
  obtain ⟨s', x, hentry, hres⟩ := locate_entry hgrown.laid hi0 hi0m hroom hdin1
    (e := fbn - NDIRECT) (by rw [update_self, hadd]; exact hslots) he
  have hloc : locate s din fbn = some (s', din1, x) := by
    rw [locate, dif_neg (Nat.not_lt.mpr hge), hfill]
    simp only [hentry]
    rfl
  rw [Locates, hloc]
  rcases hres with ⟨hg, hsh, hx, hf, hle⟩ | ⟨hf, hnone⟩
  · rw [update_self, hadd] at hsh
    rw [update_self] at hx
    refine .inl ⟨_, _, _, rfl, hgrown.trans hg, ?_, ?_, ?_, hle⟩
    · rw [hmaxn]
      exact hsh
    · rw [blockOf, pos, dif_neg (Nat.not_lt.mpr hge), hx]
    · rw [hmaxn, hf]
      exact hcost
  · refine .inr ⟨?_, fun s'' din' x' heq => ?_⟩
    · rw [Full, hmaxn]
      omega
    · cases heq
      exact hnone

theorem locate_indirect (hdin : din.dinode = ino i0) (hshape : Shape s.disk (ino i0) n) (hfbn : fbn ≤ n)
    (hge : NDIRECT ≤ fbn) (hmax : fbn < MAXFILE) : Locates s m ino content i0 n fbn din := by
  have hlast : (Fin.last NDIRECT).val = NDIRECT := rfl
  rcases Nat.lt_or_eq_of_le hfbn with hlt' | rfl
  · -- The block is there already.
    have hne : (ino i0).addrs (Fin.last NDIRECT) ≠ 0 := by
      rw [ne_eq, hshape.slot]
      omega
    obtain ⟨hread, hentry⟩ := h.indirect hi0 hi0m hroom hne
    have hblock : blockOf s.disk (ino i0) fbn = addrOf s.disk (ino i0) (.entry (fbn - NDIRECT)) := by
      rw [blockOf, pos, dif_neg (Nat.not_lt.mpr hge)]
    have hword : (s.disk ((ino i0).addrs (Fin.last NDIRECT)).toNat).word (fbn - NDIRECT) ≠ 0 := by
      have hnz : addrOf s.disk (ino i0) (.entry (fbn - NDIRECT)) ≠ 0 := by
        rw [hshape]
        simp only [first]
        omega
      intro h0
      rw [hentry, h0] at hnz
      exact hnz rfl
    refine .inl ⟨s, din, _, ?_, .here h hdin hshape hroom hlt'⟩
    rw [locate, dif_neg (Nat.not_lt.mpr hge), fillSlot_self (by rw [hdin]; exact hne), hblock]
    simp only [hdin, fillEntry, hread, hentry, Option.bind_eq_bind, Option.bind_some, if_neg hword]
  by_cases hzero : (ino i0).addrs (Fin.last NDIRECT) = 0
  · -- The first block past the direct ones: the indirect block is new as well.
    have hfbn12 : fbn = NDIRECT := by
      have := (hshape.slot _).mp hzero
      omega
    have hcost : cost (fbn + 1) = cost fbn + 2 := by rw [cost_succ, if_pos hfbn12]
    have hfill := fillSlot_zero (s := s) (j := Fin.last NDIRECT) (by rw [hdin]; exact hzero)
    rcases Nat.lt_or_eq_of_le hroom with hfree | hfull
    · have hgrown := grown_slot h hi0 hi0m hfree hzero
      have hattach := attach_slot h hfree hzero
      apply locate_filled hi0 hi0m _ _ hge hmax _ hfill
      · change s.freeblock + 1 + 1 + cost fbn = _
        omega
      · rw [Block.dinode_setDinode, hdin]
        exact hgrown
      · intro p
        have hiff := hattach.ne_zero_iff hi0 hi0m h.free_pos p
        rw [update_self, hshape] at hiff
        rw [Block.dinode_setDinode, hdin]
        exact hiff
      · exact hfree
    · refine .inr ⟨?_, ?_⟩
      · rw [Full, max_eq_right (Nat.le_succ _), hcost]
        omega
      intro s' din' x heq
      have hnone : rsect { s with freeblock := s.freeblock + 1 }
          ((din.setDinode (setAddr (Fin.last NDIRECT) s.freeblock din.dinode)).dinode.addrs (Fin.last NDIRECT)).toNat =
          none := by
        simp only [Block.dinode_setDinode, setAddr, update_self, rsect, h.sectors]
        rw [hfull, if_neg]
        decide
      rw [locate, dif_neg (Nat.not_lt.mpr hge), hfill] at heq
      simp only [fillEntry, hnone] at heq
      cases heq
  · have hgt : NDIRECT < fbn := by
      rw [hshape.slot] at hzero
      omega
    have hcost : cost (fbn + 1) = cost fbn + 1 := by rw [cost_succ, if_neg hgt.ne']
    apply locate_filled hi0 hi0m _ _ hge hmax hroom (fillSlot_self (by rw [hdin]; exact hzero)) (by omega)
    · rw [hdin, update_eq_self]
      exact .refl h
    · intro p
      rw [hdin, hshape]
      refine ⟨.inl, ?_⟩
      rintro (hp | rfl)
      · exact hp
      · exact hgt

theorem locate_spec (hdin : din.dinode = ino i0) (hshape : Shape s.disk (ino i0) n) (hfbn : fbn ≤ n)
    (hmax : fbn < MAXFILE) : Locates s m ino content i0 n fbn din := by
  rcases Nat.lt_or_ge fbn NDIRECT with hlt | hge
  · exact locate_direct h hi0 hi0m hroom hdin hshape hfbn hlt
  · exact locate_indirect h hi0 hi0m hroom hdin hshape hfbn hge hmax

end Locate

section Append

variable {m i0 n : Nat} {ino : Nat → Dinode}

theorem getD_append_zero (l w : List UInt8) (o : Nat) :
    (l ++ w).getD o 0 = if l.length ≤ o ∧ o < l.length + w.length then w.getD (o - l.length) 0 else l.getD o 0 := by
  by_cases hlt : o < l.length
  · rw [getD_append _ _ _ _ hlt, if_neg (by omega)]
  · rw [getD_append_right _ _ _ _ (by omega)]
    by_cases hw : o < l.length + w.length
    · rw [if_pos ⟨by omega, hw⟩]
    · rw [if_neg (by omega), getD_eq_default _ _ (by omega), getD_eq_default _ _ (by omega)]

section Write

variable (h : Laid s m ino content) (hi0 : 1 ≤ i0) (hi0m : i0 < m)

include h hi0 hi0m

theorem Laid.place {bn i : Nat}
    (hblock : blockOf s.disk (ino i0) bn ≠ 0) (hi : 1 ≤ i) (him : i < m) {p : Pos}
    (hp : addrOf s.disk (ino i) p = blockOf s.disk (ino i0) bn) : i = i0 ∧ p = Loc.pos bn :=
  h.once i hi him i0 hi0 hi0m p (Loc.pos bn) hp (by rw [hp]; exact hblock)

theorem Laid.addrOf_data {bn i : Nat}
    (hblock : blockOf s.disk (ino i0) bn ≠ 0) (hi : 1 ≤ i) (him : i < m) (v : Block) (p : Pos) :
    addrOf (wsect s (blockOf s.disk (ino i0) bn) v).disk (ino i) p = addrOf s.disk (ino i) p := by
  apply addrOf_congr rfl
  intro _
  apply update_of_ne
  intro heq
  exact pos_ne_last bn (h.place hi0 hi0m hblock hi him (p := .slot (Fin.last NDIRECT)) heq).2.symm

theorem grown_write (hroom : s.freeblock ≤ FSSIZE) {bn r : Nat}
    (hblock : blockOf s.disk (ino i0) bn ≠ 0) {w : List UInt8} (hlen : (content i0).length = bn * BSIZE + r)
    (hw : r + w.length ≤ BSIZE) (hr : r < BSIZE) :
    Grown s (wsect s (blockOf s.disk (ino i0) bn) ((s.disk (blockOf s.disk (ino i0) bn)).write r w)) m ino ino
      (update content i0 (content i0 ++ w)) i0 := by
  have haddr := fun i hi him => h.addrOf_data hi0 hi0m hblock (i := i) hi him
    ((s.disk (blockOf s.disk (ino i0) bn)).write r w)
  have hplace := fun i hi him p => h.place hi0 hi0m hblock (i := i) hi him (p := p)
  have hrange := h.range i0 hi0 hi0m (pos bn) hblock
  change sb.nmeta ≤ blockOf s.disk (ino i0) bn ∧ blockOf s.disk (ino i0) bn < s.freeblock at hrange
  obtain ⟨x, hx⟩ : ∃ x, x = blockOf s.disk (ino i0) bn := ⟨_, rfl⟩
  rw [← hx] at hblock hrange haddr hplace ⊢
  have hdisk : ∀ b, b ≠ x → (wsect s x ((s.disk x).write r w)).disk b = s.disk b := fun b hb => update_of_ne hb _ _
  have hsect : (wsect s x ((s.disk x).write r w)).sectors = s.sectors := by
    have := h.sectors
    simp only [wsect]
    omega
  refine ⟨⟨hsect.trans h.sectors, h.meta_le, ?_, ?_, ?_, ?_, ?_⟩, fun _ _ => rfl, fun i _ hi him p => haddr i hi him p,
    rfl, ?_, rfl⟩
  · intro i hi him p
    rw [haddr i hi him p]
    exact h.range i hi him p
  · intro i hi him j hj hjm p q
    rw [haddr i hi him p, haddr j hj hjm q]
    exact h.once i hi him j hj hjm p q
  · intro b hb hlt
    obtain ⟨i, hi, him, p, hp⟩ := h.onto b hb hlt
    exact ⟨i, hi, him, p, by rw [haddr i hi him p, hp]⟩
  · intro i hi him o
    have hold := h.bytes i hi him o
    have hbo : blockOf (wsect s x ((s.disk x).write r w)).disk (ino i) (o / BSIZE) = blockOf s.disk (ino i) (o / BSIZE) :=
      haddr i hi him _
    unfold Fs.byteOf at hold ⊢
    rw [hbo]
    by_cases hix : blockOf s.disk (ino i) (o / BSIZE) = x
    · obtain ⟨rfl, hp⟩ := hplace i hi him _ hix
      have hbn := pos_inj hp
      rw [hix, if_neg hblock] at hold ⊢
      have hmod : o % BSIZE < BSIZE := Nat.mod_lt _ (by decide)
      have hdiv : o = bn * BSIZE + o % BSIZE := by
        rw [← hbn, Nat.mul_comm]
        exact (Nat.div_add_mod o BSIZE).symm
      simp only [wsect, update_self]
      have hsub : o - (content i).length = o % BSIZE - r := by omega
      rw [Block.get_write _ _ _ _ hmod, getD_append_zero, hold, hsub]
      apply if_congr _ rfl rfl
      omega
    · rw [hdisk _ hix, hold]
      by_cases hii : i = i0
      · subst hii
        have hbn : o / BSIZE ≠ bn := by
          intro heq
          rw [heq] at hix
          exact hix hx.symm
        have hout : ¬ ((content i).length ≤ o ∧ o < (content i).length + w.length) := by
          rintro ⟨hlo, hhi⟩
          apply hbn
          simp only [BSIZE] at hlen hw hr ⊢
          omega
        rw [update_self, getD_append_zero, if_neg hout]
      · rw [update_of_ne hii]
  · intro b hb hlt
    rw [hdisk b (by change s.freeblock ≤ b at hb; omega)]
    exact h.zero b hb hlt
  · intro b hb
    exact hdisk b (by omega)

end Write

variable {len b x len1 len' fuel : Nat} {din' din1 : Block} {s' s1 : Image} {w bytes : List UInt8}

theorem blocks_of_block {bn : Nat} (hlo : bn * BSIZE < len) (hhi : len ≤ (bn + 1) * BSIZE) : blocks len = bn + 1 := by
  simp only [blocks, BSIZE] at *
  omega

theorem le_blocks (len : Nat) : len / BSIZE ≤ blocks len ∧ blocks len ≤ len / BSIZE + 1 := by
  simp only [blocks, BSIZE]
  omega

theorem blocks_mono (h : a ≤ b) : blocks a ≤ blocks b := Nat.div_le_div_right (by omega)

theorem cost_mono (h : a ≤ b) : cost a ≤ cost b := by
  simp only [cost]
  split <;> split <;> omega

structure Appended (s : Image) (m : Nat) (ino : Nat → Dinode) (content : Nat → List UInt8) (i0 : Nat) (bytes : List UInt8)
    (s' : Image) (din' : Block) : Prop where
  grown : Grown s s' m ino (update ino i0 din'.dinode) (update content i0 (content i0 ++ bytes)) i0
  shape : Shape s'.disk din'.dinode (blocks (content i0 ++ bytes).length)
  taken : s'.freeblock + cost (blocks (content i0).length) = s.freeblock + cost (blocks (content i0 ++ bytes).length)
  room : s'.freeblock ≤ FSSIZE
  length : (content i0 ++ bytes).length ≤ MAXFILE * BSIZE

-- There is no room for a file to grow from one length to another.
def TooMuch (s : Image) (len len' : Nat) : Prop :=
  MAXFILE * BSIZE < len' ∨ FSSIZE + cost (blocks len) < s.freeblock + cost (blocks len')

theorem append_piece (hi0 : 1 ≤ i0) (hi0m : i0 < m) (hw : w ≠ []) (hlast : (content i0).length + w.length ≤ ((content i0).length / BSIZE + 1) * BSIZE)
    (hmax : (content i0).length / BSIZE < MAXFILE)
    (hl : Located s m ino content i0 (blocks (content i0).length) ((content i0).length / BSIZE) s' din' x) :
    rsect s' x = some (s'.disk x) ∧
      Appended s m ino content i0 w (wsect s' x ((s'.disk x).write ((content i0).length - (content i0).length / BSIZE * BSIZE) w)) din' := by
  obtain ⟨bn, hbn⟩ : ∃ bn, bn = (content i0).length / BSIZE := ⟨_, rfl⟩
  obtain ⟨r, hr⟩ : ∃ r, r = (content i0).length - bn * BSIZE := ⟨_, rfl⟩
  rw [← hbn] at hl hlast hmax ⊢
  rw [← hr]
  have hwpos : 0 < w.length := length_pos_iff.mpr hw
  have hlen : (content i0).length = bn * BSIZE + r ∧ r < BSIZE ∧ r + w.length ≤ BSIZE := by
    simp only [BSIZE] at *
    omega
  have hblocks : blocks (content i0 ++ w).length = bn + 1 := by
    apply blocks_of_block
    · rw [length_append]
      omega
    · rw [length_append]
      omega
  have hmaxn : max (blocks (content i0).length) (bn + 1) = bn + 1 := by
    have := (le_blocks (content i0).length).2
    omega
  have hlaid := hl.grown.laid
  have hself : update ino i0 din'.dinode i0 = din'.dinode := update_self _ _ _
  have hx : x = blockOf s'.disk (update ino i0 din'.dinode i0) bn := by
    rw [hself]
    exact hl.block
  have hx0 : blockOf s'.disk (update ino i0 din'.dinode i0) bn ≠ 0 := by
    rw [hself]
    refine (hl.shape (pos bn)).mpr ?_
    rw [first_pos, hmaxn]
    omega
  have hrange := (hlaid.range i0 hi0 hi0m (pos bn) hx0).2
  have hg := grown_write hlaid hi0 hi0m hl.room hx0 hlen.1 hlen.2.2 hlen.2.1
  have hroom' := hl.room
  rw [← hx] at hg
  refine ⟨rsect_eq hlaid ?_, ⟨?_, ?_, ?_, hl.room, ?_⟩⟩
  · rw [hx]
    exact Nat.lt_of_lt_of_le hrange hl.room
  · exact hl.grown.trans hg
  · intro p
    have haddr := hlaid.addrOf_data hi0 hi0m hx0 hi0 hi0m ((s'.disk x).write r w) p
    rw [hself, ← hl.block] at haddr
    rw [haddr, hblocks, ← hmaxn]
    exact hl.shape p
  · rw [hblocks, ← hmaxn]
    exact hl.taken
  · rw [length_append]
    exact Nat.le_trans hlast (Nat.mul_le_mul_right BSIZE hmax)

theorem TooMuch.of_piece (h : TooMuch s len len1) (hle : len1 ≤ len') : TooMuch s len len' := by
  have hmono := cost_mono (blocks_mono hle)
  rcases h with h | h
  · exact .inl (by omega)
  · exact .inr (by omega)

theorem TooMuch.of_rest (htaken : s'.freeblock + cost (blocks len) = s.freeblock + cost (blocks len1))
    (h : TooMuch s' len1 len') : TooMuch s len len' := by
  rcases h with h | h
  · exact .inl h
  · exact .inr (by omega)

theorem Appended.nil (h : Laid s m ino content) (hdin : din.dinode = ino i0)
    (hshape : Shape s.disk (ino i0) (blocks (content i0).length)) (hroom : s.freeblock ≤ FSSIZE)
    (hlen : (content i0).length ≤ MAXFILE * BSIZE) : Appended s m ino content i0 [] s din := by
  refine ⟨?_, ?_, ?_, hroom, ?_⟩
  · rw [hdin, append_nil, update_eq_self, update_eq_self]
    exact Grown.refl h
  · rw [hdin, append_nil]
    exact hshape
  · rw [append_nil]
  · rw [append_nil]
    exact hlen

theorem Appended.trans {w' : List UInt8} (h : Appended s m ino content i0 w s1 din1)
    (h' : Appended s1 m (update ino i0 din1.dinode) (update content i0 (content i0 ++ w)) i0 w' s' din') :
    Appended s m ino content i0 (w ++ w') s' din' := by
  have hg := h'.grown
  have hs := h'.shape
  have ht := h'.taken
  have hl := h'.length
  simp only [update_self, update_idem, append_assoc] at hg hs ht hl
  have := h.taken
  exact ⟨h.grown.trans hg, hs, by omega, h'.room, hl⟩

def piece (len : Nat) (bytes : List UInt8) : Nat := min bytes.length ((len / BSIZE + 1) * BSIZE - len)

theorem piece_spec (len : Nat) (hne : bytes ≠ []) :
    0 < piece len bytes ∧ piece len bytes ≤ bytes.length ∧ len + piece len bytes ≤ (len / BSIZE + 1) * BSIZE := by
  have hpos : 0 < bytes.length := length_pos_iff.mpr hne
  simp only [piece, BSIZE]
  omega

theorem appendLoop_located {buf : Block} (hne : bytes ≠ [])
    (hmax : len / BSIZE < MAXFILE) (hloc : locate s din (len / BSIZE) = some (s1, din1, x)) (hread : rsect s1 x = some buf) :
    appendLoop (fuel + 1) s din len bytes =
      appendLoop fuel (wsect s1 x (buf.write (len - len / BSIZE * BSIZE) (bytes.take (piece len bytes)))) din1
        (len + piece len bytes) (bytes.drop (piece len bytes)) := by
  cases bytes with
  | nil => exact absurd rfl hne
  | cons b bs =>
    rw [appendLoop, if_pos hmax, hloc]
    simp only [Option.bind_eq_bind, Option.bind_some, hread, piece]

theorem appendLoop_stuck (hne : bytes ≠ [])
    (hnone : len / BSIZE < MAXFILE → ∀ s' din' x, locate s din (len / BSIZE) = some (s', din', x) → rsect s' x = none) :
    appendLoop (fuel + 1) s din len bytes = none := by
  cases bytes with
  | nil => exact absurd rfl hne
  | cons b bs =>
    rw [appendLoop]
    split
    · rename_i hmax
      cases hloc : locate s din (len / BSIZE) with
      | none => rfl
      | some r =>
        obtain ⟨s1, din1, x⟩ := r
        simp only [Option.bind_eq_bind, Option.bind_some, hnone hmax s1 din1 x hloc, Option.bind_none]
    · rfl

theorem Full.tooMuch (h : Full s (blocks len) (len / BSIZE)) (hne : bytes ≠ []) :
    TooMuch s len (len + bytes.length) := by
  obtain ⟨hpos, hle, hlast⟩ := piece_spec len hne
  have hblocks : blocks (len + piece len bytes) = len / BSIZE + 1 := by
    apply blocks_of_block _ hlast
    have := Nat.div_mul_le_self len BSIZE
    omega
  have hmaxn : max (blocks len) (len / BSIZE + 1) = len / BSIZE + 1 := by
    have := le_blocks len
    omega
  have hpiece : TooMuch s len (len + piece len bytes) := by
    rw [Full, hmaxn] at h
    rw [TooMuch, hblocks]
    exact .inr h
  exact hpiece.of_piece (by omega)

theorem appendLoop_spec (hi0 : 1 ≤ i0) (hi0m : i0 < m) (fuel : Nat) :
    ∀ (s : Image) (ino : Nat → Dinode) (content : Nat → List UInt8) (din : Block) (bytes : List UInt8),
      Laid s m ino content → din.dinode = ino i0 → Shape s.disk (ino i0) (blocks (content i0).length) →
      s.freeblock ≤ FSSIZE → (content i0).length ≤ MAXFILE * BSIZE → bytes.length ≤ fuel →
      (∃ s' din', appendLoop fuel s din (content i0).length bytes = some (s', din', (content i0 ++ bytes).length) ∧
        Appended s m ino content i0 bytes s' din') ∨
      appendLoop fuel s din (content i0).length bytes = none ∧
        TooMuch s (content i0).length ((content i0).length + bytes.length) := by
  induction fuel with
  | zero =>
    intro s ino content din bytes h hdin hshape hroom hlen hfuel
    have hnil : bytes = [] := length_eq_zero_iff.mp (by omega)
    subst hnil
    exact .inl ⟨s, din, by rw [append_nil]; rfl, Appended.nil h hdin hshape hroom hlen⟩
  | succ fuel ih =>
    intro s ino content din bytes h hdin hshape hroom hlen hfuel
    by_cases hne : bytes = []
    · subst hne
      exact .inl ⟨s, din, by rw [append_nil]; rfl, Appended.nil h hdin hshape hroom hlen⟩
    have hpos : 0 < bytes.length := length_pos_iff.mpr hne
    by_cases hmax : (content i0).length / BSIZE < MAXFILE
    · rcases locate_spec h hi0 hi0m hroom hdin hshape (le_blocks _).1 hmax with ⟨s1, din1, x, hloc, hl⟩ | ⟨hfull, hnone⟩
      · obtain ⟨n1, hn1⟩ : ∃ n1, n1 = piece (content i0).length bytes := ⟨_, rfl⟩
        obtain ⟨hn0, hle, hlast⟩ := piece_spec (content i0).length hne
        rw [← hn1] at hn0 hle hlast
        have htake : (bytes.take n1).length = n1 := by
          rw [length_take]
          omega
        have hdrop : (bytes.drop n1).length = bytes.length - n1 := length_drop
        have hw : bytes.take n1 ≠ [] := by
          rw [← length_pos_iff, htake]
          exact hn0
        obtain ⟨hread, hpiece⟩ := append_piece hi0 hi0m hw (by rw [htake]; exact hlast) hmax hl
        rw [appendLoop_located hne hmax hloc hread, ← hn1]
        -- the rest is appended to what the inode then holds
        have hself : update ino i0 din1.dinode i0 = din1.dinode := update_self _ _ _
        have hrest := ih _ _ _ din1 (bytes.drop n1) hpiece.grown.laid hself.symm
          (by rw [hself, update_self]; exact hpiece.shape) hpiece.room
          (by rw [update_self]; exact hpiece.length) (by omega)
        rw [update_self, append_assoc, take_append_drop, length_append, htake] at hrest
        rcases hrest with ⟨s', din', heq, happ⟩ | ⟨heq, hmuch⟩
        · refine .inl ⟨s', din', heq, ?_⟩
          have := hpiece.trans happ
          rwa [take_append_drop] at this
        refine .inr ⟨heq, ?_⟩
        have htaken := hpiece.taken
        rw [length_append, htake] at htaken
        have hsum : (content i0).length + n1 + (bytes.drop n1).length = (content i0).length + bytes.length := by omega
        rw [hsum] at hmuch
        exact hmuch.of_rest htaken
      · exact .inr ⟨appendLoop_stuck hne fun _ => hnone, hfull.tooMuch hne⟩
    · refine .inr ⟨appendLoop_stuck hne fun hlt => absurd hlt hmax, .inl ?_⟩
      have hge : MAXFILE * BSIZE ≤ (content i0).length / BSIZE * BSIZE := Nat.mul_le_mul_right BSIZE (by omega)
      have := Nat.div_mul_le_self (content i0).length BSIZE
      omega

end Append

end Mkfs
