import Xv6.Vm.Binding
import Xv6.Vm.Copy

-- copyout, copyin and copyinstr against the user's memory as an array of bytes.

namespace Vm

open Sep Prog List Function

section Bytes

variable (page : Nat → Page) (root : Nat)

-- The addresses that the user can read and write, with the page and the byte behind each.
def Readable (a : Nat) : Prop :=
  a < MAXVA ∧ pteAt page 2 root a &&& PTE_V ≠ 0 ∧ pteAt page 2 root a &&& PTE_U ≠ 0

def Writable (a : Nat) : Prop := Readable page root a ∧ pteAt page 2 root a &&& PTE_W ≠ 0

def frameOf (a : Nat) : Nat := PTE2PA (pteAt page 2 root a)

def userByte (a : Nat) : UInt8 := (page (frameOf page root a)).get (a % PGSIZE)

def userBytes (va n : Nat) : List UInt8 := (List.range n).map fun i => userByte page root (va + i)

-- The user's pages are different pages, none of them is page 0 or a page table.
structure UserTable : Prop where
  align : root % PGSIZE = 0
  apart : ∀ a b, Readable page root a → Readable page root b → frameOf page root a = frameOf page root b →
    a / PGSIZE = b / PGSIZE
  nonzero : ∀ a, Readable page root a → frameOf page root a ≠ 0
  table : ∀ a, Readable page root a → frameOf page root a ∉ tables page 2 root

-- Reads of the page tables, and accesses to pages that the user can read or write.
def Allowed : MemAct Nat Page → Prop
  | .get pa => pa ∈ tables page 2 root ∨ ∃ a, Readable page root a ∧ pa = frameOf page root a
  | .put pa _ => ∃ a, Writable page root a ∧ pa = frameOf page root a
  | _ => False

-- From `old` to `new` the bytes from `va` on have become `bs`, and no other byte has changed.
structure Stored (old new : Nat → Page) (va : Nat) (bs : List UInt8) : Prop where
  inside : ∀ i < bs.length, (new (frameOf page root (va + i))).get ((va + i) % PGSIZE) = bs.getD i 0
  outside : ∀ pa o, (∀ i < bs.length, ¬(frameOf page root (va + i) = pa ∧ (va + i) % PGSIZE = o)) →
    (new pa).get o = (old pa).get o

end Bytes

section Congr

variable {page page' : Nat → Page}

theorem pteAt_congr {level pagetable : Nat} (va : Nat) (h : ∀ q ∈ tables page level pagetable, page' q = page q) :
    pteAt page' level pagetable va = pteAt page level pagetable va := by
  induction level generalizing pagetable with
  | zero => rw [pteAt, pteAt, h pagetable (mem_tables ..)]
  | succ level ih =>
    rw [pteAt, pteAt, h pagetable (mem_tables ..)]
    by_cases hv : (page pagetable).word (PX (level + 1) va) &&& PTE_V ≠ 0
    · rw [if_pos hv, if_pos hv]
      exact ih fun q hq => h q (tables_below (PX_lt (level + 1) va) hv hq)
    · rw [if_neg hv, if_neg hv]

theorem tables_congr {level pagetable : Nat} (h : ∀ q ∈ tables page level pagetable, page' q = page q) :
    tables page' level pagetable = tables page level pagetable := by
  induction level generalizing pagetable with
  | zero => rfl
  | succ level ih =>
    rw [tables, tables, h pagetable (mem_tables ..)]
    refine congrArg _ (flatMap_congr fun i hi => ?_)
    dsimp only
    by_cases hv : (page pagetable).word i &&& PTE_V ≠ 0
    · rw [if_pos hv, if_pos hv]
      exact ih fun q hq => h q (tables_below (mem_indices.mp hi) hv hq)
    · rw [if_neg hv, if_neg hv]

end Congr

section Reach

variable {P : Nat → Prop} {va len g : Nat}

-- The addresses from `va` on satisfy `P` up to the `g`th, where they end or `P` does.
structure Reaches (P : Nat → Prop) (va len g : Nat) : Prop where
  le : g ≤ len
  all : ∀ i < g, P (va + i)
  stop : g < len → ¬P (va + g)

theorem reaches_none (h : ¬P va) : Reaches P va len 0 := ⟨Nat.zero_le len, fun i hi => absurd hi (by omega), fun _ => h⟩

theorem reaches_nil : Reaches P va 0 0 := ⟨le_rfl, fun i hi => absurd hi (by omega), fun h => absurd h (by omega)⟩

theorem Reaches.full_iff (h : Reaches P va len g) : g = len ↔ ∀ i < len, P (va + i) := by
  constructor
  · intro he i hi
    exact h.all i (by omega)
  · intro hall
    by_contra hne
    have hlt : g < len := lt_of_le_of_ne h.le hne
    exact h.stop hlt (hall g hlt)

theorem reaches_page (hP : ∀ a b, a / PGSIZE = b / PGSIZE → P a → P b) (hva : P va)
    (h : Reaches P (PGROUNDDOWN va + PGSIZE) (len - round va len) g) : Reaches P va len (round va len + g) := by
  have hle := h.le
  have hround := round_le va len
  constructor
  · omega
  · intro i hi
    by_cases hlt : i < round va len
    · exact hP va _ (round_page hlt).1.symm hva
    · have hnext := round_next va len
      have hall := h.all (i - round va len) (by omega)
      rwa [show PGROUNDDOWN va + PGSIZE + (i - round va len) = va + i by omega] at hall
  · intro hlt
    have hnext := round_next va len
    have hstop := h.stop (by omega)
    rwa [show PGROUNDDOWN va + PGSIZE + g = va + (round va len + g) by omega] at hstop

end Reach

variable {L : Layout} {mem : Mem}

section Access

variable {page : Nat → Page} {root : Nat}

instance (a : Nat) : Decidable (Readable page root a) := inferInstanceAs (Decidable (_ ∧ _ ∧ _))

instance (a : Nat) : Decidable (Writable page root a) := inferInstanceAs (Decidable (_ ∧ _))

theorem pteAt_same {a b : Nat} (h : a / PGSIZE = b / PGSIZE) : pteAt page 2 root a = pteAt page 2 root b := by
  rw [← pteAt_page page 2 root a, ← pteAt_page page 2 root b, h]

theorem readable_page {a b : Nat} (h : a / PGSIZE = b / PGSIZE) (ha : Readable page root a) : Readable page root b := by
  obtain ⟨hmax, hv, hu⟩ := ha
  rw [pteAt_same h] at hv hu
  refine ⟨?_, hv, hu⟩
  unfold MAXVA PGSIZE at *
  omega

theorem writable_page {a b : Nat} (h : a / PGSIZE = b / PGSIZE) (ha : Writable page root a) : Writable page root b := by
  obtain ⟨hr, hw⟩ := ha
  rw [pteAt_same h] at hw
  exact ⟨readable_page h hr, hw⟩

theorem UserTable.same (ht : UserTable page root) {a b : Nat} (ha : Readable page root a) (hb : Readable page root b)
    (hf : frameOf page root a = frameOf page root b) (ho : a % PGSIZE = b % PGSIZE) : a = b := by
  have hpage := ht.apart a b ha hb hf
  unfold PGSIZE at *
  omega

def SameTables (page : Nat → Page) (root : Nat) (mem : Mem) : Prop := ∀ q ∈ tables page 2 root, mem.page q = page q

theorem within_fetch {α : Type} {none' : Phys α} {some' : Nat → Nat → Phys α} {b : α} {mem' : Mem} {a : Nat}
    (ht : UserTable page root) (hs : SameTables page root mem) (ha : a < MAXVA)
    (hnone : pteAt page 2 root a = 0 → Within (memStep L) (Allowed page root) none' mem b mem')
    (hsome : ∀ x, Within (memStep L) (Allowed page root) (some' x (pteAt page 2 root a)) mem b mem') :
    Within (memStep L) (Allowed page root) (do
      match ← walk root a false with
      | none => none'
      | some x => do
        let pte ← load x
        some' x pte) mem b mem' := by
  have hV : ∀ q ∈ tables mem.page 2 root, Allowed page root (.get q) := by
    rw [tables_congr hs]
    exact fun q hq => .inl hq
  refine within_bind (within_walk mem hV ht.align ha) ?_
  cases h : leafAddr mem.page 2 root a with
  | none =>
    refine hnone ?_
    rw [← pteAt_congr a hs]
    exact leafAddr_none h
  | some x =>
    have hload := within_load_leaf (L := L) mem hV ht.align h
    rw [pteAt_congr a hs] at hload
    exact within_bind hload (hsome x)

theorem within_walkaddr (ht : UserTable page root) (hs : SameTables page root mem) (a : Nat) :
    Within (memStep L) (Allowed page root) (walkaddr root a) mem
      (if Readable page root a then frameOf page root a else 0) mem := by
  unfold walkaddr
  by_cases ha : MAXVA ≤ a
  · have hnot : ¬Readable page root a := fun h => absurd h.1 (by omega)
    rw [if_pos ha, if_neg hnot]
    exact within_ret 0 mem
  rw [if_neg ha]
  refine within_fetch ht hs (by omega) (fun hzero => ?_) fun x => ?_
  · have hnot : ¬Readable page root a := fun h => h.2.1 (by rw [hzero]; rfl)
    rw [if_neg hnot]
    exact within_ret 0 mem
  by_cases hv : pteAt page 2 root a &&& PTE_V = 0
  · have hnot : ¬Readable page root a := fun h => h.2.1 hv
    rw [if_pos hv, if_neg hnot]
    exact within_ret 0 mem
  by_cases hu : pteAt page 2 root a &&& PTE_U = 0
  · have hnot : ¬Readable page root a := fun h => h.2.2 hu
    rw [if_neg hv, if_pos hu, if_neg hnot]
    exact within_ret 0 mem
  · have hread : Readable page root a := ⟨by omega, hv, hu⟩
    rw [if_neg hv, if_neg hu, if_pos hread]
    exact within_ret _ mem

end Access

section Copyout

variable {page old mid new : Nat → Page} {root va : Nat} {bs bs' : List UInt8}

theorem stored_nil : Stored page root old old va [] := ⟨fun i hi => absurd hi (by simp), fun _ _ _ => rfl⟩

theorem stored_page (hfit : va % PGSIZE + bs.length ≤ PGSIZE) :
    Stored page root old (update old (frameOf page root va)
      ((old (frameOf page root va)).write (va % PGSIZE) bs)) va bs where
  inside i hi := by
    have hpage : (va + i) / PGSIZE = va / PGSIZE ∧ (va + i) % PGSIZE = va % PGSIZE + i := by
      unfold PGSIZE at *
      omega
    have hframe : frameOf page root (va + i) = frameOf page root va := congrArg PTE2PA (pteAt_same hpage.1)
    rw [hframe, hpage.2, update_self, Page.get_write _ _ (by omega), if_pos (by omega), Nat.add_sub_cancel_left]
  outside pa o hout := by
    by_cases hpa : pa = frameOf page root va
    · by_cases ho : o < PGSIZE
      · rw [hpa, update_self, Page.get_write _ _ ho, if_neg]
        intro hin
        have hpage : (va + (o - va % PGSIZE)) / PGSIZE = va / PGSIZE ∧ (va + (o - va % PGSIZE)) % PGSIZE = o := by
          unfold PGSIZE at *
          omega
        refine hout (o - va % PGSIZE) (by omega) ⟨?_, hpage.2⟩
        rw [hpa]
        exact congrArg PTE2PA (pteAt_same hpage.1)
      · rw [Page.get_of_ge _ ho, Page.get_of_ge _ ho]
    · rw [update_of_ne hpa]

theorem Stored.append (ht : UserTable page root) (h : Stored page root old mid va bs)
    (h' : Stored page root mid new (va + bs.length) bs')
    (hread : ∀ i < bs.length + bs'.length, Readable page root (va + i)) : Stored page root old new va (bs ++ bs') where
  inside i hi := by
    rw [length_append] at hi
    by_cases hlt : i < bs.length
    · rw [getD_append _ _ _ _ hlt, ← h.inside i hlt]
      refine h'.outside _ _ fun j hj hsame => ?_
      have heq := ht.same (hread (bs.length + j) (by omega)) (hread i hi) (by rw [← hsame.1, Nat.add_assoc])
        (by rw [← hsame.2, Nat.add_assoc])
      omega
    · have hin := h'.inside (i - bs.length) (by omega)
      rw [getD_append_right _ _ _ _ (by omega), ← hin, show va + bs.length + (i - bs.length) = va + i by omega]
  outside pa o hout := by
    rw [length_append] at hout
    rw [h'.outside pa o fun j hj hsame => hout (bs.length + j) (by omega) (by rwa [← Nat.add_assoc]),
      h.outside pa o fun i hi => hout i (by omega)]

def Mem.put (mem : Mem) (pa : Nat) (f : Page → Page) : Mem :=
  { mem with page := update mem.page pa (f (mem.page pa)) }

theorem within_copyoutFrom (L : Layout) (ht : UserTable page root) {fuel : Nat} {mem : Mem} (hs : SameTables page root mem)
    (hfuel : bs.length ≤ fuel) :
    ∃ g new, Reaches (Writable page root) va bs.length g ∧ Stored page root mem.page new va (bs.take g) ∧
      Within (memStep L) (Allowed page root) (copyoutFrom root fuel va bs) mem (decide (g = bs.length))
        { mem with page := new } := by
  induction fuel generalizing va bs mem with
  | zero =>
    obtain rfl : bs = [] := eq_nil_of_length_eq_zero (by omega)
    exact ⟨0, mem.page, reaches_nil, stored_nil, within_ret true mem⟩
  | succ fuel ih =>
    by_cases hnil : bs = []
    · rw [hnil]
      exact ⟨0, mem.page, reaches_nil, stored_nil, within_ret true mem⟩
    have hlen : 0 < bs.length := length_pos_of_ne_nil hnil
    have hfail : ¬Writable page root va → ∀ p : Phys Bool, Within (memStep L) (Allowed page root) p mem false mem →
        ∃ g new, Reaches (Writable page root) va bs.length g ∧ Stored page root mem.page new va (bs.take g) ∧
          Within (memStep L) (Allowed page root) p mem (decide (g = bs.length)) { mem with page := new } := by
      intro hnot p hp
      refine ⟨0, mem.page, reaches_none hnot, stored_nil, ?_⟩
      rwa [decide_eq_false (by omega)]
    rw [copyoutFrom, if_neg hnil]
    by_cases hmax : MAXVA ≤ PGROUNDDOWN va
    · rw [if_pos hmax]
      refine hfail (fun h => ?_) _ (within_ret false mem)
      have hlt := h.1.1
      unfold PGROUNDDOWN PGSIZE at hmax
      omega
    rw [if_neg hmax]
    have hentry : pteAt page 2 root (PGROUNDDOWN va) = pteAt page 2 root va := pteAt_same (down_page va)
    by_cases hw : Writable page root va
    · have hflags : ¬(pteAt page 2 root va &&& PTE_V = 0 ∨ pteAt page 2 root va &&& PTE_U = 0 ∨
          pteAt page 2 root va &&& PTE_W = 0) := by
        rintro (h | h | h)
        · exact hw.1.2.1 h
        · exact hw.1.2.2 h
        · exact hw.2 h
      have hround := round_le va bs.length
      have htake : (bs.take (round va bs.length)).length = round va bs.length := length_take_of_le hround
      have hdrop : (bs.drop (round va bs.length)).length = bs.length - round va bs.length := length_drop ..
      have hs1 : SameTables page root (mem.put (frameOf page root va) fun pg =>
          pg.write (va % PGSIZE) (bs.take (round va bs.length))) := fun q hq =>
        (update_of_ne (ne_of_mem_of_not_mem hq (ht.table va hw.1)) ..).trans (hs q hq)
      have hpos : 0 < round va bs.length := round_pos hlen
      obtain ⟨g, new, hreach, hstored, hwithin⟩ := @ih (PGROUNDDOWN va + PGSIZE) (bs.drop (round va bs.length)) _ hs1
        (by omega)
      rw [hdrop] at hreach hwithin
      have hall := reaches_page (fun _ _ => writable_page) hw hreach
      refine ⟨_, new, hall, ?_, ?_⟩
      · have hfirst : Stored page root mem.page _ va (bs.take (round va bs.length)) := stored_page (by
          rw [htake]
          exact round_fits va bs.length)
        have hle := hreach.le
        rw [take_add]
        refine hfirst.append ht ?_ fun i hi => (hall.all i ?_).1
        · rw [htake]
          rcases round_next va bs.length with hend | hnext
          · obtain rfl : g = 0 := by omega
            exact ⟨fun i hi => absurd hi (by simp), fun pa o _ => hstored.outside pa o fun i hi => absurd hi (by simp)⟩
          · rw [hnext]
            exact hstored
        · rw [htake, length_take, hdrop] at hi
          omega
      · have hdone : decide (round va bs.length + g = bs.length) = decide (g = bs.length - round va bs.length) :=
          decide_eq_decide.mpr (by omega)
        rw [hdone]
        refine within_fetch ht hs (by omega) (fun hzero => ?_) fun x => ?_
        · rw [hentry] at hzero
          exact absurd (by rw [hzero]; rfl) hw.1.2.1
        · rw [hentry, if_neg hflags]
          exact within_bind (within_lift ⟨va, hw, rfl⟩ rfl) hwithin
    · refine hfail hw _ (within_fetch ht hs (by omega) (fun _ => within_ret false mem) fun x => ?_)
      have hflags : pteAt page 2 root va &&& PTE_V = 0 ∨ pteAt page 2 root va &&& PTE_U = 0 ∨
          pteAt page 2 root va &&& PTE_W = 0 := by
        by_contra h
        rw [not_or, not_or] at h
        exact hw ⟨⟨by
          unfold MAXVA PGROUNDDOWN PGSIZE at *
          omega, h.1, h.2.1⟩, h.2.2⟩
      rw [hentry, if_pos hflags]
      exact within_ret false mem

end Copyout

section Copyin

variable {page : Nat → Page} {root va len : Nat}

theorem length_userBytes (n : Nat) : (userBytes page root va n).length = n := by
  unfold userBytes
  rw [length_map, length_range]

variable {n fuel max : Nat} {rest str : List UInt8}

theorem getElem_userBytes {i : Nat} (hi : i < (userBytes page root va n).length) :
    (userBytes page root va n)[i] = userByte page root (va + i) := by
  simp only [userBytes, getElem_map, getElem_range]

theorem userBytes_add (n k : Nat) :
    userBytes page root va (n + k) = userBytes page root va n ++ userBytes page root (va + n) k := by
  unfold userBytes
  rw [range_add, map_append, map_map]
  simp only [comp_def, Nat.add_assoc]

theorem read_page (hfit : va % PGSIZE + n ≤ PGSIZE) :
    (page (frameOf page root va)).read (va % PGSIZE) n = userBytes page root va n := by
  refine map_congr_left fun i hi => ?_
  have hlt := mem_range.mp hi
  have hpage : (va + i) / PGSIZE = va / PGSIZE ∧ (va + i) % PGSIZE = va % PGSIZE + i := by
    unfold PGSIZE at *
    omega
  have hframe : frameOf page root (va + i) = frameOf page root va := congrArg PTE2PA (pteAt_same hpage.1)
  rw [userByte, hframe, hpage.2]

theorem within_walkaddr_down (ht : UserTable mem.page root) (va : Nat) :
    Within (memStep L) (Allowed mem.page root) (walkaddr root (PGROUNDDOWN va)) mem
      (if Readable mem.page root va then frameOf mem.page root va else 0) mem := by
  have hwalk := within_walkaddr (L := L) ht (fun _ _ => rfl : SameTables mem.page root mem) (PGROUNDDOWN va)
  have hframe : frameOf mem.page root (PGROUNDDOWN va) = frameOf mem.page root va :=
    congrArg PTE2PA (pteAt_same (down_page va))
  rw [hframe] at hwalk
  by_cases hr : Readable mem.page root va
  · rw [if_pos hr]
    rwa [if_pos (readable_page (down_page va).symm hr)] at hwalk
  · rw [if_neg hr]
    rwa [if_neg fun h => hr (readable_page (down_page va) h)] at hwalk

theorem within_copyinToFrom (L : Layout) (ht : UserTable mem.page root) (hfuel : len ≤ fuel) :
    ∃ g, Reaches (Readable mem.page root) va len g ∧
      Within (memStep L) (Allowed mem.page root) (copyinToFrom root fuel va len) mem
        (userBytes mem.page root va g, decide (g = len)) mem := by
  induction fuel generalizing va len with
  | zero =>
    obtain rfl : len = 0 := by omega
    exact ⟨0, reaches_nil, within_ret _ mem⟩
  | succ fuel ih =>
    by_cases hzero : len = 0
    · rw [hzero]
      exact ⟨0, reaches_nil, within_ret _ mem⟩
    rw [copyinToFrom, if_neg hzero]
    have hwalk := within_walkaddr_down (L := L) ht va
    by_cases hr : Readable mem.page root va
    · rw [if_pos hr] at hwalk
      have hpos : 0 < round va len := round_pos (by omega)
      obtain ⟨g, hreach, hrest⟩ := @ih (PGROUNDDOWN va + PGSIZE) (len - round va len) (by omega)
      have hle := hreach.le
      have hround := round_le va len
      refine ⟨_, reaches_page (fun _ _ => readable_page) hr hreach, within_bind hwalk ?_⟩
      rw [if_neg (ht.nonzero va hr)]
      refine within_bind (within_lift (.inr ⟨va, hr, rfl⟩) rfl) (within_bind hrest ?_)
      have hbytes : userBytes mem.page root va (round va len + g) =
          (mem.page (frameOf mem.page root va)).read (va % PGSIZE) (round va len) ++
            userBytes mem.page root (PGROUNDDOWN va + PGSIZE) g := by
        rw [userBytes_add, read_page (round_fits va len)]
        rcases round_next va len with hend | hnext
        · have hg : g = 0 := by omega
          simp only [hg, userBytes, range_zero, map_nil]
        · rw [hnext]
      have hdone : decide (round va len + g = len) = decide (g = len - round va len) := decide_eq_decide.mpr (by omega)
      rw [hbytes, hdone]
      exact within_ret _ mem
    · rw [if_neg hr] at hwalk
      refine ⟨0, reaches_none hr, within_bind hwalk ?_⟩
      rw [if_pos rfl, decide_eq_false (by omega)]
      exact within_ret _ mem

theorem copyinFrom_eq (root fuel va len : Nat) : copyinFrom root fuel va len = (do
    let r ← copyinToFrom root fuel va len
    pure (if r.2 then some r.1 else none)) := by
  induction fuel generalizing va len with
  | zero => rfl
  | succ fuel ih =>
    rw [copyinFrom, copyinToFrom]
    by_cases hzero : len = 0
    · rw [if_pos hzero, if_pos hzero]
      rfl
    rw [if_neg hzero, if_neg hzero, bind_assoc]
    refine bind_congr fun pa => ?_
    by_cases hpa : pa = 0
    · rw [if_pos hpa, if_pos hpa]
      rfl
    rw [if_neg hpa, if_neg hpa, bind_assoc]
    refine bind_congr fun pg => ?_
    rw [ih, bind_assoc, bind_assoc]
    refine bind_congr fun r => ?_
    obtain ⟨bytes, _ | _⟩ := r
    · rfl
    · rfl

-- What copyinstr returns: the bytes up to the first NUL, if they are readable and it is one of the
-- first `max`.
structure IsString (page : Nat → Page) (root va max : Nat) (str : List UInt8) : Prop where
  length : str.length < max
  readable : ∀ i ≤ str.length, Readable page root (va + i)
  bytes : str = userBytes page root va str.length
  nonzero : 0 ∉ str
  nul : userByte page root (va + str.length) = 0

theorem mem_userBytes {b : UInt8} : b ∈ userBytes page root va n ↔ ∃ i < n, userByte page root (va + i) = b := by
  unfold userBytes
  simp only [mem_map, mem_range]

theorem first_nul (h : 0 ∈ userBytes page root va n) :
    ∃ k < n, 0 ∉ userBytes page root va k ∧ userByte page root (va + k) = 0 := by
  have hex : ∃ i, i < n ∧ userByte page root (va + i) = 0 := mem_userBytes.mp h
  obtain ⟨hlt, hzero⟩ := Nat.find_spec hex
  refine ⟨Nat.find hex, hlt, fun hmem => ?_, hzero⟩
  obtain ⟨i, hi, hb⟩ := mem_userBytes.mp hmem
  exact Nat.find_min hex hi ⟨by omega, hb⟩

theorem takeWhile_userBytes {k : Nat} (hlt : k < n) (hbefore : 0 ∉ userBytes page root va k)
    (hzero : userByte page root (va + k) = 0) :
    ((userBytes page root va n).takeWhile fun b => decide (b ≠ 0)) = userBytes page root va k := by
  have hall : ∀ b ∈ userBytes page root va k, decide (b ≠ 0) = true := by
    intro b hb
    exact decide_eq_true fun h0 => hbefore (h0 ▸ hb)
  have hrest : (userBytes page root (va + k) (n - k - 1 + 1)).takeWhile (fun b => decide (b ≠ 0)) = [] := by
    unfold userBytes
    rw [range_succ_eq_map, map_cons, takeWhile_cons_of_neg]
    rw [Nat.add_zero, hzero]
    decide
  rw [show n = k + (n - k - 1 + 1) by omega, userBytes_add, takeWhile_append_of_pos hall, hrest, append_nil]

theorem isString_page (hread : ∀ i < n, Readable page root (va + i))
    (hno : 0 ∉ userBytes page root va n) (h : IsString page root (va + n) (max - n) rest) :
    IsString page root va max (userBytes page root va n ++ rest) where
  length := by
    have hlt := h.length
    rw [length_append, length_userBytes]
    omega
  readable i hi := by
    rw [length_append, length_userBytes] at hi
    by_cases hlt : i < n
    · exact hread i hlt
    · have hr := h.readable (i - n) (by omega)
      rwa [show va + n + (i - n) = va + i by omega] at hr
  bytes := by
    rw [length_append, length_userBytes, userBytes_add, ← h.bytes]
  nonzero hmem := (mem_append.mp hmem).elim hno h.nonzero
  nul := by
    rw [length_append, length_userBytes, ← Nat.add_assoc]
    exact h.nul

theorem IsString.unique {s t : List UInt8} (hs : IsString page root va max s) (ht : IsString page root va max t) :
    s = t := by
  have hle : ∀ {s t : List UInt8}, IsString page root va max s → IsString page root va max t → s.length ≤ t.length := by
    intro s t hs ht
    by_contra hlt
    refine hs.nonzero ?_
    rw [hs.bytes]
    exact mem_userBytes.mpr ⟨t.length, by omega, ht.nul⟩
  rw [hs.bytes, ht.bytes, le_antisymm (hle hs ht) (hle ht hs)]

theorem no_string (h : max = 0 ∨ ¬Readable page root va) (str : List UInt8) :
    (none : Option (List UInt8)) = some str ↔ IsString page root va max str := by
  refine ⟨fun h => by simp at h, fun hs => ?_⟩
  rcases h with hzero | hr
  · exact absurd hs.length (by omega)
  · exact absurd (hs.readable 0 (Nat.zero_le _)) hr

theorem isString_later (hno : 0 ∉ userBytes page root va n) (h : IsString page root va max str) :
    ∃ rest, userBytes page root va n ++ rest = str ∧ IsString page root (va + n) (max - n) rest := by
  have hle : n ≤ str.length := by
    by_contra hlt
    exact hno (mem_userBytes.mpr ⟨str.length, by omega, h.nul⟩)
  have hlt := h.length
  have hsplit : str = userBytes page root va n ++ userBytes page root (va + n) (str.length - n) := by
    rw [← userBytes_add, Nat.add_sub_cancel' hle]
    exact h.bytes
  refine ⟨_, hsplit.symm, ?_⟩
  constructor
  · rw [length_userBytes]
    omega
  · intro i hi
    rw [length_userBytes] at hi
    rw [Nat.add_assoc]
    exact h.readable (n + i) (by omega)
  · rw [length_userBytes]
  · intro hmem
    refine h.nonzero ?_
    rw [hsplit]
    exact mem_append_right _ hmem
  · rw [length_userBytes, Nat.add_assoc, Nat.add_sub_cancel' hle]
    exact h.nul

theorem next_string (va max : Nat) (str : List UInt8) :
    IsString page root (PGROUNDDOWN va + PGSIZE) (max - round va max) str ↔
      IsString page root (va + round va max) (max - round va max) str := by
  rcases round_next va max with hend | hnext
  · constructor
    · intro h
      exact absurd h.length (by omega)
    · intro h
      exact absurd h.length (by omega)
  · rw [hnext]

theorem within_copyinstrFrom (L : Layout) (ht : UserTable mem.page root) (hfuel : max ≤ fuel) :
    ∃ r, (∀ str, r = some str ↔ IsString mem.page root va max str) ∧
      Within (memStep L) (Allowed mem.page root) (copyinstrFrom root fuel va max) mem r mem := by
  induction fuel generalizing va max with
  | zero => exact ⟨none, no_string (.inl (by omega)), within_ret none mem⟩
  | succ fuel ih =>
    by_cases hzero : max = 0
    · rw [copyinstrFrom, if_pos hzero]
      exact ⟨none, no_string (.inl hzero), within_ret none mem⟩
    rw [copyinstrFrom, if_neg hzero]
    have hwalk := within_walkaddr_down (L := L) ht va
    by_cases hr : Readable mem.page root va
    · rw [if_pos hr] at hwalk
      have hround := round_le va max
      have hpos : 0 < round va max := round_pos (by omega)
      have hread : ∀ i < round va max, Readable mem.page root (va + i) := fun i hi =>
        readable_page (round_page hi).1.symm hr
      have hpage : (mem.page (frameOf mem.page root va)).read (va % PGSIZE) (min (PGSIZE - va % PGSIZE) max) =
          userBytes mem.page root va (round va max) := read_page (round_fits va max)
      by_cases hnul : 0 ∈ userBytes mem.page root va (round va max)
      · obtain ⟨k, hk, hbefore, hend⟩ := first_nul hnul
        have hstr : IsString mem.page root va max (userBytes mem.page root va k) :=
          ⟨by rw [length_userBytes]; omega, fun i hi => hread i (by rw [length_userBytes] at hi; omega),
            by rw [length_userBytes], hbefore, by rwa [length_userBytes]⟩
        refine ⟨some (userBytes mem.page root va k), fun str => ⟨?_, ?_⟩, within_bind hwalk ?_⟩
        · intro h
          rwa [← Option.some.inj h]
        · intro h
          rw [hstr.unique h]
        · rw [if_neg (ht.nonzero va hr)]
          refine within_bind (within_lift (.inr ⟨va, hr, rfl⟩) rfl) ?_
          dsimp only
          rw [hpage, if_pos hnul, takeWhile_userBytes hk hbefore hend]
          exact within_ret _ mem
      · obtain ⟨r, hiff, hrest⟩ := @ih (PGROUNDDOWN va + PGSIZE) (max - round va max) (by omega)
        refine ⟨r.map (userBytes mem.page root va (round va max) ++ ·), fun str => ?_, within_bind hwalk ?_⟩
        · rw [Option.map_eq_some_iff]
          constructor
          · rintro ⟨rest, hr, rfl⟩
            exact isString_page hread hnul ((next_string va max rest).mp ((hiff rest).mp hr))
          · intro hstr
            obtain ⟨rest, hsplit, hlater⟩ := isString_later hnul hstr
            exact ⟨rest, (hiff rest).mpr ((next_string va max rest).mpr hlater), hsplit⟩
        · rw [if_neg (ht.nonzero va hr)]
          refine within_bind (within_lift (.inr ⟨va, hr, rfl⟩) rfl) ?_
          dsimp only
          rw [hpage, if_neg hnul]
          refine within_bind hrest ?_
          cases r with
          | none | some rest => exact within_ret _ mem
    · rw [if_neg hr] at hwalk
      exact ⟨none, no_string (.inr hr), within_bind hwalk (within_ret none mem)⟩

end Copyin

section Kept

variable {page new : Nat → Page} {root va : Nat} {bs : List UInt8}

theorem Page.ext_get {p q : Page} (h : ∀ o, p.get o = q.get o) : p = q := by
  funext i
  have hi := h i
  unfold Page.get at hi
  rwa [dif_pos i.isLt, dif_pos i.isLt] at hi

theorem Stored.tables (ht : UserTable page root) (h : Stored page root page new va bs)
    (hread : ∀ i < bs.length, Readable page root (va + i)) : ∀ q ∈ tables page 2 root, new q = page q := by
  intro q hq
  refine Page.ext_get fun o => h.outside q o fun i hi hsame => ?_
  refine ht.table (va + i) (hread i hi) ?_
  rwa [hsame.1]

section

variable (h : ∀ q ∈ tables page 2 root, new q = page q)

include h

theorem readable_congr : Readable new root = Readable page root := by
  funext a
  rw [Readable, Readable, pteAt_congr a h]

theorem writable_congr : Writable new root = Writable page root := by
  funext a
  rw [Writable, Writable, readable_congr h, pteAt_congr a h]

theorem frameOf_congr : frameOf new root = frameOf page root := by
  funext a
  rw [frameOf, frameOf, pteAt_congr a h]

theorem allowed_congr : Allowed new root = Allowed page root := by
  funext a
  cases a <;> simp only [Allowed, readable_congr h, writable_congr h, frameOf_congr h, tables_congr h]

end

theorem userTable_congr (ht : UserTable page root) (h : ∀ q ∈ tables page 2 root, new q = page q) : UserTable new root where
  align := ht.align
  apart := by
    rw [readable_congr h, frameOf_congr h]
    exact ht.apart
  nonzero := by
    rw [readable_congr h, frameOf_congr h]
    exact ht.nonzero
  table := by
    rw [readable_congr h, frameOf_congr h, tables_congr h]
    exact ht.table

theorem Stored.userBytes (h : Stored page root page new va bs) (hkeep : ∀ q ∈ Vm.tables page 2 root, new q = page q) :
    userBytes new root va bs.length = bs := by
  refine ext_getElem (length_userBytes _) fun i hi hi' => ?_
  rw [getElem_userBytes, userByte, frameOf_congr hkeep, h.inside i hi', getD_eq_getElem _ _ hi']

end Kept

section Image

variable {root : Nat}

theorem Holds.userTable {m : Nat → Nat} {c : Nat → Page} {h f : Heap Nat Page} {n : Nat} (H : Holds L mem (h * f))
    (hh : h ∈ Image L root m c n) (hhigh : ∀ u, n ≤ u → m u &&& PTE_U = 0) : UserTable mem.page root := by
  have hentry : ∀ a < MAXVA, pteAt mem.page 2 root a = m (a / PGSIZE) := fun a ha =>
    pteAt_image hh H.valid.left (H.agree.left H.valid) ha
  have hlow : ∀ a, Readable mem.page root a → a / PGSIZE < n ∧ frameOf mem.page root a = PTE2PA (m (a / PGSIZE)) := by
    intro a ha
    have hpte := hentry a ha.1
    refine ⟨?_, congrArg PTE2PA hpte⟩
    by_contra hge
    have huser := ha.2.2
    rw [hpte] at huser
    exact huser (hhigh _ (by omega))
  obtain ⟨t, ht, w, hw, rfl⟩ := hh
  have hv : Valid (t * w) := H.valid.left
  have ha : Agree mem.page (t * w) := H.agree.left H.valid
  have hlists : Lists t (tables mem.page 2 root) := tables_tree ht hv.left (ha.left hv)
  obtain ⟨hnodup, -, hown⟩ := user_single 0 n hw hv.right
  refine ⟨?_, fun a b ha hb hf => ?_, fun a ha => ?_, fun a ha hmem => ?_⟩
  · have hroot : t root ≠ .empty := (hlists.mem root).mpr (mem_tables ..)
    have hframe : root ∈ L.frames := H.frame root fun he => hroot (Cell.mul_eq_empty.mp (Cell.mul_eq_empty.mp he).1).1
    exact (L.frame_spec hframe).1
  · obtain ⟨ha, hfa⟩ := hlow a ha
    obtain ⟨hb, hfb⟩ := hlow b hb
    rw [hfa, hfb] at hf
    exact inj_on_of_nodup_map hnodup (mem_range'_1.mpr ⟨Nat.zero_le _, by omega⟩)
      (mem_range'_1.mpr ⟨Nat.zero_le _, by omega⟩) hf
  · obtain ⟨ha, hfa⟩ := hlow a ha
    have hframe := (user_leaf hw (Nat.zero_le (a / PGSIZE)) (by omega)).1
    have hspec := L.frame_spec hframe
    have hbase := L.base
    rw [hfa]
    omega
  · obtain ⟨ha, hfa⟩ := hlow a ha
    have hpage := hown (a / PGSIZE) (mem_range'_1.mpr ⟨Nat.zero_le _, by omega⟩)
    have hempty : t (PTE2PA (m (a / PGSIZE))) = .empty := by
      rw [mul_comm] at hv
      exact hv.frame_empty hpage
    rw [hfa] at hmem
    exact (hlists.mem _).mpr hmem hempty

end Image

section Copies

variable {root va : Nat}

theorem within_copyin (L : Layout) (ht : UserTable mem.page root) (va len : Nat) :
    ∃ g, Reaches (Readable mem.page root) va len g ∧
      Within (memStep L) (Allowed mem.page root) (copyinTo root va len) mem
        (userBytes mem.page root va g, decide (g = len)) mem ∧
      Within (memStep L) (Allowed mem.page root) (copyin root va len) mem
        (if g = len then some (userBytes mem.page root va len) else none) mem := by
  have hloop : ∃ g, Reaches (Readable mem.page root) va len g ∧
      Within (memStep L) (Allowed mem.page root) (copyinToFrom root len va len) mem
        (userBytes mem.page root va g, decide (g = len)) mem := within_copyinToFrom L ht (le_refl len)
  obtain ⟨g, hreach, hwithin⟩ := hloop
  refine ⟨g, hreach, hwithin, ?_⟩
  rw [copyin, copyinFrom_eq]
  refine within_bind hwithin ?_
  by_cases hg : g = len
  · rw [if_pos (decide_eq_true hg), if_pos hg, hg]
    exact within_ret _ mem
  · rw [if_neg (by rw [decide_eq_false hg]; nofun), if_neg hg]
    exact within_ret _ mem

theorem within_copyin_stored (ht : UserTable mem.page root) {new : Nat → Page} {bs : List UInt8}
    (hread : ∀ i < bs.length, Readable mem.page root (va + i)) (h : Stored mem.page root mem.page new va bs) :
    Within (memStep L) (Allowed mem.page root) (copyin root va bs.length) { mem with page := new } (some bs)
      { mem with page := new } := by
  have hkeep := h.tables ht hread
  obtain ⟨g, hreach, -, hcopy⟩ := @within_copyin { mem with page := new } root L (userTable_congr ht hkeep) va bs.length
  dsimp only at hreach hcopy
  rw [readable_congr hkeep] at hreach
  have hfull : g = bs.length := hreach.full_iff.mpr hread
  rwa [if_pos hfull, h.userBytes hkeep, allowed_congr hkeep] at hcopy

end Copies

-- copyout stores, and copyin reads, the bytes of the pages before the first that the user cannot
-- use, and copyinstr reads up to the NUL. No other page is touched but the page tables.
theorem user_copies (L : Layout) (mem : Mem) (root : Nat) (ht : UserTable mem.page root) (va : Nat) :
    (∀ bs, ∃ g new, Reaches (Writable mem.page root) va bs.length g ∧
      (g = bs.length ↔ ∀ i < bs.length, Writable mem.page root (va + i)) ∧
      Stored mem.page root mem.page new va (bs.take g) ∧
      Within (memStep L) (Allowed mem.page root) (copyout root va bs) mem (decide (g = bs.length)) { mem with page := new } ∧
      (g = bs.length → Within (memStep L) (Allowed mem.page root) (copyin root va bs.length) { mem with page := new }
        (some bs) { mem with page := new })) ∧
    (∀ len, ∃ g, Reaches (Readable mem.page root) va len g ∧ (g = len ↔ ∀ i < len, Readable mem.page root (va + i)) ∧
      Within (memStep L) (Allowed mem.page root) (copyinTo root va len) mem
        (userBytes mem.page root va g, decide (g = len)) mem ∧
      Within (memStep L) (Allowed mem.page root) (copyin root va len) mem
        (if g = len then some (userBytes mem.page root va len) else none) mem) ∧
    ∀ max, ∃ r, (∀ str, r = some str ↔ IsString mem.page root va max str) ∧
      Within (memStep L) (Allowed mem.page root) (copyinstr root va max) mem r mem := by
  refine ⟨fun bs => ?_, fun len => ?_, fun max => within_copyinstrFrom L ht (le_refl max)⟩
  · obtain ⟨g, new, hreach, hstored, hrun⟩ := @within_copyoutFrom mem.page root va bs L ht bs.length mem (fun _ _ => rfl) le_rfl
    refine ⟨g, new, hreach, hreach.full_iff, hstored, hrun, fun hg => ?_⟩
    rw [hg, take_length] at hstored
    exact within_copyin_stored ht (fun i hi => (hreach.full_iff.mp hg i hi).1) hstored
  · obtain ⟨g, hreach, hto, hcopy⟩ := within_copyin L ht va len
    exact ⟨g, hreach, hreach.full_iff, hto, hcopy⟩

theorem user_copies_small : ∃ mem new, UserTable mem.page 4096 ∧ Writable mem.page 4096 100 ∧
    Within (memStep smallLayout) (Allowed mem.page 4096) (copyout 4096 100 [104, 105]) mem true { mem with page := new } ∧
    Within (memStep smallLayout) (Allowed mem.page 4096) (copyin 4096 100 2) { mem with page := new } (some [104, 105])
      { mem with page := new } := by
  have hgrown : (run (memStep smallLayout) (uvmalloc 4096 0 4096 PTE_W) (smallMem [4096])).result = some 4096 := by
    decide
  have hcopied : (run (memStep smallLayout) (do
      let _ ← uvmalloc 4096 0 4096 PTE_W
      copyout 4096 100 [104, 105]) (smallMem [4096])).result = some true := by
    decide
  obtain ⟨mem, hrun⟩ := Outcome.done_of_result hgrown
  rw [run_bind hrun] at hcopied
  have H := smallMem_holds [4096] (by decide) (by decide)
  have hspec : Spec smallLayout (Space smallLayout 4096 (fun _ => 0) (pages 0)) (uvmalloc 4096 0 4096 PTE_W) _ :=
    uvmalloc_space 0 4096 PTE_W (fun _ _ => rfl) (by decide)
  have hzeros : zeros [4096] ∈ Space smallLayout 4096 (fun _ => 0) (pages 0) := by
    have hone : zeros [4096] = single 4096 (.fill 0) := mul_one _
    rw [hone]
    exact table_space (zero_table (by decide))
  rw [← mul_one (zeros [4096])] at H
  obtain ⟨r, mem', hrun', -, q, hq, H'⟩ := run_of_spec hspec hzeros H
  obtain ⟨rfl, rfl⟩ := Outcome.done.inj (hrun.symm.trans hrun')
  obtain ⟨-, hq⟩ := Set.mem_iUnion.mp hq
  obtain ⟨m, hq⟩ := Set.mem_iUnion.mp hq
  obtain ⟨c, hfits, hq⟩ := Set.mem_iUnion₂.mp hq
  have ht : UserTable mem.page 4096 := H'.userTable hq fun u hu => by
    rw [hfits u hu]
    exact Nat.zero_and PTE_U
  obtain ⟨g, new, hreach, -, -, hout, hin⟩ := (user_copies smallLayout mem 4096 ht 100).1 [104, 105]
  rw [hout.run] at hcopied
  have hdone := Option.some.inj hcopied
  have hg : g = 2 := of_decide_eq_true hdone
  rw [hdone] at hout
  exact ⟨mem, new, ht, hreach.all 0 (by omega), hout, hin hg⟩

end Vm
