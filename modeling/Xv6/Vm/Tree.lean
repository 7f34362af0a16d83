import Xv6.Vm

-- Page tables as trees of pages, and what walk and freewalk do to them.

namespace Vm

open Sep Set
open scoped Pointwise

variable {h : Heap Nat Page} {i : Nat}

variable {pg : Page} {L : Layout}

section Pages

variable (L : Layout)

-- What a function does to the pages it owns, without a panic.
abbrev Spec {α : Type} (P : Assn Nat Page) (m : Phys α) (Q : α → Assn Nat Page) : Prop :=
  Triple (· ∈ L.frames) (.fill 5) P m Q

def page (pa : Nat) (pg : Page) : Assn Nat Page := ⋃ _ : pa ∈ L.frames, cell pa pg

variable {L} {pa : Nat}

theorem mem_page : h ∈ page L pa pg ↔ pa ∈ L.frames ∧ h = single pa pg := by
  unfold page
  rw [mem_iUnion, exists_prop]
  rfl

theorem page_frame (hh : h ∈ page L pa pg) : pa ∈ L.frames := (mem_page.mp hh).1

theorem cell_subset_page (hpa : pa ∈ L.frames) : cell pa pg ⊆ page L pa pg := fun _ hh => mem_page.mpr ⟨hpa, hh⟩

theorem know_left {P F : Assn Nat Page} {φ : Prop} (hφ : ∀ h ∈ P, φ) : ∀ h ∈ P * F, Valid h → φ := by
  rintro _ ⟨h, hh, _, _, rfl⟩ _
  exact hφ h hh

theorem kalloc_spec : Spec L 1 kalloc fun r => match r with
    | none => 1
    | some pa => page L pa (.fill 5) := by
  refine (triple_alloc (· ∈ L.frames) (Page.fill 5)).post fun r => ?_
  cases r <;> exact subset_rfl

theorem kfree_spec (pa : Nat) (pg : Page) : Spec L (page L pa pg) (kfree pa) fun _ => 1 :=
  Triple.ex fun _ => triple_free pa pg

theorem pageAt_spec (pa : Nat) (pg : Page) : Spec L (page L pa pg) (pageAt pa)
    fun r => ⋃ _ : r = pg, page L pa pg :=
  Triple.ex fun hpa => (triple_get pa pg).post fun _ =>
    iUnion_mono fun _ => cell_subset_page hpa

theorem setPage_spec (pa : Nat) (pg : Page) (f : Page → Page) : Spec L (page L pa pg) (setPage pa f)
    fun _ => page L pa (f pg) :=
  Triple.ex fun hpa => (triple_put pa pg f).post fun _ => cell_subset_page hpa

theorem memset_spec (pa : Nat) (pg : Page) (c : UInt8) : Spec L (page L pa pg) (memset pa c)
    fun _ => page L pa (.fill c) :=
  setPage_spec pa pg _

theorem word_addr (hpa : pa % PGSIZE = 0) (hi : i < 512) :
    PGROUNDDOWN (pa + 8 * i) = pa ∧ (pa + 8 * i) % PGSIZE / 8 = i := by
  unfold PGROUNDDOWN PGSIZE at *
  omega

theorem load_spec (pg : Page) (hi : i < 512) : Spec L (page L pa pg) (load (pa + 8 * i))
    fun w => ⋃ _ : w = pg.word i, page L pa pg := by
  refine Triple.know (fun _ hh _ => page_frame hh) fun hpa => ?_
  obtain ⟨hdown, hindex⟩ := word_addr (L.frame_spec hpa).1 hi
  unfold load
  rw [hdown, hindex]
  refine (pageAt_spec pa pg).bind fun r => Triple.ex fun hr => Triple.ret ?_
  rw [hr]
  exact subset_iUnion (fun _ : pg.word i = pg.word i => page L pa pg) rfl

theorem store_spec (pg : Page) (hi : i < 512) (w : Nat) :
    Spec L (page L pa pg) (store (pa + 8 * i) w) fun _ => page L pa (pg.setWord i w) := by
  refine Triple.know (fun _ hh _ => page_frame hh) fun hpa => ?_
  obtain ⟨hdown, hindex⟩ := word_addr (L.frame_spec hpa).1 hi
  unfold store
  rw [hdown, hindex]
  exact setPage_spec pa pg _

end Pages

-- An entry of a table above the last level: nothing, where `blank` holds of what it covers, or the
-- pointer to a table that satisfies `T`.
def Link (L : Layout) (T : Nat → Assn Nat Page) (blank : Prop) (w : Nat) : Assn Nat Page :=
  (⋃ _ : w = 0 ∧ blank, 1) ∪ ⋃ (q : Nat) (_ : q ∈ L.frames ∧ w = PA2PTE q ||| PTE_V), T q

-- The table at level `l` in page `p` for the virtual pages whose numbers are `b`
-- above their last `l + 1` digits. `m` gives the entry of each virtual page.
def Tree (L : Layout) : Nat → Nat → Nat → (Nat → Nat) → Assn Nat Page
  | 0, p, b, m => ⋃ (pg : Page) (_ : ∀ i < 512, pg.word i = m (b * 512 + i)), page L p pg
  | l + 1, p, b, m => ⋃ pg : Page, page L p pg * (indices.map fun i =>
    Link L (fun q => Tree L l q (b * 512 + i) m) (∀ v, v / 512 ^ (l + 1) = b * 512 + i → m v = 0)
      (pg.word i)).prod

section Tree

variable {l p b v q : Nat} {m m' : Nat → Nat} {pg pg' : Page}

def entry (L : Layout) (l b : Nat) (m : Nat → Nat) (pg : Page) (i : Nat) : Assn Nat Page :=
  Link L (fun q => Tree L l q (b * 512 + i) m) (∀ v, v / 512 ^ (l + 1) = b * 512 + i → m v = 0) (pg.word i)

def others (L : Layout) (l b : Nat) (m : Nat → Nat) (pg : Page) (i : Nat) : Assn Nat Page :=
  ((indices.erase i).map (entry L l b m pg)).prod

theorem tree_succ : Tree L (l + 1) p b m = ⋃ pg : Page, page L p pg * (indices.map (entry L l b m pg)).prod := rfl

theorem entries_split (pg : Page) (hi : i < 512) :
    (indices.map (entry L l b m pg)).prod = entry L l b m pg i * others L l b m pg i :=
  (List.prod_map_erase _ (mem_indices.mpr hi)).symm

theorem tree_frame (hh : h ∈ Tree L l p b m) : p ∈ L.frames := by
  cases l with
  | zero =>
    obtain ⟨pg, hpg⟩ := mem_iUnion.mp hh
    obtain ⟨_, hpg⟩ := mem_iUnion.mp hpg
    exact page_frame hpg
  | succ l =>
    obtain ⟨pg, hpg⟩ := mem_iUnion.mp hh
    obtain ⟨h', hh', _⟩ := hpg
    exact page_frame hh'

theorem index_succ (l v : Nat) : v / 512 ^ (l + 2) * 512 + v / 512 ^ (l + 1) % 512 = v / 512 ^ (l + 1) := by
  have h : v / 512 ^ (l + 2) = v / 512 ^ (l + 1) / 512 := by
    rw [Nat.div_div_eq_div_mul, ← Nat.pow_succ]
  rw [h]
  omega

theorem index_of_entry {l b v : Nat} (h : v / 512 ^ (l + 1) = b * 512 + i) (hi : i < 512) : v / 512 ^ (l + 2) = b := by
  have h' : v / 512 ^ (l + 2) = v / 512 ^ (l + 1) / 512 := by
    rw [Nat.div_div_eq_div_mul, ← Nat.pow_succ]
  omega

theorem entry_congr (hw : pg'.word v = pg.word v) (hT : ∀ q, Tree L l q (b * 512 + v) m' = Tree L l q (b * 512 + v) m)
    (hm : ∀ u, u / 512 ^ (l + 1) = b * 512 + v → m' u = m u) :
    entry L l b m' pg' v = entry L l b m pg v := by
  have hblank : (∀ u, u / 512 ^ (l + 1) = b * 512 + v → m' u = 0) ↔ ∀ u, u / 512 ^ (l + 1) = b * 512 + v → m u = 0 := by
    constructor
    · intro h u hu
      rw [← hm u hu]
      exact h u hu
    · intro h u hu
      rw [hm u hu]
      exact h u hu
  simp only [entry, Link, hw, hT, hblank]

theorem tree_congr (hm : ∀ u, u / 512 ^ (l + 1) = b → m' u = m u) : Tree L l p b m' = Tree L l p b m := by
  induction l generalizing p b with
  | zero =>
    have h : ∀ i < 512, m' (b * 512 + i) = m (b * 512 + i) := fun i hi => hm _ (by omega)
    have hiff : ∀ pg : Page, (∀ i < 512, pg.word i = m' (b * 512 + i)) ↔
        ∀ i < 512, pg.word i = m (b * 512 + i) := fun pg =>
      forall₂_congr fun i hi => by rw [h i hi]
    simp only [Tree, hiff]
  | succ l ih =>
    rw [tree_succ, tree_succ]
    refine iUnion_congr fun pg => ?_
    congr 2
    refine List.map_congr_left fun i hi => ?_
    have hcover : ∀ u, u / 512 ^ (l + 1) = b * 512 + i → m' u = m u := fun u hu =>
      hm u (index_of_entry hu (mem_indices.mp hi))
    exact entry_congr rfl (fun _ => ih hcover) hcover

theorem others_congr (hw : ∀ j, j ≠ i → pg'.word j = pg.word j)
    (hm : ∀ u, u / 512 ^ (l + 1) ≠ b * 512 + i → m' u = m u) :
    others L l b m' pg' i = others L l b m pg i := by
  refine congrArg List.prod (List.map_congr_left fun j hj => ?_)
  have hne : j ≠ i := ((nodup_indices.mem_erase_iff).mp hj).1
  have hcover : ∀ u, u / 512 ^ (l + 1) = b * 512 + j → m' u = m u := fun u hu => hm u (by omega)
  exact entry_congr (hw j hne) (fun _ => tree_congr hcover) hcover

theorem tree_fold (hi : i < 512) (hw : pg.word i = PA2PTE q ||| PTE_V) :
    page L p pg * (Tree L l q (b * 512 + i) m * others L l b m pg i) ⊆ Tree L (l + 1) p b m := by
  have hentry : Tree L l q (b * 512 + i) m ⊆ entry L l b m pg i := fun h hh =>
    .inr (mem_iUnion₂.mpr ⟨q, ⟨tree_frame hh, hw⟩, hh⟩)
  rw [tree_succ]
  refine subset_trans ?_ (subset_iUnion _ pg)
  rw [entries_split pg hi]
  exact mul_subset_mul_left (mul_subset_mul_right hentry)

theorem zero_tree (hm : ∀ v, v / 512 ^ (l + 1) = b → m v = 0) : page L p (.fill 0) ⊆ Tree L l p b m := by
  cases l with
  | zero =>
    intro h hh
    refine mem_iUnion₂.mpr ⟨.fill 0, fun i hi => ?_, hh⟩
    rw [Page.word_zero, hm _ (by omega)]
  | succ l =>
    rw [tree_succ]
    refine subset_trans ?_ (subset_iUnion _ (.fill 0))
    have hone : (1 : Heap Nat Page) ∈ (indices.map (entry L l b m (.fill 0))).prod :=
      one_mem_prod fun i hi => .inl (mem_iUnion.mpr ⟨⟨Page.word_zero i, fun v hv =>
        hm v (index_of_entry hv (mem_indices.mp hi))⟩, rfl⟩)
    intro h hh
    exact ⟨h, hh, 1, hone, mul_one h⟩

end Tree

-- A tree without the last table for virtual page `v`, which is in page `q`: with that table it is a
-- tree again, whatever entries the table now has.
def Hole (L : Layout) (l p : Nat) (m : Nat → Nat) (v q : Nat) : Assn Nat Page :=
  {h | ∀ m' : Nat → Nat, (∀ u, u / 512 ≠ v / 512 → m' u = m u) → ∀ t ∈ Tree L 0 q (v / 512) m',
    t * h ∈ Tree L l p (v / 512 ^ (l + 1)) m'}

section Walk

variable {l p q va : Nat} {m : Nat → Nat} {alloc : Bool}

theorem one_mem_hole (v : Nat) : (1 : Heap Nat Page) ∈ Hole L 0 p m v p := by
  intro m' _ t ht
  rw [mul_one]
  exact ht

theorem hole_fold {v c : Nat} (hw : pg.word (v / 512 ^ (l + 1) % 512) = PA2PTE c ||| PTE_V) :
    Hole L l c m v q * (page L p pg *
      others L l (v / 512 ^ (l + 2)) m pg (v / 512 ^ (l + 1) % 512)) ⊆ Hole L (l + 1) p m v q := by
  rintro _ ⟨s, hs, _, ⟨a, ha, r, hr, rfl⟩, rfl⟩ m' hm' t ht
  have hfar : ∀ u, u / 512 ^ (l + 1) ≠ v / 512 ^ (l + 1) → m' u = m u := by
    intro u hu
    refine hm' u fun he => hu ?_
    rw [Nat.pow_succ', ← Nat.div_div_eq_div_mul, ← Nat.div_div_eq_div_mul, he]
  have hr' : r ∈ others L l (v / 512 ^ (l + 2)) m' pg (v / 512 ^ (l + 1) % 512) := by
    rw [others_congr (fun _ _ => rfl) (m := m)]
    · exact hr
    · rw [index_succ]
      exact hfar
  have hchild : t * s ∈ Tree L l c (v / 512 ^ (l + 2) * 512 + v / 512 ^ (l + 1) % 512) m' := by
    rw [index_succ]
    exact hs m' hm' t ht
  have hall := tree_fold (Nat.mod_lt _ (by omega)) hw
    (mul_mem_mul ha (mul_mem_mul hchild hr'))
  have he : t * (s * (a * r)) = a * (t * s * r) := by
    rw [mul_left_comm s a r, mul_left_comm t a, mul_assoc t s r]
  exact he ▸ hall

-- What walk leaves: the tree, or the tree opened at the last table.
def walked (L : Layout) (l p : Nat) (m : Nat → Nat) (v : Nat) (alloc : Bool) : Option Nat → Assn Nat Page
  | none => ⋃ _ : alloc = false → m v = 0, Tree L l p (v / 512 ^ (l + 1)) m
  | some a => ⋃ (q : Nat) (_ : a = q + 8 * (v % 512)), Tree L 0 q (v / 512) m * Hole L l p m v q

theorem walked_fold {v c : Nat} (hw : pg.word (v / 512 ^ (l + 1) % 512) = PA2PTE c ||| PTE_V) (r : Option Nat) :
    walked L l c m v alloc r * (page L p pg *
      others L l (v / 512 ^ (l + 2)) m pg (v / 512 ^ (l + 1) % 512)) ⊆ walked L (l + 1) p m v alloc r := by
  cases r with
  | none =>
    unfold walked
    rw [iUnion_mul]
    refine iUnion_mono fun _ => ?_
    rw [mul_left_comm]
    nth_rewrite 1 [← index_succ l v]
    exact tree_fold (Nat.mod_lt _ (by omega)) hw
  | some a =>
    unfold walked
    rw [iUnion₂_mul]
    refine iUnion₂_mono fun q _ => ?_
    rw [mul_assoc]
    exact mul_subset_mul_left (hole_fold hw)

theorem walkFrom_child {c : Nat} (hw : pg.word (PX (l + 1) va) = PA2PTE c ||| PTE_V)
    (ih : Spec L (Tree L l c (va / PGSIZE / 512 ^ (l + 1)) m) (walkFrom va alloc l c)
      (walked L l c m (va / PGSIZE) alloc)) :
    Spec L (Tree L l c (va / PGSIZE / 512 ^ (l + 1)) m * (page L p pg *
        others L l (va / PGSIZE / 512 ^ (l + 2)) m pg (PX (l + 1) va)))
      (walkFrom va alloc l c) (walked L (l + 1) p m (va / PGSIZE) alloc) := by
  rw [PX_eq] at hw ⊢
  exact (ih.frame _).post (walked_fold hw)

theorem walkFrom_spec (l p va : Nat) (m : Nat → Nat) (alloc : Bool) :
    Spec L (Tree L l p (va / PGSIZE / 512 ^ (l + 1)) m) (walkFrom va alloc l p)
      (walked L l p m (va / PGSIZE) alloc) := by
  induction l generalizing p with
  | zero =>
    refine Triple.ret fun h hh => mem_iUnion₂.mpr ⟨p, ?_, h, ?_, 1, one_mem_hole _, mul_one h⟩
    · rw [PX_eq, Nat.pow_zero, Nat.div_one]
    · simpa using hh
  | succ l ih =>
    rw [tree_succ]
    refine Triple.ex fun pg => ?_
    rw [entries_split pg (PX_lt (l + 1) va), walkFrom]
    refine Triple.seq _ (load_spec pg (PX_lt (l + 1) va)) subset_rfl fun w => ?_
    rw [iUnion_mul]
    refine Triple.ex fun hw => ?_
    rw [hw]
    have hindex : va / PGSIZE / 512 ^ (l + 2) * 512 + PX (l + 1) va = va / PGSIZE / 512 ^ (l + 1) := by
      rw [PX_eq]
      exact index_succ l _
    rw [entry, Link, hindex, union_mul, mul_union]
    refine Triple.union ?_ ?_
    · -- there is no table yet
      rw [iUnion_mul, mul_iUnion]
      refine Triple.ex fun ⟨hzero, hblank⟩ => ?_
      have hopen : ∀ {F : Assn Nat Page}, F ⊆ 1 * F := fun {F} => (one_mul F).ge
      have hback : page L p pg * (1 * others L l (va / PGSIZE / 512 ^ (l + 2)) m pg (PX (l + 1) va)) ⊆
          Tree L (l + 1) p (va / PGSIZE / 512 ^ (l + 2)) m := by
        rw [tree_succ]
        refine subset_trans ?_ (subset_iUnion _ pg)
        rw [entries_split pg (PX_lt (l + 1) va)]
        refine mul_subset_mul_left (mul_subset_mul_right ?_)
        rintro _ rfl
        refine .inl (mem_iUnion.mpr ⟨⟨hzero, ?_⟩, rfl⟩)
        rw [hindex]
        exact hblank
      rw [hzero, if_neg (by simp)]
      refine Triple.ite (fun halloc => Triple.ret ?_) fun halloc => ?_
      · exact subset_trans hback (subset_iUnion
          (fun _ : alloc = false → m (va / PGSIZE) = 0 => Tree L (l + 1) p _ m) fun _ => hblank _ rfl)
      refine Triple.seq _ kalloc_spec hopen fun r => ?_
      cases r with
      | none =>
        refine Triple.ret ?_
        rw [one_mul]
        exact subset_trans hback (subset_iUnion
          (fun _ : alloc = false → m (va / PGSIZE) = 0 => Tree L (l + 1) p _ m) fun h => absurd h halloc)
      | some c =>
        refine Triple.seq _ (memset_spec c _ 0) subset_rfl fun _ => ?_
        refine Triple.know (know_left fun _ hh => page_frame hh) fun hc => ?_
        refine Triple.seq _ (store_spec pg (PX_lt (l + 1) va) (PA2PTE c ||| PTE_V))
          (mul_left_comm _ _ _).subset fun _ => ?_
        have hword : (pg.setWord (PX (l + 1) va) (PA2PTE c ||| PTE_V)).word (PX (l + 1) va) = PA2PTE c ||| PTE_V :=
          Page.word_setWord_self pg (PX_lt _ _) (pa2pte_or_lt (by decide) (lt_trans (L.frame_lt hc) (by decide)))
        refine (walkFrom_child (p := p) hword (ih c)).pre ?_
        rw [one_mul, others_congr (fun j hj => Page.word_setWord_of_ne pg _ hj) (m := m) fun _ _ => rfl, mul_left_comm]
        exact mul_subset_mul_right (zero_tree hblank)
    · -- the entry points to the next table
      rw [iUnion₂_mul, mul_iUnion₂]
      refine Triple.ex fun c => Triple.ex fun ⟨hc, hw⟩ => ?_
      have hv : (PA2PTE c ||| PTE_V) &&& PTE_V ≠ 0 := by
        rw [pa2pte_or_and (by decide) (by decide)]
        decide
      rw [hw, if_pos hv, PTE2PA_or (by decide) (L.frame_addr hc)]
      refine (walkFrom_child (p := p) hw (ih c)).pre ?_
      rw [mul_left_comm]

end Walk

end Vm
