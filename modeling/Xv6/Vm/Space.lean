import Xv6.Vm.Map

-- Address spaces: a page table with the user's pages, and what the functions that work on them do.

namespace Vm

open Sep List Set Function
open scoped Pointwise

def pages (sz : Nat) : Nat := (sz + (PGSIZE - 1)) / PGSIZE

-- The page table with the user's first `n` pages.
def Image (L : Layout) (root : Nat) (m : Nat → Nat) (c : Nat → Page) (n : Nat) : Assn Nat Page :=
  Table L root m * User L m c 0 n

-- Behind the user's `n` pages the entries are those of `k`.
def Fits (k m : Nat → Nat) (n : Nat) : Prop := ∀ v, n ≤ v → m v = k v

-- `k` leaves the pages below the trapframe to the user.
def Low (k : Nat → Nat) : Prop := ∀ v < TRAPFRAME / PGSIZE, k v = 0

section Pages

variable {sz : Nat}

theorem PGROUNDUP_pages (h : pages sz ≤ MAXVA / PGSIZE) : PGROUNDUP sz = pages sz * PGSIZE := by
  refine PGROUNDUP_eq ?_
  unfold pages PGSIZE MAXVA at h
  omega

theorem pages_mul (v : Nat) : pages (v * PGSIZE) = v := by
  unfold pages PGSIZE
  omega

theorem pages_mono {newsz : Nat} (h : sz ≤ newsz) : pages sz ≤ pages newsz := by
  unfold pages PGSIZE
  omega

theorem intOf_small {n : Nat} (h : n < 2 ^ 31) : intOf n = n := by
  unfold intOf
  rw [Nat.mod_eq_of_lt (by omega), if_pos h]

theorem low_max : TRAPFRAME / PGSIZE < MAXVA / PGSIZE := by decide

end Pages

variable {L : Layout} {m : Nat → Nat} {c : Nat → Page} {root : Nat} {k m : Nat → Nat} {u : Nat} {g : Heap Nat Page}
  {m' : Nat → Nat}

section Count

variable {root n v : Nat} {h : Heap Nat Page}

theorem mapped_single (hg : g ∈ Mapped L m c u) :
    g = single (PTE2PA (m u)) (c u) ∧ PTE2PA (m u) ∈ L.frames ∧ ∃ f, LeafPte (m u) (PTE2PA (m u)) f := by
  obtain ⟨pa, hg⟩ := mem_iUnion.mp hg
  obtain ⟨f, hleaf, hg⟩ := mem_iUnion₂.mp hg
  obtain ⟨hpa, rfl⟩ := mem_page.mp hg
  have haddr := hleaf.address (L.frame_addr hpa)
  rw [haddr]
  exact ⟨rfl, hpa, f, hleaf⟩

theorem user_single (v n : Nat) (hh : h ∈ User L m c v n) (hv : Valid h) :
    ((List.range' v n).map fun u => PTE2PA (m u)).Nodup ∧
    (∀ pa, h pa ≠ .empty ↔ pa ∈ (List.range' v n).map fun u => PTE2PA (m u)) ∧
    ∀ u ∈ List.range' v n, h (PTE2PA (m u)) = .own (c u) :=
  prod_single (fun _ _ _ hg => (mapped_single hg).1) hh hv

theorem user_leaf (hh : h ∈ User L m c v n) (h1 : v ≤ u) (h2 : u < v + n) :
    PTE2PA (m u) ∈ L.frames ∧ ∃ f, LeafPte (m u) (PTE2PA (m u)) f := by
  have hknow : ∀ u ∈ List.range' v n, PTE2PA (m u) ∈ L.frames ∧ ∃ f, LeafPte (m u) (PTE2PA (m u)) f :=
    prod_know (fun _ _ _ hg => (mapped_single hg).2) hh
  exact hknow u (mem_range'_1.mpr ⟨h1, h2⟩)

theorem frames_count {l : List Nat} (hl : Lists h l) (hf : ∀ pa ∈ l, pa ∈ L.frames) :
    l.length ≤ L.frames.length := (subperm_of_subset hl.nodup hf).length_le

theorem drops_single (hg : g ∈ Drops L true m c u) :
    g = single (PTE2PA (m u)) (c u) ∧ PTE2PA (m u) ∈ L.frames := by
  obtain ⟨-, hg⟩ := mem_iUnion.mp hg
  obtain ⟨hpa, rfl⟩ := mem_page.mp hg
  exact ⟨rfl, hpa⟩

theorem held_single (hh : h ∈ Held L m c v n) (hv : Valid h) :
    Lists h ((List.range' v n).map fun u => PTE2PA (m u)) ∧ ∀ u ∈ List.range' v n, h (PTE2PA (m u)) = .own (c u) := by
  obtain ⟨hnodup, hmem, hown⟩ := prod_single (fun _ _ _ hg => (drops_single hg).1) hh hv
  exact ⟨⟨hnodup, hmem⟩, hown⟩

theorem held_frames (hh : h ∈ Held L m c v n) : ∀ u ∈ List.range' v n, PTE2PA (m u) ∈ L.frames :=
  prod_know (fun _ _ _ hg => (drops_single hg).2) hh

theorem user_count (hh : h ∈ User L m c 0 n) (hv : Valid h) : n < TRAPFRAME / PGSIZE := by
  obtain ⟨hnodup, hmem, -⟩ := user_single 0 n hh hv
  have hlists : Lists h ((List.range' 0 n).map fun u => PTE2PA (m u)) := ⟨hnodup, hmem⟩
  have hlen := frames_count (L := L) hlists fun pa hpa => by
    obtain ⟨u, hu, rfl⟩ := mem_map.mp hpa
    exact (user_leaf hh (Nat.zero_le u) (mem_range'_1.mp hu).2).1
  rw [length_map, length_range'] at hlen
  exact lt_of_le_of_lt hlen L.few

theorem image_count (hh : h ∈ Image L root m c n) (hv : Valid h) : n < TRAPFRAME / PGSIZE := by
  obtain ⟨_, _, u, hu, rfl⟩ := hh
  exact user_count hu hv.right

end Count

theorem uvmdealloc_spec (L : Layout) (root : Nat) (m : Nat → Nat) (c : Nat → Page) (oldsz newsz : Nat)
    (hold : pages oldsz ≤ MAXVA / PGSIZE) :
    Spec L (Image L root m c (pages oldsz)) (uvmdealloc root oldsz newsz) fun r =>
      ⋃ _ : r = min oldsz newsz, Image L root (clear m (pages r) (pages oldsz - pages r)) c (pages r) := by
  unfold uvmdealloc
  refine Triple.ite (fun hle => Triple.ret ?_) fun hle => ?_
  · rw [Nat.sub_self, clear_zero, Nat.min_eq_left hle]
    exact subset_iUnion (fun _ : oldsz = oldsz => Image L root m c (pages oldsz)) rfl
  have hmin : min oldsz newsz = newsz := Nat.min_eq_right (by omega)
  have hmono : pages newsz ≤ pages oldsz := pages_mono (by omega)
  rw [PGROUNDUP_pages hold, PGROUNDUP_pages (le_trans hmono hold), hmin]
  have hdiff : (pages oldsz * PGSIZE - pages newsz * PGSIZE) / PGSIZE = pages oldsz - pages newsz := by
    unfold PGSIZE
    omega
  have hint : intOf (pages oldsz - pages newsz) = pages oldsz - pages newsz :=
    intOf_small (lt_of_le_of_lt (le_trans (Nat.sub_le _ _) hold) (by decide))
  have hkeep : User L (clear m (pages newsz) (pages oldsz - pages newsz)) c 0 (pages newsz) =
      User L m c 0 (pages newsz) := by
    refine user_congr (fun u _ hu => ?_) fun _ _ _ => rfl
    unfold clear
    rw [if_neg (by omega)]
  have hall : Image L root m c (pages oldsz) =
      Table L root m * Leaves L true m c (pages newsz) (pages oldsz - pages newsz) * User L m c 0 (pages newsz) := by
    unfold Image
    rw [leaves_true, mul_assoc, mul_comm (User L m c (pages newsz) _)]
    have happ := user_append (L := L) (m := m) (c := c) 0 (pages newsz) (pages oldsz - pages newsz)
    rw [Nat.zero_add, Nat.add_sub_cancel' hmono] at happ
    rw [happ]
  refine Triple.ite (fun hlt => ?_) fun hlt => Triple.ret ?_
  · rw [hdiff, hint, hall]
    refine Triple.seq _ (uvmunmap_spec L root true m c _ _ (by omega)) subset_rfl fun _ => Triple.ret ?_
    rw [← hkeep]
    exact subset_iUnion (fun _ : newsz = newsz => Image L root
      (clear m (pages newsz) (pages oldsz - pages newsz)) c (pages newsz)) rfl
  · have heq : pages newsz = pages oldsz := by
      unfold PGSIZE at hlt
      omega
    rw [heq, Nat.sub_self, clear_zero]
    exact subset_iUnion (fun _ : newsz = newsz => Image L root m c (pages oldsz)) rfl

theorem uvmdealloc_fits (L : Layout) (root : Nat) {k m : Nat → Nat} (c : Nat → Page) (oldsz newsz : Nat)
    (hk : Low k) (hfits : Fits k m (pages oldsz)) :
    Spec L (Image L root m c (pages oldsz)) (uvmdealloc root oldsz newsz) fun r =>
      ⋃ (m' : Nat → Nat) (_ : r = min oldsz newsz ∧ Fits k m' (pages r) ∧ ∀ u < pages r, m' u = m u),
        Image L root m' c (pages r) := by
  refine Triple.know (fun _ => image_count) fun hcount => ?_
  refine (uvmdealloc_spec L root m c oldsz newsz (le_trans (le_of_lt hcount) (le_of_lt low_max))).post fun r => ?_
  refine iUnion_subset fun hr => ?_
  intro h hh
  have hle : pages r ≤ pages oldsz := pages_mono (by rw [hr]; exact Nat.min_le_left ..)
  refine mem_iUnion₂.mpr ⟨_, ⟨hr, fun v hv => ?_, fun u hu => ?_⟩, hh⟩
  · unfold clear
    by_cases hlt : v < pages oldsz
    · rw [if_pos (by omega), hk v (by omega)]
    · rw [if_neg (by omega)]
      exact hfits v (by omega)
  · unfold clear
    rw [if_neg (by omega)]

section Alloc

variable {F : Assn Nat Page} {ts : List Nat}

-- `m` is `k` with `n` more entries from `v` on, whose flags are `flags`.
structure Adds (k m flags : Nat → Nat) (v n : Nat) : Prop where
  out : ∀ u, ¬(v ≤ u ∧ u < v + n) → m u = k u
  entry : ∀ u, v ≤ u → u < v + n → m u = PA2PTE (PTE2PA (m u)) ||| flags u

theorem adds_zero (k flags : Nat → Nat) (v : Nat) : Adds k k flags v 0 :=
  ⟨fun _ _ => rfl, fun u h1 h2 => absurd h2 (by omega)⟩

variable {flags : Nat → Nat} {v n pa x : Nat}

theorem Adds.snoc (h : Adds k m flags v n) (hpa : pa ∈ L.frames) (hf : flags (v + n) < 2 ^ 10) :
    Adds k (update m (v + n) (PA2PTE pa ||| flags (v + n))) flags v (n + 1) where
  out u hu := by
    rw [update_of_ne (by omega)]
    exact h.out u (by omega)
  entry u h1 h2 := by
    by_cases hu : u = v + n
    · rw [hu, update_self, PTE2PA_or hf (L.frame_addr hpa)]
    · rw [update_of_ne hu]
      exact h.entry u h1 (by omega)

theorem Adds.clear (h : Adds k m flags v n) : clear m v n = clear k v n := by
  funext u
  unfold Vm.clear
  by_cases hu : v ≤ u ∧ u < v + n
  · rw [if_pos hu, if_pos hu]
  · rw [if_neg hu, if_neg hu, h.out u hu]

theorem held_grow {f : Nat} (hsmall : f < 2 ^ 10) (hvalid : f &&& PTE_V ≠ 0) (hleaf : f ≠ PTE_V) :
    Held L m c v n * page L pa (c (v + n)) ⊆ Held L (update m (v + n) (PA2PTE pa ||| f)) c v (n + 1) := by
  have hrest : Held L (update m (v + n) (PA2PTE pa ||| f)) c v n = Held L m c v n :=
    held_congr (fun u _ hu => update_of_ne (by omega) ..) fun _ _ _ => rfl
  rw [held_snoc, hrest]
  refine mul_subset_mul_left fun h hh => mem_iUnion.mpr ?_
  rw [update_self, pa2pte_or_and hsmall (by decide), PTE_FLAGS_or hsmall,
    PTE2PA_or hsmall (L.frame_addr (page_frame hh))]
  exact ⟨⟨hvalid, hleaf⟩, hh⟩

theorem uvmdealloc_held {j : Nat} (hv : j = 0 ∨ v + j ≤ MAXVA / PGSIZE) :
    Spec L (Table L root m * Held L m c v j) (uvmdealloc root ((v + j) * PGSIZE) (v * PGSIZE)) fun _ =>
      Table L root (clear m v j) := by
  unfold uvmdealloc
  rcases Nat.eq_zero_or_pos j with rfl | hj
  · rw [if_pos (show (v + 0) * PGSIZE ≤ v * PGSIZE from le_rfl), clear_zero]
    exact Triple.ret (mul_one _).subset
  have hle : v + j ≤ MAXVA / PGSIZE := hv.resolve_left (by omega)
  have hround : ∀ u ≤ MAXVA / PGSIZE, PGROUNDUP (u * PGSIZE) = u * PGSIZE := by
    intro u hu
    rw [PGROUNDUP_pages (by rwa [pages_mul]), pages_mul]
  have hdiff : ((v + j) * PGSIZE - v * PGSIZE) / PGSIZE = j := by
    unfold PGSIZE
    omega
  have hint : intOf j = j := intOf_small (lt_of_le_of_lt (le_trans (Nat.le_add_left j v) hle) (by decide))
  have hlt : v * PGSIZE < (v + j) * PGSIZE := by
    unfold PGSIZE
    omega
  rw [if_neg (by omega), hround _ hle, hround v (by omega), if_pos hlt, hdiff, hint]
  exact (uvmunmap_held L root m c hle).bind fun _ => Triple.ret subset_rfl

def allocFlags (xperm : Nat) : Nat := PTE_R ||| PTE_U ||| xperm ||| PTE_V

theorem user_flags (x : Nat) : allocFlags x &&& (PTE_V ||| PTE_R) = PTE_V ||| PTE_R := by
  have hx : x &&& 3 ≤ 3 := Nat.and_le_right
  have hsplit : allocFlags x &&& 3 = (18 &&& 3) ||| (x &&& 3) ||| (1 &&& 3) := by
    unfold allocFlags
    rw [Nat.and_or_distrib_right, Nat.and_or_distrib_right]
    rfl
  show allocFlags x &&& 3 = 3
  rw [hsplit]
  interval_cases (x &&& 3) <;> rfl

theorem allocFlags_lt (hx : x < 2 ^ 10) : allocFlags x < 2 ^ 10 :=
  Nat.or_lt_two_pow (Nat.or_lt_two_pow (by decide) hx) (by decide)

theorem alloc_leaf {w : Nat} (hx : x < 2 ^ 10) (hw : w = PA2PTE pa ||| allocFlags x) :
    LeafPte w pa (allocFlags x) := ⟨allocFlags_lt hx, user_flags x, hw⟩

theorem user_flag (hx : x < 2 ^ 10) : (PA2PTE pa ||| allocFlags x) &&& PTE_U ≠ 0 := by
  have hsplit : allocFlags x &&& PTE_U = PTE_U ||| (x &&& PTE_U) := by
    unfold allocFlags
    rw [Nat.and_or_distrib_right, Nat.and_or_distrib_right]
    exact Nat.or_zero _
  have hle : PTE_U ≤ PTE_U ||| (x &&& PTE_U) := Nat.left_le_or
  rw [pa2pte_or_and (allocFlags_lt hx) (by decide), hsplit]
  unfold PTE_U at hle ⊢
  omega

abbrev zeroed : Nat → Page := fun _ => .fill 0

-- What uvmalloc leaves: the new size with `n` zero pages from `v` on, or 0 with
-- the entries that there were, apart from some of `φ` that are cleared.
def grown (L : Layout) (root : Nat) (ts : List Nat) (k : Nat → Nat) (φ : Nat → Prop) (xperm v n newsz : Nat)
    (r : Nat) : Assn Nat Page :=
  (⋃ (m : Nat → Nat) (_ : r = newsz ∧ Adds k m (fun _ => allocFlags xperm) v n),
    (Table L root m ∩ Covers ts) * Held L m zeroed v n) ∪
  ⋃ (j : Nat) (_ : r = 0 ∧ j ≤ n ∧ ∀ u, v ≤ u → u < v + j → φ u), Table L root (clear k v j)

-- The first page that uvmalloc maps, and how many it maps.
def firstPage (oldsz : Nat) : Nat := PGROUNDUP oldsz / PGSIZE

def morePages (oldsz newsz : Nat) : Nat := (newsz - PGROUNDUP oldsz + (PGSIZE - 1)) / PGSIZE

section Loop

variable {φ : Nat → Prop} (hφ : ∀ u, φ u → u < MAXVA / PGSIZE ∧ k u &&& PTE_V = 0)

include hφ

-- The loop goes on as long as there are pages, so `hroom` may count them.
theorem uvmallocFrom_spec {newsz xperm v n : Nat} (hx : xperm < 2 ^ 10)
    (hroom : ∀ j < n, (∃ m, ∃ h ∈ Covers ts * Held L m zeroed v (j + 1) * F, Valid h) → φ (v + j))
    {i j : Nat} (hij : j + i = n) (hadds : Adds k m (fun _ => allocFlags xperm) v j)
    (hj : ∀ u, v ≤ u → u < v + j → φ u) :
    Spec L ((Table L root m ∩ Covers ts) * Held L m zeroed v j * F)
      (uvmallocFrom root (v * PGSIZE) newsz xperm i ((v + j) * PGSIZE))
      fun r => grown L root ts k φ xperm v n newsz r * F := by
  induction i generalizing j m with
  | zero =>
    obtain rfl : j = n := by omega
    refine Triple.ret (mul_subset_mul_right fun h hh => .inl ?_)
    exact mem_iUnion₂.mpr ⟨m, ⟨rfl, hadds⟩, hh⟩
  | succ i ih =>
    have hundo : Spec L ((Table L root m ∩ Covers ts) * Held L m zeroed v j * F) (do
        let _ ← uvmdealloc root ((v + j) * PGSIZE) (v * PGSIZE)
        pure 0) fun r => grown L root ts k φ xperm v n newsz r * F := by
      have hmax : j = 0 ∨ v + j ≤ MAXVA / PGSIZE := by
        rcases Nat.eq_zero_or_pos j with h | h
        · exact .inl h
        · have := (hφ _ (hj (v + j - 1) (by omega) (by omega))).1
          exact .inr (by omega)
      refine Triple.seq F (uvmdealloc_held hmax) (mul_subset_mul_right (mul_subset_mul_right
        Set.inter_subset_left)) fun _ => Triple.ret (mul_subset_mul_right fun h hh => .inr ?_)
      rw [hadds.clear] at hh
      exact mem_iUnion₂.mpr ⟨j, ⟨rfl, by omega, hj⟩, hh⟩
    rw [uvmallocFrom]
    refine Triple.seq _ kalloc_spec (one_mul _).ge fun r => ?_
    cases r with
    | none =>
      rw [one_mul]
      exact hundo
    | some mem =>
      refine Triple.seq _ (memset_spec mem _ 0) subset_rfl fun _ => ?_
      refine Triple.know (know_left fun _ hh => page_frame hh) fun hmem => ?_
      have hleaf : LeafPte (PA2PTE mem ||| allocFlags xperm) mem (allocFlags xperm) := alloc_leaf hx rfl
      have hgrow : Held L m zeroed v j * page L mem (.fill 0) ⊆
          Held L (update m (v + j) (PA2PTE mem ||| allocFlags xperm)) zeroed v (j + 1) :=
        held_grow (c := zeroed) hleaf.small hleaf.flag_valid hleaf.flag_leaf
      -- with this page there is one more, so the next entry is free
      have hcount : ∀ h ∈ page L mem (.fill 0) * ((Table L root m ∩ Covers ts) * Held L m zeroed v j * F), Valid h →
          φ (v + j) := by
        intro h hh hv
        refine hroom j (by omega) ⟨update m (v + j) (PA2PTE mem ||| allocFlags xperm), h, ?_, hv⟩
        have hsub : page L mem (.fill 0) * ((Table L root m ∩ Covers ts) * Held L m zeroed v j * F) ⊆
            Covers ts * (Held L m zeroed v j * page L mem (.fill 0)) * F := by
          have he : page L mem (.fill 0) * ((Table L root m ∩ Covers ts) * Held L m zeroed v j * F) =
              (Table L root m ∩ Covers ts) * (Held L m zeroed v j * page L mem (.fill 0)) * F := by ac_rfl
          rw [he]
          exact mul_subset_mul_right (mul_subset_mul_right Set.inter_subset_right)
        exact mul_subset_mul_right (mul_subset_mul_left hgrow) (hsub hh)
      refine Triple.know hcount fun hnext' => ?_
      obtain ⟨hlt, hnone⟩ := hφ _ hnext'
      have hva : (v + j) * PGSIZE < MAXVA := page_lt (by omega)
      have hpage : (v + j) * PGSIZE / PGSIZE = v + j := Nat.mul_div_cancel _ (by decide)
      have hnext : (v + j) * PGSIZE + PGSIZE = (v + (j + 1)) * PGSIZE := (Nat.succ_mul (v + j) PGSIZE).symm
      have hfree : m ((v + j) * PGSIZE / PGSIZE) &&& PTE_V = 0 := by
        rw [hpage, hadds.out _ (by omega)]
        exact hnone
      refine Triple.seq (page L mem (.fill 0) * (Held L m zeroed v j * F)) ((mappages_one L hva
        (Nat.mul_mod_left _ PGSIZE) hfree (L.frame_lt hmem) (Nat.or_lt_two_pow (by decide) hx)).keep
        (mappages_keeps ..) ts) (le_of_eq (by ac_rfl)) fun ok => ?_
      cases ok with
      | false =>
        refine Triple.seq ((Table L root m ∩ Covers ts) * (Held L m zeroed v j * F)) (kfree_spec mem _)
          (mul_left_comm _ _ _).subset fun _ => ?_
        rw [one_mul, ← mul_assoc]
        exact hundo
      | true =>
        rw [if_pos rfl, if_pos rfl, hpage, hnext]
        have hj' : ∀ u, v ≤ u → u < v + (j + 1) → φ u := by
          intro u h1 h2
          by_cases hu : u = v + j
          · rw [hu]
            exact hnext'
          · exact hj u h1 (by omega)
        refine (ih (by omega) (hadds.snoc hmem hleaf.small) hj').pre ?_
        have he : ∀ T : Assn Nat Page, T * (page L mem (.fill 0) * (Held L m zeroed v j * F)) =
            T * (Held L m zeroed v j * page L mem (.fill 0)) * F := fun T => by ac_rfl
        rw [he]
        exact mul_subset_mul_right (mul_subset_mul_left hgrow)

theorem uvmalloc_grown {oldsz newsz xperm : Nat} (hle : oldsz ≤ newsz) (hx : xperm < 2 ^ 10)
    (hroom : ∀ j < morePages oldsz newsz,
      (∃ m, ∃ h ∈ Covers ts * Held L m zeroed (firstPage oldsz) (j + 1) * F, Valid h) → φ (firstPage oldsz + j)) :
    Spec L ((Table L root k ∩ Covers ts) * F) (uvmalloc root oldsz newsz xperm) fun r =>
      grown L root ts k φ xperm (firstPage oldsz) (morePages oldsz newsz) newsz r * F := by
  have hmul : PGROUNDUP oldsz = (firstPage oldsz + 0) * PGSIZE := by
    unfold firstPage PGROUNDUP PGSIZE
    omega
  have hloop : Spec L ((Table L root k ∩ Covers ts) * Held L k zeroed (firstPage oldsz) 0 * F)
      (uvmallocFrom root (firstPage oldsz * PGSIZE) newsz xperm (morePages oldsz newsz)
        ((firstPage oldsz + 0) * PGSIZE)) _ :=
    uvmallocFrom_spec hφ hx hroom (Nat.zero_add _) (adds_zero k _ _) fun u h1 h2 => absurd h2 (by omega)
  unfold uvmalloc
  rw [if_neg (by omega), ← morePages, hmul, Nat.add_zero]
  exact hloop.pre (mul_subset_mul_right (mul_one _).ge)

end Loop

-- Growth from `v` pages to `n`: what was there is as it was, the new pages are
-- zero and for the user.
structure Grown (k m m' : Nat → Nat) (c c' : Nat → Page) (v n : Nat) : Prop where
  fits : Fits k m' n
  map : ∀ u < v, m' u = m u
  user : ∀ u, v ≤ u → u < n → m' u &&& PTE_U ≠ 0
  old : ∀ u < v, c' u = c u
  zero : ∀ u, v ≤ u → u < n → c' u = .fill 0

-- What uvmalloc leaves: the new size with the pages for it, or 0 with the `v0` pages that there
-- were.
def alloced (L : Layout) (root : Nat) (k m : Nat → Nat) (c : Nat → Page) (v0 v n newsz : Nat) (r : Nat) :
    Assn Nat Page :=
  (⋃ (m' : Nat → Nat) (c' : Nat → Page) (_ : r = newsz ∧ Grown k m m' c c' v n), Image L root m' c' n) ∪
  ⋃ (m' : Nat → Nat) (_ : r = 0 ∧ Fits k m' v0 ∧ ∀ u < v0, m' u = m u), Image L root m' c v0

theorem user_held_count {c' : Nat → Page} {n j : Nat} {h : Heap Nat Page}
    (hh : h ∈ Held L m' c' n j * User L m c 0 n) (hv : Valid h) : n + j < TRAPFRAME / PGSIZE := by
  obtain ⟨a, ha, u, hu, rfl⟩ := hh
  replace hv : Valid (a * u) := hv
  obtain ⟨hnodup, hmem, -⟩ := user_single 0 n hu hv.right
  have hlists := (held_single ha hv.left).1.mul ⟨hnodup, hmem⟩ hv
  have hlen := frames_count (L := L) hlists fun pa hpa => by
    rcases mem_append.mp hpa with hpa | hpa
    · obtain ⟨w, hw, rfl⟩ := mem_map.mp hpa
      exact held_frames ha w hw
    · obtain ⟨w, hw, rfl⟩ := mem_map.mp hpa
      exact (user_leaf hu (Nat.zero_le w) (mem_range'_1.mp hw).2).1
  rw [length_append, length_map, length_map, length_range', length_range', Nat.add_comm] at hlen
  exact lt_of_le_of_lt hlen L.few

theorem drops_mapped {u f : Nat} (hleaf : LeafPte (m u) (PTE2PA (m u)) f) : Drops L true m c u ⊆ Mapped L m c u := by
  intro h hh
  obtain ⟨-, hh⟩ := mem_iUnion.mp hh
  exact mem_iUnion.mpr ⟨_, mem_iUnion₂.mpr ⟨f, hleaf, hh⟩⟩

theorem user_held_grow {xperm n j : Nat} (hx : xperm < 2 ^ 10)
    (hadds : Adds m m' (fun _ => allocFlags xperm) n j) :
    Held L m' zeroed n j * User L m c 0 n ⊆ User L m' (fun u => if u < n then c u else .fill 0) 0 (n + j) := by
  have hold : User L m' (fun u => if u < n then c u else .fill 0) 0 n = User L m c 0 n :=
    user_congr (fun u _ hu => hadds.out u (by omega)) fun u _ hu => if_pos (by omega)
  rw [user_append, hold, Nat.zero_add, mul_comm]
  refine mul_subset_mul_left (prod_mono fun u hu => ?_)
  obtain ⟨h1, h2⟩ := mem_range'_1.mp hu
  have hzero : Drops L true m' zeroed u = Drops L true m' (fun u => if u < n then c u else .fill 0) u := by
    simp only [Drops, if_neg (show ¬u < n by omega)]
  rw [hzero]
  exact drops_mapped (alloc_leaf hx (hadds.entry u h1 h2))

theorem uvmalloc_spec (oldsz newsz xperm : Nat) (hk : Low k) (hfits : Fits k m (pages oldsz)) (hx : xperm < 2 ^ 10)
    (hle : oldsz ≤ newsz) :
    Spec L (Image L root m c (pages oldsz)) (uvmalloc root oldsz newsz xperm)
      (alloced L root k m c (pages oldsz) (pages oldsz) (pages newsz) newsz) := by
  refine Triple.know (fun _ => image_count) fun hcount => ?_
  have hmax := low_max
  have hround : PGROUNDUP oldsz = pages oldsz * PGSIZE := PGROUNDUP_pages (by omega)
  have hfirst : firstPage oldsz = pages oldsz := by
    rw [firstPage, hround, Nat.mul_div_cancel _ (by decide)]
  have hmore : pages oldsz + morePages oldsz newsz = pages newsz := by
    rw [morePages, hround]
    unfold pages PGSIZE
    omega
  have hfree : ∀ v, pages oldsz ≤ v → v < TRAPFRAME / PGSIZE → m v = 0 := by
    intro v h1 h2
    rw [hfits v h1, hk v h2]
  have hφ : ∀ u, pages oldsz ≤ u ∧ u < TRAPFRAME / PGSIZE → u < MAXVA / PGSIZE ∧ m u &&& PTE_V = 0 := by
    intro u ⟨h1, h2⟩
    rw [hfree u h1 h2]
    exact ⟨by omega, rfl⟩
  have hspec : Spec L ((Table L root m ∩ Covers []) * User L m c 0 (pages oldsz)) (uvmalloc root oldsz newsz xperm) _ :=
    uvmalloc_grown hφ hle hx fun j hj ⟨m', h, hh, hv⟩ => by
      rw [hfirst, mul_assoc] at hh
      obtain ⟨t, _, u, hu, rfl⟩ := hh
      have hlt := user_held_count hu hv.right
      rw [hfirst]
      exact ⟨by omega, by omega⟩
  rw [hfirst] at hspec
  refine hspec.mono (mul_subset_mul_right fun h hh => ⟨hh, nofun⟩) fun r => ?_
  rw [grown, union_mul]
  refine union_subset_union ?_ ?_
  · rintro _ ⟨a, ha, u, hu, rfl⟩
    obtain ⟨m', ⟨hr, hadds⟩, t, ht, w, hw, rfl⟩ := mem_iUnion₂.mp ha
    have hgrown : Grown k m m' c (fun u => if u < pages oldsz then c u else .fill 0) (pages oldsz) (pages newsz) := by
      constructor
      · intro v hv
        rw [hadds.out v (by omega)]
        exact hfits v (by omega)
      · exact fun v hv => hadds.out v (by omega)
      · intro v h1 h2
        rw [hadds.entry v h1 (by omega)]
        exact user_flag hx
      · exact fun v hv => if_pos hv
      · exact fun v h1 _ => if_neg (by omega)
    refine mem_iUnion.mpr ⟨m', mem_iUnion₂.mpr ⟨_, ⟨hr, hgrown⟩, t, ht.1, w * u, ?_, (mul_assoc t w u).symm⟩⟩
    rw [← hmore]
    exact user_held_grow hx hadds (mul_mem_mul hw hu)
  · rintro _ ⟨a, ha, u, hu, rfl⟩
    obtain ⟨j, ⟨hr, -, hj⟩, ha⟩ := mem_iUnion₂.mp ha
    have hkeep : ∀ v < pages oldsz, clear m (pages oldsz) j v = m v := fun v hv => if_neg (by omega)
    refine mem_iUnion₂.mpr ⟨_, ⟨hr, fun v hv => ?_, hkeep⟩, a, ha, u, ?_, rfl⟩
    · unfold clear
      by_cases hlt : pages oldsz ≤ v ∧ v < pages oldsz + j
      · rw [if_pos hlt, hk v (hj v hlt.1 hlt.2).2]
      · rw [if_neg hlt]
        exact hfits v hv
    · rwa [user_congr (fun v _ hv => hkeep v (by omega)) fun _ _ _ => rfl]

end Alloc

-- An address space of `n` pages, with the entries of `k` behind them.
def Space (L : Layout) (root : Nat) (k : Nat → Nat) (n : Nat) : Assn Nat Page :=
  ⋃ (m : Nat → Nat) (c : Nat → Page) (_ : Fits k m n), Image L root m c n

section Space

variable {n : Nat}

theorem image_space (hfits : Fits k m n) : Image L root m c n ⊆ Space L root k n := fun _ hh =>
  mem_iUnion.mpr ⟨m, mem_iUnion₂.mpr ⟨c, hfits, hh⟩⟩

theorem space_ex {α : Type} {prog : Phys α} {Q : α → Assn Nat Page}
    (h : ∀ m c, Fits k m n → Spec L (Image L root m c n) prog Q) : Spec L (Space L root k n) prog Q :=
  Triple.ex fun m => Triple.ex fun c => Triple.ex fun hf => h m c hf

theorem table_space : Table L root k ⊆ Space L root k 0 := by
  refine subset_trans ?_ (image_space (c := fun _ => .fill 0) fun _ _ => rfl)
  exact (mul_one _).ge

theorem uvmalloc_image (oldsz newsz xperm : Nat) (hk : Low k) (hfits : Fits k m (pages oldsz)) (hx : xperm < 2 ^ 10) :
    Spec L (Image L root m c (pages oldsz)) (uvmalloc root oldsz newsz xperm) fun r =>
      ⋃ (m' : Nat → Nat) (c' : Nat → Page) (_ : (r ≠ 0 → r = max oldsz newsz) ∧
          Fits k m' (pages (if r = 0 then oldsz else r)) ∧
          ∀ u < pages (if r = 0 then oldsz else r), m' u = m u ∧ u < pages oldsz ∨ m' u &&& PTE_U ≠ 0),
        Image L root m' c' (pages (if r = 0 then oldsz else r)) := by
  by_cases hlt : newsz < oldsz
  · unfold uvmalloc
    rw [if_pos hlt]
    refine Triple.ret fun h hh => mem_iUnion.mpr ⟨m, mem_iUnion₂.mpr ⟨c, ⟨fun _ => by omega, ?_⟩, ?_⟩⟩
    · rw [if_neg (by omega)]
      exact ⟨hfits, fun u hu => .inl ⟨rfl, hu⟩⟩
    · rw [if_neg (by omega)]
      exact hh
  refine (uvmalloc_spec oldsz newsz xperm hk hfits hx (by omega)).post fun r h hh => ?_
  rcases hh with hh | hh
  · obtain ⟨m', hh⟩ := mem_iUnion.mp hh
    obtain ⟨c', ⟨rfl, hg⟩, hh⟩ := mem_iUnion₂.mp hh
    have hsize : (if r = 0 then oldsz else r) = r := by
      by_cases hr : r = 0
      · rw [if_pos hr]
        omega
      · rw [if_neg hr]
    rw [hsize]
    refine mem_iUnion.mpr ⟨m', mem_iUnion₂.mpr ⟨c', ⟨fun _ => by omega, hg.fits, fun u hu => ?_⟩, hh⟩⟩
    by_cases hold : u < pages oldsz
    · exact .inl ⟨hg.map u hold, hold⟩
    · exact .inr (hg.user u (by omega) hu)
  · obtain ⟨m', ⟨rfl, hf, hmap⟩, himage⟩ := mem_iUnion₂.mp hh
    refine mem_iUnion.mpr ⟨m', mem_iUnion₂.mpr ⟨c, ⟨fun hr => absurd rfl hr, ?_⟩, ?_⟩⟩
    · rw [if_pos rfl]
      exact ⟨hf, fun u hu => .inl ⟨hmap u hu, hu⟩⟩
    · rw [if_pos rfl]
      exact himage

theorem uvmalloc_space (oldsz newsz xperm : Nat) (hk : Low k) (hx : xperm < 2 ^ 10) :
    Spec L (Space L root k (pages oldsz)) (uvmalloc root oldsz newsz xperm) fun r =>
      ⋃ _ : r ≠ 0 → r = max oldsz newsz, Space L root k (pages (if r = 0 then oldsz else r)) :=
  space_ex fun m c hfits => (uvmalloc_image oldsz newsz xperm hk hfits hx).post fun r h hh => by
    obtain ⟨m', hh⟩ := mem_iUnion.mp hh
    obtain ⟨c', ⟨hr, hf, -⟩, hh⟩ := mem_iUnion₂.mp hh
    exact mem_iUnion.mpr ⟨hr, image_space hf hh⟩

theorem uvmfree_spec (root sz : Nat) : Spec L (Space L root (fun _ => 0) (pages sz)) (uvmfree root sz) fun _ => 1 := by
  refine space_ex fun m c hfits => ?_
  refine Triple.know (fun _ => image_count) fun hcount => ?_
  have hmax := low_max
  have hclear : ∀ v, v / 512 ^ 3 = 0 → clear m 0 (pages sz) v = 0 := by
    intro v _
    unfold clear
    by_cases hv : v < pages sz
    · rw [if_pos (by omega)]
    · rw [if_neg (by omega)]
      exact hfits v (by omega)
  have hwalk : Spec L (Table L root (clear m 0 (pages sz))) (freewalk 3 root) fun _ => 1 :=
    freewalk_spec 2 root 0 hclear
  unfold uvmfree
  refine Triple.ite (fun _ => ?_) fun hzero => ?_
  · have hcancel : PGROUNDUP sz / PGSIZE = pages sz := by
      rw [PGROUNDUP_pages (le_of_lt (lt_trans hcount hmax))]
      exact Nat.mul_div_cancel _ (by decide)
    rw [hcancel]
    have hunmap := uvmunmap_spec L root true m c 0 (pages sz) (by omega)
    rw [Nat.zero_mul] at hunmap
    exact hunmap.bind fun _ => hwalk
  · have hsz : pages sz = 0 := by
      unfold pages PGSIZE
      omega
    rw [hsz, clear_zero] at hwalk
    rw [hsz]
    refine hwalk.pre ?_
    exact (mul_one _).subset

end Space

section Proc

variable {root tf : Nat}

-- The entries of every process behind its own pages.
def upper (L : Layout) (tf : Nat) : Nat → Nat :=
  update (update (fun _ => 0) (TRAMPOLINE / PGSIZE)
    (PA2PTE L.trampoline ||| (PTE_R ||| PTE_X ||| PTE_V))) (TRAPFRAME / PGSIZE) (PA2PTE tf ||| (PTE_R ||| PTE_W ||| PTE_V))

theorem upper_trapframe (L : Layout) (tf : Nat) :
    upper L tf (TRAPFRAME / PGSIZE) = PA2PTE tf ||| (PTE_R ||| PTE_W ||| PTE_V) := update_self ..

theorem upper_trampoline (L : Layout) (tf : Nat) :
    upper L tf (TRAMPOLINE / PGSIZE) = PA2PTE L.trampoline ||| (PTE_R ||| PTE_X ||| PTE_V) := by
  unfold upper
  rw [update_of_ne (by decide), update_self]

theorem upper_other (L : Layout) (tf : Nat) {v : Nat} (h1 : v ≠ TRAPFRAME / PGSIZE) (h2 : v ≠ TRAMPOLINE / PGSIZE) :
    upper L tf v = 0 := by
  unfold upper
  rw [update_of_ne h1, update_of_ne h2]

theorem upper_low (L : Layout) (tf : Nat) : Low (upper L tf) := fun v hv =>
  upper_other L tf (by omega) (by
    have : TRAPFRAME / PGSIZE < TRAMPOLINE / PGSIZE := by decide
    omega)

theorem upper_no_user (L : Layout) (tf v : Nat) : upper L tf v &&& PTE_U = 0 := by
  by_cases h1 : v = TRAPFRAME / PGSIZE
  · rw [h1, upper_trapframe, pa2pte_or_and (by decide) (by decide)]
    rfl
  by_cases h2 : v = TRAMPOLINE / PGSIZE
  · rw [h2, upper_trampoline, pa2pte_or_and (by decide) (by decide)]
    rfl
  · rw [upper_other L tf h1 h2]
    rfl

theorem leaves_one {m : Nat → Nat} {c : Nat → Page} {v pa f : Nat} (h : LeafPte (m v) pa f) :
    (1 : Assn Nat Page) ⊆ Leaves L false m c v 1 := by
  show 1 ⊆ ((List.range' v 1).map (Leaf L false m c)).prod
  rw [range'_one, map_singleton, List.prod_singleton]
  exact fun h' hh => mem_iUnion.mpr ⟨pa, mem_iUnion₂.mpr ⟨f, h, hh⟩⟩

theorem uvmunmap_keep {m : Nat → Nat} {v pa f : Nat} (h : LeafPte (m v) pa f) (hv : v < MAXVA / PGSIZE) :
    Spec L (Table L root m) (uvmunmap root (v * PGSIZE) 1 false) fun _ => Table L root (update m v 0) := by
  have hclear : clear m v 1 = update m v 0 := by
    rw [← clear_cons, clear_zero]
  rw [← hclear]
  refine (uvmunmap_spec L root false m (fun _ => .fill 0) v 1 (by omega)).pre ?_
  exact subset_trans (mul_one _).ge (mul_subset_mul_left (leaves_one h))

theorem procFreepagetable_spec (root tf sz : Nat) :
    Spec L (Space L root (upper L tf) (pages sz)) (procFreepagetable root sz) fun _ => 1 := by
  refine space_ex fun m c hfits => ?_
  refine Triple.know (fun _ => image_count) fun hcount => ?_
  have horder : TRAPFRAME / PGSIZE < TRAMPOLINE / PGSIZE := by decide
  have htramp : LeafPte (m (TRAMPOLINE / PGSIZE)) L.trampoline (PTE_R ||| PTE_X ||| PTE_V) := by
    refine ⟨by decide, by decide, ?_⟩
    rw [hfits _ (by omega), upper_trampoline]
  have htrap : LeafPte (update m (TRAMPOLINE / PGSIZE) 0 (TRAPFRAME / PGSIZE)) tf
      (PTE_R ||| PTE_W ||| PTE_V) := by
    refine ⟨by decide, by decide, ?_⟩
    rw [update_of_ne (by decide), hfits _ (by omega), upper_trapframe]
  have hrest : Fits (fun _ => 0) (update (update m (TRAMPOLINE / PGSIZE) 0) (TRAPFRAME / PGSIZE) 0)
      (pages sz) := by
    intro v hv
    by_cases h1 : v = TRAPFRAME / PGSIZE
    · rw [h1, update_self]
    · by_cases h2 : v = TRAMPOLINE / PGSIZE
      · rw [h2, update_of_ne (by decide), update_self]
      · rw [update_of_ne h1, update_of_ne h2, hfits v hv, upper_other L tf h1 h2]
  unfold procFreepagetable
  refine Triple.seq _ (uvmunmap_keep htramp (by decide)) subset_rfl fun _ => ?_
  refine Triple.seq _ (uvmunmap_keep htrap (by decide)) subset_rfl fun _ => ?_
  refine (uvmfree_spec root sz).pre (subset_trans ?_ (image_space (c := c) hrest))
  have huser : User L (update (update m (TRAMPOLINE / PGSIZE) 0) (TRAPFRAME / PGSIZE) 0) c 0
      (pages sz) = User L m c 0 (pages sz) :=
    user_congr (fun u _ hu => by
      rw [update_of_ne (by omega), update_of_ne (by omega)]) fun _ _ _ => rfl
  unfold Image
  rw [huser]

theorem uvmcreate_spec : Spec L 1 uvmcreate fun r => match r with
    | none => 1
    | some root => Table L root fun _ => 0 := by
  unfold uvmcreate
  refine kalloc_spec.bind fun r => ?_
  cases r with
  | none => exact Triple.ret subset_rfl
  | some pa => exact (memset_spec pa _ 0).bind fun _ => Triple.ret (zero_tree fun _ _ => rfl)

theorem procPagetable_spec (htf : tf < 2 ^ 56) : Spec L 1 (procPagetable L tf) fun r => match r with
    | none => 1 | some root => Table L root (upper L tf) := by
  unfold procPagetable
  refine uvmcreate_spec.bind fun r => ?_
  cases r with
  | none => exact Triple.ret subset_rfl
  | some root =>
    have hfree : Spec L (Table L root fun _ => 0) (do
        uvmfree root 0
        pure (none : Option Nat)) fun r => match r with
          | none => 1
          | some root => Table L root (upper L tf) :=
      (uvmfree_spec root 0).pre table_space |>.bind fun _ => Triple.ret subset_rfl
    refine (mappages_one L (by decide) (by decide) rfl L.code.2 (by decide)).bind fun ok => ?_
    cases ok with
    | false => exact hfree
    | true =>
      rw [if_pos rfl, if_pos rfl]
      have hnone : update (fun _ => 0) (TRAMPOLINE / PGSIZE)
          (PA2PTE L.trampoline ||| (PTE_R ||| PTE_X ||| PTE_V)) (TRAPFRAME / PGSIZE) &&& PTE_V = 0 := by
        rw [update_of_ne (by decide)]
        rfl
      refine (mappages_one L (by decide) (by decide) hnone htf (by decide)).bind fun ok => ?_
      cases ok with
      | false =>
        have hleaf : LeafPte (update (fun _ => 0) (TRAMPOLINE / PGSIZE)
            (PA2PTE L.trampoline ||| (PTE_R ||| PTE_X ||| PTE_V)) (TRAMPOLINE / PGSIZE)) L.trampoline
            (PTE_R ||| PTE_X ||| PTE_V) := ⟨by decide, by decide, update_self ..⟩
        refine (uvmunmap_keep hleaf (by decide)).bind fun _ => ?_
        rw [update_idem, Function.update_eq_self_iff.mpr rfl]
        exact hfree
      | true => exact Triple.ret subset_rfl

end Proc

end Vm
