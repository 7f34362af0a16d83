import Xv6.Vm.Tree

-- A page table as a map from virtual page numbers to entries: what mappages, uvmunmap and freewalk
-- do to it.

namespace Vm

open Sep List Set Function
open scoped Pointwise

-- The page table whose root is page `root`, with the map `m`.
def Table (L : Layout) (root : Nat) (m : Nat → Nat) : Assn Nat Page := Tree L 2 root 0 m

-- The page table opened at the table that holds the entry of virtual page `v`,
-- which is at address `a`.
def Opened (L : Layout) (root : Nat) (m : Nat → Nat) (v a : Nat) : Assn Nat Page :=
  ⋃ (q : Nat) (_ : a = q + 8 * (v % 512)), Tree L 0 q (v / 512) m * Hole L 2 root m v q

variable {L : Layout} {m : Nat → Nat} {root : Nat}

section Walk

variable {root v a : Nat}

theorem page_lt {v : Nat} (h : v < MAXVA / PGSIZE) : v * PGSIZE < MAXVA := by
  unfold PGSIZE MAXVA at *
  omega

theorem opened_close (hv : v < MAXVA / PGSIZE) : Opened L root m v a ⊆ Table L root m := by
  have htop : v / 512 ^ 3 = 0 := Nat.div_eq_of_lt (lt_trans hv (by decide))
  refine iUnion₂_subset fun q _ => ?_
  rintro _ ⟨t, ht, h, hh, rfl⟩
  have htree := hh m (fun _ _ => rfl) t ht
  rwa [htop] at htree

theorem opened_load (v a : Nat) : Spec L (Opened L root m v a) (load a)
    fun w => ⋃ _ : w = m v, Opened L root m v a := by
  refine Triple.ex fun q => Triple.ex fun ha => ?_
  rw [Tree, iUnion₂_mul]
  refine Triple.ex fun pg => Triple.ex fun hpg => ?_
  have hi : v % 512 < 512 := Nat.mod_lt _ (by omega)
  have hword : pg.word (v % 512) = m v := by
    rw [hpg _ hi]
    congr 1
    omega
  rw [ha]
  refine ((load_spec pg hi).frame (Hole L 2 root m v q)).post fun w => ?_
  rw [iUnion_mul, hword]
  refine iUnion_mono fun _ => ?_
  intro h hh
  refine mem_iUnion₂.mpr ⟨q, rfl, ?_⟩
  refine mul_subset_mul_right ?_ hh
  exact fun h' hh' => mem_iUnion₂.mpr ⟨pg, hpg, hh'⟩

theorem opened_store (hv : v < MAXVA / PGSIZE) {w : Nat} (hw : w < 2 ^ 64) :
    Spec L (Opened L root m v a) (store a w) fun _ => Table L root (update m v w) := by
  refine Triple.ex fun q => Triple.ex fun ha => ?_
  rw [Tree, iUnion₂_mul]
  refine Triple.ex fun pg => Triple.ex fun hpg => ?_
  have hi : v % 512 < 512 := Nat.mod_lt _ (by omega)
  have htop : v / 512 ^ 3 = 0 := Nat.div_eq_of_lt (lt_trans hv (by decide))
  rw [ha]
  refine ((store_spec pg hi w).frame (Hole L 2 root m v q)).post fun _ => ?_
  rintro _ ⟨t, ht, h, hh, rfl⟩
  have hleaf : t ∈ Tree L 0 q (v / 512) (update m v w) := by
    refine mem_iUnion₂.mpr ⟨pg.setWord (v % 512) w, fun i hi' => ?_, ht⟩
    by_cases he : i = v % 512
    · have hiv : v / 512 * 512 + i = v := by omega
      rw [hiv, update_self, he, Page.word_setWord_self pg hi hw]
    · have hiv : v / 512 * 512 + i ≠ v := by omega
      rw [update_of_ne hiv, Page.word_setWord_of_ne pg w he, hpg i hi']
  have htree := hh (update m v w) (fun u hu => update_of_ne (fun he => hu (by rw [he])) ..) t hleaf
  rwa [htop] at htree

theorem walk_spec {va : Nat} (hva : va < MAXVA) (root : Nat) (m : Nat → Nat) (alloc : Bool) :
    Spec L (Table L root m) (walk root va alloc) fun r => match r with
      | none => ⋃ _ : alloc = false → m (va / PGSIZE) = 0, Table L root m
      | some a => Opened L root m (va / PGSIZE) a := by
  have htop : va / PGSIZE / 512 ^ 3 = 0 := by
    unfold MAXVA at hva
    unfold PGSIZE
    omega
  unfold walk
  rw [if_neg (by omega)]
  refine ((walkFrom_spec 2 root va m alloc).mono ?_ fun r => ?_)
  · rw [htop]
    exact subset_rfl
  cases r with
  | none =>
    unfold walked
    rw [htop]
    exact subset_rfl
  | some a => exact subset_rfl

end Walk

-- The entry of a page that is mapped: it can be read, and its address is `pa`.
structure LeafPte (w pa f : Nat) : Prop where
  small : f < 2 ^ 10
  leaf : f &&& (PTE_V ||| PTE_R) = PTE_V ||| PTE_R
  eq : w = PA2PTE pa ||| f

namespace LeafPte

variable {w pa f : Nat}

variable (h : LeafPte w pa f) {v n : Nat} {doFree : Bool}

include h

theorem flag_valid : f &&& PTE_V ≠ 0 := by
  have hv : f &&& PTE_V = PTE_V := by
    calc f &&& PTE_V = f &&& ((PTE_V ||| PTE_R) &&& PTE_V) := rfl
      _ = (f &&& (PTE_V ||| PTE_R)) &&& PTE_V := (Nat.and_assoc ..).symm
      _ = PTE_V := by
        rw [h.leaf]
        rfl
  rw [hv]
  decide

theorem flag_leaf : f ≠ PTE_V := by
  intro hf
  have hl := h.leaf
  rw [hf] at hl
  exact absurd hl (by decide)

theorem valid : w &&& PTE_V ≠ 0 := by
  rw [h.eq, pa2pte_or_and h.small (by decide)]
  exact h.flag_valid

theorem ne_zero : w ≠ 0 := by
  intro hw
  apply h.valid
  rw [hw]
  rfl

theorem not_pointer : PTE_FLAGS w ≠ PTE_V := by
  rw [h.eq, PTE_FLAGS_or h.small]
  exact h.flag_leaf

theorem address (hpa : pa % PGSIZE = 0 ∧ pa < 2 ^ 64) : PTE2PA w = pa := by
  rw [h.eq, PTE2PA_or h.small hpa]

theorem flags : PTE_FLAGS w = f := by
  rw [h.eq, PTE_FLAGS_or h.small]

end LeafPte

-- The map with `j` pages from `pa` on bound to the virtual pages from `v` on.
def bound (m : Nat → Nat) (v j pa perm : Nat) : Nat → Nat := fun u =>
  if v ≤ u ∧ u < v + j then PA2PTE (pa + (u - v) * PGSIZE) ||| (perm ||| PTE_V) else m u

theorem bound_zero (m : Nat → Nat) (v pa perm : Nat) : bound m v 0 pa perm = m := by
  funext u
  rw [bound, if_neg (by omega)]

theorem bound_cons (m : Nat → Nat) (v j pa perm : Nat) :
    bound (update m v (PA2PTE pa ||| (perm ||| PTE_V))) (v + 1) j (pa + PGSIZE) perm = bound m v (j + 1) pa perm := by
  funext u
  unfold bound
  by_cases hu : u = v
  · subst hu
    rw [if_neg (by omega), if_pos (by omega), update_self, Nat.sub_self, Nat.zero_mul, Nat.add_zero]
  rw [update_of_ne hu]
  by_cases hr : v + 1 ≤ u ∧ u < v + 1 + j
  · have hadd : pa + PGSIZE + (u - (v + 1)) * PGSIZE = pa + (u - v) * PGSIZE := by
      unfold PGSIZE
      omega
    rw [if_pos hr, if_pos (by omega), hadd]
  · rw [if_neg hr, if_neg (by omega)]

theorem mapFrom_spec (perm n v pa : Nat) (hv : v + n ≤ MAXVA / PGSIZE)
    (hfree : ∀ u, v ≤ u → u < v + n → m u &&& PTE_V = 0) (hpa : ∀ j < n, pa + j * PGSIZE < 2 ^ 64) (hperm : perm < 2 ^ 10) :
    Spec L (Table L root m) (mapFrom root perm n (v * PGSIZE) pa) fun ok =>
      ⋃ (j : Nat) (_ : if ok then j = n else j < n), Table L root (bound m v j pa perm) := by
  induction n generalizing v pa m with
  | zero =>
    refine Triple.ret fun h hh => mem_iUnion₂.mpr ⟨0, rfl, ?_⟩
    rwa [bound_zero]
  | succ n ih =>
    have hva : v * PGSIZE < MAXVA := page_lt (by omega)
    have hpage : v * PGSIZE / PGSIZE = v := Nat.mul_div_cancel v (by decide)
    have hnext : v * PGSIZE + PGSIZE = (v + 1) * PGSIZE := (Nat.succ_mul v PGSIZE).symm
    have hflags : perm ||| PTE_V < 2 ^ 10 := Nat.or_lt_two_pow hperm (by decide)
    have hlt : pa < 2 ^ 64 := by
      have := hpa 0 (by omega)
      omega
    have hpa' : ∀ j < n, pa + PGSIZE + j * PGSIZE < 2 ^ 64 := by
      intro j hj
      have := hpa (j + 1) (by omega)
      unfold PGSIZE at *
      omega
    rw [mapFrom]
    refine (walk_spec hva root m true).bind fun r => ?_
    rw [hpage]
    cases r with
    | none =>
      refine Triple.ex fun _ => Triple.ret fun h hh => mem_iUnion₂.mpr ⟨0, Nat.succ_pos n, ?_⟩
      rwa [bound_zero]
    | some a =>
      refine (opened_load v a).bind fun w => Triple.ex fun hw => ?_
      have hnot : ¬w &&& PTE_V ≠ 0 := by
        rw [hw, hfree v le_rfl (by omega)]
        exact fun h => h rfl
      rw [if_neg hnot, Nat.or_assoc]
      refine (opened_store (by omega) (pa2pte_or_lt hflags hlt)).bind fun _ => ?_
      rw [hnext]
      refine (ih (v + 1) (pa + PGSIZE) (by omega) (fun u h1 h2 => ?_) hpa').post fun ok => ?_
      · rw [update_of_ne (by omega)]
        exact hfree u (by omega) (by omega)
      refine iUnion₂_subset fun j hj h hh => mem_iUnion₂.mpr ⟨j + 1, ?_, ?_⟩
      · cases ok with
        | true => exact congrArg Nat.succ hj
        | false => exact Nat.succ_lt_succ hj
      · rwa [← bound_cons]

theorem mappages_spec {v n pa perm : Nat} (hn : 0 < n) (hv : v + n ≤ MAXVA / PGSIZE)
    (hfree : ∀ u, v ≤ u → u < v + n → m u &&& PTE_V = 0) (hpa : ∀ j < n, pa + j * PGSIZE < 2 ^ 64) (hperm : perm < 2 ^ 10) :
    Spec L (Table L root m) (mappages root (v * PGSIZE) (n * PGSIZE) pa perm) fun ok =>
      ⋃ (j : Nat) (_ : if ok then j = n else j < n), Table L root (bound m v j pa perm) := by
  have hne : n * PGSIZE ≠ 0 := by
    unfold PGSIZE
    omega
  unfold mappages
  rw [if_neg (by simp), if_neg (by simp), if_neg hne, Nat.mul_div_cancel n (by decide)]
  exact mapFrom_spec perm n v pa hv hfree hpa hperm

theorem bound_one (m : Nat → Nat) (v pa perm : Nat) :
    bound m v 1 pa perm = update m v (PA2PTE pa ||| (perm ||| PTE_V)) := by
  rw [← bound_cons, bound_zero]

theorem mappages_one (L : Layout) {va pa perm root : Nat} {m : Nat → Nat} (hva : va < MAXVA)
    (halign : va % PGSIZE = 0) (hfree : m (va / PGSIZE) &&& PTE_V = 0) (hpa : pa < 2 ^ 56) (hperm : perm < 2 ^ 10) :
    Spec L (Table L root m) (mappages root va PGSIZE pa perm) fun ok =>
      if ok then Table L root (update m (va / PGSIZE) (PA2PTE pa ||| (perm ||| PTE_V)))
      else Table L root m := by
  have hv : va / PGSIZE + 1 ≤ MAXVA / PGSIZE := by
    unfold PGSIZE MAXVA at *
    omega
  have hmul : va / PGSIZE * PGSIZE = va := Nat.div_mul_cancel (Nat.dvd_of_mod_eq_zero halign)
  have hfree' : ∀ u, va / PGSIZE ≤ u → u < va / PGSIZE + 1 → m u &&& PTE_V = 0 := by
    intro u h1 h2
    obtain rfl : u = va / PGSIZE := by omega
    exact hfree
  have hone : ∀ j < 1, pa + j * PGSIZE < 2 ^ 64 := by
    intro j hj
    rw [Nat.lt_one_iff.mp hj, Nat.zero_mul]
    exact lt_trans hpa (by decide)
  have hspec : Spec L (Table L root m) (mappages root (va / PGSIZE * PGSIZE) (1 * PGSIZE) pa perm) _ :=
    mappages_spec Nat.one_pos hv hfree' hone hperm
  rw [hmul, Nat.one_mul] at hspec
  refine hspec.post fun ok => iUnion₂_subset fun j hj => ?_
  cases ok with
  | true =>
    obtain rfl : j = 1 := hj
    rw [bound_one]
    exact subset_rfl
  | false =>
    obtain rfl : j = 0 := Nat.lt_one_iff.mp hj
    rw [bound_zero]
    exact subset_rfl

theorem walkFrom_keeps (va : Nat) (alloc : Bool) (level pagetable : Nat) :
    (walkFrom va alloc level pagetable).All Keeps := by
  induction level generalizing pagetable with
  | zero => trivial
  | succ level ih =>
    rw [walkFrom]
    refine Prog.all_bind (Prog.all_bind (Prog.all_lift (by simp [Keeps])) fun _ => trivial) fun pte => ?_
    refine Prog.all_ite (ih _) (Prog.all_ite trivial ?_)
    refine Prog.all_bind (Prog.all_lift (by simp [Keeps])) fun r => ?_
    cases r with
    | none => trivial
    | some pa =>
      refine Prog.all_bind (Prog.all_lift (by simp [Keeps])) fun _ => ?_
      exact Prog.all_bind (Prog.all_lift (by simp [Keeps])) fun _ => ih pa

theorem walk_keeps (root va : Nat) (alloc : Bool) : (walk root va alloc).All Keeps := by
  unfold walk
  exact Prog.all_ite trivial (walkFrom_keeps va alloc 2 root)

theorem walk_reads (root va : Nat) : (walk root va false).All Reads := by
  have hfrom : ∀ level pagetable, (walkFrom va false level pagetable).All Reads := by
    intro level
    induction level with
    | zero => exact fun _ => trivial
    | succ level ih =>
      intro pagetable
      rw [walkFrom]
      refine Prog.all_bind (Prog.all_bind (Prog.all_lift ⟨_, rfl⟩) fun _ => trivial) fun pte => ?_
      rw [if_pos rfl]
      exact Prog.all_ite (ih _) trivial
  unfold walk
  exact Prog.all_ite trivial (hfrom 2 root)

theorem mapFrom_keeps (root perm n a pa : Nat) : (mapFrom root perm n a pa).All Keeps := by
  induction n generalizing a pa with
  | zero => trivial
  | succ n ih =>
    rw [mapFrom]
    refine Prog.all_bind (walk_keeps root a true) fun r => ?_
    cases r with
    | none => trivial
    | some pte =>
      refine Prog.all_bind (Prog.all_bind (Prog.all_lift nofun) fun _ => trivial) fun old => ?_
      exact Prog.all_ite trivial (Prog.all_bind (Prog.all_lift nofun) fun _ => ih _ _)

theorem mappages_keeps (root va size pa perm : Nat) : (mappages root va size pa perm).All Keeps := by
  unfold mappages
  exact Prog.all_ite trivial (Prog.all_ite trivial (Prog.all_ite trivial (mapFrom_keeps root perm _ va pa)))

section Unmap

variable {m m' : Nat → Nat} {c c' : Nat → Page}

def Mapped (L : Layout) (m : Nat → Nat) (c : Nat → Page) (v : Nat) : Assn Nat Page :=
  ⋃ (pa : Nat) (f : Nat) (_ : LeafPte (m v) pa f), page L pa (c v)

def User (L : Layout) (m : Nat → Nat) (c : Nat → Page) (v n : Nat) : Assn Nat Page :=
  ((List.range' v n).map (Mapped L m c)).prod

theorem user_congr (hm : ∀ u, v ≤ u → u < v + n → m' u = m u)
    (hc : ∀ u, v ≤ u → u < v + n → c' u = c u) : User L m' c' v n = User L m c v n := by
  refine congrArg List.prod (map_congr_left fun u hu => ?_)
  obtain ⟨h1, h2⟩ := mem_range'_1.mp hu
  simp only [Mapped, hm u h1 h2, hc u h1 h2]

theorem user_cons (v n : Nat) : User L m c v (n + 1) = Mapped L m c v * User L m c (v + 1) n := by
  unfold User
  rw [range'_succ, map_cons, prod_cons]

theorem user_append (v n k : Nat) : User L m c v (n + k) = User L m c v n * User L m c (v + n) k := by
  unfold User
  rw [← range'_append_1, map_append, prod_append]

-- What uvmunmap needs of virtual page `u`: an entry, and its page if it is freed.
def Leaf (L : Layout) (doFree : Bool) (m : Nat → Nat) (c : Nat → Page) (u : Nat) : Assn Nat Page :=
  ⋃ (pa : Nat) (f : Nat) (_ : LeafPte (m u) pa f), if doFree then page L pa (c u) else 1

def Leaves (L : Layout) (doFree : Bool) (m : Nat → Nat) (c : Nat → Page) (v n : Nat) : Assn Nat Page :=
  ((List.range' v n).map (Leaf L doFree m c)).prod

theorem leaves_true (v n : Nat) : Leaves L true m c v n = User L m c v n := rfl

def clear (m : Nat → Nat) (v n : Nat) : Nat → Nat := fun u => if v ≤ u ∧ u < v + n then 0 else m u

theorem clear_zero (m : Nat → Nat) (v : Nat) : clear m v 0 = m := by
  funext u
  unfold clear
  rw [if_neg (by omega)]

theorem clear_cons (m : Nat → Nat) (v n : Nat) : clear (update m v 0) (v + 1) n = clear m v (n + 1) := by
  funext u
  unfold clear
  by_cases hu : u = v
  · subst hu
    rw [if_neg (by omega), if_pos (by omega), update_self]
  · rw [update_of_ne hu]
    by_cases hr : v + 1 ≤ u ∧ u < v + 1 + n
    · rw [if_pos hr, if_pos (by omega)]
    · rw [if_neg hr, if_neg (by omega)]

-- The same for any entry that uvmunmap does not take for a pointer to a table.
def Drops (L : Layout) (doFree : Bool) (m : Nat → Nat) (c : Nat → Page) (u : Nat) : Assn Nat Page :=
  ⋃ _ : m u &&& PTE_V ≠ 0 ∧ PTE_FLAGS (m u) ≠ PTE_V, if doFree then page L (PTE2PA (m u)) (c u) else 1

theorem leaf_drops (u : Nat) : Leaf L doFree m c u ⊆ Drops L doFree m c u := by
  refine iUnion_subset fun pa => iUnion₂_subset fun f hleaf h hh => ?_
  refine mem_iUnion.mpr ⟨⟨hleaf.valid, hleaf.not_pointer⟩, ?_⟩
  cases doFree with
  | true =>
    rw [if_pos rfl] at hh ⊢
    rwa [hleaf.address (L.frame_addr (page_frame hh))]
  | false => exact hh

theorem freeLeaf_spec {w : Nat} {pg : Page} :
    Spec L (if doFree then page L (PTE2PA w) pg else 1) (freeLeaf doFree w) fun _ => 1 := by
  cases doFree with
  | true => exact kfree_spec (PTE2PA w) pg
  | false => exact Triple.ret subset_rfl

theorem unmapFrom_drops (L : Layout) (root : Nat) (doFree : Bool) (m : Nat → Nat) (c : Nat → Page) (v n : Nat)
    (hv : v + n ≤ MAXVA / PGSIZE) :
    Spec L (Table L root m * ((List.range' v n).map (Drops L doFree m c)).prod) (unmapFrom root doFree n (v * PGSIZE))
      fun _ => Table L root (clear m v n) := by
  induction n generalizing v m with
  | zero =>
    refine Triple.ret ?_
    rw [clear_zero]
    exact (mul_one _).subset
  | succ n ih =>
    have hva : v * PGSIZE < MAXVA := page_lt (by omega)
    have hpage : v * PGSIZE / PGSIZE = v := Nat.mul_div_cancel v (by decide)
    have hnext : v * PGSIZE + PGSIZE = (v + 1) * PGSIZE := (Nat.succ_mul v PGSIZE).symm
    have hrest : (List.range' (v + 1) n).map (Drops L doFree (update m v 0) c) =
        (List.range' (v + 1) n).map (Drops L doFree m c) := by
      refine map_congr_left fun u hu => ?_
      have hne : u ≠ v := by
        have := (mem_range'_1.mp hu).1
        omega
      simp only [Drops, update_of_ne hne]
    rw [range'_succ, map_cons, prod_cons, unmapFrom, Drops, iUnion_mul, mul_iUnion]
    refine Triple.ex fun ⟨hvalid, hleaf⟩ => ?_
    refine Triple.seq _ (walk_spec hva root m false) subset_rfl fun r => ?_
    rw [hpage]
    cases r with
    | none =>
      rw [iUnion_mul]
      refine Triple.ex fun hnone => absurd ?_ hvalid
      rw [hnone rfl]
      rfl
    | some a =>
      refine Triple.seq _ (opened_load v a) subset_rfl fun w => ?_
      rw [iUnion_mul]
      refine Triple.ex fun hw => ?_
      rw [hw, if_neg hvalid, if_neg hleaf]
      refine Triple.seq _ freeLeaf_spec (mul_left_comm _ _ _).subset fun _ => ?_
      refine Triple.seq _ (opened_store (by omega) (by decide)) (one_mul _).subset fun _ => ?_
      rw [hnext, ← clear_cons, ← hrest]
      exact ih _ _ (by omega)

theorem unmapFrom_spec (L : Layout) (root : Nat) (doFree : Bool) (m : Nat → Nat) (c : Nat → Page) (v n : Nat)
    (hv : v + n ≤ MAXVA / PGSIZE) :
    Spec L (Table L root m * Leaves L doFree m c v n) (unmapFrom root doFree n (v * PGSIZE)) fun _ =>
      Table L root (clear m v n) :=
  (unmapFrom_drops L root doFree m c v n hv).pre (mul_subset_mul_left (prod_mono fun u _ => leaf_drops u))

theorem uvmunmap_spec (L : Layout) (root : Nat) (doFree : Bool) (m : Nat → Nat) (c : Nat → Page) (v n : Nat)
    (hv : v + n ≤ MAXVA / PGSIZE) :
    Spec L (Table L root m * Leaves L doFree m c v n) (uvmunmap root (v * PGSIZE) n doFree) fun _ =>
      Table L root (clear m v n) := by
  unfold uvmunmap
  rw [if_neg (by simp)]
  exact unmapFrom_spec L root doFree m c v n hv

-- The pages of `n` virtual pages from `v` on, whatever their flags.
def Held (L : Layout) (m : Nat → Nat) (c : Nat → Page) (v n : Nat) : Assn Nat Page :=
  ((List.range' v n).map (Drops L true m c)).prod

theorem held_congr (hm : ∀ u, v ≤ u → u < v + n → m' u = m u)
    (hc : ∀ u, v ≤ u → u < v + n → c' u = c u) : Held L m' c' v n = Held L m c v n := by
  refine congrArg List.prod (map_congr_left fun u hu => ?_)
  obtain ⟨h1, h2⟩ := mem_range'_1.mp hu
  simp only [Drops, hm u h1 h2, hc u h1 h2]

theorem held_snoc (v n : Nat) : Held L m c v (n + 1) = Held L m c v n * Drops L true m c (v + n) := by
  unfold Held
  rw [range'_1_concat, map_append, prod_append, map_singleton, List.prod_singleton]

theorem uvmunmap_held (L : Layout) (root : Nat) (m : Nat → Nat) (c : Nat → Page)
    (hv : v + n ≤ MAXVA / PGSIZE) :
    Spec L (Table L root m * Held L m c v n) (uvmunmap root (v * PGSIZE) n true) fun _ => Table L root (clear m v n) := by
  unfold uvmunmap
  rw [if_neg (by simp)]
  exact unmapFrom_drops L root true m c v n hv

end Unmap

section Free

variable {p : Nat}

theorem freeEntries_spec (T : Nat → Nat → Assn Nat Page) (blank : Nat → Prop) {free : Nat → Phys Unit}
    (hfree : ∀ i q, Spec L (T i q) (free q) fun _ => 1) (is : List Nat) (pg : Page) (hnodup : is.Nodup)
    (his : ∀ i ∈ is, i < 512) :
    Spec L (page L p pg * (is.map fun i => Link L (T i) (blank i) (pg.word i)).prod) (freeEntries p free is)
      fun _ => ⋃ pg' : Page, page L p pg' := by
  induction is generalizing pg with
  | nil =>
    refine Triple.ret ?_
    rw [map_nil, prod_nil, mul_one]
    exact subset_iUnion (page L p) pg
  | cons i is ih =>
    obtain ⟨hi, hnodup⟩ := nodup_cons.mp hnodup
    have hlt : i < 512 := his i (by simp)
    have his' : ∀ j ∈ is, j < 512 := fun j hj => his j (by simp [hj])
    rw [map_cons, prod_cons, freeEntries]
    refine Triple.seq _ (load_spec pg hlt) subset_rfl fun w => ?_
    rw [iUnion_mul]
    refine Triple.ex fun hw => ?_
    rw [hw, Link, union_mul, mul_union]
    refine Triple.union ?_ ?_
    · rw [iUnion_mul, mul_iUnion]
      refine Triple.ex fun hblank => ?_
      rw [hblank.1, if_neg (by decide), if_neg (by decide), one_mul]
      exact ih pg hnodup his'
    rw [iUnion₂_mul, mul_iUnion₂]
    refine Triple.ex fun q => Triple.ex fun hlink => ?_
    obtain ⟨hq, hptr⟩ := hlink
    have hmask : ∀ mask < 2 ^ 10, (PA2PTE q ||| PTE_V) &&& mask = PTE_V &&& mask := fun mask hm =>
      pa2pte_or_and (by decide) hm
    rw [hptr, hmask _ (by decide), hmask _ (by decide), if_pos (by decide), PTE2PA_or (by decide) (L.frame_addr hq)]
    refine Triple.seq _ (hfree i q) (mul_left_comm _ _ _).subset fun _ => ?_
    refine Triple.seq _ (store_spec pg hlt 0) (one_mul _).subset fun _ => ?_
    have hrest : (is.map fun j => Link L (T j) (blank j) ((pg.setWord i 0).word j)) =
        is.map fun j => Link L (T j) (blank j) (pg.word j) :=
      map_congr_left fun j hj => by
        have hne : j ≠ i := fun he => hi (by rwa [he] at hj)
        rw [Page.word_setWord_of_ne pg 0 hne]
    rw [← hrest]
    exact ih _ hnodup his'

theorem freewalk_spec (l p b : Nat) {m : Nat → Nat} (hm : ∀ v, v / 512 ^ (l + 1) = b → m v = 0) :
    Spec L (Tree L l p b m) (freewalk (l + 1) p) fun _ => 1 := by
  have hlast : Spec L (⋃ pg' : Page, page L p pg') (kfree p) fun _ => 1 := Triple.ex fun pg => kfree_spec p pg
  induction l generalizing p b with
  | zero =>
    refine Triple.ex fun pg => Triple.ex fun hpg => ?_
    rw [freewalk]
    refine Triple.bind ?_ fun _ => hlast
    refine (freeEntries_spec (fun _ _ => ∅) (fun _ => True) (fun _ _ _ _ h => h.elim) indices pg
      nodup_indices fun i hi => mem_indices.mp hi).pre fun h hh => ⟨h, hh, 1, ?_, mul_one h⟩
    refine one_mem_prod fun i hi => .inl (mem_iUnion.mpr ⟨⟨?_, trivial⟩, rfl⟩)
    have hlt := mem_indices.mp hi
    rw [hpg i hlt, hm _ (by omega)]
  | succ l ih =>
    rw [tree_succ]
    refine Triple.ex fun pg => ?_
    rw [freewalk]
    refine Triple.bind ?_ fun _ => hlast
    have hfree : ∀ i q, Spec L (⋃ _ : i < 512, Tree L l q (b * 512 + i) m) (freewalk (l + 1) q) fun _ => 1 :=
      fun i q => Triple.ex fun hi => ih q (b * 512 + i)
        (fun v hv => hm v (index_of_entry hv hi)) (Triple.ex fun pg => kfree_spec q pg)
    refine (freeEntries_spec _ (fun _ => True) hfree indices pg nodup_indices fun i hi => mem_indices.mp hi).pre ?_
    refine mul_subset_mul_left ?_
    refine prod_mono fun i hi => ?_
    rintro h (hh | hh)
    · obtain ⟨⟨hzero, _⟩, hone⟩ := mem_iUnion.mp hh
      exact .inl (mem_iUnion.mpr ⟨⟨hzero, trivial⟩, hone⟩)
    · obtain ⟨q, hq, hT⟩ := mem_iUnion₂.mp hh
      exact .inr (mem_iUnion₂.mpr ⟨q, hq, mem_iUnion.mpr ⟨mem_indices.mp hi, hT⟩⟩)

end Free

end Vm
