import Xv6.Vm.Lookup

-- A page table in memory as a partial map, and runs of the functions that work on it.

namespace Vm

open Sep Prog List Function
open scoped Pointwise

variable {L : Layout} {mem : Mem} {page : Nat → Page} {root : Nat} {pa : Nat} {h : Heap Nat Page}

theorem memStep_ne_wait (L : Layout) (a : MemAct Nat Page) (mem : Mem) : memStep L a mem ≠ .wait := by
  cases a with
  | alloc =>
    rcases memStep_alloc L mem with h | ⟨r, rest, -, h⟩ <;> rw [h] <;> nofun
  | free pa =>
    unfold memStep
    dsimp only
    split <;> nofun
  | get pa => nofun
  | put pa f => nofun

theorem memStep_page {a : MemAct Nat Page} {P : a.Res → Heap Nat Page → Prop} {r : a.Res} {mem' : Mem}
    (hrule : memRule (· ∈ L.frames) (.fill 5) a h P) (H : Holds L mem h) (hstep : memStep L a mem = .done r mem')
    (hpa : pa ∉ L.frames) : mem'.page pa = mem.page pa := by
  cases a with
  | alloc =>
    rcases memStep_alloc L mem with he | ⟨r, rest, hl, he⟩
    · rw [he] at hstep
      cases hstep
      rfl
    · rw [he] at hstep
      cases hstep
      have hr : r ∈ L.frames := ((H.free r).mp (by simp [hl])).1
      exact update_of_ne (ne_of_mem_of_not_mem hr hpa).symm ..
  | free b =>
    obtain ⟨pg, hb, -⟩ := hrule
    have hframe : b ∈ L.frames := H.frame b (by rw [hb]; nofun)
    have hspec := L.frame_spec hframe
    rw [memStep_free (by omega)] at hstep
    cases hstep
    exact update_of_ne (ne_of_mem_of_not_mem hframe hpa).symm ..
  | get b =>
    cases hstep
    rfl
  | put b f =>
    obtain ⟨pg, hb, -⟩ := hrule
    have hframe : b ∈ L.frames := H.frame b (by rw [hb]; nofun)
    cases hstep
    exact update_of_ne (ne_of_mem_of_not_mem hframe hpa).symm ..

-- A function that meets its specification returns, and leaves all other pages alone.
theorem run_of_spec {α : Type} {P : Assn Nat Page} {m : Phys α} {Q : α → Assn Nat Page} (hspec : Spec L P m Q)
    {h f : Heap Nat Page} (hh : h ∈ P) (H : Holds L mem (h * f)) :
    ∃ a mem', run (memStep L) m mem = .done a mem' ∧ (∀ pa, pa ∉ L.frames → mem'.page pa = mem.page pa) ∧
      ∃ q ∈ Q a, Holds L mem' (q * f) := by
  have hsound : Sound (memRule (· ∈ L.frames) (.fill 5)) (memStep L) (fun _ => False) fun g mem' =>
      Holds L mem' g ∧ ∀ pa, pa ∉ L.frames → mem'.page pa = mem.page pa := by
    intro a g mem' R hrule ⟨Hg, hout⟩
    have hsat := mem_sound (f := 1) hrule (by rwa [mul_one])
    cases hstep : memStep L a mem' with
    | done r mem'' =>
      rw [hstep] at hsat
      obtain ⟨g', hR, Hg'⟩ := hsat
      rw [mul_one] at Hg'
      exact ⟨g', hR, Hg', fun pa hpa => (memStep_page hrule Hg hstep hpa).trans (hout pa hpa)⟩
    | fail e mem'' =>
      rw [hstep] at hsat
      exact hsat
    | wait => trivial
  obtain ⟨a, mem', hrun, t, ⟨-, q, hq, rfl⟩, Ht, hout⟩ := run_of_awp hsound (memStep_ne_wait L) (hspec h f hh H.valid)
    (⟨H, fun _ _ => rfl⟩ : Holds L mem (h * f) ∧ _)
  exact ⟨a, mem', hrun, hout, q, hq, Ht⟩

def entryOf (pte : Nat) : Option (Nat × Nat) := if pte &&& PTE_V ≠ 0 then some (PTE2PA pte, PTE_FLAGS pte) else none

def binding (page : Nat → Page) (root v : Nat) : Option (Nat × Nat) := entryOf (pteAt page 2 root (v * PGSIZE))

def byteAt (page : Nat → Page) (root a : Nat) : Option UInt8 :=
  (binding page root (a / PGSIZE)).map fun b => (page b.1).get (a % PGSIZE)

theorem entryOf_pte {pa f : Nat} (hf : f < 2 ^ 10) (hpa : pa % PGSIZE = 0 ∧ pa < 2 ^ 64) :
    entryOf (PA2PTE pa ||| (f ||| PTE_V)) = some (pa, f ||| PTE_V) := by
  have hflags : f ||| PTE_V < 2 ^ 10 := Nat.or_lt_two_pow hf (by decide)
  have hvalid : (PA2PTE pa ||| (f ||| PTE_V)) &&& PTE_V ≠ 0 := by
    rw [pa2pte_or_and hflags (by decide), Nat.and_or_distrib_right, ne_eq, Nat.or_eq_zero_iff]
    exact fun h => absurd h.2 (by decide)
  rw [entryOf, if_pos hvalid, PTE2PA_or hflags hpa, PTE_FLAGS_or hflags]

theorem entryOf_leaf {w f : Nat} (hf : f < 2 ^ 10) (hvalid : f &&& PTE_V ≠ 0) (hw : w = PA2PTE (PTE2PA w) ||| f) :
    entryOf w = some (PTE2PA w, f) := by
  have hv : w &&& PTE_V ≠ 0 := by
    rw [hw, pa2pte_or_and hf (by decide)]
    exact hvalid
  have hflags : PTE_FLAGS w = f := by rw [hw, PTE_FLAGS_or hf]
  rw [entryOf, if_pos hv, hflags]

section Walk

-- Where walk finds the entry of `va`, from the table at `level` on.
def leafAddr (page : Nat → Page) : Nat → Nat → Nat → Option Nat
  | 0, pagetable, va => some (pagetable + 8 * PX 0 va)
  | level + 1, pagetable, va =>
    let pte := (page pagetable).word (PX (level + 1) va)
    if pte &&& PTE_V ≠ 0 then leafAddr page level (PTE2PA pte) va else none

variable {V : MemAct Nat Page → Prop}

variable {i level pagetable va : Nat}

theorem within_load (mem : Mem) (hV : V (.get pa)) (hpa : pa % PGSIZE = 0) (hi : i < 512) :
    Within (memStep L) V (load (pa + 8 * i)) mem ((mem.page pa).word i) mem := by
  obtain ⟨hdown, hindex⟩ := word_addr hpa hi
  unfold load
  rw [hdown, hindex]
  exact within_bind (within_lift hV rfl) (within_ret _ mem)

theorem pteAt_page (page : Nat → Page) (level pagetable va : Nat) :
    pteAt page level pagetable (va / PGSIZE * PGSIZE) = pteAt page level pagetable va := by
  have hdiv : va / PGSIZE * PGSIZE / PGSIZE = va / PGSIZE := Nat.mul_div_cancel _ (by decide)
  induction level generalizing pagetable with
  | zero => rw [pteAt, pteAt, PX_eq, PX_eq, hdiv]
  | succ level ih =>
    rw [pteAt, pteAt, PX_eq, PX_eq, hdiv]
    simp only [ih]

theorem PTE2PA_aligned (pte : Nat) : PTE2PA pte % PGSIZE = 0 := by
  unfold PTE2PA PGSIZE
  omega

theorem mem_tables (page : Nat → Page) (level pagetable : Nat) : pagetable ∈ tables page level pagetable := by
  cases level with
  | zero => exact mem_singleton_self pagetable
  | succ level => exact mem_cons_self

theorem tables_below (hi : i < 512)
    (hv : (page pagetable).word i &&& PTE_V ≠ 0) {q : Nat} (hq : q ∈ tables page level (PTE2PA ((page pagetable).word i))) :
    q ∈ tables page (level + 1) pagetable := by
  refine mem_cons_of_mem _ (mem_flatMap.mpr ⟨i, mem_indices.mpr hi, ?_⟩)
  dsimp only
  rwa [if_pos hv]

theorem within_walkFrom (mem : Mem) (va level pagetable : Nat) (hV : ∀ q ∈ tables mem.page level pagetable, V (.get q))
    (halign : pagetable % PGSIZE = 0) :
    Within (memStep L) V (walkFrom va false level pagetable) mem (leafAddr mem.page level pagetable va) mem := by
  induction level generalizing pagetable with
  | zero => exact within_ret _ mem
  | succ level ih =>
    have hi : PX (level + 1) va < 512 := PX_lt (level + 1) va
    rw [walkFrom, leafAddr]
    refine within_bind (within_load mem (hV pagetable (mem_tables ..)) halign hi) ?_
    by_cases hv : (mem.page pagetable).word (PX (level + 1) va) &&& PTE_V ≠ 0
    · rw [if_pos hv, if_pos hv]
      exact ih _ (fun q hq => hV q (tables_below hi hv hq)) (PTE2PA_aligned _)
    · rw [if_neg hv, if_neg hv, if_pos rfl]
      exact within_ret _ mem

theorem within_walk (mem : Mem) {root : Nat} (hV : ∀ q ∈ tables mem.page 2 root, V (.get q))
    (halign : root % PGSIZE = 0) (hva : va < MAXVA) :
    Within (memStep L) V (walk root va false) mem (leafAddr mem.page 2 root va) mem := by
  rw [walk, if_neg (by omega)]
  exact within_walkFrom mem va 2 root hV halign

theorem leafAddr_none (h : leafAddr page level pagetable va = none) :
    pteAt page level pagetable va = 0 := by
  induction level generalizing pagetable with
  | zero => cases h
  | succ level ih =>
    rw [leafAddr] at h
    rw [pteAt]
    split at h
    · rename_i hv
      rw [if_pos hv]
      exact ih h
    · rename_i hv
      rw [if_neg hv]

theorem within_load_leaf (mem : Mem) {a : Nat} (hV : ∀ q ∈ tables mem.page level pagetable, V (.get q))
    (halign : pagetable % PGSIZE = 0) (h : leafAddr mem.page level pagetable va = some a) :
    Within (memStep L) V (load a) mem (pteAt mem.page level pagetable va) mem := by
  induction level generalizing pagetable with
  | zero =>
    cases h
    exact within_load mem (hV pagetable (mem_tables ..)) halign (PX_lt 0 va)
  | succ level ih =>
    rw [leafAddr] at h
    rw [pteAt]
    split at h
    · rename_i hv
      rw [if_pos hv]
      exact ih (fun q hq => hV q (tables_below (PX_lt (level + 1) va) hv hq)) (PTE2PA_aligned _) h
    · cases h

end Walk

section Table

variable {m m' : Nat → Nat} {h : Heap Nat Page}

theorem pteAt_table {va : Nat} (hh : h ∈ Table L root m) (hv : Valid h) (ha : Agree page h) (hva : va < MAXVA) :
    pteAt page 2 root va = m (va / PGSIZE) := by
  have hzero : va / PGSIZE / 512 ^ (2 + 1) = 0 := by
    unfold PGSIZE MAXVA at *
    omega
  refine pteAt_tree (L := L) ?_ hv ha
  rw [hzero]
  exact hh

theorem binding_table {v : Nat} (hh : h ∈ Table L root m) (hv : Valid h) (ha : Agree page h) (hlt : v < MAXVA / PGSIZE) :
    binding page root v = entryOf (m v) := by
  have hva : v * PGSIZE < MAXVA := page_lt (by omega)
  rw [binding, pteAt_table hh hv ha hva, Nat.mul_div_cancel v (by decide)]

end Table

-- The memory holds a page table at `root`, in pages of its own.
def HasTable (L : Layout) (mem : Mem) (root : Nat) : Prop := ∃ m h f, h ∈ Table L root m ∧ Holds L mem (h * f)

theorem Holds.agree {L : Layout} {mem : Mem} (H : Holds L mem h) : Agree mem.page h := H.page

section Runs

variable {h f : Heap Nat Page} {m : Nat → Nat} {v n w : Nat} {c page val : Nat → Page}

theorem Holds.table_binding (H : Holds L mem (h * f)) (hh : h ∈ Table L root m)
    (hv : v < MAXVA / PGSIZE) : binding mem.page root v = entryOf (m v) :=
  binding_table hh H.valid.left (H.agree.left H.valid) hv

theorem Holds.image_binding {u : Nat} (H : Holds L mem (h * f))
    (hh : h ∈ Image L root m c n) (hu : u < MAXVA / PGSIZE) : binding mem.page root u = entryOf (m u) := by
  obtain ⟨t, ht, w, -, rfl⟩ := hh
  replace H : Holds L mem (t * w * f) := H
  rw [mul_assoc] at H
  exact H.table_binding ht hu

theorem Holds.image_byteAt {a : Nat} (H : Holds L mem (h * f))
    (hh : h ∈ Image L root m c n) (ha : a / PGSIZE < n) :
    byteAt mem.page root a = some ((c (a / PGSIZE)).get (a % PGSIZE)) := by
  have hcount : n < TRAPFRAME / PGSIZE := image_count hh H.valid.left
  have hmax := low_max
  rw [byteAt, H.image_binding hh (by omega)]
  obtain ⟨t, -, w, hw, rfl⟩ := hh
  replace H : Holds L mem (t * w * f) := H
  obtain ⟨-, g, hleaf⟩ := user_leaf hw (Nat.zero_le (a / PGSIZE)) (by omega)
  have hown := (user_single 0 n hw H.valid.left.right).2.2 _ (mem_range'_1.mpr ⟨Nat.zero_le (a / PGSIZE), by omega⟩)
  have hpage := ((H.agree.left H.valid).right H.valid.left) _ _ hown
  rw [entryOf, if_pos hleaf.valid, Option.map_some, hpage]

theorem run_walk_alloc (ht : HasTable L mem root) {va : Nat} (hva : va < MAXVA) :
    ∃ r mem', run (memStep L) (walk root va true) mem = .done r mem' ∧ HasTable L mem' root ∧
      ∀ v < MAXVA / PGSIZE, binding mem'.page root v = binding mem.page root v := by
  obtain ⟨m, h, f, hh, H⟩ := ht
  obtain ⟨r, mem', hrun, -, q, hq, H'⟩ := run_of_spec (walk_spec hva root m true) hh H
  have hq' : q ∈ Table L root m := by
    cases r with
    | none =>
      obtain ⟨-, hq⟩ := Set.mem_iUnion.mp hq
      exact hq
    | some a =>
      refine opened_close ?_ hq
      unfold PGSIZE MAXVA at *
      omega
  refine ⟨r, mem', hrun, ⟨m, q, f, hq', H'⟩, fun v hv => ?_⟩
  rw [H'.table_binding hq' hv, H.table_binding hh hv]

theorem entryOf_none : entryOf w = none ↔ w &&& PTE_V = 0 := by
  unfold entryOf
  split
  · rename_i h
    exact iff_of_false nofun h
  · rename_i h
    exact iff_of_true rfl (not_not.mp h)

theorem entryOf_some {pa fl : Nat} (h : entryOf w = some (pa, fl)) :
    w &&& PTE_V ≠ 0 ∧ pa = PTE2PA w ∧ fl = PTE_FLAGS w := by
  unfold entryOf at h
  split at h
  · rename_i hv
    cases h
    exact ⟨hv, rfl, rfl⟩
  · cases h

theorem run_mappages (ht : HasTable L mem root) {pa perm : Nat} (hn : 0 < n) (hv : v + n ≤ MAXVA / PGSIZE)
    (hfree : ∀ u, v ≤ u → u < v + n → binding mem.page root u = none) (halign : pa % PGSIZE = 0)
    (hpa : pa + n * PGSIZE ≤ 2 ^ 64) (hperm : perm < 2 ^ 10) :
    ∃ ok mem' j, run (memStep L) (mappages root (v * PGSIZE) (n * PGSIZE) pa perm) mem = .done ok mem' ∧
      (if ok then j = n else j < n) ∧ HasTable L mem' root ∧ ∀ u < MAXVA / PGSIZE, binding mem'.page root u =
        if v ≤ u ∧ u < v + j then some (pa + (u - v) * PGSIZE, perm ||| PTE_V) else binding mem.page root u := by
  obtain ⟨m, h, f, hh, H⟩ := ht
  have hnone : ∀ u, v ≤ u → u < v + n → m u &&& PTE_V = 0 := by
    intro u h1 h2
    have hb := hfree u h1 h2
    rw [H.table_binding hh (by omega)] at hb
    exact entryOf_none.mp hb
  have hsmall : ∀ j < n, pa + j * PGSIZE < 2 ^ 64 := by
    intro j hj
    unfold PGSIZE at *
    omega
  obtain ⟨ok, mem', hrun, -, q, hq, H'⟩ := run_of_spec (mappages_spec hn hv hnone hsmall hperm) hh H
  obtain ⟨j, hj, hq⟩ := Set.mem_iUnion₂.mp hq
  have hle : j ≤ n := by
    cases ok with
    | true => exact le_of_eq hj
    | false => exact le_of_lt hj
  refine ⟨ok, mem', j, hrun, hj, ⟨_, q, f, hq, H'⟩, fun u hu => ?_⟩
  rw [H'.table_binding hq hu, H.table_binding hh hu, bound]
  by_cases hr : v ≤ u ∧ u < v + j
  · rw [if_pos hr, if_pos hr]
    refine entryOf_pte hperm ?_
    unfold PGSIZE at *
    omega
  · rw [if_neg hr, if_neg hr]

def leafPages (page : Nat → Page) (root v n : Nat) : List Nat :=
  (List.range' v n).map fun u => PTE2PA (pteAt page 2 root (u * PGSIZE))

theorem leafPages_table (hh : h ∈ Table L root m)
    (hv : Valid h) (ha : Agree page h) (hmax : ∀ u ∈ List.range' v n, u < MAXVA / PGSIZE) :
    leafPages page root v n = (List.range' v n).map fun u => PTE2PA (m u) := by
  refine map_congr_left fun u hu => ?_
  have hlt := hmax u hu
  have hva : u * PGSIZE < MAXVA := page_lt (by omega)
  rw [pteAt_table hh hv ha hva, Nat.mul_div_cancel u (by decide)]

-- The `n` pages are different pages of the allocator that are in use, and none holds a table.
structure Apart (L : Layout) (mem : Mem) (root v n : Nat) : Prop where
  nodup : (leafPages mem.page root v n).Nodup
  frame : ∀ pa ∈ leafPages mem.page root v n, pa ∈ L.frames
  used : ∀ pa ∈ leafPages mem.page root v n, pa ∉ mem.freelist
  table : ∀ pa ∈ leafPages mem.page root v n, pa ∉ tables mem.page 2 root

theorem split_list {ks : List Nat} (hnodup : ks.Nodup)
    (hown : ∀ k ∈ ks, h k = .own (val k)) : ∃ g, h = (ks.map fun k => single k (val k)).prod * g := by
  induction ks generalizing h with
  | nil => exact ⟨h, (one_mul h).symm⟩
  | cons k ks ih =>
    obtain ⟨hk, hnodup⟩ := nodup_cons.mp hnodup
    have hsplit := split_own (f := 1) (hown k mem_cons_self)
    rw [mul_one, mul_one] at hsplit
    obtain ⟨g, hg⟩ := ih (h := update h k .empty) hnodup fun j hj => by
      rw [update_of_ne (ne_of_mem_of_not_mem hj hk)]
      exact hown j (mem_cons_of_mem k hj)
    refine ⟨g, ?_⟩
    rw [map_cons, prod_cons, mul_assoc, ← hg]
    exact hsplit

theorem Apart.split (ha : Apart L mem root v n) (H : Holds L mem (h * f))
    (hh : h ∈ Table L root m) (hmax : ∀ u ∈ List.range' v n, u < MAXVA / PGSIZE) :
    ∃ g, f = ((List.range' v n).map fun u => single (PTE2PA (m u)) (mem.page (PTE2PA (m u)))).prod * g := by
  have hpages := leafPages_table hh H.valid.left (H.agree.left H.valid) hmax
  have hlists := tables_tree hh H.valid.left (H.agree.left H.valid)
  have hown : ∀ pa ∈ leafPages mem.page root v n, f pa = .own (mem.page pa) := by
    intro pa hpa
    have hempty : h pa = .empty := by
      by_contra hne
      exact ha.table pa hpa ((hlists.mem pa).mp hne)
    have hne : (h * f) pa ≠ .empty := fun he => ha.used pa hpa ((H.free pa).mpr ⟨ha.frame pa hpa, he⟩)
    obtain ⟨pg, hpg⟩ := H.valid.owned hne
    rw [H.page pa pg hpg, ← hpg, Pi.mul_apply, hempty, Cell.empty_mul]
  obtain ⟨g, hg⟩ := split_list ha.nodup hown
  refine ⟨g, ?_⟩
  rw [hpages, map_map] at hg
  exact hg

theorem run_uvmunmap (ht : HasTable L mem root) {doFree : Bool} (hv : v + n ≤ MAXVA / PGSIZE)
    (hmapped : ∀ u, v ≤ u → u < v + n → ∃ pa fl, binding mem.page root u = some (pa, fl) ∧ fl ≠ PTE_V)
    (hfree : doFree = true → Apart L mem root v n) :
    ∃ mem', run (memStep L) (uvmunmap root (v * PGSIZE) n doFree) mem = .done () mem' ∧ HasTable L mem' root ∧
      ∀ u < MAXVA / PGSIZE, binding mem'.page root u = if v ≤ u ∧ u < v + n then none else binding mem.page root u := by
  obtain ⟨m, h, f, hh, H⟩ := ht
  have hleaf : ∀ u ∈ List.range' v n, m u &&& PTE_V ≠ 0 ∧ PTE_FLAGS (m u) ≠ PTE_V := by
    intro u hu
    obtain ⟨h1, h2⟩ := mem_range'_1.mp hu
    obtain ⟨pa, fl, hb, hfl⟩ := hmapped u h1 h2
    rw [H.table_binding hh (by omega)] at hb
    obtain ⟨hvalid, -, rfl⟩ := entryOf_some hb
    exact ⟨hvalid, hfl⟩
  have hspec : Spec L (Table L root m * ((List.range' v n).map (Drops L doFree m fun u => mem.page (PTE2PA (m u)))).prod)
      (uvmunmap root (v * PGSIZE) n doFree) fun _ => Table L root (clear m v n) := by
    unfold uvmunmap
    rw [if_neg (by simp)]
    exact unmapFrom_drops L root doFree m _ v n hv
  obtain ⟨d, g, hd, hdg⟩ : ∃ d g, d ∈ ((List.range' v n).map (Drops L doFree m fun u => mem.page (PTE2PA (m u)))).prod ∧
      f = d * g := by
    cases doFree with
    | false =>
      exact ⟨1, f, one_mem_prod fun u hu => Set.mem_iUnion.mpr ⟨hleaf u hu, rfl⟩, (one_mul f).symm⟩
    | true =>
      have ha := hfree rfl
      have hmax : ∀ u ∈ List.range' v n, u < MAXVA / PGSIZE := by
        intro u hu
        have hlt := (mem_range'_1.mp hu).2
        omega
      obtain ⟨g, hg⟩ := ha.split H hh hmax
      refine ⟨_, g, Set.list_prod_mem_list_prod _ _ _ fun u hu => Set.mem_iUnion.mpr ⟨hleaf u hu, ?_⟩, hg⟩
      refine mem_page.mpr ⟨ha.frame _ ?_, rfl⟩
      rw [leafPages_table hh H.valid.left (H.agree.left H.valid) hmax]
      exact mem_map.mpr ⟨u, hu, rfl⟩
  have H0 := H
  rw [hdg, ← mul_assoc] at H0
  obtain ⟨_, mem', hrun, -, q, hq, H'⟩ := run_of_spec hspec (Set.mul_mem_mul hh hd) H0
  refine ⟨mem', hrun, ⟨_, q, g, hq, H'⟩, fun u hu => ?_⟩
  rw [H'.table_binding hq hu, H.table_binding hh hu, clear]
  by_cases hr : v ≤ u ∧ u < v + n
  · rw [if_pos hr, if_pos hr]
    rfl
  · rw [if_neg hr, if_neg hr]

end Runs

-- walk, mappages and uvmunmap read, extend and cut a partial map, and an entry gives back what it
-- was built from.
theorem page_table_map (L : Layout) : (∀ (mem : Mem) (root va : Nat), root % PGSIZE = 0 → va < MAXVA →
      ∃ r, run (memStep L) (walk root va false) mem = .done r mem ∧ match r with
        | none => binding mem.page root (va / PGSIZE) = none
        | some a => ∃ pte, run (memStep L) (load a) mem = .done pte mem ∧
          binding mem.page root (va / PGSIZE) = entryOf pte) ∧
    (∀ (mem : Mem) (root va : Nat), HasTable L mem root → va < MAXVA →
      ∃ r mem', run (memStep L) (walk root va true) mem = .done r mem' ∧ HasTable L mem' root ∧
        ∀ v < MAXVA / PGSIZE, binding mem'.page root v = binding mem.page root v) ∧
    (∀ (mem : Mem) (root v n pa perm : Nat), HasTable L mem root → 0 < n → v + n ≤ MAXVA / PGSIZE →
      (∀ u, v ≤ u → u < v + n → binding mem.page root u = none) →
      pa % PGSIZE = 0 → pa + n * PGSIZE ≤ 2 ^ 64 → perm < 2 ^ 10 →
      ∃ ok mem' j, run (memStep L) (mappages root (v * PGSIZE) (n * PGSIZE) pa perm) mem = .done ok mem' ∧
        (if ok then j = n else j < n) ∧ HasTable L mem' root ∧ ∀ u < MAXVA / PGSIZE, binding mem'.page root u =
          if v ≤ u ∧ u < v + j then some (pa + (u - v) * PGSIZE, perm ||| PTE_V) else binding mem.page root u) ∧
    (∀ (mem : Mem) (root v n : Nat) (doFree : Bool), HasTable L mem root → v + n ≤ MAXVA / PGSIZE →
      (∀ u, v ≤ u → u < v + n → ∃ pa fl, binding mem.page root u = some (pa, fl) ∧ fl ≠ PTE_V) →
      (doFree = true → Apart L mem root v n) →
      ∃ mem', run (memStep L) (uvmunmap root (v * PGSIZE) n doFree) mem = .done () mem' ∧ HasTable L mem' root ∧
        ∀ u < MAXVA / PGSIZE, binding mem'.page root u = if v ≤ u ∧ u < v + n then none else binding mem.page root u) ∧
    ∀ pa f : Nat, pa % PGSIZE = 0 → pa < 2 ^ 56 → f < 2 ^ 10 →
      PTE2PA (PA2PTE pa ||| f) = pa ∧ PTE_FLAGS (PA2PTE pa ||| f) = f := by
  refine ⟨fun mem root va halign hva => ?_, fun mem root va ht hva => run_walk_alloc ht hva,
    fun mem root v n pa perm ht hn hv hfree halign hpa hperm => run_mappages ht hn hv hfree halign hpa hperm,
    fun mem root v n doFree ht hv hmapped hfree => run_uvmunmap ht hv hmapped hfree,
    fun pa f halign hpa hf => ⟨PTE2PA_or hf ⟨halign, lt_trans hpa (by decide)⟩, PTE_FLAGS_or hf⟩⟩
  refine ⟨_, (within_walk (V := fun _ => True) mem (fun _ _ => trivial) halign hva).run, ?_⟩
  cases h : leafAddr mem.page 2 root va with
  | none =>
    dsimp only
    rw [binding, pteAt_page, leafAddr_none h]
    rfl
  | some a =>
    refine ⟨_, (within_load_leaf (V := fun _ => True) mem (fun _ _ => trivial) halign h).run, ?_⟩
    rw [binding, pteAt_page]

-- A machine with sixteen pages for the allocator. Those of `used` are zero, the others are free.
def smallLayout : Layout where
  kend := 4096
  phystop := 17 * 4096
  trampoline := 0
  base := by decide
  low := by decide
  top := by decide
  code := by decide
  few := by decide

def smallMem (used : List Nat) : Mem where
  page _ := .fill 0
  freelist := smallLayout.frames.filter (· ∉ used)
  nbFreePages := (smallLayout.frames.filter (· ∉ used)).length
  deny _ := false
  calls := 0

def zeros (used : List Nat) : Heap Nat Page := (used.map fun pa => single pa (.fill 0)).prod

theorem smallMem_holds (used : List Nat) (hnodup : used.Nodup) (hused : ∀ pa ∈ used, pa ∈ smallLayout.frames) :
    Holds smallLayout (smallMem used) (zeros used) := by
  obtain ⟨hv, hl, hown⟩ := prod_singles hnodup fun _ => Page.fill 0
  constructor
  · exact hv
  · intro pa pg hpa
    have hmem : pa ∈ used := (hl.mem pa).mp (by
      show zeros used pa ≠ .empty
      rw [hpa]
      nofun)
    exact Cell.own.inj ((hown pa hmem).symm.trans hpa)
  · exact fun pa hpa => hused pa ((hl.mem pa).mp hpa)
  · intro pa
    have hempty : zeros used pa = .empty ↔ pa ∉ used := by
      rw [← hl.mem pa, ne_eq, not_not]
      rfl
    show pa ∈ smallLayout.frames.filter (· ∉ used) ↔ _
    rw [mem_filter, decide_eq_true_iff, hempty]
  · show (smallLayout.frames.filter (· ∉ used)).Nodup
    exact smallLayout.frames_nodup.filter _
  · rfl

theorem zero_table (hpa : pa ∈ smallLayout.frames) : single pa (.fill 0) ∈ Table smallLayout pa fun _ => 0 :=
  zero_tree (fun _ _ => rfl) (mem_page.mpr ⟨hpa, rfl⟩)

theorem smallMem_table : HasTable smallLayout (smallMem [4096]) 4096 := by
  refine ⟨fun _ => 0, single 4096 (.fill 0), 1, zero_table (by decide), ?_⟩
  exact smallMem_holds [4096] (by decide) (by decide)

theorem smallMem_binding (used : List Nat) (root u : Nat) : binding (smallMem used).page root u = none := by
  have hzero : pteAt (smallMem used).page 2 root (u * PGSIZE) = 0 := leafAddr_none (if_neg (by
    rw [show (smallMem used).page root = .fill 0 from rfl, Page.word_zero]
    decide))
  rw [binding, hzero]
  rfl

theorem page_table_map_small : ∃ ok mem' j mem'',
    run (memStep smallLayout) (mappages 4096 (7 * PGSIZE) (2 * PGSIZE) (3 * PGSIZE) PTE_R) (smallMem [4096]) =
      .done ok mem' ∧
    run (memStep smallLayout) (uvmunmap 4096 (7 * PGSIZE) j false) mem' = .done () mem'' ∧
    ∀ u < MAXVA / PGSIZE, binding mem''.page 4096 u = binding (smallMem [4096]).page 4096 u := by
  obtain ⟨-, -, hmap, hunmap, -⟩ := page_table_map smallLayout
  have hnone := smallMem_binding [4096] 4096
  obtain ⟨ok, mem', j, hrun, hj, ht, hb⟩ := hmap (smallMem [4096]) 4096 7 2 (3 * PGSIZE) PTE_R smallMem_table (by decide)
    (by decide) (fun u _ _ => hnone u) (by decide) (by decide) (by decide)
  have hle : j ≤ 2 := by
    cases ok with
    | true => exact le_of_eq hj
    | false => exact le_of_lt hj
  have hmax : 9 ≤ MAXVA / PGSIZE := by decide
  obtain ⟨mem'', hrun', -, hb'⟩ := hunmap mem' 4096 7 j false ht (by omega) (fun u h1 h2 => by
    refine ⟨_, _, (hb u (by omega)).trans (if_pos ⟨h1, h2⟩), by decide⟩) nofun
  refine ⟨ok, mem', j, mem'', hrun, hrun', fun u hu => ?_⟩
  rw [hb' u hu, hb u hu]
  by_cases hr : 7 ≤ u ∧ u < 7 + j
  · rw [if_pos hr, hnone]
  · rw [if_neg hr, if_neg hr]

end Vm
