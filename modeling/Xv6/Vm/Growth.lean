import Xv6.Vm.Binding
import Xv6.Vm.Copy

-- uvmalloc and uvmcopy do all of their work, or leave the tables as they were and all data pages
-- free.

namespace Vm

open Sep Prog List
open scoped Pointwise

variable {L : Layout} {mem : Mem}

section Account

variable {mem mem' : Mem} {h q f : Heap Nat Page} {l l' : List Nat}

theorem Holds.perm (H : Holds L mem h) (hl : Lists h l) : (mem.freelist ++ l).Perm L.frames := by
  refine (perm_ext_iff_of_nodup ?_ L.frames_nodup).mpr fun pa => ?_
  · refine nodup_append.mpr ⟨H.nodup, hl.nodup, fun a ha b hb hab => ?_⟩
    rw [hab] at ha
    exact (hl.mem b).mpr hb ((H.free b).mp ha).2
  rw [mem_append, H.free, ← hl.mem]
  constructor
  · rintro (⟨hframe, -⟩ | hne)
    · exact hframe
    · exact H.frame pa hne
  · intro hframe
    by_cases he : h pa = .empty
    · exact .inl ⟨hframe, he⟩
    · exact .inr he

theorem Holds.frame_lists (H : Holds L mem (h * f)) : ∃ r, Lists f r := by
  classical
  refine ⟨L.frames.filter fun pa => f pa ≠ .empty, L.frames_nodup.filter _, fun pa => ?_⟩
  rw [mem_filter, decide_eq_true_iff]
  refine ⟨fun hne => ⟨H.frame pa fun he => hne (Cell.mul_eq_empty.mp he).2, hne⟩, fun hmem => hmem.2⟩

-- A call that works beside `f` has the same pages to its disposal afterwards.
theorem Holds.account (H : Holds L mem (h * f)) (H' : Holds L mem' (q * f)) (hl : Lists h l) (hl' : Lists q l') :
    (mem'.freelist ++ l').Perm (mem.freelist ++ l) := by
  obtain ⟨r, hr⟩ := H.frame_lists
  have hperm := (H'.perm (hl'.mul hr H'.valid)).trans (H.perm (hl.mul hr H.valid)).symm
  rw [← append_assoc, ← append_assoc] at hperm
  exact (perm_append_right_iff r).mp hperm

-- Only pages that were free or are listed in `ts` may differ.
def Unchanged (mem mem' : Mem) (ts : List Nat) : Prop :=
  ∀ pa, pa ∉ mem.freelist → pa ∉ ts → mem'.page pa = mem.page pa

variable (H : Holds L mem (h * f))

include H

theorem Holds.owned_by_frame (hl : Lists h l) {pa : Nat} (hframe : pa ∈ L.frames)
    (hfree : pa ∉ mem.freelist) (hpa : pa ∉ l) : f pa = .own (mem.page pa) := by
  have hempty : h pa = .empty := by
    by_contra hne
    exact hpa ((hl.mem pa).mp hne)
  have hne : (h * f) pa ≠ .empty := fun he => hfree ((H.free pa).mpr ⟨hframe, he⟩)
  obtain ⟨pg, hpg⟩ := H.valid.owned hne
  rw [H.page pa pg hpg, ← hpg, Pi.mul_apply, hempty, Cell.empty_mul]

theorem Holds.unchanged (H' : Holds L mem' (q * f)) (hl : Lists h l)
    (hout : ∀ pa, pa ∉ L.frames → mem'.page pa = mem.page pa) : Unchanged mem mem' l := by
  intro pa hfree hpa
  by_cases hframe : pa ∈ L.frames
  · have hown := H.owned_by_frame hl hframe hfree hpa
    have hv := H'.valid
    rw [mul_comm] at hv
    refine H'.page pa _ ?_
    rw [mul_comm]
    exact hv.mul_own hown
  · exact hout pa hframe

theorem Holds.was_free {t w : Heap Nat Page} {pg : Page} {pa : Nat} (hl : Lists h l)
    (hv : Valid (t * w * f)) (hcov : t ∈ Covers l) (hframe : pa ∈ L.frames) (hown : w pa = .own pg) :
    pa ∈ mem.freelist := by
  have hwt := hv.left
  rw [mul_comm] at hwt
  have hwf : Valid (w * f) := by
    rw [mul_assoc] at hv
    exact hv.right
  refine (H.free pa).mpr ⟨hframe, Cell.mul_eq_empty.mpr ⟨?_, hwf.frame_empty hown⟩⟩
  by_contra hne
  exact hcov pa ((hl.mem pa).mp hne) (hwt.frame_empty hown)

theorem Holds.held_free {t w : Heap Nat Page} {m : Nat → Nat} {c : Nat → Page} {v n : Nat}
    (hl : Lists h l) (hv : Valid (t * w * f)) (hcov : t ∈ Covers l) (hw : w ∈ Held L m c v n) :
    (∀ u ∈ List.range' v n, PTE2PA (m u) ∈ mem.freelist) ∧ n ≤ mem.freelist.length := by
  obtain ⟨hlists, hown⟩ := held_single hw hv.left.right
  have hfree : ∀ u ∈ List.range' v n, PTE2PA (m u) ∈ mem.freelist := fun u hu =>
    H.was_free hl hv hcov (held_frames hw u hu) (hown u hu)
  have hsub : (List.range' v n).map (fun u => PTE2PA (m u)) ⊆ mem.freelist := by
    intro pa hpa
    obtain ⟨u, hu, rfl⟩ := mem_map.mp hpa
    exact hfree u hu
  have hlen := (subperm_of_subset hlists.nodup hsub).length_le
  rw [length_map, length_range'] at hlen
  exact ⟨hfree, hlen⟩

end Account

section Uvmalloc

variable {root : Nat}

def InGrowth (oldsz newsz u : Nat) : Prop := PGROUNDUP oldsz ≤ u * PGSIZE ∧ u * PGSIZE < newsz

instance (oldsz newsz u : Nat) : Decidable (InGrowth oldsz newsz u) := inferInstanceAs (Decidable (_ ∧ _))

theorem inGrowth_iff {oldsz newsz u : Nat} :
    InGrowth oldsz newsz u ↔ firstPage oldsz ≤ u ∧ u < firstPage oldsz + morePages oldsz newsz := by
  unfold InGrowth firstPage morePages PGROUNDUP PGSIZE
  omega

-- As far as the free pages reach, the pages are below MAXVA and not mapped.
def Room (mem : Mem) (root oldsz newsz : Nat) : Prop :=
  ∀ u, InGrowth oldsz newsz u → u < firstPage oldsz + mem.freelist.length →
    u < MAXVA / PGSIZE ∧ binding mem.page root u = none

-- All pages are mapped: fresh ones, zero and with the flags of `xperm`.
structure AllMapped (mem mem' : Mem) (root oldsz newsz xperm : Nat) : Prop where
  fresh : ∀ u, InGrowth oldsz newsz u → ∃ pa ∈ mem.freelist,
    binding mem'.page root u = some (pa, PTE_R ||| PTE_U ||| xperm ||| PTE_V) ∧ mem'.page pa = .fill 0
  other : ∀ u < MAXVA / PGSIZE, ¬InGrowth oldsz newsz u → binding mem'.page root u = binding mem.page root u
  nodup : (leafPages mem'.page root (firstPage oldsz) (morePages oldsz newsz)).Nodup
  account : (mem'.freelist ++ (tables mem'.page 2 root ++
    leafPages mem'.page root (firstPage oldsz) (morePages oldsz newsz))).Perm (mem.freelist ++ tables mem.page 2 root)

-- No page is mapped, and what was free is free or holds one of the tables.
structure NoneMapped (mem mem' : Mem) (root : Nat) : Prop where
  same : ∀ u < MAXVA / PGSIZE, binding mem'.page root u = binding mem.page root u
  account : (mem'.freelist ++ tables mem'.page 2 root).Perm (mem.freelist ++ tables mem.page 2 root)

section Outcome

variable {mem' : Mem} {k m : Nat → Nat} {c : Nat → Page} {v n : Nat} {h t w f : Heap Nat Page}
variable (H : Holds L mem (h * f)) (hlists : Lists h (tables mem.page 2 root))

include H hlists

theorem Holds.fills (H' : Holds L mem' (t * w * f)) (ht : t ∈ Table L root m ∩ Covers (tables mem.page 2 root))
    (hw : w ∈ Held L m c v n) (hmax : ∀ u ∈ List.range' v n, u < MAXVA / PGSIZE) :
    (∀ u ∈ List.range' v n, PTE2PA (m u) ∈ mem.freelist ∧ mem'.page (PTE2PA (m u)) = c u) ∧
    (leafPages mem'.page root v n).Nodup ∧
    (mem'.freelist ++ (tables mem'.page 2 root ++ leafPages mem'.page root v n)).Perm
      (mem.freelist ++ tables mem.page 2 root) := by
  have hv := H'.valid.left
  have hagree := H'.agree.left H'.valid
  obtain ⟨hwlists, hwown⟩ := held_single hw hv.right
  rw [leafPages_table ht.1 hv.left (hagree.left hv) hmax]
  refine ⟨fun u hu => ⟨(H.held_free hlists H'.valid ht.2 hw).1 u hu, hagree.right hv _ _ (hwown u hu)⟩, hwlists.nodup, ?_⟩
  exact H.account H' hlists ((tables_tree ht.1 hv.left (hagree.left hv)).mul hwlists hv)

theorem Holds.noneMapped (H' : Holds L mem' (t * f)) (hh : h ∈ Table L root k) (ht : t ∈ Table L root (clear k v n))
    (hnone : ∀ u, v ≤ u → u < v + n → k u &&& PTE_V = 0) : NoneMapped mem mem' root := by
  refine ⟨fun u hu => ?_, H.account H' hlists (tables_tree ht H'.valid.left (H'.agree.left H'.valid))⟩
  rw [H'.table_binding ht hu, H.table_binding hh hu, clear]
  by_cases hin : v ≤ u ∧ u < v + n
  · rw [if_pos hin, entryOf_none.mpr (hnone u hin.1 hin.2)]
    rfl
  · rw [if_neg hin]

end Outcome

theorem run_uvmalloc (ht : HasTable L mem root) {oldsz newsz xperm : Nat} (hle : oldsz ≤ newsz) (hx : xperm < 2 ^ 10)
    (hroom : Room mem root oldsz newsz) :
    ∃ r mem', run (memStep L) (uvmalloc root oldsz newsz xperm) mem = .done r mem' ∧ HasTable L mem' root ∧
      Unchanged mem mem' (tables mem.page 2 root) ∧
      (r = newsz ∧ AllMapped mem mem' root oldsz newsz xperm ∨ r = 0 ∧ NoneMapped mem mem' root) := by
  obtain ⟨k, h, f, hh, H⟩ := ht
  have hlists : Lists h (tables mem.page 2 root) := tables_tree hh H.valid.left (H.agree.left H.valid)
  have hcov : h ∈ Covers (tables mem.page 2 root) := fun pa hpa => (hlists.mem pa).mpr hpa
  have hreach : ∀ u, InGrowth oldsz newsz u → u < firstPage oldsz + mem.freelist.length →
      u < MAXVA / PGSIZE ∧ k u &&& PTE_V = 0 := by
    intro u hu hlt
    obtain ⟨hmax, hnone⟩ := hroom u hu hlt
    rw [H.table_binding hh hmax] at hnone
    exact ⟨hmax, entryOf_none.mp hnone⟩
  have hspec : Spec L ((Table L root k ∩ Covers (tables mem.page 2 root)) * {f}) (uvmalloc root oldsz newsz xperm) _ :=
    uvmalloc_grown (φ := fun u => InGrowth oldsz newsz u ∧ u < firstPage oldsz + mem.freelist.length)
      (fun u hu => hreach u hu.1 hu.2) hle hx fun j hj ⟨m, g, hg, hv⟩ => by
        obtain ⟨_, ⟨t, ht, w, hw, rfl⟩, y, hy, rfl⟩ := hg
        rw [Set.mem_singleton_iff.mp hy] at hv
        have hcount := (H.held_free hlists hv ht hw).2
        exact ⟨inGrowth_iff.mpr ⟨by omega, by omega⟩, by omega⟩
  have H1 := H
  rw [← mul_one (h * f)] at H1
  obtain ⟨r, mem', hrun, hout, _, hq, H'⟩ := run_of_spec hspec (Set.mul_mem_mul ⟨hh, hcov⟩ rfl) H1
  obtain ⟨a, ha, y, hy, rfl⟩ := hq
  replace H' : Holds L mem' (a * y) := by
    rw [mul_one] at H'
    exact H'
  rw [Set.mem_singleton_iff.mp hy] at H'
  refine ⟨r, mem', hrun, ?_⟩
  have hunchanged := H.unchanged H' hlists hout
  rcases ha with ha | ha
  · obtain ⟨m, ⟨hr, hadds⟩, t, ht, w, hw, rfl⟩ := Set.mem_iUnion₂.mp ha
    replace H' : Holds L mem' (t * w * f) := H'
    have hcount := (H.held_free hlists H'.valid ht.2 hw).2
    have hmax : ∀ u, InGrowth oldsz newsz u → u < MAXVA / PGSIZE := by
      intro u hu
      have hlt := (inGrowth_iff.mp hu).2
      exact (hreach u hu (by omega)).1
    obtain ⟨hpage, hnodup, haccount⟩ := H.fills hlists H' ht hw fun u hu =>
      hmax u (inGrowth_iff.mpr (mem_range'_1.mp hu))
    rw [mul_assoc] at H'
    refine ⟨⟨m, t, w * f, ht.1, H'⟩, hunchanged, .inl ⟨hr, fun u hu => ?_, fun u hu hin => ?_, hnodup, haccount⟩⟩
    · have hin := inGrowth_iff.mp hu
      obtain ⟨hfree, hzero⟩ := hpage u (mem_range'_1.mpr hin)
      have hleaf : LeafPte (m u) (PTE2PA (m u)) (allocFlags xperm) := alloc_leaf hx (hadds.entry u hin.1 hin.2)
      refine ⟨PTE2PA (m u), hfree, ?_, hzero⟩
      rw [H'.table_binding ht.1 (hmax u hu)]
      exact entryOf_leaf hleaf.small hleaf.flag_valid hleaf.eq
    · rw [H'.table_binding ht.1 hu, H.table_binding hh hu, hadds.out u fun h => hin (inGrowth_iff.mpr h)]
  · obtain ⟨j, ⟨hr, hj, hφ⟩, ha⟩ := Set.mem_iUnion₂.mp ha
    refine ⟨⟨_, a, f, ha, H'⟩, hunchanged, .inr ⟨hr, H.noneMapped hlists H' hh ha fun u h1 h2 => ?_⟩⟩
    obtain ⟨hu1, hu2⟩ := hφ u h1 h2
    exact (hreach u hu1 hu2).2

end Uvmalloc

section Uvmcopy

variable {old new : Nat}

def HasTables (L : Layout) (mem : Mem) (old new : Nat) : Prop :=
  ∃ m k h1 h2 f, h1 ∈ Table L old m ∧ h2 ∈ Table L new k ∧ Holds L mem (h1 * h2 * f)

-- A page of the old table that is in use, with its place in the new one free.
structure Copyable (L : Layout) (mem : Mem) (old new u : Nat) : Prop where
  max : u < MAXVA / PGSIZE
  used : ∃ pa fl, binding mem.page old u = some (pa, fl) ∧ fl ≠ PTE_V ∧ pa ∈ L.frames ∧ pa ∉ mem.freelist ∧
    pa ∉ tables mem.page 2 old ∧ pa ∉ tables mem.page 2 new
  free : binding mem.page new u = none

structure AllCopied (mem mem' : Mem) (old new sz : Nat) : Prop where
  copy : ∀ u, u * PGSIZE < sz → ∃ pa fl, ∃ pa' ∈ mem.freelist, binding mem.page old u = some (pa, fl) ∧
    binding mem'.page new u = some (pa', fl) ∧ mem'.page pa' = mem.page pa
  other : ∀ u < MAXVA / PGSIZE, ¬u * PGSIZE < sz → binding mem'.page new u = binding mem.page new u
  nodup : (leafPages mem'.page new 0 (pages sz)).Nodup
  account : (mem'.freelist ++ (tables mem'.page 2 new ++ leafPages mem'.page new 0 (pages sz))).Perm
    (mem.freelist ++ tables mem.page 2 new)

theorem lt_pages {u sz : Nat} : u < pages sz ↔ u * PGSIZE < sz := by
  unfold pages PGSIZE
  omega

theorem run_uvmcopy (ht : HasTables L mem old new) {sz : Nat} (hsrc : ∀ u, u * PGSIZE < sz → Copyable L mem old new u) :
    ∃ ok mem', run (memStep L) (uvmcopy old new sz) mem = .done ok mem' ∧ HasTables L mem' old new ∧
      Unchanged mem mem' (tables mem.page 2 new) ∧
      (∀ u < MAXVA / PGSIZE, binding mem'.page old u = binding mem.page old u) ∧
      (ok = true ∧ AllCopied mem mem' old new sz ∨ ok = false ∧ NoneMapped mem mem' new) := by
  obtain ⟨m, k, h1, h2, f, hold, hnew, Hall⟩ := ht
  have Ho : Holds L mem (h1 * (h2 * f)) := by rwa [← mul_assoc]
  have H : Holds L mem (h2 * (h1 * f)) := by rwa [mul_left_comm]
  have hlists : Lists h2 (tables mem.page 2 new) := tables_tree hnew H.valid.left (H.agree.left H.valid)
  have hlistsO : Lists h1 (tables mem.page 2 old) := tables_tree hold Ho.valid.left (Ho.agree.left Ho.valid)
  have hcov : h2 ∈ Covers (tables mem.page 2 new) := fun pa hpa => (hlists.mem pa).mpr hpa
  have hentry : ∀ u, u < pages sz → u < MAXVA / PGSIZE ∧ m u &&& PTE_V ≠ 0 ∧ PTE_FLAGS (m u) ≠ PTE_V ∧
      k u &&& PTE_V = 0 ∧ f (PTE2PA (m u)) = .own (mem.page (PTE2PA (m u))) := by
    intro u hu
    obtain ⟨hmax, ⟨pa, fl, hb, hfl, hframe, hfree, ho, hn⟩, hnone⟩ := hsrc u (lt_pages.mp hu)
    rw [Ho.table_binding hold hmax] at hb
    rw [H.table_binding hnew hmax] at hnone
    obtain ⟨hvalid, rfl, rfl⟩ := entryOf_some hb
    refine ⟨hmax, hvalid, hfl, entryOf_none.mp hnone, Hall.owned_by_frame (hlistsO.mul hlists Hall.valid.left) hframe hfree ?_⟩
    rw [mem_append]
    exact fun h => h.elim ho hn
  have hsource : ∀ u < pages sz, Source L old (h1 * f) k m (fun u => mem.page (PTE2PA (m u))) u := by
    intro u hu
    obtain ⟨hmax, hvalid, hleaf, hnone, hown⟩ := hentry u hu
    refine ⟨hmax, hvalid, hleaf, hnone, table_walk hold hmax hvalid, own_get ?_⟩
    have hv := H.valid.right
    rw [mul_comm] at hv ⊢
    exact hv.mul_own hown
  have H1 := H
  rw [mul_comm, ← mul_one (h1 * f * h2)] at H1
  obtain ⟨ok, mem', hrun, hout, _, hq, H'⟩ := run_of_spec (uvmcopy_copies new (tables mem.page 2 new) hsource)
    (Set.mul_mem_mul rfl ⟨hnew, hcov⟩) H1
  obtain ⟨y, hy, a, ha, rfl⟩ := hq
  replace H' : Holds L mem' (a * y) := by
    rw [mul_one] at H'
    rw [mul_comm]
    exact H'
  rw [Set.mem_singleton_iff.mp hy] at H'
  have Ho' : Holds L mem' (h1 * (a * f)) := by rwa [mul_left_comm]
  have hkept : ∀ u < MAXVA / PGSIZE, binding mem'.page old u = binding mem.page old u := by
    intro u hu
    rw [Ho'.table_binding hold hu, Ho.table_binding hold hu]
  refine ⟨ok, mem', hrun, ?_⟩
  cases ok with
  | true =>
    obtain ⟨m', hadds, t, ht, w, hw, rfl⟩ := Set.mem_iUnion₂.mp ha
    replace H' : Holds L mem' (t * w * (h1 * f)) := H'
    have H'' : Holds L mem' (t * (w * (h1 * f))) := by rwa [← mul_assoc]
    obtain ⟨hpage, hnodup, haccount⟩ := H.fills hlists H' ht hw fun u hu =>
      (hentry u (by simpa using (mem_range'_1.mp hu).2)).1
    refine ⟨⟨m, m', h1, t, w * f, hold, ht.1, ?_⟩, H.unchanged H' hlists hout, hkept,
      .inl ⟨rfl, fun u hu => ?_, fun u hu hlt => ?_, hnodup, haccount⟩⟩
    · have he : h1 * t * (w * f) = t * w * (h1 * f) := by ac_rfl
      rwa [he]
    · obtain ⟨hmax, hvalid, hleaf, -, -⟩ := hentry u (lt_pages.mpr hu)
      have hmem : u ∈ List.range' 0 (pages sz) := mem_range'_1.mpr ⟨Nat.zero_le u, by
        have := lt_pages.mpr hu
        omega⟩
      refine ⟨PTE2PA (m u), PTE_FLAGS (m u), PTE2PA (m' u), (hpage u hmem).1, ?_, ?_, (hpage u hmem).2⟩
      · rw [Ho.table_binding hold hmax, entryOf, if_pos hvalid]
      · rw [H''.table_binding ht.1 hmax]
        refine entryOf_leaf (flags_lt _) (by rwa [flags_and_valid]) (hadds.entry u (Nat.zero_le u) ?_)
        exact (mem_range'_1.mp hmem).2
    · rw [H''.table_binding ht.1 hu, H.table_binding hnew hu, hadds.out u fun h => hlt (lt_pages.mp (by omega))]
  | false =>
    obtain ⟨j, hj, ha⟩ := Set.mem_iUnion₂.mp ha
    refine ⟨⟨m, _, h1, a, f, hold, ha, by rwa [mul_assoc]⟩, H.unchanged H' hlists hout, hkept,
      .inr ⟨rfl, H.noneMapped hlists H' hnew ha fun u _ hu => (hentry u (by omega)).2.2.2.1⟩⟩

end Uvmcopy

theorem growth_all_or_nothing (L : Layout) :
    (∀ (mem : Mem) (root oldsz newsz xperm : Nat), HasTable L mem root → oldsz ≤ newsz → xperm < 2 ^ 10 →
      Room mem root oldsz newsz →
      ∃ r mem', run (memStep L) (uvmalloc root oldsz newsz xperm) mem = .done r mem' ∧ HasTable L mem' root ∧
        Unchanged mem mem' (tables mem.page 2 root) ∧
        (r = newsz ∧ AllMapped mem mem' root oldsz newsz xperm ∨ r = 0 ∧ NoneMapped mem mem' root)) ∧
    ∀ (mem : Mem) (old new sz : Nat), HasTables L mem old new → (∀ u, u * PGSIZE < sz → Copyable L mem old new u) →
      ∃ ok mem', run (memStep L) (uvmcopy old new sz) mem = .done ok mem' ∧ HasTables L mem' old new ∧
        Unchanged mem mem' (tables mem.page 2 new) ∧
        (∀ u < MAXVA / PGSIZE, binding mem'.page old u = binding mem.page old u) ∧
        (ok = true ∧ AllCopied mem mem' old new sz ∨ ok = false ∧ NoneMapped mem mem' new) :=
  ⟨fun _ _ _ _ _ ht hle hx hroom => run_uvmalloc ht hle hx hroom, fun _ _ _ _ ht hsrc => run_uvmcopy ht hsrc⟩

theorem growth_all_or_nothing_small :
    (∃ r mem', run (memStep smallLayout) (uvmalloc 4096 100 9000 PTE_W) (smallMem [4096]) = .done r mem' ∧
      (r = 9000 ∧ AllMapped (smallMem [4096]) mem' 4096 100 9000 PTE_W ∨ r = 0 ∧ NoneMapped (smallMem [4096]) mem' 4096)) ∧
    ∃ mem ok mem', binding mem.page 4096 0 = some (12288, PTE_R ||| PTE_U ||| PTE_V) ∧
      run (memStep smallLayout) (uvmcopy 4096 8192 4096) mem = .done ok mem' ∧
      (ok = true ∧ AllCopied mem mem' 4096 8192 4096 ∨ ok = false ∧ NoneMapped mem mem' 8192) := by
  obtain ⟨hgrow, hcopy⟩ := growth_all_or_nothing smallLayout
  constructor
  · obtain ⟨r, mem', hrun, -, -, hr⟩ := hgrow (smallMem [4096]) 4096 100 9000 PTE_W smallMem_table (by decide) (by decide)
      fun u hu _ => ⟨by
        have hlt := hu.2
        have hmax : 9000 ≤ MAXVA / PGSIZE := by decide
        unfold PGSIZE at hlt
        omega, smallMem_binding _ _ u⟩
    exact ⟨r, mem', hrun, hr⟩
  · have hmapped : (run (memStep smallLayout) (mappages 4096 0 PGSIZE 12288 (PTE_R ||| PTE_U))
        (smallMem [4096, 8192, 12288])).result = some true := by decide
    obtain ⟨mem, hrun⟩ := Outcome.done_of_result hmapped
    have H : Holds smallLayout (smallMem [4096, 8192, 12288])
        (single 4096 (.fill 0) * (single 8192 (.fill 0) * single 12288 (.fill 0))) := by
      have h := smallMem_holds [4096, 8192, 12288] (by decide) (by decide)
      rwa [zeros, map_cons, map_cons, map_cons, map_nil, prod_cons, prod_cons,
        prod_cons, prod_nil, mul_one] at h
    have hspec : Spec smallLayout (Table smallLayout 4096 fun _ => 0) (mappages 4096 0 PGSIZE 12288 (PTE_R ||| PTE_U)) _ :=
      mappages_one smallLayout (by decide) (by decide) rfl (by decide) (by decide)
    obtain ⟨ok, mem1, hrun1, -, q, hq, H'⟩ := run_of_spec hspec (zero_table (by decide)) H
    obtain ⟨rfl, rfl⟩ := Outcome.done.inj (hrun.symm.trans hrun1)
    rw [if_pos rfl] at hq
    have hbind := H'.table_binding hq (v := 0) (by decide)
    rw [Nat.zero_div, Function.update_self, entryOf_pte (by decide) (by decide)] at hbind
    have htables : HasTables smallLayout mem 4096 8192 :=
      ⟨_, _, q, _, single 12288 (.fill 0), hq, zero_table (by decide), by rwa [mul_assoc]⟩
    have Hn : Holds smallLayout mem (single 8192 (.fill 0) * (q * single 12288 (.fill 0))) := by rwa [mul_left_comm]
    have Hd : Holds smallLayout mem (single 12288 (.fill 0) * (q * single 8192 (.fill 0))) := by
      rwa [mul_left_comm, mul_comm (single 12288 (Page.fill 0))]
    have hdata := Hd.valid.frame_empty (single_self 12288 (Page.fill 0))
    have hcells := Cell.mul_eq_empty.mp hdata
    obtain ⟨ok, mem', hrun', -, -, -, hr⟩ := hcopy mem 4096 8192 4096 htables fun u hu => by
      obtain rfl : u = 0 := by
        unfold PGSIZE at hu
        omega
      refine ⟨by decide, ⟨12288, _, hbind, by decide, by decide, fun hfree => ?_, fun ht => ?_, fun ht => ?_⟩, ?_⟩
      · have he := (Cell.mul_eq_empty.mp ((Hd.free 12288).mp hfree).2).1
        rw [single_self] at he
        cases he
      · exact ((tables_tree hq H'.valid.left (H'.agree.left H'.valid)).mem 12288).mpr ht hcells.1
      · exact ((tables_tree (zero_table (by decide)) Hn.valid.left (Hn.agree.left Hn.valid)).mem 12288).mpr ht hcells.2
      · rw [Hn.table_binding (zero_table (by decide)) (by decide)]
        rfl
    exact ⟨mem, ok, mem', hbind, hrun', hr⟩

end Vm
