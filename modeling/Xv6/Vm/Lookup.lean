import Xv6.Vm.Space

-- What the page tables in memory say: entries, the pages of the tables and those of the user.

namespace Vm

open Sep Set
open scoped Pointwise

section Read

variable (page : Nat → Page)

-- The entry for `va` from the table at `level` on, 0 where an entry above it is not valid.
def pteAt : Nat → Nat → Nat → Nat
  | 0, pagetable, va => (page pagetable).word (PX 0 va)
  | level + 1, pagetable, va =>
    let pte := (page pagetable).word (PX (level + 1) va)
    if pte &&& PTE_V ≠ 0 then pteAt level (PTE2PA pte) va else 0

def tables : Nat → Nat → List Nat
  | 0, pagetable => [pagetable]
  | level + 1, pagetable => pagetable :: indices.flatMap fun i =>
    let pte := (page pagetable).word i
    if pte &&& PTE_V ≠ 0 then tables level (PTE2PA pte) else []

end Read

variable {L : Layout} {page : Nat → Page} {m : Nat → Nat} {h : Heap Nat Page}

section Tree

variable {l p b : Nat} {pg : Page}

theorem link_valid {q : Nat} (hq : q ∈ L.frames) {w : Nat} (hw : w = PA2PTE q ||| PTE_V) :
    w &&& PTE_V ≠ 0 ∧ PTE2PA w = q := by
  rw [hw, pa2pte_or_and (by decide) (by decide), PTE2PA_or (by decide) (L.frame_addr hq)]
  exact ⟨by decide, rfl⟩

theorem pteAt_tree {va : Nat} (hh : h ∈ Tree L l p (va / PGSIZE / 512 ^ (l + 1)) m) (hv : Valid h)
    (ha : Agree page h) : pteAt page l p va = m (va / PGSIZE) := by
  induction l generalizing p h with
  | zero =>
    obtain ⟨pg, hh⟩ := mem_iUnion.mp hh
    obtain ⟨hpg, hh⟩ := mem_iUnion.mp hh
    obtain ⟨-, rfl⟩ := mem_page.mp hh
    rw [pteAt, ha p pg (single_self p pg), hpg _ (PX_lt 0 va), PX_eq]
    congr 1
    omega
  | succ l ih =>
    rw [tree_succ] at hh
    obtain ⟨pg, t, ht, r, hr, rfl⟩ := mem_iUnion.mp hh
    replace hv : Valid (t * r) := hv
    replace ha : Agree page (t * r) := ha
    obtain ⟨-, rfl⟩ := mem_page.mp ht
    have hpage : page p = pg := ha.left hv p pg (single_self p pg)
    have hindex : va / PGSIZE / 512 ^ (l + 2) * 512 + PX (l + 1) va = va / PGSIZE / 512 ^ (l + 1) := by
      rw [PX_eq]
      exact index_succ l _
    rw [entries_split pg (PX_lt (l + 1) va)] at hr
    obtain ⟨e, he, o, _, rfl⟩ := hr
    have hve : Valid (e * o) := hv.right
    have hae : Agree page (e * o) := ha.right hv
    rw [pteAt, hpage]
    rw [entry, Link, hindex] at he
    rcases he with he | he
    · obtain ⟨⟨hzero, hblank⟩, -⟩ := mem_iUnion.mp he
      rw [hzero, hblank _ rfl]
      rfl
    · obtain ⟨q, ⟨hq, hw⟩, he⟩ := mem_iUnion₂.mp he
      obtain ⟨hvalid, haddr⟩ := link_valid hq hw
      rw [if_pos hvalid, haddr]
      exact ih he hve.left (hae.left hve)

theorem tables_tree (hh : h ∈ Tree L l p b m) (hv : Valid h) (ha : Agree page h) : Lists h (tables page l p) := by
  induction l generalizing p b h with
  | zero =>
    obtain ⟨pg, hh⟩ := mem_iUnion.mp hh
    obtain ⟨-, hh⟩ := mem_iUnion.mp hh
    obtain ⟨-, rfl⟩ := mem_page.mp hh
    exact lists_single p pg
  | succ l ih =>
    rw [tree_succ] at hh
    obtain ⟨pg, t, ht, r, hr, rfl⟩ := mem_iUnion.mp hh
    replace hv : Valid (t * r) := hv
    replace ha : Agree page (t * r) := ha
    obtain ⟨-, rfl⟩ := mem_page.mp ht
    have hpage : page p = pg := ha.left hv p pg (single_self p pg)
    rw [tables, hpage]
    refine (lists_single p pg).mul (prod_lists (fun i _ g hg hvg hag => ?_) hr hv.right (ha.right hv)) hv
    rw [entry, Link] at hg
    rcases hg with hg | hg
    · obtain ⟨⟨hzero, -⟩, rfl⟩ := mem_iUnion.mp hg
      rw [hzero]
      exact lists_one
    · obtain ⟨q, ⟨hq, hw⟩, hg⟩ := mem_iUnion₂.mp hg
      obtain ⟨hvalid, haddr⟩ := link_valid hq hw
      dsimp only
      rw [if_pos hvalid, haddr]
      exact ih hg hvg hag

end Tree

section Space

variable {root tf sz : Nat} {c : Nat → Page}

theorem pteAt_image {n va : Nat} (hh : h ∈ Image L root m c n) (hv : Valid h) (ha : Agree page h) (hva : va < MAXVA) :
    pteAt page 2 root va = m (va / PGSIZE) := by
  obtain ⟨t, ht, u, _, rfl⟩ := hh
  replace hv : Valid (t * u) := hv
  refine pteAt_tree (L := L) ?_ hv.left (ha.left hv)
  have hzero : va / PGSIZE / 512 ^ (2 + 1) = 0 := by
    unfold PGSIZE MAXVA at *
    omega
  rw [hzero]
  exact ht

theorem upper_valid (L : Layout) (tf v : Nat) :
    upper L tf v &&& PTE_V ≠ 0 ↔ v = TRAPFRAME / PGSIZE ∨ v = TRAMPOLINE / PGSIZE := by
  by_cases h1 : v = TRAPFRAME / PGSIZE
  · rw [h1, upper_trapframe, pa2pte_or_and (by decide) (by decide)]
    exact iff_of_true (by decide) (.inl rfl)
  by_cases h2 : v = TRAMPOLINE / PGSIZE
  · rw [h2, upper_trampoline, pa2pte_or_and (by decide) (by decide)]
    exact iff_of_true (by decide) (.inr rfl)
  · rw [upper_other L tf h1 h2]
    exact iff_of_false (fun h => h rfl) fun h => h.elim h1 h2

end Space

end Vm
