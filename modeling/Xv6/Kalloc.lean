import Xv6.Riscv
import Xv6.Sep

-- kalloc.c: the allocator of physical pages.

namespace Vm

open Sep List Function

-- The panics of kalloc.c, vm.c and exec.c. `depth` stands for a page table deeper than the
-- hardware's, `ustack` for a store behind exec's array of that name.
inductive Panic where
  | kfree
  | walk
  | mappagesVa
  | mappagesSize
  | mappagesZero
  | remap
  | uvmunmapVa
  | uvmunmapWalk
  | uvmunmapMapped
  | uvmunmapLeaf
  | freewalkLeaf
  | depth
  | uvmcopyPte
  | uvmcopyPresent
  | uvmclear
  | loadseg
  | ustack
  deriving DecidableEq, Repr

-- The pages between two addresses that freerange hands to kfree.
def frames (kend phystop : Nat) : List Nat :=
  (List.range ((phystop - PGROUNDUP kend) / PGSIZE)).map fun i => PGROUNDUP kend + i * PGSIZE

-- Where the kernel and physical memory end and the code of trampoline.S lies. There are fewer
-- pages than the user's address space has below the trapframe.
structure Layout where
  kend : Nat
  phystop : Nat
  trampoline : Nat
  base : 0 < kend
  low : kend < 2 ^ 63
  top : phystop ≤ 2 ^ 56
  code : trampoline % PGSIZE = 0 ∧ trampoline < 2 ^ 56
  few : (frames kend phystop).length < TRAPFRAME / PGSIZE

-- The pages with the allocator's list, which the source threads through the free pages, and count.
-- The `n`th call of kalloc fails where `deny n` says so.
structure Mem where
  page : Nat → Page
  freelist : List Nat
  nbFreePages : Nat
  deny : Nat → Bool
  calls : Nat

abbrev Phys := Prog (memSig Nat Page) Panic

def kalloc : Phys (Option Nat) := Prog.lift (S := memSig Nat Page) .alloc

def kfree (pa : Nat) : Phys Unit := Prog.lift (S := memSig Nat Page) (.free pa)

-- Accesses to physical memory. Those of the page tables are to whole words.
def pageAt (pa : Nat) : Phys Page := Prog.lift (S := memSig Nat Page) (.get pa)

def setPage (pa : Nat) (f : Page → Page) : Phys Unit := Prog.lift (S := memSig Nat Page) (.put pa f)

def load (a : Nat) : Phys Nat := do
  let pg ← pageAt (PGROUNDDOWN a)
  pure (pg.word (a % PGSIZE / 8))

def store (a w : Nat) : Phys Unit := setPage (PGROUNDDOWN a) fun pg => pg.setWord (a % PGSIZE / 8) w

def memset (pa : Nat) (c : UInt8) : Phys Unit := setPage pa fun _ => .fill c

def memStep (L : Layout) : Prog.Step (memSig Nat Page) Panic Mem
  | .alloc, m =>
    match m.freelist with
    | [] => .done none { m with calls := m.calls + 1 }
    | r :: rest =>
      if m.deny m.calls then .done none { m with calls := m.calls + 1 }
      else .done (some r) { m with
        page := update m.page r (.fill 5)
        freelist := rest
        nbFreePages := m.nbFreePages - 1
        calls := m.calls + 1 }
  | .free pa, m =>
    if pa % PGSIZE ≠ 0 ∨ pa < L.kend ∨ L.phystop ≤ pa then .fail .kfree m
    else .done () { m with
      page := update m.page pa (.fill 1)
      freelist := pa :: m.freelist
      nbFreePages := m.nbFreePages + 1 }
  | .get pa, m => .done (m.page pa) m
  | .put pa f, m => .done () { m with page := update m.page pa (f (m.page pa)) }

theorem memStep_alloc (L : Layout) (m : Mem) : memStep L .alloc m = .done none { m with calls := m.calls + 1 } ∨
    ∃ r rest, m.freelist = r :: rest ∧ memStep L .alloc m = .done (some r) { m with
      page := update m.page r (.fill 5)
      freelist := rest
      nbFreePages := m.nbFreePages - 1
      calls := m.calls + 1 } := by
  cases hl : m.freelist with
  | nil =>
    left
    unfold memStep
    simp only [hl]
  | cons r rest =>
    by_cases hd : m.deny m.calls = true
    · left
      unfold memStep
      simp only [hl, if_pos hd]
    · right
      refine ⟨r, rest, rfl, ?_⟩
      unfold memStep
      simp only [hl, if_neg hd]

variable {pa : Nat}

theorem memStep_free {L : Layout} (h : ¬(pa % PGSIZE ≠ 0 ∨ pa < L.kend ∨ L.phystop ≤ pa)) (m : Mem) :
    memStep L (.free pa) m = .done () { m with
      page := update m.page pa (.fill 1)
      freelist := pa :: m.freelist
      nbFreePages := m.nbFreePages + 1 } := if_neg h

def freerange : Nat → Nat → Phys Unit
  | 0, _ => pure ()
  | n + 1, p => do
    kfree p
    freerange n (p + PGSIZE)

def kinit (L : Layout) : Phys Unit :=
  freerange ((L.phystop - PGROUNDUP L.kend) / PGSIZE) (PGROUNDUP L.kend)

namespace Layout

variable (L : Layout)

def frames : List Nat := Vm.frames L.kend L.phystop

theorem kend_le : L.kend ≤ PGROUNDUP L.kend := by
  rw [PGROUNDUP_eq L.low]
  unfold PGSIZE
  omega

section

variable (h : pa ∈ L.frames)

include h

theorem frame_spec : pa % PGSIZE = 0 ∧ L.kend ≤ pa ∧ pa < L.phystop := by
  obtain ⟨i, hi, rfl⟩ := mem_map.mp h
  have hk := L.kend_le
  rw [mem_range] at hi
  rw [PGROUNDUP_eq L.low] at hi hk ⊢
  unfold PGSIZE at hi hk ⊢
  omega

theorem frame_lt : pa < 2 ^ 56 :=
  lt_of_lt_of_le (L.frame_spec h).2.2 L.top

theorem frame_addr : pa % PGSIZE = 0 ∧ pa < 2 ^ 64 :=
  ⟨(L.frame_spec h).1, lt_trans (L.frame_lt h) (by decide)⟩

theorem frame_ne_zero : pa ≠ 0 := by
  have h1 := (L.frame_spec h).2.1
  have h2 := L.base
  omega

end

theorem frames_nodup : L.frames.Nodup := by
  refine List.Pairwise.map (fun i => PGROUNDUP L.kend + i * PGSIZE) (fun i j hne h => ?_) nodup_range
  have he : PGROUNDUP L.kend + i * 4096 = PGROUNDUP L.kend + j * 4096 := h
  omega

end Layout

-- The memory holds the pages of `h`, and its other pages are the free ones.
structure Holds (L : Layout) (m : Mem) (h : Heap Nat Page) : Prop where
  valid : Valid h
  page : ∀ pa pg, h pa = .own pg → m.page pa = pg
  frame : ∀ pa, h pa ≠ .empty → pa ∈ L.frames
  free : ∀ pa, pa ∈ m.freelist ↔ pa ∈ L.frames ∧ h pa = .empty
  nodup : m.freelist.Nodup
  count : m.nbFreePages = m.freelist.length

section Holds

variable {L : Layout} {m : Mem} {h : Heap Nat Page}

theorem Holds.congr {m' : Mem} (H : Holds L m h) (hp : m'.page = m.page) (hf : m'.freelist = m.freelist)
    (hn : m'.nbFreePages = m.nbFreePages) : Holds L m' h := by
  constructor
  · exact H.valid
  · rw [hp]
    exact H.page
  · exact H.frame
  · rw [hf]
    exact H.free
  · rw [hf]
    exact H.nodup
  · rw [hn, hf]
    exact H.count

theorem Holds.take {r : Nat} {rest : List Nat} (H : Holds L m h) (hr : m.freelist = r :: rest) (pg : Page)
    (calls : Nat) : Holds L { m with
      page := update m.page r pg
      freelist := rest
      nbFreePages := m.nbFreePages - 1
      calls := calls } (single r pg * h) := by
  have hmem : r ∈ m.freelist := by simp [hr]
  obtain ⟨hframe, hempty⟩ := (H.free r).mp hmem
  have hnodup := H.nodup
  rw [hr, nodup_cons] at hnodup
  constructor
  · exact valid_single_mul H.valid pg hempty
  · intro pa pg' hpa
    by_cases hne : pa = r
    · subst hne
      rw [(valid_single_mul H.valid pg hempty).mul_own (single_self pa pg)] at hpa
      exact (update_self ..).trans (Cell.own.inj hpa)
    · rw [Pi.mul_apply, single_of_ne pg hne, Cell.empty_mul] at hpa
      exact (update_of_ne hne ..).trans (H.page pa pg' hpa)
  · intro pa hpa
    by_cases hne : pa = r
    · subst hne
      exact hframe
    · rw [Pi.mul_apply, single_of_ne pg hne, Cell.empty_mul] at hpa
      exact H.frame pa hpa
  · intro pa
    have hfree := H.free pa
    rw [hr, mem_cons] at hfree
    rw [Pi.mul_apply, Cell.mul_eq_empty]
    by_cases hne : pa = r
    · subst hne
      simp [hnodup.1]
    · rw [← and_assoc, and_right_comm, ← hfree]
      simp [single_of_ne pg hne, hne]
  · exact hnodup.2
  · have hcount := H.count
    rw [hr, length_cons] at hcount
    show m.nbFreePages - 1 = rest.length
    omega

theorem Holds.give {pg : Page} (H : Holds L m (single pa pg * h)) (junk : Page) : Holds L { m with
      page := update m.page pa junk
      freelist := pa :: m.freelist
      nbFreePages := m.nbFreePages + 1 } h := by
  have hown := H.valid.mul_own (single_self pa pg)
  have hframe : pa ∈ L.frames := H.frame pa (by rw [hown]; nofun)
  have hempty := H.valid.frame_empty (single_self pa pg)
  have hrest : ∀ {pa'}, pa' ≠ pa → (single pa pg * h) pa' = h pa' := fun hne => by
    rw [Pi.mul_apply, single_of_ne pg hne, Cell.empty_mul]
  constructor
  · exact H.valid.right
  · intro pa' pg' hpa'
    have hne : pa' ≠ pa := by
      intro he
      rw [he, hempty] at hpa'
      cases hpa'
    exact (update_of_ne hne ..).trans (H.page pa' pg' (by rw [hrest hne, hpa']))
  · intro pa' hpa'
    by_cases hne : pa' = pa
    · rwa [hne]
    · exact H.frame pa' (by rwa [hrest hne])
  · intro pa'
    rw [mem_cons]
    by_cases hne : pa' = pa
    · subst hne
      simp [hframe, hempty]
    · rw [or_iff_right hne, H.free, hrest hne]
  · rw [nodup_cons]
    refine ⟨fun hmem => ?_, H.nodup⟩
    have hfree := ((H.free pa).mp hmem).2
    rw [hown] at hfree
    cases hfree
  · show m.nbFreePages + 1 = (pa :: m.freelist).length
    rw [H.count, length_cons]

theorem Holds.put {pg : Page} (H : Holds L m (single pa pg * h)) (pg' : Page) :
    Holds L { m with page := update m.page pa pg' } (single pa pg' * h) := by
  have hempty := H.valid.frame_empty (single_self pa pg)
  have hv : Valid (single pa pg' * h) := valid_single_mul H.valid.right pg' hempty
  have hrest : ∀ {pa'}, pa' ≠ pa → (single pa pg' * h) pa' = (single pa pg * h) pa' := fun hne => by
    rw [Pi.mul_apply, Pi.mul_apply, single_of_ne pg hne, single_of_ne pg' hne]
  have hnone : ∀ {pa'}, (single pa pg' * h) pa' = .empty ↔ (single pa pg * h) pa' = .empty := by
    intro pa'
    by_cases hne : pa' = pa
    · subst hne
      rw [hv.mul_own (single_self ..), H.valid.mul_own (single_self ..)]
      simp
    · rw [hrest hne]
  constructor
  · exact hv
  · intro pa' pg'' hpa'
    by_cases hne : pa' = pa
    · subst hne
      rw [hv.mul_own (single_self ..)] at hpa'
      exact (update_self ..).trans (Cell.own.inj hpa')
    · rw [hrest hne] at hpa'
      exact (update_of_ne hne ..).trans (H.page pa' pg'' hpa')
  · intro pa' hpa'
    exact H.frame pa' (fun he => hpa' (hnone.mpr he))
  · intro pa'
    rw [hnone]
    exact H.free pa'
  · exact H.nodup
  · exact H.count

variable {f : Heap Nat Page}

theorem split_own {pg : Page} (hk : h pa = .own pg) : h * f = single pa pg * (update h pa .empty * f) := by
  rw [← mul_assoc]
  congr 1
  funext k
  by_cases hne : k = pa
  · subst hne
    rw [Pi.mul_apply, single_self, update_self, hk, Cell.mul_empty]
  · rw [Pi.mul_apply, single_of_ne pg hne, update_of_ne hne, Cell.empty_mul]

theorem update_own (pg' : Page) : update h pa (.own pg') * f = single pa pg' * (update h pa .empty * f) := by
  have hs : update h pa (.own pg') pa = .own pg' := update_self ..
  rw [split_own hs, update_idem]

-- What the rules allow on the pages a program owns, the allocator does, beside any other pages.
theorem mem_sound {a : MemAct Nat Page} {P : a.Res → Heap Nat Page → Prop}
    (hrule : memRule (· ∈ L.frames) (.fill 5) a h P) (H : Holds L m (h * f)) :
    (memStep L a m).Sat (fun _ _ => False) fun r m' => ∃ h', P r h' ∧ Holds L m' (h' * f) := by
  cases a with
  | alloc =>
    obtain ⟨hnone, hsome⟩ := hrule
    have hsame : Holds L { m with calls := m.calls + 1 } (h * f) := H.congr rfl rfl rfl
    rcases memStep_alloc L m with he | ⟨r, rest, hl, he⟩
    · rw [he]
      exact ⟨h, hnone, hsame⟩
    have hmem : r ∈ m.freelist := by simp [hl]
    obtain ⟨hframe, hempty⟩ := (H.free r).mp hmem
    rw [he]
    refine ⟨_, hsome r hframe (Cell.mul_eq_empty.mp hempty).1, ?_⟩
    rw [mul_assoc]
    exact H.take hl _ _
  | free pa =>
    obtain ⟨pg, hpa, hP⟩ := hrule
    rw [split_own hpa] at H
    have hframe : pa ∈ L.frames := H.frame pa (by rw [H.valid.mul_own (single_self ..)]; nofun)
    have hspec := L.frame_spec hframe
    have hcheck : ¬(pa % PGSIZE ≠ 0 ∨ pa < L.kend ∨ L.phystop ≤ pa) := by omega
    rw [memStep_free hcheck]
    exact ⟨_, hP, H.give _⟩
  | get pa =>
    obtain ⟨pg, hpa, hP⟩ := hrule
    have hpage : m.page pa = pg := H.page pa pg (H.valid.mul_own hpa)
    change ∃ h', P (m.page pa) h' ∧ Holds L m (h' * f)
    rw [hpage]
    exact ⟨h, hP, H⟩
  | put pa g =>
    obtain ⟨pg, hpa, hP⟩ := hrule
    have hpage : m.page pa = pg := H.page pa pg (H.valid.mul_own hpa)
    rw [split_own hpa] at H
    change ∃ h', P () h' ∧ Holds L { m with page := update m.page pa (g (m.page pa)) } (h' * f)
    rw [hpage]
    refine ⟨_, hP, ?_⟩
    rw [update_own]
    exact H.put _

end Holds

end Vm
