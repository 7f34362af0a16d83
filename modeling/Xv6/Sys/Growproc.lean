import Xv6.Boot
import Xv6.Sys.Own
import Xv6.Vm.Growth

-- growproc: what it reports against what it does to the process's memory.

namespace Sys

open Vm Sep Prog Set Function
open scoped Pointwise

variable {L : Layout}

section Embed

variable {α : Type}

theorem run_ofMem {m : Phys α} {s : Sys} {a : α} {mem : Mem} (h : run (memStep L) m s.mem = .done a mem) :
    run (sysStep L) (ofMem m) s = .done a { s with mem := mem } := by
  induction m generalizing s with
  | ret b =>
    cases h
    rfl
  | fail e => cases h
  | act b k ih =>
    rw [run] at h
    cases hstep : memStep L b s.mem with
    | done r mem' =>
      rw [hstep] at h
      have hsys : sysStep L (.mem b) s = .done r { s with mem := mem' } := by
        unfold sysStep
        simp only [hstep]
      have hfirst : run (sysStep L) (Prog.lift (S := sysSig) (.mem b) : SysM _) s = .done r { s with mem := mem' } :=
        (run_lift ..).trans hsys
      exact (run_bind (f := fun r => ofMem (k r)) hfirst).trans (ih r (s := { s with mem := mem' }) h)
    | fail e mem' | wait =>
      rw [hstep] at h
      cases h

end Embed

section Growproc

variable {s s' : Sys} {p : Pid}

-- The process's memory is as the kernel keeps it.
def HasMemory (L : Layout) (mem : Mem) (pr : ProcMem) : Prop := ∃ h f, h ∈ Memory L pr ∧ Holds L mem (h * f)

-- The size has changed by `n`. Exactly the pages below it are mapped, with the
-- two above that every process has; old bytes are kept and new ones are zero.
structure Resized (s s' : Sys) (p : Pid) (n : Int) : Prop where
  size : ((s'.proc p).sz : Int) = (s.proc p).sz + n
  mapped : ∀ u < MAXVA / PGSIZE, (binding s'.mem.page (s'.proc p).pagetable u).isSome ↔
    u * PGSIZE < PGROUNDUP (s'.proc p).sz ∨ u = TRAPFRAME / PGSIZE ∨ u = TRAMPOLINE / PGSIZE
  old : ∀ a < min (s.proc p).sz (s'.proc p).sz,
    byteAt s'.mem.page (s'.proc p).pagetable a = byteAt s.mem.page (s.proc p).pagetable a
  zero : ∀ a, PGROUNDUP (s.proc p).sz ≤ a → a < PGROUNDUP (s'.proc p).sz →
    byteAt s'.mem.page (s'.proc p).pagetable a = some 0

structure Refused (s s' : Sys) (p : Pid) : Prop where
  size : (s'.proc p).sz = (s.proc p).sz
  mapped : ∀ u < MAXVA / PGSIZE, binding s'.mem.page (s'.proc p).pagetable u = binding s.mem.page (s.proc p).pagetable u

def Truthful (s s' : Sys) (p : Pid) (n : Int) (r : Int) : Prop := r = 0 ∧ Resized s s' p n ∨ r = -1 ∧ Refused s s' p

variable {n : Int32}

variable {sz r : Nat} {mem : Mem} {c : Nat → Page} {g f : Heap Nat Page} {m : Nat → Nat}

theorem addInt_of_nonneg (hsz : sz < 2 ^ 62) (hn : 0 ≤ sz + n.toInt) :
    (addInt sz n : Int) = sz + n.toInt := by
  have hlt := n.toInt_lt
  unfold addInt
  omega

theorem addInt_of_neg (hsz : sz < 2 ^ 62) (hn : sz + n.toInt < 0) : sz ≤ addInt sz n := by
  have hlt := n.le_toInt
  unfold addInt
  omega

-- The state after growproc, with the new size of the process.
def resize (s : Sys) (p : Pid) (mem : Mem) (sz : Nat) : Sys :=
  { s with mem := mem, proc := update s.proc p { s.proc p with sz := sz } }

theorem resize_proc (s : Sys) (p : Pid) (mem : Mem) (sz : Nat) : (resize s p mem sz).proc p = { s.proc p with sz := sz } :=
  update_self ..

theorem resize_self (s : Sys) (p : Pid) : resize s p s.mem (s.proc p).sz = s := by
  have h : update s.proc p { s.proc p with sz := (s.proc p).sz } = s.proc := update_eq_self p s.proc
  unfold resize
  rw [h]

theorem run_growproc_pos (hn : n > 0)
    (h : run (memStep L) (uvmalloc (s.proc p).pagetable (s.proc p).sz (addInt (s.proc p).sz n) PTE_W) s.mem = .done r mem) :
    run (sysStep L) (growproc p n) s =
      if r = 0 then .done (-1) { s with mem := mem } else .done 0 (resize s p mem r) := by
  have hproc : run (sysStep L) (procOf p) s = .done (s.proc p) s := rfl
  unfold growproc
  rw [run_bind hproc, if_pos hn, run_bind (run_ofMem h), run_ite]
  rfl

theorem run_growproc_neg (hn : n < 0)
    (h : run (memStep L) (uvmdealloc (s.proc p).pagetable (s.proc p).sz (addInt (s.proc p).sz n)) s.mem = .done r mem) :
    run (sysStep L) (growproc p n) s = .done 0 (resize s p mem r) := by
  have hproc : run (sysStep L) (procOf p) s = .done (s.proc p) s := rfl
  have hpos : ¬n > 0 := fun h => by
    have h1 := Int32.lt_iff_toInt_lt.mp h
    have h2 := Int32.lt_iff_toInt_lt.mp hn
    omega
  unfold growproc
  rw [run_bind hproc, if_neg hpos, if_pos hn, run_bind (run_ofMem h)]
  rfl

theorem run_growproc_zero : run (sysStep L) (growproc p 0) s = .done 0 s := by
  have hproc : run (sysStep L) (procOf p) s = .done (s.proc p) s := rfl
  unfold growproc
  rw [run_bind hproc, if_neg (by decide), if_neg (by decide)]
  exact congrArg (Outcome.done 0) (resize_self s p)

variable {pr : ProcMem}

theorem HasMemory.image (h : HasMemory L mem pr) :
    ∃ m c g x f pg, Fits (upper L pr.trapframe) m (pages pr.sz) ∧ g ∈ Image L pr.pagetable m c (pages pr.sz) ∧
      x ∈ page L pr.trapframe pg ∧ Holds L mem (g * (x * f)) ∧ pages pr.sz < TRAPFRAME / PGSIZE := by
  obtain ⟨_, f, hh, H⟩ := h
  obtain ⟨pg, x, hx, g, hg, rfl⟩ := mem_iUnion.mp hh
  obtain ⟨m, hg⟩ := mem_iUnion.mp hg
  obtain ⟨c, hfits, hg⟩ := mem_iUnion₂.mp hg
  replace H : Holds L mem (x * g * f) := H
  rw [mul_assoc, mul_left_comm] at H
  exact ⟨m, c, g, x, f, pg, hfits, hg, hx, H, image_count hg H.valid.left⟩

theorem HasMemory.small (h : HasMemory L mem pr) : pr.sz < 2 ^ 62 := by
  obtain ⟨m, c, g, x, f, pg, -, -, -, -, hcount⟩ := h.image
  have hmax : TRAPFRAME / PGSIZE * PGSIZE < 2 ^ 62 := by decide
  unfold pages PGSIZE at *
  omega

theorem image_hasMemory {x : Heap Nat Page} {pg : Page}
    (hfits : Fits (upper L pr.trapframe) m (pages pr.sz)) (hg : g ∈ Image L pr.pagetable m c (pages pr.sz))
    (hx : x ∈ page L pr.trapframe pg) (H : Holds L mem (g * (x * f))) : HasMemory L mem pr := by
  refine ⟨x * g, f, mem_iUnion.mpr ⟨pg, mul_mem_mul hx (image_space hfits hg)⟩, ?_⟩
  rwa [mul_assoc, mul_left_comm]

theorem image_mapped {root tf : Nat}
    (H : Holds L mem (g * f)) (hg : g ∈ Image L root m c (pages sz)) (hfits : Fits (upper L tf) m (pages sz)) {u : Nat}
    (hu : u < MAXVA / PGSIZE) : (binding mem.page root u).isSome ↔
      u * PGSIZE < PGROUNDUP sz ∨ u = TRAPFRAME / PGSIZE ∨ u = TRAMPOLINE / PGSIZE := by
  have hcount : pages sz < TRAPFRAME / PGSIZE := image_count hg H.valid.left
  have hmax := low_max
  have hsome : (binding mem.page root u).isSome ↔ m u &&& PTE_V ≠ 0 := by
    rw [H.image_binding hg hu, Option.isSome_iff_ne_none, ne_eq, entryOf_none]
  rw [hsome, PGROUNDUP_pages (by omega), Nat.mul_lt_mul_right (by decide)]
  by_cases hlt : u < pages sz
  · obtain ⟨_, _, w, hw, _⟩ := hg
    obtain ⟨-, fl, hleaf⟩ := user_leaf hw (Nat.zero_le u) (by omega)
    exact iff_of_true hleaf.valid (.inl hlt)
  · rw [hfits u (Nat.le_of_not_lt hlt), upper_valid, or_iff_right hlt]

theorem image_resized {sz' : Nat} {mem' : Mem} {n : Int} {m' : Nat → Nat} {c' : Nat → Page} {g' f' : Heap Nat Page}
    (H : Holds L s.mem (g * f)) (hg : g ∈ Image L (s.proc p).pagetable m c (pages (s.proc p).sz))
    (H' : Holds L mem' (g' * f')) (hg' : g' ∈ Image L (s.proc p).pagetable m' c' (pages sz'))
    (hfits : Fits (upper L (s.proc p).trapframe) m' (pages sz')) (hsz : (sz' : Int) = (s.proc p).sz + n)
    (hold : ∀ u, u < pages (s.proc p).sz → u < pages sz' → c' u = c u)
    (hzero : ∀ u, pages (s.proc p).sz ≤ u → u < pages sz' → c' u = .fill 0) : Resized s (resize s p mem' sz') p n := by
  have hcount : pages (s.proc p).sz < TRAPFRAME / PGSIZE := image_count hg H.valid.left
  have hcount' : pages sz' < TRAPFRAME / PGSIZE := image_count hg' H'.valid.left
  have hmax := low_max
  have hpages : ∀ {a sz : Nat}, a < sz → a / PGSIZE < pages sz := by
    intro a sz h
    unfold pages PGSIZE
    omega
  constructor
  · rw [resize_proc]
    exact hsz
  · intro u hu
    rw [resize_proc]
    exact image_mapped H' hg' hfits hu
  · intro a ha
    rw [resize_proc] at ha ⊢
    obtain ⟨h1, h2⟩ := Nat.lt_min.mp ha
    show byteAt mem'.page (s.proc p).pagetable a = _
    rw [H'.image_byteAt hg' (hpages h2), H.image_byteAt hg (hpages h1), hold _ (hpages h1) (hpages h2)]
  · intro a h1 h2
    rw [resize_proc] at h2 ⊢
    replace h2 : a < PGROUNDUP sz' := h2
    rw [PGROUNDUP_pages (by omega)] at h1 h2
    have hlt : a / PGSIZE < pages sz' := (Nat.div_lt_iff_lt_mul (by decide)).mpr h2
    have hge : pages (s.proc p).sz ≤ a / PGSIZE := (Nat.le_div_iff_mul_le (by decide)).mpr h1
    show byteAt mem'.page (s.proc p).pagetable a = _
    rw [H'.image_byteAt hg' hlt, hzero _ hge hlt]
    have hget : (Page.fill 0).get (a % PGSIZE) = 0 := dif_pos (Nat.mod_lt a (by decide))
    rw [hget]

section

variable (hmem : HasMemory L s.mem (s.proc p))

include hmem

theorem growproc_grow (hn : n > 0) :
    ∃ r s', run (sysStep L) (growproc p n) s = .done r s' ∧ HasMemory L s'.mem (s'.proc p) ∧ Truthful s s' p n.toInt r := by
  obtain ⟨m, c, g, x, f, pg, hfits, hg, hx, H, hcount⟩ := hmem.image
  have hpos := Int32.lt_iff_toInt_lt.mp hn
  have hzero : (0 : Int32).toInt = 0 := rfl
  have hsmall := hmem.small
  have hadd := addInt_of_nonneg (n := n) hsmall (by omega)
  obtain ⟨r, mem', hrun, -, g', hg', H'⟩ := run_of_spec (uvmalloc_spec (s.proc p).sz (addInt (s.proc p).sz n) PTE_W
    (upper_low L _) hfits (by decide) (by omega)) hg H
  have hgrow := run_growproc_pos hn hrun
  rcases hg' with hg' | hg'
  · obtain ⟨m', hg'⟩ := mem_iUnion.mp hg'
    obtain ⟨c', ⟨hr, hgrown⟩, hg'⟩ := mem_iUnion₂.mp hg'
    rw [if_neg (by omega), hr] at hgrow
    refine ⟨0, _, hgrow, ?_, .inl ⟨rfl, image_resized H hg H' hg' hgrown.fits hadd (fun u h1 _ => hgrown.old u h1)
      hgrown.zero⟩⟩
    rw [resize_proc]
    exact image_hasMemory hgrown.fits hg' hx H'
  · obtain ⟨m', ⟨hr, hfits', hmap⟩, hg'⟩ := mem_iUnion₂.mp hg'
    rw [if_pos hr] at hgrow
    refine ⟨-1, _, hgrow, image_hasMemory hfits' hg' hx H', .inr ⟨rfl, rfl, fun u hu => ?_⟩⟩
    have hsame : m' u = m u := by
      by_cases hlt : u < pages (s.proc p).sz
      · exact hmap u hlt
      · rw [hfits' u (Nat.le_of_not_lt hlt), hfits u (Nat.le_of_not_lt hlt)]
    show binding mem'.page (s.proc p).pagetable u = _
    rw [H'.image_binding hg' hu, H.image_binding hg hu, hsame]

theorem growproc_shrink (hn : n < 0) (hle : 0 ≤ (s.proc p).sz + n.toInt) :
    ∃ s', run (sysStep L) (growproc p n) s = .done 0 s' ∧ HasMemory L s'.mem (s'.proc p) ∧ Resized s s' p n.toInt := by
  obtain ⟨m, c, g, x, f, pg, hfits, hg, hx, H, hcount⟩ := hmem.image
  have hneg := Int32.lt_iff_toInt_lt.mp hn
  have hzero : (0 : Int32).toInt = 0 := rfl
  have hsmall := hmem.small
  have hadd := addInt_of_nonneg hsmall hle
  obtain ⟨r, mem', hrun, -, g', hg', H'⟩ := run_of_spec (uvmdealloc_fits L _ c (s.proc p).sz (addInt (s.proc p).sz n)
    (upper_low L _) hfits) hg H
  obtain ⟨m', ⟨hr, hfits', hmap⟩, hg'⟩ := mem_iUnion₂.mp hg'
  obtain rfl : r = addInt (s.proc p).sz n := by omega
  refine ⟨_, run_growproc_neg hn hrun, ?_, image_resized H hg H' hg' hfits' hadd (fun _ _ _ => rfl) fun u h1 h2 => ?_⟩
  · rw [resize_proc]
    exact image_hasMemory hfits' hg' hx H'
  · have hmono : pages (addInt (s.proc p).sz n) ≤ pages (s.proc p).sz := pages_mono (by omega)
    omega

theorem growproc_none : Resized s s p 0 := by
  obtain ⟨m, c, g, x, f, pg, hfits, hg, -, H, -⟩ := hmem.image
  have hres : Resized s (resize s p s.mem (s.proc p).sz) p 0 :=
    image_resized H hg H hg hfits (by omega) (fun _ _ _ => rfl) fun u h1 h2 => absurd h2 (by omega)
  rwa [resize_self] at hres

end

-- A request for more than there is goes unnoticed.
theorem growproc_underflow (hsz : (s.proc p).sz < 2 ^ 62) (hlt : (s.proc p).sz + n.toInt < 0) :
    run (sysStep L) (growproc p n) s = .done 0 s := by
  have hneg : n < 0 := Int32.lt_iff_toInt_lt.mpr (by
    have hzero : (0 : Int32).toInt = 0 := rfl
    omega)
  have hdealloc : run (memStep L) (uvmdealloc (s.proc p).pagetable (s.proc p).sz (addInt (s.proc p).sz n)) s.mem =
      .done (s.proc p).sz s.mem := by
    unfold uvmdealloc
    rw [if_pos (addInt_of_neg hsz hlt)]
    rfl
  rw [run_growproc_neg hneg hdealloc, resize_self]

theorem growproc_truthful (L : Layout) (s : Sys) (p : Pid) (n : Int32) (hmem : HasMemory L s.mem (s.proc p)) :
    ∃ r s', run (sysStep L) (growproc p n) s = .done r s' ∧ HasMemory L s'.mem (s'.proc p) ∧
      (Truthful s s' p n.toInt r ↔ 0 ≤ (s.proc p).sz + n.toInt) := by
  have hzero : (0 : Int32).toInt = 0 := rfl
  rcases lt_trichotomy n.toInt 0 with hneg | heq | hpos
  · by_cases hle : 0 ≤ (s.proc p).sz + n.toInt
    · obtain ⟨s', hrun, hmem', hres⟩ := growproc_shrink hmem (Int32.lt_iff_toInt_lt.mpr hneg) hle
      exact ⟨0, s', hrun, hmem', iff_of_true (.inl ⟨rfl, hres⟩) hle⟩
    refine ⟨0, s, growproc_underflow hmem.small (by omega), hmem, iff_of_false ?_ hle⟩
    rintro (⟨-, hres⟩ | ⟨hr, -⟩)
    · have hsize := hres.size
      omega
    · cases hr
  · obtain rfl : n = 0 := Int32.toInt_inj.mp heq
    refine ⟨0, s, run_growproc_zero, hmem, iff_of_true (.inl ⟨rfl, growproc_none hmem⟩) ?_⟩
    omega
  · obtain ⟨r, s', hrun, hmem', htruth⟩ := growproc_grow hmem (Int32.lt_iff_toInt_lt.mpr hpos)
    exact ⟨r, s', hrun, hmem', iff_of_true htruth (by omega)⟩

-- A process of one page, made as allocproc and exec make it.
def newSpace (L : Layout) (tf sz : Nat) : Phys (Option Nat) := do
  match ← procPagetable L tf with
  | none => pure none
  | some root => do
    let r ← uvmalloc root 0 sz PTE_W
    if r = 0 then pure none else pure (some root)

theorem newSpace_spec (tf : Nat) (htf : tf < 2 ^ 56) (sz : Nat) : Spec L 1 (newSpace L tf sz) fun r => match r with
    | none => Set.univ | some root => Space L root (upper L tf) (pages sz) := by
  unfold newSpace
  refine (procPagetable_spec htf).bind fun r => ?_
  cases r with
  | none => exact Triple.ret (subset_univ _)
  | some root =>
    have hzero : pages 0 = 0 := rfl
    have hspec : Spec L (Space L root (upper L tf) (pages 0)) (uvmalloc root 0 sz PTE_W) _ :=
      uvmalloc_space 0 sz PTE_W (upper_low L tf) (by decide)
    rw [hzero] at hspec
    refine (hspec.pre table_space).bind fun r => Triple.ex fun hr => ?_
    refine Triple.ite (fun _ => Triple.ret (subset_univ _)) fun hne => Triple.ret ?_
    rw [if_neg hne, hr hne, Nat.zero_max]

theorem small_process : ∃ mem, run (memStep smallLayout) (newSpace smallLayout 4096 4096) (smallMem [4096]) =
    .done (some 8192) mem ∧ HasMemory smallLayout mem ⟨8192, 4096, 4096, [], 0⟩ := by
  have hmade : (run (memStep smallLayout) (newSpace smallLayout 4096 4096) (smallMem [4096])).result = some (some 8192) := by
    decide
  obtain ⟨mem, hrun⟩ := Outcome.done_of_result hmade
  have H := smallMem_holds [4096] (by decide) (by decide)
  have hone : zeros [4096] = single 4096 (.fill 0) := mul_one _
  rw [hone, ← one_mul (single _ _)] at H
  obtain ⟨r, mem', hrun', -, q, hq, H'⟩ := run_of_spec (newSpace_spec 4096 (by decide) 4096) rfl H
  obtain ⟨rfl, rfl⟩ := Outcome.done.inj (hrun.symm.trans hrun')
  refine ⟨mem, hrun, single 4096 (.fill 0) * q, 1, mem_iUnion.mpr ⟨.fill 0, mul_mem_mul ?_ hq⟩, ?_⟩
  · exact mem_page.mpr ⟨by decide, rfl⟩
  · rwa [mul_one, mul_comm]

-- A process of 4096 bytes asks for 8192 less. growproc returns 0 and nothing has changed.
theorem not_growproc_truthful : ∃ (s : Sys) (p : Pid) (n : Int32), HasMemory smallLayout s.mem (s.proc p) ∧
    (s.proc p).sz = 4096 ∧ n.toInt = -8192 ∧ run (sysStep smallLayout) (growproc p n) s = .done 0 s ∧
    ¬Truthful s s p n.toInt 0 := by
  obtain ⟨mem, -, hmem⟩ := small_process
  refine ⟨⟨Fs.boot Fs.tiny fun _ => .zero, mem, fun _ => ⟨8192, 4096, 4096, [], 0⟩⟩, initproc, -8192, hmem, rfl, by decide,
    growproc_underflow (show (4096 : Nat) < 2 ^ 62 by decide)
      (show ((4096 : Nat) : Int) + (-8192 : Int32).toInt < 0 by decide), ?_⟩
  rintro (⟨-, hres⟩ | ⟨hr, -⟩)
  · have hsize : ((4096 : Nat) : Int) = (4096 : Nat) + (-8192 : Int32).toInt := hres.size
    exact absurd hsize (by decide)
  · cases hr

theorem growproc_truthful_small : ∃ (s s' : Sys) (p : Pid) (r : Int), HasMemory smallLayout s.mem (s.proc p) ∧
    (s.proc p).sz = 4096 ∧ run (sysStep smallLayout) (growproc p 100) s = .done r s' ∧ Truthful s s' p 100 r := by
  obtain ⟨mem, -, hmem⟩ := small_process
  obtain ⟨r, s', hrun, -, htruth⟩ := growproc_truthful smallLayout
    ⟨Fs.boot Fs.tiny fun _ => .zero, mem, fun _ => ⟨8192, 4096, 4096, [], 0⟩⟩ initproc 100 hmem
  have hsum : 0 ≤ ((4096 : Nat) : Int) + (100 : Int32).toInt := by decide
  exact ⟨_, s', initproc, r, hmem, rfl, hrun, htruth.mpr hsum⟩

end Growproc

end Sys
