import Xv6.Vm.Binding

-- kalloc.c with the list of free pages as it is, threaded through the pages.

namespace Vm

open Sep Prog List Function
open scoped Pointwise

-- `freelist` is kmem.freelist, and r->next the first word of page r.
structure Kmem where
  page : Nat → Page
  freelist : Nat
  nbFreePages : Nat

def kmemStep (L : Layout) : Step (memSig Nat Page) Panic Kmem
  | .alloc, k =>
    if k.freelist = 0 then .done none k
    else .done (some k.freelist)
      ⟨update k.page k.freelist (.fill 5), (k.page k.freelist).word 0, k.nbFreePages - 1⟩
  | .free pa, k =>
    if pa % PGSIZE ≠ 0 ∨ pa < L.kend ∨ L.phystop ≤ pa then .fail .kfree k
    else .done () ⟨update k.page pa ((Page.fill 1).setWord 0 k.freelist), pa, k.nbFreePages + 1⟩
  | .get pa, k => .done (k.page pa) k
  | .put pa f, k => .done () { k with page := update k.page pa (f (k.page pa)) }

def threaded (page : Nat → Page) : List Nat → Nat → Page
  | [] => page
  | r :: l => update (threaded page l) r ((page r).setWord 0 (l.headD 0))

def thread (m : Mem) : Kmem := ⟨threaded m.page m.freelist, m.freelist.headD 0, m.nbFreePages⟩

section Thread

variable {page : Nat → Page} {pa : Nat} {l : List Nat}

theorem threaded_of_notMem (h : pa ∉ l) : threaded page l pa = page pa := by
  induction l with
  | nil => rfl
  | cons r l ih =>
    rw [mem_cons, not_or] at h
    rw [threaded, update_of_ne h.1, ih h.2]

theorem threaded_update (h : pa ∉ l) (pg : Page) :
    threaded (update page pa pg) l = update (threaded page l) pa pg := by
  induction l with
  | nil => rfl
  | cons r l ih =>
    rw [mem_cons, not_or] at h
    rw [threaded, threaded, ih h.2, update_of_ne (Ne.symm h.1), update_comm h.1]

variable {L : Layout} {m : Mem} {h : Heap Nat Page}

theorem thread_alloc (H : Holds L m h) (hdeny : ∀ n, m.deny n = false) : ∃ r m',
    memStep L .alloc m = .done r m' ∧ kmemStep L .alloc (thread m) = .done r (thread m') ∧ m'.deny = m.deny := by
  cases hl : m.freelist with
  | nil => exact ⟨none, { m with calls := m.calls + 1 }, by simp [memStep, hl], by simp [kmemStep, thread, hl], rfl⟩
  | cons r rest =>
    have hframe {pa : Nat} (hpa : pa ∈ r :: rest) : pa ∈ L.frames := ((H.free pa).mp (hl ▸ hpa)).1
    have hne : r ≠ 0 := L.frame_ne_zero (hframe mem_cons_self)
    have hlt : rest.headD 0 < 2 ^ 64 := by
      cases rest with
      | nil => decide
      | cons s _ => exact (L.frame_addr (hframe (by simp))).2
    have hnodup := H.nodup
    rw [hl, nodup_cons] at hnodup
    refine ⟨some r, ⟨update m.page r (.fill 5), rest, m.nbFreePages - 1, m.deny, m.calls + 1⟩, ?_, ?_, rfl⟩
    · simp [memStep, hl, hdeny]
    · have hnext := Page.word_setWord_self (m.page r) (i := 0) (by decide) hlt
      simp only [kmemStep, thread, hl, threaded, headD_cons, if_neg hne, update_self, update_idem, hnext,
        threaded_update hnodup.1]

-- What a program may use is its own, and so no page that the list goes through.
theorem thread_step {a : MemAct Nat Page} {P : a.Res → Heap Nat Page → Prop}
    (hrule : memRule (· ∈ L.frames) (.fill 5) a h P) (H : Holds L m h) (hdeny : ∀ n, m.deny n = false) :
    ∃ r m', memStep L a m = .done r m' ∧ kmemStep L a (thread m) = .done r (thread m') ∧ m'.deny = m.deny := by
  have hown {pa : Nat} {pg : Page} (hpa : h pa = .own pg) : pa ∉ m.freelist := by
    intro hmem
    have hempty := ((H.free pa).mp hmem).2
    rw [hpa] at hempty
    cases hempty
  cases a with
  | alloc => exact thread_alloc H hdeny
  | free pa =>
    obtain ⟨pg, hpa, -⟩ := hrule
    have hspec := L.frame_spec (H.frame pa (by simp [hpa]))
    have hcheck : ¬(pa % PGSIZE ≠ 0 ∨ pa < L.kend ∨ L.phystop ≤ pa) := by omega
    refine ⟨(), _, memStep_free hcheck m, (if_neg hcheck).trans ?_, rfl⟩
    simp [thread, threaded, threaded_update (hown hpa)]
  | get pa =>
    obtain ⟨pg, hpa, -⟩ := hrule
    refine ⟨m.page pa, m, rfl, ?_, rfl⟩
    simp only [kmemStep, thread, threaded_of_notMem (hown hpa)]
  | put pa f =>
    obtain ⟨pg, hpa, -⟩ := hrule
    refine ⟨(), _, rfl, ?_, rfl⟩
    simp only [kmemStep, thread, threaded_of_notMem (hown hpa), threaded_update (hown hpa)]

theorem thread_run {α : Type} {prog : Phys α} {Q : α → Heap Nat Page → Prop} (H : Holds L m h) (hdeny : ∀ n, m.deny n = false)
    (hprog : awp (memRule (· ∈ L.frames) (.fill 5)) (fun _ => False) prog Q h) :
    ∃ a m', run (memStep L) prog m = .done a m' ∧ run (kmemStep L) prog (thread m) = .done a (thread m') ∧
      ∃ h', Q a h' ∧ Holds L m' h' := by
  induction prog generalizing m h with
  | ret a => exact ⟨a, m, rfl, rfl, h, hprog, H⟩
  | fail e => exact hprog.elim
  | act a c ih =>
    obtain ⟨P, hrule, hc⟩ := hprog
    obtain ⟨r, m', hm, hk, hdeny'⟩ := thread_step hrule H hdeny
    have hsat := mem_sound (f := 1) hrule (by rwa [mul_one])
    rw [hm] at hsat
    obtain ⟨h', hP, H'⟩ := hsat
    rw [mul_one] at H'
    rw [run, hm, run, hk]
    exact ih r H' (hdeny' ▸ hdeny) (hc r h' hP)

theorem freerange_spec (pg : Nat → Page) (n p : Nat) : Spec L {((List.range n).map fun i =>
    single (p + i * PGSIZE) (pg (p + i * PGSIZE))).prod} (freerange n p) fun _ => 1 := by
  induction n generalizing p with
  | zero => exact Triple.ret subset_rfl
  | succ n ih =>
    have hnext (i : Nat) : p + PGSIZE + i * PGSIZE = p + (i + 1) * PGSIZE := by ring
    have hrest := ih (p + PGSIZE)
    simp only [hnext] at hrest
    rw [range_succ_eq_map, map_cons, prod_cons, map_map, Nat.zero_mul, Nat.add_zero, ← Set.singleton_mul_singleton]
    refine Triple.seq _ (triple_free p _) subset_rfl fun _ => ?_
    rw [one_mul]
    exact hrest

theorem boot_holds (page : Nat → Page) (deny : Nat → Bool) :
    Holds L ⟨page, [], 0, deny, 0⟩ (L.frames.map fun pa => single pa (page pa)).prod := by
  obtain ⟨hv, hl, hown⟩ := prod_singles L.frames_nodup page
  refine ⟨hv, fun pa pg hpa => ?_, fun pa => (hl.mem pa).mp, fun pa => ?_, nodup_nil, rfl⟩
  · have hmem := (hl.mem pa).mp (by simp [hpa])
    exact Cell.own.inj ((hown pa hmem).symm.trans hpa)
  · simpa using (hl.mem pa).mpr

end Thread

-- After kinit, a program that uses only pages it has got from kalloc and not given back does the
-- same with the threaded list as with that of the model, and there is no panic.
theorem kalloc_threaded (L : Layout) (page : Nat → Page) {α : Type} {prog : Phys α} {Q : α → Assn Nat Page}
    (hspec : Spec L 1 prog Q) : ∃ a m,
      run (memStep L) (kinit L >>= fun _ => prog) ⟨page, [], 0, fun _ => false, 0⟩ = .done a m ∧
      run (kmemStep L) (kinit L >>= fun _ => prog) ⟨page, 0, 0⟩ = .done a (thread m) ∧ ∃ q ∈ Q a, Holds L m q := by
  have hinit : Spec L {(L.frames.map fun pa => single pa (page pa)).prod} (kinit L) fun _ => 1 := by
    have hfree := freerange_spec (L := L) page ((L.phystop - PGROUNDUP L.kend) / PGSIZE) (PGROUNDUP L.kend)
    rwa [Layout.frames, frames, map_map]
  have H := boot_holds (L := L) page fun _ => false
  have hprog := (hinit.bind fun _ => hspec) _ 1 rfl (by rw [mul_one]; exact H.valid)
  rw [mul_one] at hprog
  obtain ⟨a, m, hm, hk, _, ⟨-, q, hq, rfl⟩, H'⟩ := thread_run H (fun _ => rfl) hprog
  rw [mul_one] at H'
  exact ⟨a, m, hm, hk, q, hq, H'⟩

-- The last page of the range is the first one that kalloc returns.
theorem kalloc_threaded_small : ∃ m, run (kmemStep smallLayout) (kinit smallLayout >>= fun _ => kalloc)
    ⟨fun _ => .fill 0, 0, 0⟩ = .done (some 65536) (thread m) := by
  have hresult : (run (kmemStep smallLayout) (kinit smallLayout >>= fun _ => kalloc) ⟨fun _ => .fill 0, 0, 0⟩).result =
      some (some 65536) := by
    decide
  obtain ⟨a, m, -, hk, -⟩ := kalloc_threaded smallLayout (fun _ => .fill 0) kalloc_spec
  rw [hk] at hresult
  cases hresult
  exact ⟨m, hk⟩

end Vm
