import Xv6.Vm.Space

-- The functions that read and write the user's pages.

namespace Vm

open Sep List Set Function
open scoped Pointwise

variable {L : Layout} {root v n : Nat} {c : Nat → Page} {root n : Nat} {k m : Nat → Nat} {ok : Bool} {va : Nat}
  {c' : Nat → Page}

section Page

variable {m m' : Nat → Nat}

def Aside (L : Layout) (m : Nat → Nat) (c : Nat → Page) (n v : Nat) : Assn Nat Page :=
  User L m c 0 v * User L m c (v + 1) (n - (v + 1))

theorem user_split (hv : v < n) : User L m c 0 n = Mapped L m c v * Aside L m c n v := by
  have hsum : n = v + (n - (v + 1) + 1) := by omega
  calc User L m c 0 n = User L m c 0 (v + (n - (v + 1) + 1)) := by rw [← hsum]
    _ = User L m c 0 v * (Mapped L m c v * User L m c (v + 1) (n - (v + 1))) := by
      rw [user_append, Nat.zero_add, user_cons]
    _ = Mapped L m c v * Aside L m c n v := mul_left_comm ..

theorem aside_congr (hm : ∀ u, u ≠ v → m' u = m u) (hc : ∀ u, u ≠ v → c' u = c u) :
    Aside L m' c' n v = Aside L m c n v := by
  unfold Aside
  rw [user_congr (fun u _ hu => hm u (by omega)) fun u _ hu => hc u (by omega),
    user_congr (fun u hu _ => hm u (by omega)) fun u hu _ => hc u (by omega)]

theorem mapped_put (v : Nat) (g : Page → Page) : Spec L (Mapped L m c v) (setPage (PTE2PA (m v)) g)
    fun _ => Mapped L m (update c v (g (c v))) v := by
  refine Triple.ex fun pa => Triple.ex fun f => Triple.ex fun hleaf => ?_
  refine Triple.know (fun _ hh _ => page_frame hh) fun hpa => ?_
  rw [hleaf.address (L.frame_addr hpa)]
  refine (setPage_spec pa (c v) g).post fun _ h hh => ?_
  refine mem_iUnion.mpr ⟨pa, mem_iUnion₂.mpr ⟨f, hleaf, ?_⟩⟩
  rwa [update_self]

theorem image_put (hv : v < n) (g : Page → Page) : Spec L (Image L root m c n) (setPage (PTE2PA (m v)) g)
    fun _ => Image L root m (update c v (g (c v))) n := by
  have hside : Aside L m (update c v (g (c v))) n v = Aside L m c n v :=
    aside_congr (fun _ _ => rfl) fun u hu => update_of_ne hu ..
  unfold Image
  rw [user_split hv, user_split hv, hside, mul_left_comm]
  refine ((mapped_put v g).frame _).post fun _ => ?_
  rw [mul_left_comm]

end Page

section Bytes

variable {va len : Nat} {c c' c'' : Nat → Page} {bs bs' : List UInt8}

-- The bytes that one round of a copy takes, from `va` to the end of its page.
def round (va len : Nat) : Nat := min (PGSIZE - va % PGSIZE) len

theorem round_page {i : Nat} (hi : i < round va len) :
    (va + i) / PGSIZE = va / PGSIZE ∧ (va + i) % PGSIZE = va % PGSIZE + i := by
  unfold round PGSIZE at *
  omega

theorem round_next (va len : Nat) : round va len = len ∨ va + round va len = PGROUNDDOWN va + PGSIZE := by
  unfold round PGROUNDDOWN PGSIZE
  omega

theorem round_le (va len : Nat) : round va len ≤ len := Nat.min_le_right ..

theorem round_fits (va len : Nat) : va % PGSIZE + round va len ≤ PGSIZE := by
  unfold round PGSIZE
  omega

theorem round_pos (hlen : 0 < len) : 0 < round va len := by
  unfold round PGSIZE
  omega

theorem Page.get_write (pg : Page) {off o : Nat} (bs : List UInt8) (ho : o < PGSIZE) :
    (pg.write off bs).get o = if off ≤ o ∧ o < off + bs.length then bs.getD (o - off) 0 else pg.get o := by
  unfold Page.get Page.write
  rw [dif_pos ho, dif_pos ho]

theorem Page.get_of_ge (pg : Page) {o : Nat} (ho : ¬o < PGSIZE) : pg.get o = 0 := dif_neg ho

theorem down_page (a : Nat) : PGROUNDDOWN a / PGSIZE = a / PGSIZE := Nat.mul_div_cancel _ (by decide)

def byteOf (c : Nat → Page) (a : Nat) : UInt8 := (c (a / PGSIZE)).get (a % PGSIZE)

-- The bytes from `va` on have become `bs`, and no other byte has changed.
structure Wrote (c c' : Nat → Page) (va : Nat) (bs : List UInt8) : Prop where
  inside : ∀ i < bs.length, byteOf c' (va + i) = bs.getD i 0
  outside : ∀ a, a < va ∨ va + bs.length ≤ a → byteOf c' a = byteOf c a

theorem wrote_nil : Wrote c c va [] := ⟨fun i hi => absurd hi (by simp), fun _ _ => rfl⟩

theorem wrote_page (hfit : va % PGSIZE + bs.length ≤ PGSIZE) :
    Wrote c (update c (va / PGSIZE) ((c (va / PGSIZE)).write (va % PGSIZE) bs)) va bs where
  inside i hi := by
    have hpage : (va + i) / PGSIZE = va / PGSIZE ∧ (va + i) % PGSIZE = va % PGSIZE + i := by
      unfold PGSIZE at *
      omega
    rw [byteOf, hpage.1, hpage.2, update_self, Page.get_write _ _ (by omega), if_pos (by omega),
      Nat.add_sub_cancel_left]
  outside a ha := by
    have hmod : a % PGSIZE < PGSIZE := Nat.mod_lt a (by decide)
    rw [byteOf, byteOf]
    by_cases hpage : a / PGSIZE = va / PGSIZE
    · rw [hpage, update_self, Page.get_write _ _ hmod, if_neg]
      unfold PGSIZE at *
      omega
    · rw [update_of_ne hpage]

theorem Wrote.append (h : Wrote c c' va bs) (h' : Wrote c' c'' (va + bs.length) bs') : Wrote c c'' va (bs ++ bs') where
  inside i hi := by
    rw [length_append] at hi
    by_cases hlt : i < bs.length
    · rw [getD_append _ _ _ _ hlt, ← h.inside i hlt]
      exact h'.outside _ (by omega)
    · have hin := h'.inside (i - bs.length) (by omega)
      rw [getD_append_right _ _ _ _ (by omega), ← hin, show va + bs.length + (i - bs.length) = va + i by omega]
  outside a ha := by
    rw [length_append] at ha
    rw [h'.outside a (by omega), h.outside a (by omega)]

-- A copy that has come to its end, or to some byte before.
def Copied (ok : Bool) (c c' : Nat → Page) (va : Nat) (bs : List UInt8) : Prop :=
  ∃ k ≤ bs.length, Wrote c c' va (bs.take k) ∧ (ok = true → k = bs.length)

theorem copied_none : Copied false c c va bs := ⟨0, Nat.zero_le _, wrote_nil, fun h => by cases h⟩

theorem Copied.all (h : Copied true c c' va bs) : Wrote c c' va bs := by
  obtain ⟨k, -, hw, hk⟩ := h
  rwa [hk rfl, take_length] at hw

theorem Copied.outside (h : Copied ok c c' va bs) {a : Nat} (ha : a < va ∨ va + bs.length ≤ a) :
    byteOf c' a = byteOf c a := by
  obtain ⟨k, hk, hw, -⟩ := h
  refine hw.outside a ?_
  rw [length_take_of_le hk]
  omega

theorem Copied.step
    (h : Copied ok (update c (va / PGSIZE) ((c (va / PGSIZE)).write (va % PGSIZE) (bs.take (round va bs.length)))) c'
      (PGROUNDDOWN va + PGSIZE) (bs.drop (round va bs.length))) : Copied ok c c' va bs := by
  obtain ⟨k, hk, hw, hok⟩ := h
  have hround := round_le va bs.length
  have htake : (bs.take (round va bs.length)).length = round va bs.length := length_take_of_le hround
  rw [length_drop] at hk hok
  have hfirst : Wrote c (update c (va / PGSIZE)
      ((c (va / PGSIZE)).write (va % PGSIZE) (bs.take (round va bs.length)))) va (bs.take (round va bs.length)) := by
    apply wrote_page
    rw [htake]
    exact round_fits va bs.length
  refine ⟨round va bs.length + k, by omega, ?_, fun h => ?_⟩
  · rw [take_add]
    refine hfirst.append ?_
    rw [htake]
    rcases round_next va bs.length with hend | hnext
    · obtain rfl : k = 0 := by omega
      exact ⟨fun i hi => absurd hi (by simp), fun a _ => hw.outside a (by simp; omega)⟩
    · rw [hnext]
      exact hw
  · have hlast := hok h
    omega

end Bytes

section Access

variable {m : Nat → Nat}

theorem walk_load {α : Type} (hva : va < MAXVA) {F : Assn Nat Page} {none' : Phys α}
    {some' : Nat → Nat → Phys α} {Q : α → Assn Nat Page}
    (hnone : m (va / PGSIZE) = 0 → Spec L (Table L root m * F) none' Q)
    (hsome : ∀ a, Spec L (Opened L root m (va / PGSIZE) a * F) (some' a (m (va / PGSIZE))) Q) :
    Spec L (Table L root m * F) (do
      match ← walk root va false with
      | none => none'
      | some a => do
        let pte ← load a
        some' a pte) Q := by
  refine Triple.seq _ (walk_spec hva root m false) subset_rfl fun r => ?_
  cases r with
  | none =>
    rw [iUnion_mul]
    exact Triple.ex fun hzero => hnone (hzero rfl)
  | some a =>
    refine Triple.seq _ (opened_load (va / PGSIZE) a) subset_rfl fun w => ?_
    rw [iUnion_mul]
    refine Triple.ex fun hw => ?_
    rw [hw]
    exact hsome a

theorem opened_image {va a : Nat} (hva : va < MAXVA) :
    Opened L root m (va / PGSIZE) a * User L m c 0 n ⊆ Image L root m c n := by
  refine mul_subset_mul_right (opened_close ?_)
  unfold PGSIZE MAXVA at *
  omega

theorem image_copied {bs : List UInt8} (h : Copied ok c c' va bs) :
    Image L root m c' n ⊆ ⋃ (c' : Nat → Page) (_ : Copied ok c c' va bs), Image L root m c' n := fun _ hh =>
  mem_iUnion₂.mpr ⟨c', h, hh⟩

variable (hk : ∀ v, n ≤ v → m v &&& PTE_U = 0)

include hk

theorem copyoutFrom_spec (root fuel dstva : Nat) (src : List UInt8) (c : Nat → Page) (hfuel : src.length ≤ fuel) :
    Spec L (Image L root m c n) (copyoutFrom root fuel dstva src) fun ok =>
      ⋃ (c' : Nat → Page) (_ : Copied ok c c' dstva src), Image L root m c' n := by
  induction fuel generalizing dstva src c with
  | zero =>
    obtain rfl : src = [] := eq_nil_of_length_eq_zero (by omega)
    exact Triple.ret (image_copied ⟨0, le_rfl, wrote_nil, fun _ => rfl⟩)
  | succ fuel ih =>
    have hstop : Image L root m c n ⊆ ⋃ (c' : Nat → Page) (_ : Copied false c c' dstva src), Image L root m c' n :=
      image_copied copied_none
    rw [copyoutFrom]
    refine Triple.ite (fun hnil => Triple.ret ?_) fun hnil => ?_
    · rw [hnil]
      exact image_copied ⟨0, le_rfl, wrote_nil, fun _ => rfl⟩
    refine Triple.ite (fun _ => Triple.ret hstop) fun hva => ?_
    refine walk_load (by omega) (fun _ => Triple.ret hstop) fun a => ?_
    have hclose : Opened L root m (PGROUNDDOWN dstva / PGSIZE) a * User L m c 0 n ⊆ Image L root m c n :=
      opened_image (Nat.lt_of_not_le hva)
    refine Triple.ite (fun _ => Triple.ret (subset_trans hclose hstop)) fun hflags => ?_
    have hlt : PGROUNDDOWN dstva / PGSIZE < n := by
      by_contra hlt
      exact hflags (.inr (.inl (hk _ (Nat.le_of_not_lt hlt))))
    have hpos : 0 < round dstva src.length := round_pos (length_pos_of_ne_nil hnil)
    have hleft : (src.drop (round dstva src.length)).length ≤ fuel := by
      rw [length_drop]
      omega
    refine ((image_put hlt _).pre hclose).bind fun _ => (ih _ _ _ hleft).post fun ok => ?_
    refine iUnion₂_subset fun c' hc' => image_copied ?_
    rw [down_page] at hc'
    exact hc'.step

theorem copyout_spec (root dstva : Nat) (src : List UInt8) (c : Nat → Page) :
    Spec L (Image L root m c n) (copyout root dstva src) fun ok =>
      ⋃ (c' : Nat → Page) (_ : Copied ok c c' dstva src), Image L root m c' n :=
  copyoutFrom_spec hk root _ _ _ c le_rfl

end Access

section Loaded

-- An address space as exec builds it: all of its pages are for the user.
def Loaded (L : Layout) (root : Nat) (k : Nat → Nat) (n : Nat) : Assn Nat Page :=
  ⋃ (m : Nat → Nat) (c : Nat → Page) (_ : Fits k m n ∧ ∀ v < n, m v &&& PTE_U ≠ 0), Image L root m c n

theorem image_loaded (hfits : Fits k m n) (hu : ∀ v < n, m v &&& PTE_U ≠ 0) :
    Image L root m c n ⊆ Loaded L root k n := fun _ hh =>
  mem_iUnion.mpr ⟨m, mem_iUnion₂.mpr ⟨c, ⟨hfits, hu⟩, hh⟩⟩

theorem loaded_space : Loaded L root k n ⊆ Space L root k n :=
  iUnion_subset fun _ => iUnion₂_subset fun _ hm => image_space hm.1

theorem table_loaded : Table L root k ⊆ Loaded L root k 0 := by
  refine subset_trans ?_ (image_loaded (c := fun _ => .fill 0) (fun _ _ => rfl) fun v hv => absurd hv (by omega))
  exact (mul_one _).ge

theorem uvmalloc_loaded (oldsz newsz xperm : Nat) (hk : Low k) (hx : xperm < 2 ^ 10) :
    Spec L (Loaded L root k (pages oldsz)) (uvmalloc root oldsz newsz xperm) fun r =>
      ⋃ _ : r ≠ 0 → r = max oldsz newsz, Loaded L root k (pages (if r = 0 then oldsz else r)) := by
  refine Triple.ex fun m => Triple.ex fun c => Triple.ex fun ⟨hfits, hu⟩ => ?_
  refine (uvmalloc_image oldsz newsz xperm hk hfits hx).post fun r h hh => ?_
  obtain ⟨m', hh⟩ := mem_iUnion.mp hh
  obtain ⟨c', ⟨hr, hf, hmap⟩, hh⟩ := mem_iUnion₂.mp hh
  refine mem_iUnion.mpr ⟨hr, image_loaded hf (fun u hlt => ?_) hh⟩
  rcases hmap u hlt with ⟨he, hold⟩ | h
  · rw [he]
    exact hu u hold
  · exact h

theorem walkaddr_mapped (hv : va / PGSIZE < n) (hu : m (va / PGSIZE) &&& PTE_U ≠ 0) :
    Spec L (Image L root m c n) (walkaddr root va) fun r =>
      ⋃ _ : r ≠ 0 ∧ r = PTE2PA (m (va / PGSIZE)), Image L root m c n := by
  refine Triple.know (fun _ => image_count) fun hcount => ?_
  have hknow : ∀ h ∈ Image L root m c n, Valid h → PTE2PA (m (va / PGSIZE)) ∈ L.frames ∧
      ∃ f, LeafPte (m (va / PGSIZE)) (PTE2PA (m (va / PGSIZE))) f := by
    rintro _ ⟨_, _, u, hu, rfl⟩ _
    exact user_leaf hu (Nat.zero_le _) (by omega)
  refine Triple.know hknow fun ⟨hframe, f, hleaf⟩ => ?_
  have hva : va < MAXVA := by
    have hmax := low_max
    unfold PGSIZE MAXVA at *
    omega
  unfold walkaddr
  rw [if_neg (by omega)]
  refine walk_load hva (fun hzero => absurd hzero hleaf.ne_zero) fun a => ?_
  rw [if_neg hleaf.valid, if_neg hu]
  refine Triple.ret (subset_trans (opened_image hva) fun h hh => ?_)
  exact mem_iUnion.mpr ⟨⟨L.frame_ne_zero hframe, rfl⟩, hh⟩

variable (hk : ∀ v, k v &&& PTE_U = 0)

include hk

end Loaded

theorem and_not_user {pa f : Nat} (hf : f < 2 ^ 10) (hpa : pa < 2 ^ 56) :
    (PA2PTE pa ||| f) &&& (2 ^ 64 - 1 - PTE_U) = PA2PTE pa ||| (f &&& (2 ^ 10 - 1 - PTE_U)) := by
  have hf' : f &&& (2 ^ 10 - 1 - PTE_U) < 2 ^ 10 := lt_of_le_of_lt Nat.and_le_left hf
  have hbig : ∀ i, (2 ^ 64 - 1 - PTE_U).testBit i = (decide (i < 64) && !PTE_U.testBit i) := fun i =>
    Nat.testBit_two_pow_sub_succ (show PTE_U < 2 ^ 64 by decide) i
  have hsmall : ∀ i, (2 ^ 10 - 1 - PTE_U).testBit i = (decide (i < 10) && !PTE_U.testBit i) := fun i =>
    Nat.testBit_two_pow_sub_succ (show PTE_U < 2 ^ 10 by decide) i
  apply Nat.eq_of_testBit_eq
  intro i
  rw [pa2pte_or hf, pa2pte_or hf', Nat.testBit_and, Nat.testBit_two_pow_mul_add _ hf,
    Nat.testBit_two_pow_mul_add _ hf', hbig]
  by_cases hi : i < 10
  · rw [if_pos hi, if_pos hi, Nat.testBit_and, hsmall, decide_eq_true hi, decide_eq_true (by omega : i < 64)]
  rw [if_neg hi, if_neg hi]
  have hu : PTE_U.testBit i = false :=
    Nat.testBit_lt_two_pow (lt_of_lt_of_le (by decide : PTE_U < 2 ^ 10) (Nat.pow_le_pow_right (by omega) (by omega)))
  rw [hu]
  by_cases h64 : i < 64
  · rw [decide_eq_true h64]
    simp
  · have hz : (pa / 2 ^ 12).testBit (i - 10) = false := by
      refine Nat.testBit_lt_two_pow (lt_of_lt_of_le (by omega : pa / 2 ^ 12 < 2 ^ 44) ?_)
      exact Nat.pow_le_pow_right (by omega) (by omega)
    rw [hz, Bool.false_and]

theorem LeafPte.clear_user {w pa f : Nat} (h : LeafPte w pa f) (hpa : pa < 2 ^ 56) :
    LeafPte (w &&& (2 ^ 64 - 1 - PTE_U)) pa (f &&& (2 ^ 10 - 1 - PTE_U)) := by
  refine ⟨lt_of_le_of_lt Nat.and_le_left h.small, ?_, ?_⟩
  · rw [Nat.and_assoc, Nat.and_comm (2 ^ 10 - 1 - PTE_U), ← Nat.and_assoc, h.leaf]
    rfl
  · rw [h.eq, and_not_user h.small hpa]

def cleared (m : Nat → Nat) (v : Nat) : Nat → Nat := update m v (m v &&& (2 ^ 64 - 1 - PTE_U))

theorem uvmclear_image (hv : v < n) : Spec L (Image L root m c n) (uvmclear root (v * PGSIZE)) fun _ =>
    Image L root (cleared m v) c n := by
  refine Triple.know (fun _ => image_count) fun hcount => ?_
  have hmax := low_max
  have hva : v * PGSIZE < MAXVA := by
    unfold PGSIZE at *
    omega
  have hpage : v * PGSIZE / PGSIZE = v := Nat.mul_div_cancel v (by decide)
  unfold Image uvmclear
  rw [user_split hv, Mapped, iUnion_mul, mul_iUnion]
  refine Triple.ex fun pa => ?_
  rw [iUnion₂_mul, mul_iUnion₂]
  refine Triple.ex fun f => Triple.ex fun hleaf => ?_
  refine Triple.know (φ := pa ∈ L.frames) ?_ fun hpa => ?_
  · rintro _ ⟨_, _, _, ⟨_, hp, _⟩, _⟩ _
    exact page_frame hp
  refine walk_load hva (fun hzero => ?_) fun a => ?_
  · rw [hpage] at hzero
    exact absurd hzero hleaf.ne_zero
  rw [hpage]
  have hword : m v &&& (2 ^ 64 - 1 - PTE_U) < 2 ^ 64 := lt_of_le_of_lt Nat.and_le_right (by decide)
  refine ((opened_store (by omega) hword).frame _).post fun _ => ?_
  have hside : Aside L (cleared m v) c n v = Aside L m c n v :=
    aside_congr (fun u hu => update_of_ne hu ..) fun _ _ => rfl
  refine mul_subset_mul_left ?_
  rw [user_split hv, hside]
  have hleaf' : LeafPte (cleared m v v) pa (f &&& (2 ^ 10 - 1 - PTE_U)) := by
    rw [cleared, update_self]
    exact hleaf.clear_user (L.frame_lt hpa)
  exact mul_subset_mul_right fun h hh => mem_iUnion.mpr ⟨pa, mem_iUnion₂.mpr ⟨_, hleaf', hh⟩⟩

theorem cleared_fits (hv : v < n) (hfits : Fits k m n) : Fits k (cleared m v) n := fun u hu => by
  rw [cleared, update_of_ne (by omega)]
  exact hfits u hu

theorem cleared_other {u : Nat} (hu : u ≠ v) : cleared m v u = m u := update_of_ne hu ..

theorem cleared_user (m : Nat → Nat) (v : Nat) : cleared m v v &&& PTE_U = 0 := by
  rw [cleared, update_self, Nat.and_assoc]
  exact Nat.and_zero (m v)

section Uvmcopy

variable {old new n : Nat} {k m m1 : Nat → Nat} {ts : List Nat}

-- What uvmcopy leaves of a new table with the map `k`: private copies with the
-- flags of the old pages, or no page. The tables `ts` are kept in the first case.
def copies (L : Layout) (new : Nat) (ts : List Nat) (k m : Nat → Nat) (c : Nat → Page) (n : Nat) (ok : Bool) :
    Assn Nat Page :=
  if ok then ⋃ (m' : Nat → Nat) (_ : Adds k m' (fun u => PTE_FLAGS (m u)) 0 n),
    (Table L new m' ∩ Covers ts) * Held L m' c 0 n
  else ⋃ (j : Nat) (_ : j ≤ n), Table L new (clear k 0 j)

theorem uvmcopyErr_spec {v : Nat} (hmax : v ≤ MAXVA / PGSIZE) (hvn : v ≤ n)
    (hadds : Adds k m1 (fun u => PTE_FLAGS (m u)) 0 v) :
    Spec L (Table L new m1 * Held L m1 c 0 v) (uvmcopyErr new (v * PGSIZE)) (copies L new ts k m c n) := by
  have hunmap := uvmunmap_held L new m1 c (v := 0) (n := v) (by omega)
  rw [Nat.zero_mul, hadds.clear] at hunmap
  unfold uvmcopyErr
  rw [Nat.mul_div_cancel v (by decide)]
  exact hunmap.bind fun _ => Triple.ret fun h hh => mem_iUnion₂.mpr ⟨v, hvn, hh⟩

theorem flags_lt (w : Nat) : PTE_FLAGS w < 2 ^ 10 := lt_of_le_of_lt Nat.and_le_right (by decide)

theorem flags_and_valid (w : Nat) : PTE_FLAGS w &&& PTE_V = w &&& PTE_V := by
  unfold PTE_FLAGS
  rw [Nat.and_assoc]
  rfl

theorem flags_or_valid {w : Nat} (h : w &&& PTE_V ≠ 0) : PTE_FLAGS w ||| PTE_V = PTE_FLAGS w := by
  have hone : PTE_FLAGS w &&& PTE_V = PTE_V := by
    have hle : PTE_FLAGS w &&& PTE_V ≤ PTE_V := Nat.and_le_right
    rw [← flags_and_valid] at h
    unfold PTE_V at *
    omega
  calc PTE_FLAGS w ||| PTE_V = PTE_FLAGS w ||| (PTE_FLAGS w &&& PTE_V) := by rw [hone]
    _ = PTE_FLAGS w := by
      apply Nat.eq_of_testBit_eq
      intro i
      rw [Nat.testBit_or, Nat.testBit_and]
      cases (PTE_FLAGS w).testBit i <;> rfl

-- A page that uvmcopy can copy: its entry `m u` and its contents can be read in the heap `g`.
structure Source (L : Layout) (old : Nat) (g : Heap Nat Page) (k m : Nat → Nat) (c : Nat → Page) (u : Nat) : Prop where
  max : u < MAXVA / PGSIZE
  valid : m u &&& PTE_V ≠ 0
  leaf : PTE_FLAGS (m u) ≠ PTE_V
  free : k u &&& PTE_V = 0
  walk : Spec L {g} (walk old (u * PGSIZE) false) fun r =>
    ⋃ (a : Nat) (_ : r = some a ∧ Spec L {g} (load a) fun w => ⋃ _ : w = m u, {g}), {g}
  get : Spec L {g} (pageAt (PTE2PA (m u))) fun r => ⋃ _ : r = c u, {g}

variable {g t r : Heap Nat Page}

theorem uvmcopyFrom_spec (hsrc : ∀ u < n, Source L old g k m c u) {v j : Nat} (hvj : v + j = n)
    (hadds : Adds k m1 (fun u => PTE_FLAGS (m u)) 0 v) :
    Spec L ({g} * ((Table L new m1 ∩ Covers ts) * Held L m1 c 0 v)) (uvmcopyFrom old new j (v * PGSIZE))
      fun ok => {g} * copies L new ts k m c n ok := by
  induction j generalizing v m1 with
  | zero =>
    obtain rfl : v = n := by omega
    refine Triple.ret (mul_subset_mul_left fun h hh => ?_)
    exact mem_iUnion₂.mpr ⟨m1, hadds, hh⟩
  | succ j ih =>
    obtain ⟨hlt, hvalid, hleaf, hfree, hwalk, hget⟩ := hsrc v (by omega)
    have hva : v * PGSIZE < MAXVA := page_lt (by omega)
    have hpage : v * PGSIZE / PGSIZE = v := Nat.mul_div_cancel v (by decide)
    have hnext : v * PGSIZE + PGSIZE = (v + 1) * PGSIZE := (Nat.succ_mul v PGSIZE).symm
    have herr : Spec L ({g} * ((Table L new m1 ∩ Covers ts) * Held L m1 c 0 v)) (uvmcopyErr new (v * PGSIZE))
        fun ok => {g} * copies L new ts k m c n ok := by
      have hspec : Spec L (Table L new m1 * Held L m1 c 0 v) (uvmcopyErr new (v * PGSIZE)) (copies L new ts k m c n) :=
        uvmcopyErr_spec (by omega) (by omega) hadds
      refine (hspec.frame {g}).mono ?_ fun ok => (mul_comm _ _).subset
      rw [mul_comm]
      exact mul_subset_mul_right (mul_subset_mul_right Set.inter_subset_left)
    rw [uvmcopyFrom]
    refine Triple.seq _ hwalk subset_rfl fun r => ?_
    rw [iUnion₂_mul]
    refine Triple.ex fun a => Triple.ex fun ⟨hr, hload⟩ => ?_
    rw [hr]
    refine Triple.seq _ hload subset_rfl fun w => ?_
    rw [iUnion_mul]
    refine Triple.ex fun hw => ?_
    rw [hw, if_neg hvalid]
    refine Triple.seq _ kalloc_spec (one_mul _).ge fun r => ?_
    cases r with
    | none =>
      rw [one_mul]
      exact herr
    | some mem =>
      dsimp only
      refine Triple.know (know_left fun _ hh => page_frame hh) fun hmem => ?_
      refine Triple.seq (page L mem (.fill 5) * ((Table L new m1 ∩ Covers ts) * Held L m1 c 0 v))
        hget (mul_left_comm _ _ _).subset fun pg => ?_
      rw [iUnion_mul]
      refine Triple.ex fun hpg => ?_
      rw [hpg]
      refine Triple.seq ({g} * ((Table L new m1 ∩ Covers ts) * Held L m1 c 0 v))
        (setPage_spec mem _ _) (mul_left_comm _ _ _).subset fun _ => ?_
      have hnone : m1 (v * PGSIZE / PGSIZE) &&& PTE_V = 0 := by
        rw [hpage, hadds.out v (by omega)]
        exact hfree
      refine Triple.seq (page L mem (c v) * ({g} * Held L m1 c 0 v))
        ((mappages_one L hva (Nat.mul_mod_left v PGSIZE) hnone (L.frame_lt hmem) (flags_lt (m v))).keep
          (mappages_keeps ..) ts) (le_of_eq (by ac_rfl)) fun ok => ?_
      cases ok with
      | false =>
        refine Triple.seq ((Table L new m1 ∩ Covers ts) * ({g} * Held L m1 c 0 v))
          (kfree_spec mem (c v)) (mul_left_comm _ _ _).subset fun _ => ?_
        refine herr.pre (le_of_eq ?_)
        rw [one_mul, mul_left_comm]
      | true =>
        rw [if_pos rfl, if_pos rfl, hpage, hnext, flags_or_valid hvalid]
        have hgrow : Held L m1 c 0 v * page L mem (c v) ⊆
            Held L (update m1 v (PA2PTE mem ||| PTE_FLAGS (m v))) c 0 (v + 1) := by
          have hone : Held L m1 c 0 v * page L mem (c (0 + v)) ⊆
              Held L (update m1 (0 + v) (PA2PTE mem ||| PTE_FLAGS (m v))) c 0 (v + 1) :=
            held_grow (flags_lt (m v)) (by rwa [flags_and_valid]) hleaf
          rwa [Nat.zero_add] at hone
        have hsnoc := hadds.snoc hmem (flags_lt (m (0 + v)))
        rw [Nat.zero_add] at hsnoc
        refine (ih (by omega) hsnoc).pre ?_
        have he : ∀ T : Assn Nat Page, T * (page L mem (c v) * ({g} * Held L m1 c 0 v)) =
            {g} * (T * (Held L m1 c 0 v * page L mem (c v))) := fun T => by ac_rfl
        rw [he]
        exact mul_subset_mul_left (mul_subset_mul_left hgrow)

theorem uvmcopy_copies (new : Nat) (ts : List Nat) {sz : Nat} (hsrc : ∀ u < pages sz, Source L old g k m c u) :
    Spec L ({g} * (Table L new k ∩ Covers ts)) (uvmcopy old new sz) fun ok => {g} * copies L new ts k m c (pages sz) ok := by
  have h : Spec L ({g} * ((Table L new k ∩ Covers ts) * Held L k c 0 0)) (uvmcopyFrom old new (pages sz) (0 * PGSIZE))
      fun ok => {g} * copies L new ts k m c (pages sz) ok :=
    uvmcopyFrom_spec hsrc (Nat.zero_add _) (adds_zero k _ 0)
  rw [Nat.zero_mul] at h
  exact h.pre (mul_subset_mul_left (mul_one _).ge)

theorem table_walk {u : Nat} (ht : t ∈ Table L old m) (hu : u < MAXVA / PGSIZE)
    (hvalid : m u &&& PTE_V ≠ 0) : Spec L {t * r} (walk old (u * PGSIZE) false) fun w =>
      ⋃ (a : Nat) (_ : w = some a ∧ Spec L {t * r} (load a) fun w => ⋃ _ : w = m u, {t * r}), {t * r} := by
  have hva : u * PGSIZE < MAXVA := page_lt (by omega)
  have hpage : u * PGSIZE / PGSIZE = u := Nat.mul_div_cancel u (by decide)
  rw [← singleton_mul_singleton]
  refine (((walk_spec hva old m false).readonly (walk_reads old _) ht).frame {r}).post fun w => ?_
  refine subset_trans (mul_subset_mul_right fun h hh => ?_) (iUnion₂_mul ..).subset
  obtain ⟨rfl, hh⟩ := hh
  rw [hpage] at hh
  cases w with
  | none =>
    obtain ⟨hzero, -⟩ := mem_iUnion.mp hh
    rw [hzero rfl] at hvalid
    exact absurd rfl hvalid
  | some a =>
    refine mem_iUnion₂.mpr ⟨a, ⟨rfl, ?_⟩, rfl⟩
    refine (((opened_load u a).readonly ⟨⟨_, rfl⟩, fun _ => trivial⟩ hh).frame {r}).post fun w => ?_
    refine subset_trans (mul_subset_mul_right fun h' hh' => ?_) (iUnion_mul ..).subset
    obtain ⟨rfl, hh'⟩ := hh'
    obtain ⟨hw, -⟩ := mem_iUnion.mp hh'
    exact mem_iUnion.mpr ⟨hw, rfl⟩

theorem own_get {pa : Nat} {pg : Page} (hown : g pa = .own pg) :
    Spec L {g} (pageAt pa) fun r => ⋃ _ : r = pg, {g} := by
  rintro h f rfl hv
  exact Prog.awp_lift ⟨pg, hv.mul_own hown, hv, h, mem_iUnion.mpr ⟨rfl, rfl⟩, rfl⟩

end Uvmcopy

end Vm
