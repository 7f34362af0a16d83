import Mathlib

-- memmove of string.c and of ulib.c, with pointers of 64 bits.

namespace Memmove

open Function List

section Assign

variable {α β : Type} [DecidableEq α]

-- The assignments m[x] := m[y], one after the other.
def assign (m : α → β) : List (α × α) → α → β
  | [] => m
  | (x, y) :: l => assign (update m x (m y)) l

theorem assign_of_notMem {m : α → β} {l : List (α × α)} {a : α} (h : ∀ x ∈ l, a ≠ x.1) : assign m l a = m a := by
  induction l generalizing m with
  | nil => rfl
  | cons x l ih =>
    obtain ⟨hx, hl⟩ := forall_mem_cons.mp h
    rw [assign, ih hl, update_of_ne hx]

-- No assignment writes to what a later one reads or writes.
theorem assign_of_mem {m : α → β} {l : List (α × α)} (h : l.Pairwise fun x y => x.1 ≠ y.1 ∧ x.1 ≠ y.2) :
    ∀ x ∈ l, assign m l x.1 = m x.2 := by
  induction l generalizing m with
  | nil => simp
  | cons x l ih =>
    obtain ⟨hx, hl⟩ := pairwise_cons.mp h
    intro y hy
    rcases mem_cons.mp hy with rfl | hy
    · rw [assign, assign_of_notMem fun z hz => (hx z hz).1, update_self]
    · rw [assign, ih hl y hy, update_of_ne (hx y hy).2.symm]

end Assign

abbrev Mem := UInt64 → UInt8

-- while(n-- > 0) *d++ = *s++;
def forward : Nat → Mem → UInt64 → UInt64 → Mem
  | 0, m, _, _ => m
  | n + 1, m, d, s => forward n (update m d (m s)) (d + 1) (s + 1)

-- while(n-- > 0) *--d = *--s;
def backward : Nat → Mem → UInt64 → UInt64 → Mem
  | 0, m, _, _ => m
  | n + 1, m, d, s => backward n (update m (d - 1) (m (s - 1))) (d - 1) (s - 1)

def Kernel.memmove (m : Mem) (dst src : UInt64) (n : UInt32) : UInt64 × Mem :=
  if n = 0 then (dst, m)
  else if src < dst ∧ src + n.toUInt64 > dst then
    (dst, backward n.toNat m (dst + n.toUInt64) (src + n.toUInt64))
  else (dst, forward n.toNat m dst src)

-- A negative n is no more than 0 to the loops.
def User.memmove (m : Mem) (vdst vsrc : UInt64) (n : Int32) : UInt64 × Mem :=
  if vsrc > vdst then (vdst, forward n.toInt.toNat m vdst vsrc)
  else (vdst, backward n.toInt.toNat m (vdst + n.toInt64.toUInt64) (vsrc + n.toInt64.toUInt64))

-- The `n` bytes at `src` of `m` are at `dst` of `m'`, and the other bytes are as they were.
def Copied (m m' : Mem) (dst src : UInt64) (n : Nat) : Prop :=
  (∀ i < n, m' (dst + UInt64.ofNat i) = m (src + UInt64.ofNat i)) ∧
    ∀ a, (∀ i < n, a ≠ dst + UInt64.ofNat i) → m' a = m a

section

variable {m m' m₁ : Mem} {d s dst src : UInt64} {n : Nat}

theorem Copied.unique (h : Copied m m' dst src n) (h₁ : Copied m m₁ dst src n) : m' = m₁ := by
  funext a
  by_cases ha : ∃ i < n, a = dst + UInt64.ofNat i
  · obtain ⟨i, hi, rfl⟩ := ha
    rw [h.1 i hi, h₁.1 i hi]
  · have hne : ∀ i < n, a ≠ dst + UInt64.ofNat i := fun i hi heq => ha ⟨i, hi, heq⟩
    rw [h.2 a hne, h₁.2 a hne]

def pairs (d s : UInt64) (n : Nat) : List (UInt64 × UInt64) :=
  (List.range n).map fun i => (d + UInt64.ofNat i, s + UInt64.ofNat i)

theorem mem_pairs {x : UInt64 × UInt64} : x ∈ pairs d s n ↔ ∃ i < n, x = (d + UInt64.ofNat i, s + UInt64.ofNat i) := by
  simp [pairs, eq_comm]

theorem copied_assign {l : List (UInt64 × UInt64)} (hl : ∀ x, x ∈ l ↔ x ∈ pairs d s n)
    (h : l.Pairwise fun x y => x.1 ≠ y.1 ∧ x.1 ≠ y.2) : Copied m (assign m l) d s n := by
  refine ⟨fun i hi => ?_, fun a ha => ?_⟩
  · exact assign_of_mem h (d + UInt64.ofNat i, s + UInt64.ofNat i) ((hl _).mpr (mem_pairs.mpr ⟨i, hi, rfl⟩))
  · apply assign_of_notMem
    intro x hx
    obtain ⟨i, hi, rfl⟩ := mem_pairs.mp ((hl x).mp hx)
    exact ha i hi

theorem add_ofNat_succ (a : UInt64) (i : Nat) : a + UInt64.ofNat (i + 1) = a + 1 + UInt64.ofNat i := by
  rw [UInt64.ofNat_add, UInt64.add_assoc, UInt64.add_comm (UInt64.ofNat i)]
  rfl

theorem forward_eq : forward n m d s = assign m (pairs d s n) := by
  induction n generalizing m d s with
  | zero => rfl
  | succ n ih =>
    rw [forward, ih, pairs, pairs, range_succ_eq_map, map_cons, map_map]
    simp only [comp_def, Nat.succ_eq_add_one, add_ofNat_succ]
    simp [assign]

theorem backward_eq : backward n m (d + UInt64.ofNat n) (s + UInt64.ofNat n) = assign m (pairs d s n).reverse := by
  induction n generalizing m with
  | zero => rfl
  | succ n ih =>
    have hlast : ∀ a : UInt64, a + UInt64.ofNat (n + 1) - 1 = a + UInt64.ofNat n := by
      intro a
      rw [UInt64.ofNat_add, ← UInt64.add_assoc]
      exact UInt64.add_sub_cancel ..
    rw [backward, hlast, hlast, ih, pairs, pairs, range_succ]
    simp [assign]

theorem toNat_add_ofNat {a : UInt64} {i : Nat} (h : a.toNat + n ≤ 2 ^ 64) (hi : i < n) :
    (a + UInt64.ofNat i).toNat = a.toNat + i := by
  rw [UInt64.toNat_add, UInt64.toNat_ofNat_of_lt' (show i < 2 ^ 64 by omega), Nat.mod_eq_of_lt (by omega)]

theorem copied_forward (hd : d.toNat + n ≤ 2 ^ 64) (hs : s.toNat + n ≤ 2 ^ 64)
    (h : d.toNat ≤ s.toNat ∨ s.toNat + n ≤ d.toNat) : Copied m (forward n m d s) d s n := by
  rw [forward_eq]
  apply copied_assign fun x => Iff.rfl
  rw [pairs, pairwise_map]
  apply pairwise_lt_range.imp_of_mem
  intro i j hi hj hij
  rw [mem_range] at hi hj
  simp only [ne_eq, ← UInt64.toNat_inj, toNat_add_ofNat hd hi, toNat_add_ofNat hd hj, toNat_add_ofNat hs hj]
  omega

theorem copied_backward (hd : d.toNat + n ≤ 2 ^ 64) (hs : s.toNat + n ≤ 2 ^ 64) (h : s.toNat ≤ d.toNat) :
    Copied m (backward n m (d + UInt64.ofNat n) (s + UInt64.ofNat n)) d s n := by
  rw [backward_eq]
  apply copied_assign fun x => mem_reverse
  rw [pairwise_reverse, pairs, pairwise_map]
  apply pairwise_lt_range.imp_of_mem
  intro i j hi hj hij
  rw [mem_range] at hi hj
  simp only [ne_eq, ← UInt64.toNat_inj, toNat_add_ofNat hd hi, toNat_add_ofNat hd hj, toNat_add_ofNat hs hi]
  omega

end

-- Neither range wraps around the end of the address space.
theorem memmove_copies (m : Mem) (dst src : UInt64) (n : UInt32) (hd : dst.toNat + n.toNat ≤ 2 ^ 64)
    (hs : src.toNat + n.toNat ≤ 2 ^ 64) : Copied m (Kernel.memmove m dst src n).2 dst src n.toNat ∧
      ∀ k : Int32, k.toInt = n.toNat → Copied m (User.memmove m dst src k).2 dst src n.toNat ∧
        (User.memmove m dst src k).2 = (Kernel.memmove m dst src n).2 := by
  have hkernel : Copied m (Kernel.memmove m dst src n).2 dst src n.toNat := by
    rw [Kernel.memmove, ← UInt64.ofNat_uInt32ToNat]
    split
    · rename_i hzero
      simp [Copied, hzero]
    · split
      · rename_i hlt
        exact copied_backward hd hs (Nat.le_of_lt hlt.1)
      · rename_i hnot
        apply copied_forward hd hs
        by_cases hlt : src.toNat < dst.toNat
        · have hend := toNat_add_ofNat (show src.toNat + (n.toNat + 1) ≤ 2 ^ 64 by omega) (Nat.lt_succ_self _)
          have hle : ¬ dst < src + UInt64.ofNat n.toNat := fun h => hnot ⟨hlt, h⟩
          rw [UInt64.lt_iff_toNat_lt, hend] at hle
          omega
        · omega
  refine ⟨hkernel, fun k hk => ?_⟩
  have huser : Copied m (User.memmove m dst src k).2 dst src n.toNat := by
    have hcast : k.toInt64.toUInt64 = UInt64.ofNat n.toNat := by
      rw [← Int64.ofInt_toInt k.toInt64, Int32.toInt_toInt64, hk, Int64.ofInt_eq_ofNat, Int64.toUInt64_ofNat']
    rw [User.memmove, hcast, hk, Int.toNat_natCast]
    split
    · rename_i hgt
      exact copied_forward hd hs (.inl (Nat.le_of_lt hgt))
    · rename_i hle
      exact copied_backward hd hs (Nat.not_lt.mp hle)
  exact ⟨huser, huser.unique hkernel⟩

theorem memmove_copies_overlap :
    Copied (fun a => a.toUInt8) (Kernel.memmove (fun a => a.toUInt8) 101 100 3).2 101 100 3 ∧
      (User.memmove (fun a => a.toUInt8) 101 100 3).2 = (Kernel.memmove (fun a => a.toUInt8) 101 100 3).2 := by
  have h := memmove_copies (fun a => a.toUInt8) 101 100 3 (by decide) (by decide)
  exact ⟨h.1, (h.2 3 (by decide)).2⟩

end Memmove
