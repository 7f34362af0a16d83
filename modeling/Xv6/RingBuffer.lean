import Mathlib

-- Buffers whose two counters are machine words that only grow, and so wrap around.

structure RingBuffer (α : Type) (w cap : Nat) where
  data : Fin cap → α
  nread : BitVec w
  nwrite : BitVec w

namespace RingBuffer

open List Function

variable {α : Type} {w cap : Nat}

def count (r : RingBuffer α w cap) : Nat := (r.nwrite - r.nread).toNat

def Empty (r : RingBuffer α w cap) : Prop := r.nread = r.nwrite

def Full (r : RingBuffer α w cap) : Prop := r.nwrite = r.nread + BitVec.ofNat w cap

instance (r : RingBuffer α w cap) : Decidable r.Empty := inferInstanceAs (Decidable (_ = _))

instance (r : RingBuffer α w cap) : Decidable r.Full := inferInstanceAs (Decidable (_ = _))

section Operations

variable [NeZero cap]

def slot (i : BitVec w) : Fin cap := Fin.ofNat cap i.toNat

def push (r : RingBuffer α w cap) (x : α) : RingBuffer α w cap :=
  { r with data := update r.data (slot r.nwrite) x, nwrite := r.nwrite + 1 }

def head (r : RingBuffer α w cap) : α := r.data (slot r.nread)

def pop (r : RingBuffer α w cap) : RingBuffer α w cap := { r with nread := r.nread + 1 }

def nth (r : RingBuffer α w cap) (k : Nat) : α := r.data (slot (r.nread + BitVec.ofNat w k))

def contents (r : RingBuffer α w cap) : List α := (List.range r.count).map r.nth

end Operations

variable {r : RingBuffer α w cap}

theorem nwrite_eq (r : RingBuffer α w cap) : r.nwrite = r.nread + BitVec.ofNat w r.count := by
  rw [count, BitVec.ofNat_toNat, BitVec.setWidth_eq, BitVec.add_comm, BitVec.sub_add_cancel]

theorem count_of_nwrite {n : Nat} (hn : n < 2 ^ w) (h : r.nwrite = r.nread + BitVec.ofNat w n) : r.count = n := by
  rw [count, h, BitVec.add_comm, BitVec.add_sub_cancel, BitVec.toNat_ofNat]
  exact Nat.mod_eq_of_lt hn

theorem count_lt : r.count < 2 ^ w := BitVec.isLt _

theorem empty_iff : r.Empty ↔ r.count = 0 := by
  constructor
  · intro h
    simp [count, show r.nread = r.nwrite from h]
  · intro h
    have hw := nwrite_eq r
    rw [h] at hw
    simpa [Empty] using hw.symm

theorem full_iff (hcap : cap < 2 ^ w) : r.Full ↔ r.count = cap := by
  constructor
  · intro h
    exact count_of_nwrite hcap h
  · intro h
    rw [Full, nwrite_eq r, h]

theorem ofNat_succ (n : Nat) : BitVec.ofNat w n + 1 = BitVec.ofNat w (n + 1) := by
  rw [BitVec.ofNat_add]
  rfl

theorem count_pop (h : r.count ≠ 0) : r.pop.count = r.count - 1 := by
  obtain ⟨n, hn⟩ := Nat.exists_eq_succ_of_ne_zero h
  have hlt : r.count < 2 ^ w := count_lt
  have hw := nwrite_eq r
  rw [hn] at hw hlt ⊢
  apply count_of_nwrite (by omega)
  show r.nwrite = r.nread + 1 + BitVec.ofNat w n
  rw [hw, BitVec.add_assoc, BitVec.add_comm 1, ofNat_succ]

variable [NeZero cap] {x : α} {k : Nat}

theorem count_push (h : r.count + 1 < 2 ^ w) : (r.push x).count = r.count + 1 := by
  apply count_of_nwrite h
  show r.nwrite + 1 = r.nread + BitVec.ofNat w (r.count + 1)
  rw [← ofNat_succ, ← BitVec.add_assoc, ← nwrite_eq]

theorem slot_add (hdvd : cap ∣ 2 ^ w) (i : BitVec w) (k : Nat) :
    (slot (i + BitVec.ofNat w k) : Fin cap).val = (i.toNat + k) % cap := by
  rw [slot, Fin.val_ofNat, BitVec.toNat_add, BitVec.toNat_ofNat, Nat.add_mod_mod, Nat.mod_mod_of_dvd _ hdvd]

theorem nth_push_of_lt (hdvd : cap ∣ 2 ^ w) (hk : k < r.count) (hc : r.count < cap) : (r.push x).nth k = r.nth k := by
  have hne : (slot (r.nread + BitVec.ofNat w k) : Fin cap) ≠ slot r.nwrite := by
    intro h
    have hv := congrArg Fin.val h
    rw [nwrite_eq r, slot_add hdvd, slot_add hdvd] at hv
    have heq := Nat.ModEq.add_left_cancel' r.nread.toNat hv
    have hkc : k = r.count := Nat.ModEq.eq_of_lt_of_lt heq (hk.trans hc) hc
    omega
  exact update_of_ne hne ..

theorem nth_push_count : (r.push x).nth r.count = x := by
  have hs : r.nread + BitVec.ofNat w r.count = r.nwrite := (nwrite_eq r).symm
  show (update r.data (slot r.nwrite) x) (slot (r.nread + BitVec.ofNat w r.count)) = x
  rw [hs, update_self]

theorem nth_pop (r : RingBuffer α w cap) (k : Nat) : r.pop.nth k = r.nth (k + 1) := by
  have hs : r.nread + 1 + BitVec.ofNat w k = r.nread + BitVec.ofNat w (k + 1) := by
    rw [BitVec.add_assoc, BitVec.add_comm 1, ofNat_succ]
  show r.data (slot (r.nread + 1 + BitVec.ofNat w k)) = _
  rw [hs, nth]

theorem nth_zero : r.nth 0 = r.head := by
  show r.data (slot (r.nread + BitVec.ofNat w 0)) = r.data (slot r.nread)
  simp

theorem contents_push (hdvd : cap ∣ 2 ^ w) (hcap : cap < 2 ^ w) (hc : r.count < cap) :
    (r.push x).contents = r.contents ++ [x] := by
  have hcount : (r.push x).count = r.count + 1 := count_push (by omega)
  rw [contents, hcount, range_succ, map_append, map_singleton, nth_push_count, contents]
  congr 1
  apply map_congr_left
  intro k hk
  exact nth_push_of_lt hdvd (mem_range.mp hk) hc

theorem contents_pop (h : r.count ≠ 0) : r.contents = r.head :: r.pop.contents := by
  obtain ⟨n, hn⟩ := Nat.exists_eq_succ_of_ne_zero h
  have hcount : r.pop.count = n := by rw [count_pop h, hn]; rfl
  rw [contents, contents, hcount, hn, range_succ_eq_map, map_cons, nth_zero, map_map]
  congr 1
  apply map_congr_left
  intro k _
  exact (nth_pop r k).symm

theorem contents_length : r.contents.length = r.count := by simp [contents]

theorem contents_take (d : Fin cap → α) {i j k : BitVec w} (h : (j - i).toNat ≤ (k - i).toNat) :
    contents ⟨d, i, j⟩ = (contents ⟨d, i, k⟩).take (j - i).toNat := by
  simp only [contents, count, ← map_take, take_range, Nat.min_eq_left h]
  rfl

theorem count_split {i j k : BitVec w} (h : (j - i).toNat ≤ (k - i).toNat) :
    (k - j).toNat = (k - i).toNat - (j - i).toNat := by
  have he : k - j = (k - i) - (j - i) := by grind
  rw [he, BitVec.toNat_sub_of_le h]

theorem contents_append (d : Fin cap → α) {i j k : BitVec w} (h : (j - i).toNat ≤ (k - i).toNat) :
    contents ⟨d, i, k⟩ = contents ⟨d, i, j⟩ ++ contents ⟨d, j, k⟩ := by
  have hsum : (k - i).toNat = (j - i).toNat + (k - j).toNat := by
    rw [count_split h]
    omega
  have hnth : ∀ n, nth ⟨d, i, k⟩ ((j - i).toNat + n) = nth ⟨d, j, k⟩ n := by
    intro n
    have hj : i + BitVec.ofNat w ((j - i).toNat + n) = j + BitVec.ofNat w n := by
      rw [BitVec.ofNat_add, BitVec.ofNat_toNat, BitVec.setWidth_eq, ← BitVec.add_assoc, BitVec.add_comm i,
        BitVec.sub_add_cancel]
    show d (slot (i + BitVec.ofNat w ((j - i).toNat + n))) = d (slot (j + BitVec.ofNat w n))
    rw [hj]
  show (List.range (k - i).toNat).map _ = (List.range (j - i).toNat).map _ ++ (List.range (k - j).toNat).map _
  rw [hsum, range_add, map_append, map_map]
  congr 1
  exact map_congr_left fun n _ => hnth n

end RingBuffer
