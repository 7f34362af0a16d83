import Mathlib

abbrev BSIZE : Nat := 1024

-- The contents of one disk block, as the data field of a buffer holds them.
def Block := Fin BSIZE → UInt8

namespace Block

instance : Inhabited Block := ⟨fun _ => 0⟩

def zero : Block := fun _ => 0

def get (b : Block) (i : Nat) : UInt8 := if h : i < BSIZE then b ⟨i, h⟩ else 0

def write (b : Block) (off : Nat) (bytes : List UInt8) : Block := fun j =>
  if off ≤ j.val ∧ j.val < off + bytes.length then bytes.getD (j.val - off) 0 else b j

def read (b : Block) (off n : Nat) : List UInt8 := (List.range n).map fun i => b.get (off + i)

@[simp] theorem get_zero (i : Nat) : zero.get i = 0 := by
  unfold get zero
  split <;> rfl

section

variable (b : Block) (off : Nat) (bytes : List UInt8) (i : Nat)

theorem get_write (hi : i < BSIZE) : (b.write off bytes).get i =
      if off ≤ i ∧ i < off + bytes.length then bytes.getD (i - off) 0 else b.get i := by
  simp [get, write, hi]

theorem get_write_of_lt (hi : i < off) : (b.write off bytes).get i = b.get i := by
  unfold get write
  split
  · rw [if_neg (by simp only; omega)]
  · rfl

theorem get_write_of_ge (hi : off + bytes.length ≤ i) : (b.write off bytes).get i = b.get i := by
  unfold get write
  split
  · rw [if_neg (by simp only; omega)]
  · rfl

end

@[simp] theorem length_read (b : Block) (off n : Nat) : (b.read off n).length = n := by
  simp [read]

-- Little-endian words.

def byteOf (v r : Nat) : UInt8 := UInt8.ofNat (v / 256 ^ r)

def get16 (b : Block) (o : Nat) : UInt16 :=
  UInt16.ofNat ((b.get o).toNat + 256 * (b.get (o + 1)).toNat)

def get32 (b : Block) (o : Nat) : UInt32 :=
  UInt32.ofNat ((b.get o).toNat + 256 * (b.get (o + 1)).toNat +
    65536 * (b.get (o + 2)).toNat + 16777216 * (b.get (o + 3)).toNat)

def le32 (v : UInt32) : List UInt8 :=
  [byteOf v.toNat 0, byteOf v.toNat 1, byteOf v.toNat 2, byteOf v.toNat 3]

@[simp] theorem length_le32 (v : UInt32) : (le32 v).length = 4 := rfl

@[simp] theorem toNat_byteOf (v r : Nat) : (byteOf v r).toNat = v / 256 ^ r % 256 := by
  simp [byteOf]

theorem get16_of_bytes (b : Block) (o : Nat) (v : UInt16) (h0 : b.get o = byteOf v.toNat 0)
    (h1 : b.get (o + 1) = byteOf v.toNat 1) : b.get16 o = v := by
  have hv := v.toNat_lt
  apply UInt16.toNat.inj
  simp only [get16, h0, h1, toNat_byteOf, UInt16.toNat_ofNat']
  omega

theorem get32_of_bytes (b : Block) (o : Nat) (v : UInt32) (h0 : b.get o = byteOf v.toNat 0)
    (h1 : b.get (o + 1) = byteOf v.toNat 1) (h2 : b.get (o + 2) = byteOf v.toNat 2)
    (h3 : b.get (o + 3) = byteOf v.toNat 3) : b.get32 o = v := by
  have hv := v.toNat_lt
  apply UInt32.toNat.inj
  simp only [get32, h0, h1, h2, h3, toNat_byteOf, UInt32.toNat_ofNat']
  omega

-- A block read as an array of 32-bit words, such as an indirect block or the log header.
def word (b : Block) (i : Nat) : UInt32 := b.get32 (4 * i)

def setWord (b : Block) (i : Nat) (v : UInt32) : Block := b.write (4 * i) (le32 v)

@[simp] theorem word_zero (i : Nat) : zero.word i = 0 := by
  simp [word, get32]

theorem word_setWord_self (b : Block) (i : Nat) (v : UInt32) (hi : 4 * i + 3 < BSIZE) : (b.setWord i v).word i = v := by
  apply get32_of_bytes <;> unfold setWord <;> rw [get_write _ _ _ _ (by omega)] <;>
    rw [if_pos (by simp)] <;> simp [le32]

theorem word_setWord_ne (b : Block) (i j : Nat) (v : UInt32) (hij : i ≠ j) : (b.setWord i v).word j = b.word j := by
  have h : ∀ r < 4, (b.setWord i v).get (4 * j + r) = b.get (4 * j + r) := by
    intro r hr
    rcases Nat.lt_or_gt_of_ne hij with hlt | hgt
    · exact get_write_of_ge _ _ _ _ (by simp only [length_le32]; omega)
    · exact get_write_of_lt _ _ _ _ (by omega)
  unfold word get32
  rw [h 1 (by omega), h 2 (by omega), h 3 (by omega), show 4 * j = 4 * j + 0 from rfl, h 0 (by omega)]

-- A block read as an array of bits, such as a block of the free map.

def mask (i : Nat) : UInt8 := 1 <<< UInt8.ofNat (i % 8)

def bit (b : Block) (i : Nat) : Bool := b.get (i / 8) &&& mask i != 0

def setBit (b : Block) (i : Nat) : Block := b.write (i / 8) [b.get (i / 8) ||| mask i]

def clearBit (b : Block) (i : Nat) : Block := b.write (i / 8) [b.get (i / 8) &&& ~~~mask i]

theorem mask_toBitVec (i : Nat) : (mask i).toBitVec = BitVec.twoPow 8 (i % 8) := by
  have h : ∀ r : Fin 8, (1 <<< UInt8.ofNat r.val : UInt8).toBitVec = BitVec.twoPow 8 r.val := by decide
  exact h ⟨i % 8, Nat.mod_lt _ (by omega)⟩

theorem bit_eq_getLsbD (b : Block) (i : Nat) : b.bit i = (b.get (i / 8)).toBitVec.getLsbD (i % 8) := by
  have hz : (b.get (i / 8) &&& mask i = 0) ↔ (b.get (i / 8)).toBitVec &&& BitVec.twoPow 8 (i % 8) = 0#8 := by
    rw [← UInt8.toBitVec_inj, UInt8.toBitVec_and, mask_toBitVec]
    rfl
  have hp : BitVec.twoPow 8 (i % 8) ≠ 0#8 := by
    have h : ∀ r : Fin 8, BitVec.twoPow 8 r.val ≠ 0#8 := by decide
    exact h ⟨i % 8, Nat.mod_lt _ (by omega)⟩
  rw [BitVec.and_twoPow] at hz
  unfold bit
  cases ht : (b.get (i / 8)).toBitVec.getLsbD (i % 8) with
  | false => simpa [ht] using hz
  | true => simpa [ht, hp] using hz

theorem bit_write_ne (b : Block) (o : Nat) (v : UInt8) (j : Nat) (h : o ≠ j / 8) : (b.write o [v]).bit j = b.bit j := by
  unfold bit
  rcases Nat.lt_or_gt_of_ne h with hlt | hgt
  · rw [get_write_of_ge _ _ _ _ (by simp only [List.length_singleton]; omega)]
  · rw [get_write_of_lt _ _ _ _ hgt]

theorem get_write_self (b : Block) (o : Nat) (v : UInt8) (ho : o < BSIZE) : (b.write o [v]).get o = v := by
  rw [get_write _ _ _ _ ho]
  simp

theorem bit_setBit (b : Block) (i j : Nat) (hi : i / 8 < BSIZE) : (b.setBit i).bit j = (b.bit j || decide (i = j)) := by
  by_cases h : i / 8 = j / 8
  · rw [bit_eq_getLsbD, bit_eq_getLsbD, setBit, h, get_write_self _ _ _ (h ▸ hi), UInt8.toBitVec_or,
      mask_toBitVec, BitVec.getLsbD_or, BitVec.getLsbD_twoPow]
    have he : (i % 8 = j % 8) ↔ i = j := by omega
    have h8 : i % 8 < 8 := Nat.mod_lt _ (by omega)
    simp [he, h8]
  · rw [setBit, bit_write_ne _ _ _ _ h]
    have he : i ≠ j := by rintro rfl; exact h rfl
    simp [he]

theorem bit_clearBit (b : Block) (i j : Nat) (hi : i / 8 < BSIZE) :
    (b.clearBit i).bit j = (b.bit j && decide (i ≠ j)) := by
  by_cases h : i / 8 = j / 8
  · rw [bit_eq_getLsbD, bit_eq_getLsbD, clearBit, h, get_write_self _ _ _ (h ▸ hi), UInt8.toBitVec_and,
      UInt8.toBitVec_not, mask_toBitVec, BitVec.getLsbD_and, BitVec.getLsbD_not, BitVec.getLsbD_twoPow]
    have he : (i % 8 = j % 8) ↔ i = j := by omega
    have h8 : j % 8 < 8 := Nat.mod_lt _ (by omega)
    have h8' : i % 8 < 8 := Nat.mod_lt _ (by omega)
    simp [he, h8, h8']
  · rw [clearBit, bit_write_ne _ _ _ _ h]
    have he : i ≠ j := by rintro rfl; exact h rfl
    simp [he]

end Block
