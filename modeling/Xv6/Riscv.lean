import Mathlib

-- riscv.h and memlayout.h: pages, page-table entries and the user's addresses.

namespace Vm

abbrev PGSIZE : Nat := 4096

def Page := Fin PGSIZE → UInt8

-- The little-endian number in the `n` bytes from offset `o` on.
def leNat (f : Nat → UInt8) (o : Nat) : Nat → Nat
  | 0 => 0
  | n + 1 => (f o).toNat + 256 * leNat f (o + 1) n

theorem leNat_congr {f g : Nat → UInt8} {o n : Nat} (h : ∀ k < n, f (o + k) = g (o + k)) :
    leNat f o n = leNat g o n := by
  induction n generalizing o with
  | zero => rfl
  | succ n ih =>
    have h0 : f o = g o := h 0 (by omega)
    have hr : leNat f (o + 1) n = leNat g (o + 1) n := ih fun k hk => by
      have hk' := h (k + 1) (by omega)
      rwa [show o + (k + 1) = o + 1 + k by omega] at hk'
    rw [leNat, leNat, h0, hr]

theorem leNat_of_bytes {f : Nat → UInt8} {o n w : Nat}
    (h : ∀ k < n, f (o + k) = UInt8.ofNat (w / 256 ^ k)) : leNat f o n = w % 256 ^ n := by
  induction n generalizing o w with
  | zero => simp [leNat, Nat.mod_one]
  | succ n ih =>
    have h0 : (f o).toNat = w % 256 := by
      have h0 := h 0 (by omega)
      rw [Nat.add_zero, Nat.pow_zero, Nat.div_one] at h0
      rw [h0]
      exact UInt8.toNat_ofNat'
    have hr : leNat f (o + 1) n = w / 256 % 256 ^ n := ih fun k hk => by
      have hk' := h (k + 1) (by omega)
      rwa [show o + (k + 1) = o + 1 + k by omega, Nat.pow_succ', ← Nat.div_div_eq_div_mul] at hk'
    rw [leNat, h0, hr, Nat.pow_succ', Nat.mod_mul]

namespace Page

def get (pg : Page) (i : Nat) : UInt8 := if h : i < PGSIZE then pg ⟨i, h⟩ else 0

def fill (c : UInt8) : Page := fun _ => c

def write (pg : Page) (off : Nat) (bytes : List UInt8) : Page := fun o =>
  if off ≤ o.val ∧ o.val < off + bytes.length then bytes.getD (o.val - off) 0 else pg o

def read (pg : Page) (off n : Nat) : List UInt8 := (List.range n).map fun i => pg.get (off + i)

-- A page as an array of 64-bit words, such as a page table or a trapframe.
def word (pg : Page) (i : Nat) : Nat := leNat pg.get (8 * i) 8

def setWord (pg : Page) (i w : Nat) : Page := fun o =>
  if o.val / 8 = i then UInt8.ofNat (w / 256 ^ (o.val % 8)) else pg o

@[simp] theorem word_zero (i : Nat) : (fill 0).word i = 0 := by
  have h : ∀ k < 8, (fill 0).get (8 * i + k) = UInt8.ofNat (0 / 256 ^ k) := by
    intro k _
    unfold get fill
    split <;> simp
  rw [word, leNat_of_bytes h]
  rfl

theorem get_setWord (pg : Page) (i w : Nat) {o : Nat} (ho : o < PGSIZE) :
    (pg.setWord i w).get o = if o / 8 = i then UInt8.ofNat (w / 256 ^ (o % 8)) else pg.get o := by
  simp [get, setWord, ho]

theorem word_setWord_self (pg : Page) {i w : Nat} (hi : i < 512) (hw : w < 2 ^ 64) : (pg.setWord i w).word i = w := by
  have h : ∀ k < 8, (pg.setWord i w).get (8 * i + k) = UInt8.ofNat (w / 256 ^ k) := by
    intro k hk
    have ho : 8 * i + k < PGSIZE := by
      unfold PGSIZE
      omega
    rw [get_setWord pg i w ho, if_pos (by omega), show (8 * i + k) % 8 = k by omega]
  rw [word, leNat_of_bytes h]
  exact Nat.mod_eq_of_lt hw

theorem word_setWord_of_ne (pg : Page) {i j : Nat} (w : Nat) (h : j ≠ i) : (pg.setWord i w).word j = pg.word j := by
  refine leNat_congr fun k hk => ?_
  by_cases ho : 8 * j + k < PGSIZE
  · rw [get_setWord pg i w ho, if_neg (by omega)]
  · simp [get, ho]

end Page

def PGROUNDUP (sz : Nat) : Nat := (sz + PGSIZE - 1) % 2 ^ 64 / PGSIZE * PGSIZE
def PGROUNDDOWN (a : Nat) : Nat := a / PGSIZE * PGSIZE

abbrev PTE_V : Nat := 1
abbrev PTE_R : Nat := 2
abbrev PTE_W : Nat := 4
abbrev PTE_X : Nat := 8
abbrev PTE_U : Nat := 16

def PA2PTE (pa : Nat) : Nat := pa / 2 ^ 12 * 2 ^ 10
def PTE2PA (pte : Nat) : Nat := pte / 2 ^ 10 * 2 ^ 12 % 2 ^ 64
def PTE_FLAGS (pte : Nat) : Nat := pte &&& 0x3FF

def PX (level va : Nat) : Nat := va / 2 ^ (12 + 9 * level) % 512

abbrev MAXVA : Nat := 2 ^ 38
abbrev TRAMPOLINE : Nat := MAXVA - PGSIZE
abbrev TRAPFRAME : Nat := TRAMPOLINE - PGSIZE

section Pte

variable {pa f : Nat}

section

variable (hf : f < 2 ^ 10)

include hf

theorem pa2pte_or : PA2PTE pa ||| f = 2 ^ 10 * (pa / 2 ^ 12) + f := by
  rw [PA2PTE, Nat.mul_comm, Nat.two_pow_add_eq_or_of_lt hf]

theorem PTE2PA_or (hpa : pa % PGSIZE = 0 ∧ pa < 2 ^ 64) : PTE2PA (PA2PTE pa ||| f) = pa := by
  unfold PGSIZE at hpa
  rw [pa2pte_or hf, PTE2PA]
  omega

theorem pa2pte_or_lt (hpa : pa < 2 ^ 64) : PA2PTE pa ||| f < 2 ^ 64 := by
  rw [pa2pte_or hf]
  omega

theorem pa2pte_or_and {mask : Nat} (hm : mask < 2 ^ 10) :
    (PA2PTE pa ||| f) &&& mask = f &&& mask := by
  apply Nat.eq_of_testBit_eq
  intro i
  rw [pa2pte_or hf, Nat.testBit_and, Nat.testBit_and, Nat.testBit_two_pow_mul_add _ hf]
  by_cases hi : i < 10
  · rw [if_pos hi]
  · have hz : mask.testBit i = false := Nat.testBit_lt_two_pow (lt_of_lt_of_le hm (Nat.pow_le_pow_right (by omega) (by omega)))
    rw [hz, Bool.and_false, Bool.and_false]

theorem PTE_FLAGS_or : PTE_FLAGS (PA2PTE pa ||| f) = f := by
  rw [PTE_FLAGS, pa2pte_or_and hf (by omega), show 0x3FF = 2 ^ 10 - 1 from rfl, Nat.and_two_pow_sub_one_eq_mod]
  exact Nat.mod_eq_of_lt hf

end

end Pte

theorem PX_eq (level va : Nat) : PX level va = va / PGSIZE / 512 ^ level % 512 := by
  rw [PX, Nat.pow_add, Nat.pow_mul, Nat.div_div_eq_div_mul]

theorem PX_lt (level va : Nat) : PX level va < 512 := Nat.mod_lt _ (by omega)

theorem PGROUNDUP_eq {sz : Nat} (h : sz < 2 ^ 63) : PGROUNDUP sz = (sz + (PGSIZE - 1)) / PGSIZE * PGSIZE := by
  unfold PGROUNDUP PGSIZE
  rw [Nat.mod_eq_of_lt (by omega)]
  rfl

end Vm
