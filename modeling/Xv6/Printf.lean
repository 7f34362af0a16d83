import Mathlib

-- kernel/printf.c and user/printf.c. A number goes through a buffer of 16 characters; without room
-- there is no result. Negation wraps, as the neg instruction does.

namespace Printf

open List Function

def chr (c : Char) : UInt8 := UInt8.ofNat c.toNat

def lower : List UInt8 := ['0', '1', '2', '3', '4', '5', '6', '7', '8', '9', 'a', 'b', 'c', 'd', 'e', 'f'].map chr

def upper : List UInt8 := ['0', '1', '2', '3', '4', '5', '6', '7', '8', '9', 'A', 'B', 'C', 'D', 'E', 'F'].map chr

-- The digits as the loop of printint stores them, the last one first.
def fill (digits : List UInt8) (base : Nat) : Nat → Nat → List UInt8
  | 0, _ => []
  | n + 1, x => digits.getD (x % base) 0 :: if x / base = 0 then [] else fill digits base n (x / base)

def printBuf (digits : List UInt8) (base : Nat) (neg : Bool) (x : Nat) : Option (List UInt8) :=
  let buf := fill digits base 64 x ++ if neg then [chr '-'] else []
  if buf.length ≤ 16 then some buf.reverse else none

def printlong (xx : Int64) (base : Nat) (sign : Bool) : Option (List UInt8) :=
  let neg := sign && decide (xx < 0)
  printBuf lower base neg (if neg then -xx else xx).toUInt64.toNat

def printint (xx : Int32) (base : Nat) (sgn : Bool) : Option (List UInt8) :=
  let neg := sgn && decide (xx < 0)
  printBuf upper base neg (if neg then -xx else xx).toUInt32.toNat

-- The digits of printptr, the first one first.
def ptrDigits (digits : List UInt8) : Nat → UInt64 → List UInt8
  | 0, _ => []
  | n + 1, x => digits.getD (x >>> 60).toNat 0 :: ptrDigits digits n (x <<< 4)

def printptr (digits : List UInt8) (x : UInt64) : List UInt8 := chr '0' :: chr 'x' :: ptrDigits digits 16 x

-- An argument takes one word. A string is a pointer to its characters.
inductive Arg where
  | word (v : UInt64)
  | str (s : Option (List UInt8))
deriving DecidableEq

-- What a printf does with an int, with a uint64 and with a pointer.
structure Printers where
  int : UInt64 → Nat → Bool → Option (List UInt8)
  long : UInt64 → Nat → Bool → Option (List UInt8)
  ptr : UInt64 → List UInt8

def kernel : Printers where
  int v := printlong v.toUInt32.toInt32.toInt64
  long v := printlong v.toInt64
  ptr := printptr lower

def user : Printers where
  int v := printint v.toUInt32.toInt32
  long v := printint v.toUInt32.toInt32
  ptr := printptr upper

def number (print : UInt64 → Nat → Bool → Option (List UInt8)) (base : Nat) (sign : Bool) (skip : Nat) :
    List Arg → Option (List UInt8 × List Arg × Nat)
  | .word v :: args => (print v base sign).map (·, args, skip)
  | _ => none

def null : List UInt8 := ['(', 'n', 'u', 'l', 'l', ')'].map chr

-- What is printed for the characters after a %, the arguments left, and the characters used beyond
-- the first.
def convert (pr : Printers) (c0 c1 c2 : UInt8) (args : List Arg) : Option (List UInt8 × List Arg × Nat) :=
  if c0 = chr 'd' then number pr.int 10 true 0 args
  else if c0 = chr 'l' ∧ c1 = chr 'd' then number pr.long 10 true 1 args
  else if c0 = chr 'l' ∧ c1 = chr 'l' ∧ c2 = chr 'd' then number pr.long 10 true 2 args
  else if c0 = chr 'u' then number pr.int 10 false 0 args
  else if c0 = chr 'l' ∧ c1 = chr 'u' then number pr.long 10 false 1 args
  else if c0 = chr 'l' ∧ c1 = chr 'l' ∧ c2 = chr 'u' then number pr.long 10 false 2 args
  else if c0 = chr 'x' then number pr.int 16 false 0 args
  else if c0 = chr 'l' ∧ c1 = chr 'x' then number pr.long 16 false 1 args
  else if c0 = chr 'l' ∧ c1 = chr 'l' ∧ c2 = chr 'x' then number pr.long 16 false 2 args
  else if c0 = chr 'p' then
    match args with
    | .word v :: args => some (pr.ptr v, args, 0)
    | _ => none
  else if c0 = chr 's' then
    match args with
    | .str s :: args => some ((s.getD null).takeWhile (· ≠ 0), args, 0)
    | _ => none
  else if c0 = chr '%' then some ([chr '%'], args, 0)
  else some ([chr '%', c0], args, 0)

def after (fmt : List UInt8) : UInt8 × UInt8 :=
  let c1 := if fmt.headD 0 = 0 then 0 else fmt.getD 1 0
  (c1, if c1 = 0 then 0 else fmt.getD 2 0)

-- kernel/printf.c, printf: what is printed and the arguments that are left.
def printf : Nat → List UInt8 → List Arg → Option (List UInt8 × List Arg)
  | 0, _, _ => none
  | n + 1, fmt, args =>
    let cx := fmt.headD 0
    if cx = 0 then some ([], args)
    else if cx ≠ chr '%' then do
      let (out, args) ← printf n fmt.tail args
      some (cx :: out, args)
    else
      let fmt := fmt.tail
      let c0 := fmt.headD 0
      if c0 = 0 then some ([], args)
      else do
        let (out, args, skip) ← convert kernel c0 (after fmt).1 (after fmt).2 args
        let (more, args) ← printf n (fmt.drop (skip + 1)) args
        some (out ++ more, args)

-- user/printf.c, vprintf. The state is true after a %.
def vprintf : Nat → Bool → List UInt8 → List Arg → Option (List UInt8 × List Arg)
  | 0, _, _, _ => none
  | n + 1, state, fmt, args =>
    let c0 := fmt.headD 0
    if c0 = 0 then some ([], args)
    else if state = false then
      if c0 = chr '%' then vprintf n true fmt.tail args
      else do
        let (out, args) ← vprintf n false fmt.tail args
        some (c0 :: out, args)
    else do
      let (out, args, skip) ← convert user c0 (after fmt).1 (after fmt).2 args
      let (more, args) ← vprintf n false (fmt.drop (skip + 1)) args
      some (out ++ more, args)

inductive Size where
  | int
  | long
  | longlong

inductive Kind where
  | d
  | u
  | x

-- A part of a format, with the argument that belongs to it.
inductive Piece where
  | text (t : List UInt8)
  | num (size : Size) (kind : Kind) (v : UInt64)
  | ptr (v : UInt64)
  | str (s : Option (List UInt8))
  | percent

def Size.chars : Size → List UInt8
  | .int => []
  | .long => [chr 'l']
  | .longlong => [chr 'l', chr 'l']

def Kind.char : Kind → UInt8
  | .d => chr 'd'
  | .u => chr 'u'
  | .x => chr 'x'

def Kind.base : Kind → Nat
  | .x => 16
  | _ => 10

def Piece.fmt : Piece → List UInt8
  | .text t => t
  | .num size kind _ => chr '%' :: (size.chars ++ [kind.char])
  | .ptr _ => [chr '%', chr 'p']
  | .str _ => [chr '%', chr 's']
  | .percent => [chr '%', chr '%']

def Piece.args : Piece → List Arg
  | .num _ _ v => [.word v]
  | .ptr v => [.word v]
  | .str s => [.str s]
  | _ => []

-- Plain text has no % and no end.
def Piece.Plain : Piece → Prop
  | .text t => chr '%' ∉ t ∧ 0 ∉ t
  | _ => True

-- The argument at the width and with the sign of the conversion.
def value : Size → Kind → UInt64 → Int
  | .int, .d, v => v.toUInt32.toInt32.toInt
  | .int, _, v => v.toUInt32.toNat
  | _, .d, v => v.toInt64.toInt
  | _, _, v => v.toNat

-- The usual representation of a number, with lower-case or upper-case digits.
def rep (cap : Char → Char) (base : Nat) (z : Int) : List UInt8 :=
  (if z < 0 then [chr '-'] else []) ++ (Nat.toDigits base z.natAbs).map fun c => chr (cap c)

-- What should be printed for a piece: for a pointer, its 16 hexadecimal digits.
def Piece.usual (cap : Char → Char) : Piece → List UInt8
  | .text t => t
  | .num size kind v => rep cap kind.base (value size kind v)
  | .ptr v => chr '0' :: chr 'x' :: (List.range 16).map fun i => chr (cap (Nat.digitChar (v.toNat / 16 ^ (15 - i) % 16)))
  | .str s => (s.getD null).takeWhile (· ≠ 0)
  | .percent => [chr '%']

structure Table (digits : List UInt8) (cap : Char → Char) : Prop where
  get : ∀ d < 16, digits.getD d 0 = chr (cap (Nat.digitChar d))
  inj : ∀ d < 16, ∀ e < 16, digits.getD d 0 = digits.getD e 0 → d = e
  sign : ∀ d < 16, digits.getD d 0 ≠ chr '-'

theorem table_lower : Table lower id := ⟨by decide, by decide, by decide⟩

theorem table_upper : Table upper Char.toUpper := ⟨by decide, by decide, by decide⟩

theorem Kind.base_bounds (kind : Kind) : 1 < kind.base ∧ kind.base ≤ 16 := by cases kind <;> decide

variable {digits : List UInt8} {cap : Char → Char} {base : Nat} {shown : Size → Kind → UInt64 → Int}
  {out : List UInt8} {z z' : Int} {neg : Bool}

theorem fill_eq (ht : Table digits cap) (hb : 1 < base ∧ base ≤ 16) {n x : Nat}
    (hx : x < base ^ (n + 1)) :
    (fill digits base (n + 1) x).reverse = (Nat.toDigits base x).map fun c => chr (cap c) := by
  induction n generalizing x with
  | zero =>
    rw [Nat.zero_add, Nat.pow_one] at hx
    rw [fill, if_pos (Nat.div_eq_of_lt hx), Nat.mod_eq_of_lt hx, ht.get x (by omega), Nat.toDigits_of_lt_base hx]
    rfl
  | succ n ih =>
    have hmod : x % base < base := Nat.mod_lt x (by omega)
    rw [fill, Nat.toDigits_eq_if hb.1, ht.get _ (by omega)]
    by_cases hlt : x < base
    · rw [if_pos (Nat.div_eq_of_lt hlt), if_pos hlt, Nat.mod_eq_of_lt hlt]
      rfl
    have hdiv : x / base ≠ 0 := by
      rw [Ne, Nat.div_eq_zero_iff]
      omega
    have hsmall : x / base < base ^ (n + 1) := Nat.div_lt_of_lt_mul (by rwa [Nat.mul_comm, ← Nat.pow_succ])
    rw [if_neg hdiv, if_neg hlt, reverse_cons, ih hsmall, map_append]
    rfl

theorem digits_snoc (hb : 1 < base) (x : Nat) :
    Nat.toDigits base x = (if x < base then [] else Nat.toDigits base (x / base)) ++ [Nat.digitChar (x % base)] := by
  rw [Nat.toDigits_eq_if hb]
  split
  · next hlt => rw [Nat.mod_eq_of_lt hlt, nil_append]
  · rfl

theorem digits_inj (ht : Table digits cap) (hb : 1 < base ∧ base ≤ 16) {x y : Nat}
    (h : (Nat.toDigits base x).map (fun c => chr (cap c)) = (Nat.toDigits base y).map fun c => chr (cap c)) : x = y := by
  induction x using Nat.strongRecOn generalizing y with
  | ind x ih =>
    have hmx : x % base < base := Nat.mod_lt x (by omega)
    have hmy : y % base < base := Nat.mod_lt y (by omega)
    rw [digits_snoc hb.1 x, digits_snoc hb.1 y, map_append, map_append] at h
    obtain ⟨hrest, hlast⟩ := append_inj' h rfl
    have hmod : x % base = y % base := by
      apply ht.inj _ (by omega) _ (by omega)
      rw [ht.get _ (by omega), ht.get _ (by omega)]
      exact List.cons.inj hlast |>.1
    have hdiv : x / base = y / base := by
      by_cases hx : x < base <;> by_cases hy : y < base
      · rw [Nat.div_eq_of_lt hx, Nat.div_eq_of_lt hy]
      · simp [hx, hy] at hrest
      · simp [hx, hy] at hrest
      · rw [if_neg hx, if_neg hy] at hrest
        exact ih (x / base) (Nat.div_lt_self (by omega) hb.1) hrest
    rw [← Nat.div_add_mod x base, ← Nat.div_add_mod y base, hmod, hdiv]

theorem digit_ne_sign (ht : Table digits cap) (hb : 1 < base ∧ base ≤ 16) (x : Nat) :
    chr '-' ∉ (Nat.toDigits base x).map fun c => chr (cap c) := by
  induction x using Nat.strongRecOn with
  | ind x ih =>
    have hmod : x % base < base := Nat.mod_lt x (by omega)
    have hlast := ht.sign (x % base) (by omega)
    rw [ht.get _ (by omega)] at hlast
    rw [digits_snoc hb.1, map_append, mem_append, not_or]
    refine ⟨?_, by simpa using hlast.symm⟩
    split
    · exact not_mem_nil
    · exact ih (x / base) (Nat.div_lt_self (by omega) hb.1)

theorem length_digits_mono (hb : 1 < base) {x y : Nat} (h : x ≤ y) :
    (Nat.toDigits base x).length ≤ (Nat.toDigits base y).length := by
  have hpos : 0 < (Nat.toDigits base y).length := Nat.length_toDigits_pos
  exact (Nat.length_toDigits_le_iff hb hpos).mpr (Nat.lt_of_le_of_lt h ((Nat.length_toDigits_le_iff hb hpos).mp (Nat.le_refl _)))

def count (l : List UInt8) : Nat := l.countP (· ≠ chr '-')

section

variable (ht : Table digits cap) (hb : 1 < base ∧ base ≤ 16)

include ht hb

theorem count_rep (z : Int) : count (rep cap base z) = (Nat.toDigits base z.natAbs).length := by
  have hall : ∀ c ∈ (Nat.toDigits base z.natAbs).map (fun c => chr (cap c)), decide (c ≠ chr '-') = true :=
    fun c hc => decide_eq_true fun h => digit_ne_sign ht hb _ (h ▸ hc)
  rw [count, rep, countP_append, countP_eq_length.mpr hall, length_map]
  split <;> simp

theorem rep_eq_of_append {a b : List UInt8} (hc : count (rep cap base z) = count (rep cap base z'))
    (h : rep cap base z ++ a = rep cap base z' ++ b) : z = z' := by
  rw [count_rep ht hb, count_rep ht hb] at hc
  have hne : ∀ x : Nat, ∃ c l, (Nat.toDigits base x).map (fun c => chr (cap c)) = c :: l ∧ c ≠ chr '-' := by
    intro x
    have hsign := digit_ne_sign ht hb x
    cases hl : (Nat.toDigits base x).map (fun c => chr (cap c)) with
    | nil => exact absurd (map_eq_nil_iff.mp hl) Nat.toDigits_ne_nil
    | cons c l => exact ⟨c, l, rfl, fun h => hsign (by rw [hl, h]; exact mem_cons_self)⟩
  have hsame : ∀ p : List UInt8, p ++ (Nat.toDigits base z.natAbs).map (fun c => chr (cap c)) ++ a =
      p ++ (Nat.toDigits base z'.natAbs).map (fun c => chr (cap c)) ++ b → z.natAbs = z'.natAbs := by
    intro p hp
    have := append_inj_left hp (by simp only [length_append, length_map, hc])
    exact digits_inj ht hb (append_cancel_left this)
  unfold rep at h
  by_cases hz : z < 0 <;> by_cases hz' : z' < 0
  · rw [if_pos hz, if_pos hz'] at h
    have := hsame _ h
    omega
  · obtain ⟨c, l, hl, hcl⟩ := hne z'.natAbs
    rw [if_pos hz, if_neg hz', hl] at h
    exact absurd (List.cons.inj h).1.symm hcl
  · obtain ⟨c, l, hl, hcl⟩ := hne z.natAbs
    rw [if_neg hz, if_pos hz', hl] at h
    exact absurd (List.cons.inj h).1 hcl
  · rw [if_neg hz, if_neg hz'] at h
    have := hsame _ h
    omega

theorem rep_inj (h : rep cap base z = rep cap base z') : z = z' :=
  rep_eq_of_append (a := []) (b := []) ht hb (by rw [h]) (by rw [h])

end

theorem length_rep_le (hb : 1 < base) (z : Int) :
    (rep cap base z).length ≤ 16 ↔ -((base ^ 15 : Nat) : Int) < z ∧ z < (base ^ 16 : Nat) := by
  have hpow : 0 < base ^ 15 ∧ 0 < base ^ 16 := ⟨Nat.pow_pos (by omega), Nat.pow_pos (by omega)⟩
  rw [rep]
  by_cases hz : z < 0
  · have h := Nat.length_toDigits_le_iff (n := z.natAbs) hb (show 0 < 15 by decide)
    rw [if_pos hz, length_append, length_singleton, length_map]
    omega
  · have h := Nat.length_toDigits_le_iff (n := z.natAbs) hb (show 0 < 16 by decide)
    rw [if_neg hz, nil_append, length_map]
    omega

def limit (l : List UInt8) : Option (List UInt8) := if l.length ≤ 16 then some l else none

theorem limit_eq_some {l m : List UInt8} : limit l = some m ↔ l.length ≤ 16 ∧ l = m := by
  rw [limit]
  split
  · rename_i h
    simp [h]
  · rename_i h
    simp [h]

section Values

variable {w : Nat}

theorem toNat_of_toInt (y : BitVec w) :
    (y.toNat : Int) = if y.toInt < 0 then y.toInt + (2 ^ w : Nat) else y.toInt := by
  have hlt := y.isLt
  rw [BitVec.toInt_eq_toNat_cond]
  split <;> split <;> omega

theorem toNat_neg_of_toInt (y : BitVec w) (h : y.toInt < 0) : ((-y).toNat : Int) = -y.toInt := by
  have hlt := y.isLt
  rw [BitVec.toInt_eq_toNat_cond] at h ⊢
  split at h
  · omega
  · rename_i hge
    rw [if_neg hge, BitVec.toNat_neg, Nat.mod_eq_of_lt (by omega)]
    omega

end Values

theorem printBuf_eq (ht : Table digits cap) (hb : 1 < base ∧ base ≤ 16) {x : Nat} (hx : x < 2 ^ 64)
    (hneg : neg = true → x ≠ 0) :
    printBuf digits base neg x = limit (rep cap base (if neg then -x else x)) := by
  have hpow : x < base ^ (63 + 1) := Nat.lt_of_lt_of_le hx (Nat.pow_le_pow_left hb.1 64)
  have hrev : (fill digits base 64 x ++ if neg then [chr '-'] else []).reverse = rep cap base (if neg then -x else x) := by
    rw [reverse_append, fill_eq ht hb hpow, rep]
    cases neg with
    | false => simp
    | true =>
      have hpos : 0 < x := Nat.pos_of_ne_zero (hneg rfl)
      simp [hpos]
  rw [printBuf, limit, ← hrev, length_reverse]

theorem printBuf_word (ht : Table digits cap) (hb : 1 < base ∧ base ≤ 16) {w : Nat} (hw : w ≤ 64) (y : BitVec w) (sign : Bool)
    (hneg : neg = (sign && decide (y.toInt < 0))) :
    printBuf digits base neg (if neg then -y else y).toNat = limit (rep cap base (if sign then y.toInt else y.toNat)) := by
  have hlt : ∀ y : BitVec w, y.toNat < 2 ^ 64 := fun y => Nat.lt_of_lt_of_le y.isLt (Nat.pow_le_pow_right (by decide) hw)
  cases neg with
  | true =>
    obtain ⟨rfl, hz⟩ : sign = true ∧ y.toInt < 0 := by simpa using hneg.symm
    have hval := toNat_neg_of_toInt y hz
    rw [printBuf_eq ht hb (hlt _) fun _ => by simp only [if_true]; omega]
    simp only [if_true, hval, Int.neg_neg]
  | false =>
    rw [printBuf_eq ht hb (hlt _) fun h => absurd h Bool.false_ne_true]
    cases sign with
    | false => rfl
    | true =>
      have hz : ¬y.toInt < 0 := by simpa using hneg.symm
      have hval := toNat_of_toInt y
      rw [if_neg hz] at hval
      simp only [Bool.false_eq_true, if_false, if_true, hval]

theorem printlong_eq (xx : Int64) (hb : 1 < base ∧ base ≤ 16) (sign : Bool) :
    printlong xx base sign = limit (rep id base (if sign then xx.toInt else xx.toUInt64.toNat)) := by
  have hneg : (sign && decide (xx < 0)) = (sign && decide (xx.toBitVec.toInt < 0)) := by
    simp [Int64.lt_iff_toInt_lt]
  refine Eq.trans ?_ (printBuf_word table_lower hb (Nat.le_refl 64) xx.toBitVec sign hneg)
  rw [printlong]
  cases (sign && decide (xx < 0)) <;> rfl

theorem printint_eq (xx : Int32) (hb : 1 < base ∧ base ≤ 16) (sgn : Bool) :
    printint xx base sgn = limit (rep Char.toUpper base (if sgn then xx.toInt else xx.toUInt32.toNat)) := by
  have hneg : (sgn && decide (xx < 0)) = (sgn && decide (xx.toBitVec.toInt < 0)) := by
    simp [Int32.lt_iff_toInt_lt]
  refine Eq.trans ?_ (printBuf_word table_upper hb (by decide) xx.toBitVec sgn hneg)
  rw [printint]
  cases (sgn && decide (xx < 0)) <;> rfl

-- The top digit of what is left after `16 - n` shifts is that of the pointer.
theorem ptrDigits_eq (ht : Table digits cap) (y : Nat) {n : Nat} (hn : n ≤ 16) {x : UInt64}
    (hx : x.toNat = y * 16 ^ (16 - n) % 2 ^ 64) :
    ptrDigits digits n x = (List.range n).map fun i => chr (cap (Nat.digitChar (y / 16 ^ (n - 1 - i) % 16))) := by
  induction n generalizing x with
  | zero => rfl
  | succ n ih =>
    have hpow : (2 : Nat) ^ 64 = 16 ^ (n + 1) * 16 ^ (15 - n) := by
      have h16 : (2 : Nat) ^ 64 = 16 ^ 16 := by decide
      rw [h16, ← Nat.pow_add, show n + 1 + (15 - n) = 16 by omega]
    have hpow' : (2 : Nat) ^ 60 = 16 ^ n * 16 ^ (15 - n) := by
      have h15 : (2 : Nat) ^ 60 = 16 ^ 15 := by decide
      rw [h15, ← Nat.pow_add, show n + (15 - n) = 15 by omega]
    have hpos : 0 < 16 ^ (15 - n) := Nat.pow_pos (by decide)
    have htop : (x >>> 60).toNat = y / 16 ^ n % 16 := by
      rw [UInt64.toNat_shiftRight, hx, show 16 - (n + 1) = 15 - n by omega, hpow, Nat.mul_mod_mul_right]
      change _ >>> 60 = _
      rw [Nat.shiftRight_eq_div_pow, hpow', Nat.mul_div_mul_right _ _ hpos, Nat.pow_succ, Nat.mod_mul_right_div_self]
    have hnext : (x <<< 4).toNat = y * 16 ^ (16 - n) % 2 ^ 64 := by
      rw [UInt64.toNat_shiftLeft, hx]
      change _ <<< 4 % 2 ^ 64 = _
      rw [Nat.shiftLeft_eq, Nat.mod_mul_mod, Nat.mul_assoc, show 16 - n = 16 - (n + 1) + 1 by omega, Nat.pow_succ (n := 16)]
    rw [ptrDigits, ih (by omega) hnext, htop, ht.get _ (Nat.mod_lt _ (by decide)), range_succ_eq_map, map_cons,
      map_map]
    refine congrArg₂ _ rfl (map_congr_left fun i hi => ?_)
    rw [comp_apply, show n + 1 - 1 - i.succ = n - 1 - i by omega]

theorem printptr_eq (ht : Table digits cap) (v : UInt64) :
    printptr digits v = (Piece.ptr v).usual cap := by
  rw [printptr, ptrDigits_eq ht v.toNat (Nat.le_refl 16) (by simp)]
  rfl

def Kind.signed : Kind → Bool
  | .d => true
  | _ => false

structure Prints (pr : Printers) (cap : Char → Char) (shown : Size → Kind → UInt64 → Int) : Prop where
  int : ∀ kind v, pr.int v kind.base kind.signed = limit (rep cap kind.base (shown .int kind v))
  long : ∀ kind v, pr.long v kind.base kind.signed = limit (rep cap kind.base (shown .long kind v))
  longlong : ∀ kind v, shown .longlong kind v = shown .long kind v
  ptr : ∀ v, pr.ptr v = (Piece.ptr v).usual cap

def kernelShown : Size → Kind → UInt64 → Int
  | .int, .d, v => v.toUInt32.toInt32.toInt
  | .int, _, v => v.toUInt32.toInt32.toInt64.toUInt64.toNat
  | _, kind, v => value .long kind v

theorem prints_kernel : Prints kernel id kernelShown := by
  refine ⟨fun kind v => ?_, fun kind v => ?_, fun _ _ => rfl, printptr_eq table_lower⟩
  · refine (printlong_eq _ kind.base_bounds _).trans ?_
    cases kind <;> simp [Kind.signed, kernelShown]
  · refine (printlong_eq _ kind.base_bounds _).trans ?_
    cases kind <;> rfl

theorem prints_user : Prints user Char.toUpper fun _ => value .int := by
  refine ⟨fun kind v => ?_, fun kind v => ?_, fun _ _ => rfl, printptr_eq table_upper⟩ <;>
  · refine (printint_eq _ kind.base_bounds _).trans ?_
    cases kind <;> rfl

def Piece.put (cap : Char → Char) (shown : Size → Kind → UInt64 → Int) : Piece → Option (List UInt8)
  | .num size kind v => limit (rep cap kind.base (shown size kind v))
  | p => some (p.usual cap)

def putAll (cap : Char → Char) (shown : Size → Kind → UInt64 → Int) : List Piece → Option (List UInt8)
  | [] => some []
  | p :: ps => (p.put cap shown).bind fun out => (putAll cap shown ps).map (out ++ ·)

section Loops

variable {pr : Printers}

theorem convert_num (hp : Prints pr cap shown) (size : Size) (kind : Kind) (v : UInt64) (rest : List UInt8) (args : List Arg) :
    convert pr ((size.chars ++ [kind.char] ++ rest).headD 0) (after (size.chars ++ [kind.char] ++ rest)).1
        (after (size.chars ++ [kind.char] ++ rest)).2 (.word v :: args) =
      (limit (rep cap kind.base (shown size kind v))).map (·, args, size.chars.length) := by
  cases size with
  | int =>
    rw [← hp.int kind v]
    cases kind <;> rfl
  | long =>
    rw [← hp.long kind v]
    cases kind <;> rfl
  | longlong =>
    rw [hp.longlong kind v, ← hp.long kind v]
    cases kind <;> rfl

-- A loop over a format that prints text as it is and gives the rest to `convert`.
structure Loop (pr : Printers) (f : Nat → List UInt8 → List Arg → Option (List UInt8 × List Arg)) : Prop where
  stop : ∀ n args, f (n + 1) [] args = some ([], args)
  char : ∀ n c fmt args, c ≠ 0 → c ≠ chr '%' → f (n + 1) (c :: fmt) args = (f n fmt args).map fun r => (c :: r.1, r.2)
  conv : ∀ n c fmt args, c ≠ 0 → ∃ m ≥ n, f (n + 2) (chr '%' :: c :: fmt) args =
    (convert pr c (after (c :: fmt)).1 (after (c :: fmt)).2 args).bind fun r =>
      (f m (fmt.drop r.2.2) r.2.1).map fun q => (r.1 ++ q.1, q.2)

theorem loop_printf : Loop kernel printf := by
  refine ⟨fun _ _ => rfl, fun n c fmt args h0 hc => ?_, fun n c fmt args h0 => ⟨n + 1, Nat.le_succ n, ?_⟩⟩
  · rw [printf, headD_cons, if_neg h0, if_pos hc, tail_cons]
    cases printf n fmt args <;> rfl
  · rw [printf, headD_cons, if_neg (by decide), if_neg (not_not.mpr rfl)]
    refine (if_neg h0).trans (congrArg (Option.bind _) (funext fun r => ?_))
    change Option.bind (printf (n + 1) (fmt.drop r.2.2) r.2.1) _ = _
    cases printf (n + 1) (fmt.drop r.2.2) r.2.1 <;> rfl

theorem loop_vprintf : Loop user fun n => vprintf n false := by
  refine ⟨fun _ _ => rfl, fun n c fmt args h0 hc => ?_, fun n c fmt args h0 => ⟨n, Nat.le_refl n, ?_⟩⟩
  · rw [vprintf, headD_cons, if_neg h0, if_pos rfl, if_neg hc, tail_cons]
    cases vprintf n false fmt args <;> rfl
  rw [vprintf, headD_cons, if_neg (by decide), if_pos rfl, if_pos rfl, tail_cons, vprintf, headD_cons,
    if_neg h0, if_neg (by decide)]
  refine congrArg (Option.bind _) (funext fun r => ?_)
  change Option.bind (vprintf n false (fmt.drop r.2.2) r.2.1) _ = _
  cases vprintf n false (fmt.drop r.2.2) r.2.1 <;> rfl

variable {f : Nat → List UInt8 → List Arg → Option (List UInt8 × List Arg)}

theorem Loop.text (hf : Loop pr f) {t : List UInt8} (ht : chr '%' ∉ t ∧ 0 ∉ t) (n : Nat)
    (fmt : List UInt8) (args : List Arg) :
    f (n + t.length) (t ++ fmt) args = (f n fmt args).map fun r => (t ++ r.1, r.2) := by
  induction t with
  | nil => simp
  | cons c t ih =>
    simp only [mem_cons, not_or] at ht
    rw [length_cons, ← Nat.add_assoc, cons_append, hf.char _ _ _ _ (Ne.symm ht.2.1) (Ne.symm ht.1.1),
      ih ⟨ht.1.2, ht.2.2⟩, Option.map_map]
    rfl

theorem Loop.piece (hf : Loop pr f) (hp : Prints pr cap shown) {p : Piece} (hplain : p.Plain) (n : Nat) (fmt : List UInt8)
    (args : List Arg) : ∃ m ≥ n, f (n + p.fmt.length) (p.fmt ++ fmt) (p.args ++ args) =
      (p.put cap shown).bind fun out => (f m fmt args).map fun r => (out ++ r.1, r.2) := by
  cases p with
  | text t => exact ⟨n, Nat.le_refl n, hf.text hplain n fmt args⟩
  | num size kind v =>
    have hconv := convert_num hp size kind v fmt args
    obtain ⟨c, t, hct, hc⟩ : ∃ c t, size.chars ++ [kind.char] = c :: t ∧ c ≠ 0 := by
      cases size with
      | int =>
        refine ⟨kind.char, [], rfl, ?_⟩
        cases kind <;> decide
      | long => exact ⟨chr 'l', [kind.char], rfl, by decide⟩
      | longlong => exact ⟨chr 'l', [chr 'l', kind.char], rfl, by decide⟩
    have hlen : t.length = size.chars.length := by
      have := congrArg List.length hct
      simpa using this.symm
    rw [hct, cons_append, headD_cons] at hconv
    obtain ⟨m, hm, hrun⟩ := hf.conv (n + t.length) c (t ++ fmt) (.word v :: args) hc
    refine ⟨m, by omega, ?_⟩
    rw [hconv, Option.bind_map] at hrun
    rw [Piece.fmt, hct]
    refine hrun.trans ?_
    simp only [comp_def, ← hlen, drop_left]
    rfl
  | ptr v =>
    obtain ⟨m, hm, hrun⟩ := hf.conv n (chr 'p') fmt (.word v :: args) (by decide)
    refine ⟨m, hm, hrun.trans ?_⟩
    change Option.map (fun q => (pr.ptr v ++ q.1, q.2)) (f m fmt args) = _
    rw [hp.ptr]
    rfl
  | str s =>
    obtain ⟨m, hm, hrun⟩ := hf.conv n (chr 's') fmt (.str s :: args) (by decide)
    exact ⟨m, hm, hrun⟩
  | percent =>
    obtain ⟨m, hm, hrun⟩ := hf.conv n (chr '%') fmt args (by decide)
    exact ⟨m, hm, hrun⟩

theorem Loop.run (hf : Loop pr f) (hp : Prints pr cap shown) {ps : List Piece} (hplain : ∀ p ∈ ps, p.Plain) (n : Nat) :
    f (n + (ps.flatMap Piece.fmt).length + 1) (ps.flatMap Piece.fmt) (ps.flatMap Piece.args) =
      (putAll cap shown ps).map (·, []) := by
  induction ps generalizing n with
  | nil => exact hf.stop n []
  | cons p ps ih =>
    obtain ⟨hhead, htail⟩ := forall_mem_cons.mp hplain
    rw [flatMap_cons, flatMap_cons, length_append]
    obtain ⟨m, hm, hrun⟩ := hf.piece hp hhead (n + (ps.flatMap Piece.fmt).length + 1) (ps.flatMap Piece.fmt) (ps.flatMap Piece.args)
    obtain ⟨k, rfl⟩ := Nat.exists_eq_add_of_le hm
    rw [show n + (p.fmt.length + (ps.flatMap Piece.fmt).length) + 1 = n + (ps.flatMap Piece.fmt).length + 1 + p.fmt.length by omega,
      hrun, show n + (ps.flatMap Piece.fmt).length + 1 + k = n + k + (ps.flatMap Piece.fmt).length + 1 by omega, ih htail, putAll,
      Option.map_bind]
    simp only [Option.map_map, comp_def]

end Loops

section Exact

variable {le : Nat → Nat → Prop} {ps : List Piece}

theorem count_append (l m : List UInt8) : count (l ++ m) = count l + count m := countP_append

theorem count_put (ht : Table digits cap) (hle : le = (· ≤ ·) ∨ le = (· ≥ ·))
    (hcmp : ∀ size kind v, le (shown size kind v).natAbs (value size kind v).natAbs) {p : Piece}
    (h : p.put cap shown = some out) : le (count out) (count (p.usual cap)) := by
  have hrefl : ∀ n, le n n := by
    rcases hle with rfl | rfl
    · exact Nat.le_refl
    · exact Nat.le_refl
  cases p with
  | num size kind v =>
    have := hcmp size kind v
    obtain ⟨-, rfl⟩ := limit_eq_some.mp h
    rw [Piece.usual, count_rep ht kind.base_bounds, count_rep ht kind.base_bounds]
    rcases hle with rfl | rfl
    · exact length_digits_mono kind.base_bounds.1 this
    · exact length_digits_mono kind.base_bounds.1 this
  | _ =>
    cases h
    exact hrefl _

theorem count_putAll (ht : Table digits cap) (hle : le = (· ≤ ·) ∨ le = (· ≥ ·))
    (hcmp : ∀ size kind v, le (shown size kind v).natAbs (value size kind v).natAbs)
    (h : putAll cap shown ps = some out) :
    le (count out) (count (ps.flatMap (Piece.usual cap))) := by
  induction ps generalizing out with
  | nil =>
    cases h
    rcases hle with rfl | rfl
    · exact Nat.le_refl 0
    · exact Nat.le_refl 0
  | cons p ps ih =>
    obtain ⟨first, hfirst, hrest⟩ := Option.bind_eq_some_iff.mp h
    obtain ⟨more, hmore, rfl⟩ := Option.map_eq_some_iff.mp hrest
    have h1 := count_put ht hle hcmp hfirst
    have h2 := ih hmore
    rw [flatMap_cons, count_append, count_append]
    rcases hle with rfl | rfl
    · exact Nat.add_le_add h1 h2
    · exact Nat.add_le_add h1 h2

theorem putAll_exact (ps : List Piece) (ht : Table digits cap) (hle : le = (· ≤ ·) ∨ le = (· ≥ ·))
    (hcmp : ∀ size kind v, le (shown size kind v).natAbs (value size kind v).natAbs) :
    putAll cap shown ps = some (ps.flatMap (Piece.usual cap)) ↔ ∀ p ∈ ps, p.put cap shown = some (p.usual cap) := by
  induction ps with
  | nil => simp [putAll]
  | cons p ps ih =>
    rw [forall_mem_cons, ← ih, putAll, flatMap_cons]
    constructor
    · intro h
      obtain ⟨first, hfirst, hrest⟩ := Option.bind_eq_some_iff.mp h
      obtain ⟨more, hmore, happ⟩ := Option.map_eq_some_iff.mp hrest
      have hcount : count first = count (p.usual cap) := by
        have h1 := count_put ht hle hcmp hfirst
        have h2 := count_putAll ht hle hcmp hmore
        have hsum := congrArg count happ
        rw [count_append, count_append] at hsum
        rcases hle with rfl | rfl <;> omega
      have hsame : first = p.usual cap := by
        cases p with
        | num size kind v =>
          obtain ⟨-, rfl⟩ := limit_eq_some.mp hfirst
          rw [Piece.usual, rep_eq_of_append ht kind.base_bounds hcount happ]
        | _ =>
          cases hfirst
          rfl
      subst hsame
      exact ⟨hfirst, hmore.trans (congrArg some (append_cancel_left happ))⟩
    · rintro ⟨hfirst, hmore⟩
      rw [hfirst, hmore]
      rfl

theorem int_eq (x : UInt32) :
    x.toInt32.toInt = if x.toNat < 2 ^ 31 then (x.toNat : Int) else x.toNat - 2 ^ 32 := by
  have h : x.toInt32.toInt = x.toBitVec.toInt := rfl
  have hn : x.toBitVec.toNat = x.toNat := rfl
  rw [h, BitVec.toInt_eq_toNat_cond, hn]
  split <;> split <;> omega

theorem long_eq (x : UInt64) :
    x.toInt64.toInt = if x.toNat < 2 ^ 63 then (x.toNat : Int) else x.toNat - 2 ^ 64 := by
  have h : x.toInt64.toInt = x.toBitVec.toInt := rfl
  have hn : x.toBitVec.toNat = x.toNat := rfl
  rw [h, BitVec.toInt_eq_toNat_cond, hn]
  split <;> split <;> omega

theorem extended_eq (x : UInt32) : (x.toInt32.toInt64.toUInt64.toNat : Int) =
    if x.toNat < 2 ^ 31 then (x.toNat : Int) else x.toNat + (2 ^ 64 - 2 ^ 32) := by
  have h : (x.toInt32.toInt64.toUInt64.toNat : Int) =
      if x.toInt32.toInt64.toInt < 0 then x.toInt32.toInt64.toInt + (2 ^ 64 : Nat) else x.toInt32.toInt64.toInt :=
    toNat_of_toInt x.toInt32.toInt64.toBitVec
  have hlt := x.toNat_lt
  rw [h, Int32.toInt_toInt64, int_eq]
  split <;> split <;> omega

theorem kernel_cmp (size : Size) (kind : Kind) (v : UInt64) :
    (kernelShown size kind v).natAbs ≥ (value size kind v).natAbs := by
  have h := extended_eq v.toUInt32
  cases size with
  | int => cases kind <;> simp only [kernelShown, value] <;> split at h <;> omega
  | _ => cases kind <;> exact Nat.le_refl _

theorem user_cmp (size : Size) (kind : Kind) (v : UInt64) :
    (value .int kind v).natAbs ≤ (value size kind v).natAbs := by
  have hint := int_eq v.toUInt32
  have hlong := long_eq v
  have hlt := v.toNat_lt
  rw [UInt64.toNat_toUInt32] at hint
  cases size with
  | int => exact Nat.le_refl _
  | _ =>
    cases kind with
    | d =>
      simp only [value]
      split at hint <;> split at hlong <;> omega
    | _ =>
      simp only [value, UInt64.toNat_toUInt32]
      omega

theorem putAll_user (ps : List Piece) :
    ∃ out, putAll Char.toUpper (fun _ => value .int) ps = some out := by
  induction ps with
  | nil => exact ⟨[], rfl⟩
  | cons p ps ih =>
    obtain ⟨more, hmore⟩ := ih
    have hput : ∃ out, p.put Char.toUpper (fun _ => value .int) = some out := by
      cases p with
      | num size kind v =>
        have hint := int_eq v.toUInt32
        have hlt := v.toUInt32.toNat_lt
        refine ⟨_, limit_eq_some.mpr ⟨(length_rep_le kind.base_bounds.1 _).mpr ?_, rfl⟩⟩
        cases kind <;> simp only [value, Kind.base] <;> split at hint <;> omega
      | _ => exact ⟨_, rfl⟩
    obtain ⟨out, hout⟩ := hput
    exact ⟨out ++ more, by rw [putAll, hout, hmore]; rfl⟩

end Exact

def KernelFits : Piece → Prop
  | .num .int .d _ => True
  | .num .int _ v => v.toUInt32.toNat < 2 ^ 31
  | .num _ .d v => -10 ^ 15 < v.toInt64.toInt ∧ v.toInt64.toInt < 10 ^ 16
  | .num _ .u v => v.toNat < 10 ^ 16
  | _ => True

def UserFits : Piece → Prop
  | .num .int _ _ => True
  | .num _ .d v => -2 ^ 31 ≤ v.toInt64.toInt ∧ v.toInt64.toInt < 2 ^ 31
  | .num _ _ v => v.toNat < 2 ^ 32
  | _ => True

theorem put_num {digits : List UInt8} {cap : Char → Char} (ht : Table digits cap) (shown : Size → Kind → UInt64 → Int) (size : Size)
    (kind : Kind) (v : UInt64) : (Piece.num size kind v).put cap shown = some ((Piece.num size kind v).usual cap) ↔
      shown size kind v = value size kind v ∧
        -((kind.base ^ 15 : Nat) : Int) < value size kind v ∧ value size kind v < (kind.base ^ 16 : Nat) := by
  rw [Piece.put, Piece.usual, limit_eq_some, and_comm, ← length_rep_le kind.base_bounds.1]
  constructor
  · rintro ⟨h, hlen⟩
    rw [h] at hlen
    exact ⟨rep_inj ht kind.base_bounds h, hlen⟩
  · rintro ⟨h, hlen⟩
    rw [h]
    exact ⟨rfl, hlen⟩

theorem put_kernel (p : Piece) : p.put id kernelShown = some (p.usual id) ↔ KernelFits p := by
  cases p with
  | num size kind v =>
    have hint := int_eq v.toUInt32
    have hext := extended_eq v.toUInt32
    have hword := v.toUInt32.toNat_lt
    have hlong := v.toNat_lt
    rw [put_num table_lower]
    cases size <;> cases kind <;> simp only [kernelShown, value, KernelFits, Kind.base, true_and, iff_true] <;> split at hext <;> omega
  | _ => simp [Piece.put, KernelFits]

theorem put_user (p : Piece) :
    p.put Char.toUpper (fun _ => value .int) = some (p.usual Char.toUpper) ↔ UserFits p := by
  cases p with
  | num size kind v =>
    have hint := int_eq v.toUInt32
    have hlong := long_eq v
    have hlt := v.toNat_lt
    rw [put_num table_upper]
    rw [UInt64.toNat_toUInt32] at hint
    cases size <;> cases kind <;> simp only [value, UserFits, Kind.base, UInt64.toNat_toUInt32, true_and, iff_true] <;> split at hint <;>
      split at hlong <;> omega
  | _ => simp [Piece.put, UserFits]

-- printf prints every format rightly if and only if its numbers fit: long ones into the buffer,
-- unsigned int ones into 31 bits.
theorem printf_exact (ps : List Piece) (hplain : ∀ p ∈ ps, p.Plain) :
    printf ((ps.flatMap Piece.fmt).length + 1) (ps.flatMap Piece.fmt) (ps.flatMap Piece.args) =
      some (ps.flatMap (Piece.usual id), []) ↔ ∀ p ∈ ps, KernelFits p := by
  have hrun := loop_printf.run prints_kernel hplain 0
  rw [Nat.zero_add] at hrun
  have hexact := putAll_exact ps table_lower (.inr rfl) kernel_cmp
  simp only [put_kernel] at hexact
  rw [hrun, ← hexact]
  simp

def sample : List Piece := [.text [chr '-'], .num .long .d (-42), .num .int .x 255, .ptr 4096, .str (some [chr 'a', 0])]

theorem printf_exact_sample :
    printf ((sample.flatMap Piece.fmt).length + 1) (sample.flatMap Piece.fmt) (sample.flatMap Piece.args) =
      some (sample.flatMap (Piece.usual id), []) :=
  (printf_exact sample (by simp [sample, Piece.Plain, chr])).mpr (by simp [sample, KernelFits])

-- The largest unsigned long.
theorem not_printf_exact : ¬ ∀ ps : List Piece, (∀ p ∈ ps, p.Plain) →
    printf ((ps.flatMap Piece.fmt).length + 1) (ps.flatMap Piece.fmt) (ps.flatMap Piece.args) =
      some (ps.flatMap (Piece.usual id), []) := by
  intro h
  have hnone : printf 4 [chr '%', chr 'l', chr 'u'] [.word 18446744073709551615] = none := by decide
  have hsome := h [.num .long .u 18446744073709551615] (by simp [Piece.Plain])
  cases hnone.symm.trans hsome

-- vprintf uses all arguments, and prints every format rightly if and only if its long numbers fit
-- into 32 bits.
theorem vprintf_exact (ps : List Piece) (hplain : ∀ p ∈ ps, p.Plain) :
    (∃ out, vprintf ((ps.flatMap Piece.fmt).length + 1) false (ps.flatMap Piece.fmt) (ps.flatMap Piece.args) = some (out, [])) ∧
      (vprintf ((ps.flatMap Piece.fmt).length + 1) false (ps.flatMap Piece.fmt) (ps.flatMap Piece.args) =
        some (ps.flatMap (Piece.usual Char.toUpper), []) ↔ ∀ p ∈ ps, UserFits p) := by
  have hrun := loop_vprintf.run prints_user hplain 0
  rw [Nat.zero_add] at hrun
  have hexact := putAll_exact ps table_upper (.inl rfl) user_cmp
  simp only [put_user] at hexact
  rw [hrun, ← hexact]
  refine ⟨?_, by simp⟩
  obtain ⟨out, hout⟩ := putAll_user ps
  exact ⟨out, by rw [hout]; rfl⟩

theorem vprintf_exact_sample :
    vprintf ((sample.flatMap Piece.fmt).length + 1) false (sample.flatMap Piece.fmt) (sample.flatMap Piece.args) =
      some (sample.flatMap (Piece.usual Char.toUpper), []) :=
  (vprintf_exact sample (by simp [sample, Piece.Plain, chr])).2.mpr (by simp [sample, UserFits])

-- An unsigned long that does not fit into 32 bits.
theorem not_vprintf_exact : ¬ ∀ ps : List Piece, (∀ p ∈ ps, p.Plain) →
    vprintf ((ps.flatMap Piece.fmt).length + 1) false (ps.flatMap Piece.fmt) (ps.flatMap Piece.args) =
      some (ps.flatMap (Piece.usual Char.toUpper), []) := by
  intro h
  have hwrong : vprintf 4 false [chr '%', chr 'l', chr 'u'] [.word 4294967296] ≠
      some ([Piece.num .long .u 4294967296].flatMap (Piece.usual Char.toUpper), []) := by decide
  exact hwrong (h [.num .long .u 4294967296] (by simp [Piece.Plain]))

end Printf
