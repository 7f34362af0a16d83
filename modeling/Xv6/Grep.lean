import Mathlib

-- user/grep.c. A string ends where the list of its bytes does or at a zero.

namespace Grep

open List

def CARET : UInt8 := 94

def DOLLAR : UInt8 := 36

def STAR : UInt8 := 42

def DOT : UInt8 := 46

def NEWLINE : UInt8 := 10

-- The loop of matchstar; `here` is matchhere for what follows the star.
def matchstar (here : List UInt8 → Bool) (c : UInt8) : List UInt8 → Bool
  | [] => here []
  | b :: text => here (b :: text) || decide (b ≠ 0 ∧ (b = c ∨ c = DOT)) && matchstar here c text

def matchhere : List UInt8 → List UInt8 → Bool
  | [], _ => true
  | c :: re, text =>
    if c = 0 then true
    else if re.headD 0 = STAR then matchstar (fun text => matchhere re.tail text) c text
    else if c = DOLLAR ∧ re.headD 0 = 0 then text.headD 0 = 0
    else if text.headD 0 ≠ 0 ∧ (c = DOT ∨ c = text.headD 0) then matchhere re text.tail
    else false
termination_by re => re.length

def matchFrom (re : List UInt8) : List UInt8 → Bool
  | [] => matchhere re []
  | b :: text => matchhere re (b :: text) || decide (b ≠ 0) && matchFrom re text

def match_ (re text : List UInt8) : Bool :=
  if re.headD 0 = CARET then matchhere re.tail text else matchFrom re text

inductive Item where
  | one (c : UInt8)
  | star (c : UInt8)
  | stop

def items : List UInt8 → List Item
  | [] => []
  | [c] => if c = DOLLAR then [.stop] else [.one c]
  | c :: d :: re => if d = STAR then .star c :: items re else .one c :: items (d :: re)

-- The character of an item stands for the character of the text.
def Takes (c b : UInt8) : Prop := c = DOT ∨ c = b

-- The items match `u` where `rest` follows in the text.
inductive Matches : List Item → List UInt8 → List UInt8 → Prop where
  | nil (rest) : Matches [] [] rest
  | one {c b is u rest} : Takes c b → Matches is u rest → Matches (.one c :: is) (b :: u) rest
  | star {c v is u rest} : (∀ b ∈ v, Takes c b) → Matches is u rest → Matches (.star c :: is) (v ++ u) rest
  | stop {is} : Matches is [] [] → Matches (.stop :: is) [] []

def Begins (is : List Item) (text : List UInt8) : Prop := ∃ u rest, text = u ++ rest ∧ Matches is u rest

section Here

variable {c : UInt8} {is : List Item} {text : List UInt8}

@[simp] theorem begins_nil : Begins [] text := ⟨[], text, rfl, .nil text⟩

theorem begins_one : Begins (.one c :: is) text ↔ ∃ b rest, text = b :: rest ∧ Takes c b ∧ Begins is rest := by
  constructor
  · rintro ⟨_, rest, rfl, h⟩
    cases h with
    | @one _ b _ u _ htake hm => exact ⟨b, u ++ rest, rfl, htake, u, rest, rfl, hm⟩
  · rintro ⟨b, _, rfl, htake, u, rest, rfl, hm⟩
    exact ⟨b :: u, rest, rfl, .one htake hm⟩

theorem begins_star :
    Begins (.star c :: is) text ↔ ∃ v rest, text = v ++ rest ∧ (∀ b ∈ v, Takes c b) ∧ Begins is rest := by
  constructor
  · rintro ⟨_, rest, rfl, h⟩
    cases h with
    | @star _ v _ u _ htake hm => exact ⟨v, u ++ rest, append_assoc v u rest, htake, u, rest, rfl, hm⟩
  · rintro ⟨v, _, rfl, htake, u, rest, rfl, hm⟩
    exact ⟨v ++ u, rest, (append_assoc v u rest).symm, .star htake hm⟩

theorem begins_stop : Begins [.stop] text ↔ text = [] := by
  constructor
  · rintro ⟨_, _, rfl, h⟩
    cases h
    rfl
  · rintro rfl
    exact ⟨[], [], rfl, .stop (.nil [])⟩

theorem matchstar_iff {here : List UInt8 → Bool} (htext : 0 ∉ text) :
    matchstar here c text = true ↔ ∃ v rest, text = v ++ rest ∧ (∀ b ∈ v, Takes c b) ∧ here rest = true := by
  induction text with
  | nil =>
    rw [matchstar]
    constructor
    · exact fun h => ⟨[], [], rfl, nofun, h⟩
    · rintro ⟨v, rest, hv, -, h⟩
      rwa [(append_eq_nil_iff.mp hv.symm).2] at h
  | cons b text ih =>
    rw [mem_cons, not_or] at htext
    rw [matchstar, Bool.or_eq_true, Bool.and_eq_true, decide_eq_true_eq, ih htext.2]
    constructor
    · rintro (h | ⟨⟨-, htake⟩, v, rest, rfl, hall, h⟩)
      · exact ⟨[], b :: text, rfl, nofun, h⟩
      · exact ⟨b :: v, rest, rfl, forall_mem_cons.mpr ⟨htake.symm.imp_right Eq.symm, hall⟩, h⟩
    · rintro ⟨v, rest, heq, hall, h⟩
      cases v with
      | nil => exact .inl (heq ▸ h)
      | cons a v =>
        obtain ⟨rfl, rfl⟩ := List.cons.inj heq
        have hb := hall b mem_cons_self
        exact .inr ⟨⟨Ne.symm htext.1, hb.symm.imp_left Eq.symm⟩, v, rest, rfl, fun a ha => hall a (mem_cons_of_mem b ha), h⟩

theorem here_one {re : List UInt8} (hc : c ≠ 0) (hstar : re.headD 0 ≠ STAR) (hstop : ¬(c = DOLLAR ∧ re.headD 0 = 0))
    (htext : 0 ∉ text) : matchhere (c :: re) text = true ↔ ∃ b rest, text = b :: rest ∧ Takes c b ∧ matchhere re rest = true := by
  rw [matchhere, if_neg hc, if_neg hstar, if_neg hstop]
  cases text with
  | nil => simp
  | cons b text =>
    rw [mem_cons, not_or] at htext
    simp only [headD_cons, tail_cons, ne_eq, Ne.symm htext.1, not_false_eq_true, true_and, List.cons.injEq]
    constructor
    · intro h
      split at h
      · rename_i htake
        exact ⟨b, text, ⟨rfl, rfl⟩, htake, h⟩
      · cases h
    · rintro ⟨_, _, ⟨rfl, rfl⟩, htake, h⟩
      exact (if_pos htake).trans h

theorem matchhere_iff {re : List UInt8} (hre : 0 ∉ re) (htext : 0 ∉ text) :
    matchhere re text = true ↔ Begins (items re) text := by
  induction re using items.induct generalizing text with
  | case1 => simp [matchhere, items]
  | case2 =>
    have htail : text.headD 0 = 0 ↔ text = [] := by
      cases text with
      | nil => simp
      | cons b text => simpa using fun h : b = 0 => htext (h ▸ mem_cons_self)
    rw [items, if_pos rfl, begins_stop, ← htail]
    simp [matchhere, DOLLAR, STAR]
  | case3 c hc =>
    rw [mem_singleton] at hre
    rw [items, if_neg hc, begins_one, here_one (Ne.symm hre) (by decide) (fun h => hc h.1) htext]
    simp [matchhere]
  | case4 c re ih =>
    simp only [mem_cons, not_or] at hre
    rw [items, if_pos rfl, begins_star, matchhere, if_neg (Ne.symm hre.1), if_pos headD_cons, matchstar_iff htext]
    refine exists_congr fun v => exists_congr fun rest => and_congr_right fun heq => and_congr_right fun _ => ?_
    exact ih hre.2.2 fun h => htext (heq ▸ mem_append_right v h)
  | case5 c d re hd ih =>
    rw [mem_cons, not_or] at hre
    have hstop : ¬(c = DOLLAR ∧ (d :: re).headD 0 = 0) := fun h => hre.2 (h.2 ▸ mem_cons_self)
    rw [items, if_neg hd, begins_one, here_one (Ne.symm hre.1) (by exact hd) hstop htext]
    refine exists_congr fun b => exists_congr fun rest => and_congr_right fun heq => and_congr_right fun _ => ?_
    exact ih hre.2 fun h => htext (heq ▸ mem_cons_of_mem b h)

theorem matchFrom_iff {re : List UInt8} (hre : 0 ∉ re) (htext : 0 ∉ text) :
    matchFrom re text = true ↔ ∃ l rest, text = l ++ rest ∧ Begins (items re) rest := by
  induction text with
  | nil =>
    rw [matchFrom, matchhere_iff hre htext]
    constructor
    · exact fun h => ⟨[], [], rfl, h⟩
    · rintro ⟨l, rest, hl, h⟩
      rwa [(append_eq_nil_iff.mp hl.symm).2] at h
  | cons b text ih =>
    rw [matchFrom, Bool.or_eq_true, Bool.and_eq_true, decide_eq_true_eq, matchhere_iff hre htext]
    rw [mem_cons, not_or] at htext
    rw [ih htext.2]
    constructor
    · rintro (h | ⟨-, l, rest, rfl, h⟩)
      · exact ⟨[], b :: text, rfl, h⟩
      · exact ⟨b :: l, rest, rfl, h⟩
    · rintro ⟨l, rest, heq, h⟩
      cases l with
      | nil => exact .inl (heq ▸ h)
      | cons a l =>
        obtain ⟨rfl, rfl⟩ := List.cons.inj heq
        exact .inr ⟨Ne.symm htext.1, l, rest, rfl, h⟩

end Here

-- match finds what the expression describes, at the start of the text after ^ and anywhere
-- otherwise.
theorem match_correct (re text : List UInt8) (hre : 0 ∉ re) (htext : 0 ∉ text) : match_ re text = true ↔
      if re.head? = some CARET then ∃ u rest, text = u ++ rest ∧ Matches (items re.tail) u rest
      else ∃ l u rest, text = l ++ u ++ rest ∧ Matches (items re) u rest := by
  have hany : (∃ l u rest, text = l ++ u ++ rest ∧ Matches (items re) u rest) ↔
      ∃ l rest, text = l ++ rest ∧ Begins (items re) rest := by
    constructor
    · rintro ⟨l, u, rest, rfl, h⟩
      exact ⟨l, u ++ rest, append_assoc l u rest, u, rest, rfl, h⟩
    · rintro ⟨l, _, rfl, u, rest, rfl, h⟩
      exact ⟨l, u, rest, (append_assoc l u rest).symm, h⟩
  unfold match_
  cases re with
  | nil =>
    rw [if_neg (by decide), if_neg (by decide), hany]
    exact matchFrom_iff hre htext
  | cons c re =>
    by_cases hc : c = CARET
    · subst hc
      rw [if_pos headD_cons, if_pos head?_cons]
      exact matchhere_iff (fun h => hre (mem_cons_of_mem _ h)) htext
    · rw [if_neg (by exact hc), if_neg (by simpa using hc), hany]
      exact matchFrom_iff hre htext

theorem match_correct_star : match_ [97, STAR, 98] [99, 97, 98] = true := by
  rw [match_correct _ _ (by decide) (by decide), if_neg (by decide)]
  exact ⟨[99], [97, 98], [], rfl, .star (v := [97]) (by simp [Takes]) (.one (.inr rfl) (.nil []))⟩

-- sizeof(buf)
def BUF : Nat := 1024

def strchr (c : UInt8) : List UInt8 → Option Nat
  | [] => none
  | b :: s => if b = 0 then none else if b = c then some 0 else (strchr c s).map (· + 1)

-- The loop over the lines in the buffer: what it writes, and what is left from p on.
def scan (pattern : List UInt8) : Nat → List UInt8 → List UInt8 × List UInt8
  | 0, p => ([], p)
  | n + 1, p =>
    match strchr NEWLINE p with
    | none => ([], p)
    | some q =>
      let (out, rest) := scan pattern n (p.drop (q + 1))
      ((if match_ pattern (p.take q) then p.take (q + 1) else []) ++ out, rest)

-- The loop of grep, with the bytes `buf` carried over. Read `k` returns at most `cuts k + 1`
-- bytes, and none only if none are asked for or left. The result is what is written.
def grepFrom (pattern : List UInt8) (cuts : Nat → Nat) : Nat → Nat → List UInt8 → List UInt8 → Option (List UInt8)
  | 0, _, _, _ => none
  | fuel + 1, k, buf, input =>
    let n := min (BUF - buf.length - 1) (cuts k + 1)
    if input.take n = [] then some []
    else do
      let (out, rest) := scan pattern BUF (buf ++ input.take n)
      let more ← grepFrom pattern cuts fuel (k + 1) rest (input.drop n)
      some (out ++ more)

def grep (pattern : List UInt8) (cuts : Nat → Nat) (input : List UInt8) : Option (List UInt8) :=
  grepFrom pattern cuts (input.length + 1) 0 [] input

def lines (s : List UInt8) : List (List UInt8) := (s.splitOn NEWLINE).dropLast

def report (pattern : List UInt8) (ls : List (List UInt8)) : List UInt8 :=
  (ls.filter (match_ pattern)).flatMap fun l => l ++ [NEWLINE]

def short (l : List UInt8) : Bool := l.length + 1 < BUF

section Lines

variable {pattern : List UInt8} {l s : List UInt8} {ls : List (List UInt8)}

theorem lines_nil (h : NEWLINE ∉ l) : lines l = [] := by
  have hp : ∀ b ∈ l, (b == NEWLINE) = false := fun b hb => beq_false_of_ne fun heq => h (heq ▸ hb)
  rw [lines, List.splitOn, splitOnP_eq_singleton hp]
  rfl

theorem lines_cons (h : NEWLINE ∉ l) : lines (l ++ NEWLINE :: s) = l :: lines s := by
  have hp : ∀ b ∈ l, (b == NEWLINE) = false := fun b hb => beq_false_of_ne fun heq => h (heq ▸ hb)
  rw [lines, List.splitOn, splitOnP_append_cons_of_forall_mem hp _ (by simp),
    dropLast_cons_of_ne_nil (splitOnP_ne_nil _ s)]
  rfl

theorem report_cons : report pattern (l :: ls) = (if match_ pattern l then l ++ [NEWLINE] else []) ++ report pattern ls := by
  rw [report, filter_cons]
  by_cases h : match_ pattern l
  · rw [if_pos h, if_pos h]
    rfl
  · rw [if_neg h, if_neg h]
    rfl

theorem report_append {ms : List (List UInt8)} : report pattern (ls ++ ms) = report pattern ls ++ report pattern ms := by
  rw [report, filter_append, flatMap_append]
  rfl

theorem strchr_spec (h0 : 0 ∉ s) : match strchr NEWLINE s with
    | none => NEWLINE ∉ s
    | some q => NEWLINE ∉ s.take q ∧ s = s.take q ++ NEWLINE :: s.drop (q + 1) := by
  induction s with
  | nil => simp [strchr]
  | cons b s ih =>
    rw [mem_cons, not_or] at h0
    rw [strchr, if_neg (Ne.symm h0.1)]
    by_cases hb : b = NEWLINE
    · simp [hb]
    have := ih h0.2
    rw [if_neg hb]
    match hq : strchr NEWLINE s with
    | none =>
      rw [hq] at this
      simpa [Ne.symm hb] using this
    | some q =>
      rw [hq] at this
      refine ⟨?_, congrArg (b :: ·) this.2⟩
      simpa [Ne.symm hb] using this.1

theorem scan_eq (pattern : List UInt8) (n : Nat) (h0 : 0 ∉ s) (hn : s.length ≤ n) :
    ∃ rest, scan pattern n s = (report pattern (lines s), rest) ∧ NEWLINE ∉ rest ∧ 0 ∉ rest ∧ rest.length ≤ s.length ∧
      ∀ t, lines (s ++ t) = lines s ++ lines (rest ++ t) := by
  induction n generalizing s with
  | zero =>
    obtain rfl := length_eq_zero_iff.mp (Nat.le_zero.mp hn)
    have hnil : lines [] = [] := lines_nil (by simp)
    exact ⟨[], by rw [hnil]; rfl, by simp, by simp, Nat.le_refl _, fun t => by rw [hnil]; rfl⟩
  | succ n ih =>
    have hspec := strchr_spec h0
    rw [scan]
    match hq : strchr NEWLINE s with
    | none =>
      rw [hq] at hspec
      refine ⟨s, ?_, hspec, h0, Nat.le_refl _, fun t => ?_⟩
      · rw [lines_nil hspec]
        rfl
      · rw [lines_nil hspec, nil_append]
    | some q =>
      rw [hq] at hspec
      obtain ⟨hline, hs⟩ := hspec
      have hlen := congrArg List.length hs
      simp only [length_append, length_cons, length_take, length_drop] at hlen
      obtain ⟨rest, hscan, hnl, hz, hle, happ⟩ :=
        ih (s := s.drop (q + 1)) (fun h => h0 (mem_of_mem_drop h)) (by rw [length_drop]; omega)
      have hlines : lines s = s.take q :: lines (s.drop (q + 1)) := by
        rw [← lines_cons hline, ← hs]
      have htake : s.take (q + 1) = s.take q ++ [NEWLINE] := by
        have hq' : (s.take q).length = q := length_take_of_le (by omega)
        conv_lhs => rw [hs, take_append, hq', take_of_length_le (by omega)]
        simp
      rw [length_drop] at hle
      refine ⟨rest, ?_, hnl, hz, by omega, fun t => ?_⟩
      · simp only
        rw [hscan, hlines, report_cons, htake]
      · rw [hlines, cons_append, ← happ t, ← lines_cons hline, ← cons_append, ← append_assoc, ← hs]

theorem first_long (hl : NEWLINE ∉ l) (hlen : BUF ≤ l.length + 1) : (lines (l ++ s)).takeWhile short = [] := by
  by_cases hs : NEWLINE ∈ s
  · obtain ⟨a, b, rfl, ha⟩ := eq_append_cons_of_mem hs
    have hnot : NEWLINE ∉ l ++ a := by
      rw [mem_append, not_or]
      exact ⟨hl, ha⟩
    rw [← append_assoc, lines_cons hnot, takeWhile_cons_of_neg]
    simp only [short, length_append, decide_eq_true_eq]
    omega
  · rw [lines_nil (by simp [hl, hs])]
    rfl

theorem length_le_of_mem_lines (h : l ∈ lines s) : l.length + 1 ≤ s.length := by
  induction hn : s.length using Nat.strongRecOn generalizing s with
  | ind n ih =>
    by_cases hs : NEWLINE ∈ s
    · obtain ⟨a, b, rfl, ha⟩ := eq_append_cons_of_mem hs
      rw [lines_cons ha, mem_cons] at h
      rw [length_append, length_cons] at hn
      rcases h with rfl | h
      · omega
      · have := ih b.length (by omega) h rfl
        omega
    · rw [lines_nil hs] at h
      cases h

theorem grepFrom_eq {cuts : Nat → Nat} (fuel k : Nat) (buf input : List UInt8) (h0 : 0 ∉ buf ++ input)
    (hnl : NEWLINE ∉ buf) (hlen : buf.length < BUF) (hfuel : input.length < fuel) :
    grepFrom pattern cuts fuel k buf input = some (report pattern ((lines (buf ++ input)).takeWhile short)) := by
  induction fuel generalizing k buf input with
  | zero => exact absurd hfuel (Nat.not_lt_zero _)
  | succ fuel ih =>
    rw [grepFrom]
    generalize hn : min (BUF - buf.length - 1) (cuts k + 1) = n
    by_cases hgot : input.take n = []
    · simp only [hgot, if_true]
      rcases take_eq_nil_iff.mp hgot with h | h
      · rw [first_long hnl (by omega)]
        rfl
      · rw [h, append_nil, lines_nil hnl]
        rfl
    have hpos : 0 < (input.take n).length := length_pos_of_ne_nil hgot
    have hsplit : buf ++ input = buf ++ input.take n ++ input.drop n := by
      rw [append_assoc, take_append_drop]
    rw [length_take] at hpos
    have hfull : (buf ++ input.take n).length < BUF := by
      rw [length_append, length_take]
      omega
    rw [hsplit, mem_append, not_or] at h0
    obtain ⟨rest, hscan, hrest, hz, hle, happ⟩ := scan_eq pattern BUF h0.1 (Nat.le_of_lt hfull)
    have hmore := ih (k + 1) rest (input.drop n) (by simp [hz, h0.2]) hrest (by omega)
      (by rw [length_drop]; omega)
    have hshort : ∀ l ∈ lines (buf ++ input.take n), short l = true := by
      intro l hl
      have := length_le_of_mem_lines hl
      exact decide_eq_true (by omega)
    rw [if_neg hgot, hscan]
    simp only [hmore, Option.bind_eq_bind, Option.bind_some]
    rw [hsplit, happ, takeWhile_append_of_pos hshort, report_append]

end Lines

-- grep writes the lines that match up to the first one that does not fit into its buffer.
theorem grep_eq (pattern : List UInt8) (cuts : Nat → Nat) {input : List UInt8} (h0 : 0 ∉ input) :
    grep pattern cuts input = some (report pattern ((lines input).takeWhile short)) :=
  grepFrom_eq _ 0 [] input h0 (by simp) (by decide) (Nat.lt_succ_self _)

-- These are all that match if and only if none of the others does.
theorem grep_exact (pattern : List UInt8) (cuts : Nat → Nat) (input : List UInt8) (h0 : 0 ∉ input) :
    grep pattern cuts input = some (report pattern (lines input)) ↔
      ∀ l ∈ (lines input).dropWhile short, match_ pattern l = false := by
  have hsplit : report pattern (lines input) =
      report pattern ((lines input).takeWhile short) ++ report pattern ((lines input).dropWhile short) := by
    rw [← report_append, takeWhile_append_dropWhile]
  rw [grep_eq pattern cuts h0, hsplit, Option.some.injEq, self_eq_append_right, report, flatMap_eq_nil_iff]
  constructor
  · intro h l hl
    by_contra hm
    have := h l (mem_filter.mpr ⟨hl, Bool.of_not_eq_false hm⟩)
    simp at this
  · intro h l hl
    obtain ⟨hmem, hm⟩ := mem_filter.mp hl
    rw [h l hmem] at hm
    cases hm

theorem grep_exact_two : grep [97] (fun _ => 0) [97, NEWLINE, 98, NEWLINE] = some (report [97] (lines [97, NEWLINE, 98, NEWLINE])) :=
  (grep_exact _ _ _ (by decide)).mpr (by decide)

-- A line of 1023 letters.
theorem not_grep_exact : ¬ ∀ (pattern : List UInt8) (cuts : Nat → Nat) (input : List UInt8), 0 ∉ input →
    grep pattern cuts input = some (report pattern (lines input)) := by
  intro h
  obtain ⟨n, hn⟩ : ∃ n, n = 1023 := ⟨_, rfl⟩
  have hlines : lines (List.replicate n 97 ++ [NEWLINE]) = [List.replicate n 97] := by
    rw [lines_cons (by simp [NEWLINE]), lines_nil (by simp)]
  have h0 : (0 : UInt8) ∉ List.replicate n 97 ++ [NEWLINE] := by simp [NEWLINE]
  have hlong : ¬short (List.replicate n 97) = true := by
    rw [short, length_replicate, hn]
    decide
  have hmatch : match_ [97] (List.replicate n 97) = true := by
    obtain ⟨m, rfl⟩ : ∃ m, n = m + 1 := ⟨1022, hn⟩
    simp [match_, matchFrom, matchhere, replicate_succ, CARET, STAR, DOLLAR]
  have hgrep := h [97] (fun _ => 0) _ h0
  rw [grep_eq _ _ h0, hlines, takeWhile_cons_of_neg hlong, Option.some.injEq, report_cons, if_pos hmatch] at hgrep
  simp [report] at hgrep

end Grep
