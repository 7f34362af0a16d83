import Mathlib

-- Singly linked nodes: paths along `next`, and loops that follow it.

namespace Links

open List

variable {α : Type}

def Path (next : α → α) (l : List α) : Prop := l.IsChain fun a b => next a = b

-- Follows `next` from `a` up to the first node where `stop` holds.
def find (next : α → α) (stop : α → Bool) : Nat → α → Option α
  | 0, _ => none
  | n + 1, a => if stop a then some a else find next stop n (next a)

variable {next : α → α} {stop : α → Bool} {l r : List α} {a b z : α} {n m : Nat}

theorem find_mono (h : find next stop n a = some b) (hm : n ≤ m) : find next stop m a = some b := by
  induction n generalizing a m with
  | zero => cases h
  | succ n ih =>
    obtain ⟨m, rfl⟩ : ∃ k, m = k + 1 := ⟨m - 1, by omega⟩
    rw [find] at h ⊢
    split at h
    · rename_i ha
      rw [if_pos ha, h]
    · rename_i ha
      rw [if_neg ha]
      exact ih h (by omega)

theorem path_cons_cons : Path next (a :: b :: l) ↔ next a = b ∧ Path next (b :: l) :=
  isChain_cons_cons

theorem path_singleton (a : α) : Path next [a] := isChain_singleton a

theorem path_split : Path next (l ++ a :: r) ↔ Path next (l ++ [a]) ∧ Path next (a :: r) :=
  isChain_split

theorem Path.congr {next' : α → α} (h : Path next (l ++ [z])) (heq : ∀ a ∈ l, next' a = next a) :
    Path next' (l ++ [z]) := by
  induction l with
  | nil => exact path_singleton z
  | cons a l ih =>
    have ha := heq a mem_cons_self
    have hl := fun b hb => heq b (mem_cons_of_mem a hb)
    cases l with
    | nil =>
      obtain ⟨hab, -⟩ := path_cons_cons.mp h
      exact path_cons_cons.mpr ⟨ha.trans hab, path_singleton z⟩
    | cons b l =>
      obtain ⟨hab, hrest⟩ := path_cons_cons.mp h
      exact path_cons_cons.mpr ⟨ha.trans hab, ih hrest hl⟩

theorem Path.replace_head {next' : α → α} (h : Path next (a :: l ++ [z])) (hb : next' b = next a)
    (heq : ∀ c ∈ l, next' c = next c) : Path next' (b :: l ++ [z]) := by
  cases l with
  | nil =>
    obtain ⟨haz, -⟩ := path_cons_cons.mp h
    exact path_cons_cons.mpr ⟨hb.trans haz, path_singleton z⟩
  | cons c l =>
    obtain ⟨hac, hrest⟩ := path_cons_cons.mp h
    have htail : Path next (c :: l ++ [z]) := hrest
    exact path_cons_cons.mpr ⟨hb.trans hac, htail.congr heq⟩

theorem Path.rotate (h : Path next (b :: l ++ [b])) (ha : a ∈ b :: l) :
    ∃ r, Path next (a :: r ++ [a]) ∧ (a :: r).Perm (b :: l) := by
  rcases mem_cons.mp ha with rfl | ha
  · exact ⟨l, h, .refl _⟩
  obtain ⟨s, t, rfl⟩ := append_of_mem ha
  have hsplit : Path next ((b :: s) ++ a :: (t ++ [b])) := by simpa using h
  obtain ⟨hs, ht⟩ := path_split.mp hsplit
  refine ⟨t ++ b :: s, ?_, ?_⟩
  · have hglue : Path next ((a :: t) ++ b :: (s ++ [a])) := path_split.mpr ⟨by simpa using ht, by simpa using hs⟩
    simpa using hglue
  · have hperm : ((a :: t) ++ (b :: s)).Perm ((b :: s) ++ (a :: t)) := perm_append_comm
    simpa using hperm

theorem find_of_path (h : Path next (a :: l ++ [z])) (hstop : ∃ b ∈ a :: l, stop b = true) (hn : l.length < n) :
    ∃ b ∈ a :: l, stop b = true ∧ find next stop n a = some b := by
  induction l generalizing a n with
  | nil =>
    obtain _ | n := n
    · omega
    obtain ⟨b, hb, hs⟩ := hstop
    rw [mem_singleton] at hb
    subst hb
    exact ⟨b, mem_singleton_self b, hs, by rw [find, if_pos hs]⟩
  | cons c l ih =>
    obtain _ | n := n
    · omega
    obtain ⟨hac, hrest⟩ := path_cons_cons.mp h
    rw [find]
    by_cases ha : stop a = true
    · exact ⟨a, mem_cons_self, ha, by rw [if_pos ha]⟩
    have hstop' : ∃ b ∈ c :: l, stop b = true := by
      obtain ⟨b, hb, hs⟩ := hstop
      rcases mem_cons.mp hb with rfl | hb
      · exact absurd hs ha
      · exact ⟨b, hb, hs⟩
    simp only [length_cons] at hn
    obtain ⟨b, hb, hs, hfind⟩ := ih (n := n) hrest hstop' (by omega)
    exact ⟨b, mem_cons_of_mem a hb, hs, by rw [if_neg ha, hac, hfind]⟩

end Links
