import Mathlib

-- Doubly linked lists that close in a head. `none` is the head and `some a` the node of `a`.

structure Circular (α : Type) where
  next : Option α → Option α
  prev : Option α → Option α

namespace Circular

open List Function

variable {α : Type}

-- Follows `step` to a node that satisfies `P` or to the head, over fewer than `n` nodes.
def find (step : Option α → Option α) (P : α → Bool) : Nat → Option α → Option (Option α)
  | 0, _ => none
  | _ + 1, none => some none
  | n + 1, some a => if P a then some (some a) else find step P n (step (some a))

section Operations

variable [DecidableEq α]

def setNext (c : Circular α) (x y : Option α) : Circular α := { c with next := update c.next x y }

def setPrev (c : Circular α) (x y : Option α) : Circular α := { c with prev := update c.prev x y }

def clear (c : Circular α) : Circular α := (c.setPrev none none).setNext none none

def unlink (c : Circular α) (a : α) : Circular α :=
  let c := c.setPrev (c.next (some a)) (c.prev (some a))
  c.setNext (c.prev (some a)) (c.next (some a))

def pushFront (c : Circular α) (a : α) : Circular α :=
  let c := c.setNext (some a) (c.next none)
  let c := c.setPrev (some a) none
  let c := c.setPrev (c.next none) (some a)
  c.setNext none (some a)

end Operations

-- The list runs through `l`: wherever it is cut in two, the pointers lead over the cut and back.
structure Lists (c : Circular α) (l : List α) : Prop where
  nodup : l.Nodup
  link : ∀ l1 l2, l1 ++ l2 = l → c.next l1.getLast? = l2.head? ∧ c.prev l2.head? = l1.getLast?

variable {c : Circular α} {l l1 l2 : List α} {a : α} {P : α → Bool} {n : Nat}

theorem getLast?_ne (h : (l1 ++ l2).Nodup) (hne : l2 ≠ []) : l1.getLast? ≠ l2.getLast? := by
  intro heq
  have hmem := getLast_mem hne
  rw [getLast?_eq_some_getLast hne] at heq
  exact disjoint_of_nodup_append h (mem_of_getLast? heq) hmem

theorem head?_ne (h : (l1 ++ l2).Nodup) (hne : l1 ≠ []) : l1.head? ≠ l2.head? := by
  intro heq
  have hmem := head_mem hne
  rw [head?_eq_some_head hne] at heq
  exact disjoint_of_nodup_append h hmem (mem_of_head? heq.symm)

theorem Lists.next_head (h : c.Lists l) : c.next none = l.head? := (h.link [] l rfl).1

theorem Lists.inverse (h : c.Lists l) {x : Option α} (hx : ∀ a, x = some a → a ∈ l) :
    c.prev (c.next x) = x ∧ c.next (c.prev x) = x := by
  cases x with
  | none =>
    have hn := h.link [] l rfl
    have hp := h.link l [] (append_nil l)
    constructor
    · exact (congrArg c.prev hn.1).trans hn.2
    · exact (congrArg c.next hp.2).trans hp.1
  | some a =>
    obtain ⟨l1, l2, rfl⟩ := append_of_mem (hx a rfl)
    have hn := h.link (l1 ++ [a]) l2 (by simp)
    have hp := h.link l1 (a :: l2) rfl
    rw [getLast?_concat] at hn
    rw [head?_cons] at hp
    rw [hn.1, hn.2, hp.2, hp.1]
    exact ⟨rfl, rfl⟩

theorem Lists.find_next_from (h : c.Lists (l1 ++ l2)) (hn : l2.length < n) :
    find c.next P n l2.head? = some (l2.find? P) := by
  induction l2 generalizing l1 n with
  | nil =>
    obtain _ | n := n
    · omega
    rfl
  | cons a l2 ih =>
    obtain _ | n := n
    · omega
    have hs : c.next (some a) = l2.head? := by
      have hlink := h.link (l1 ++ [a]) l2 (by simp)
      rw [getLast?_concat] at hlink
      exact hlink.1
    rw [length_cons] at hn
    rw [head?_cons, find, find?_cons]
    cases ha : P a with
    | true => rfl
    | false =>
      rw [hs]
      have h' : c.Lists ((l1 ++ [a]) ++ l2) := by simpa using h
      exact ih h' (by omega)

theorem Lists.find_next (h : c.Lists l) (hn : l.length < n) : find c.next P n (c.next none) = some (l.find? P) := by
  rw [h.next_head]
  have h' : c.Lists ([] ++ l) := h
  exact h'.find_next_from hn

def flip (c : Circular α) : Circular α := ⟨c.prev, c.next⟩

theorem Lists.flip (h : c.Lists l) : c.flip.Lists l.reverse := by
  refine ⟨nodup_reverse.mpr h.nodup, fun l1 l2 heq => ?_⟩
  have hlink := h.link l2.reverse l1.reverse (by rw [← reverse_append, heq, reverse_reverse])
  rw [getLast?_reverse, head?_reverse] at hlink
  exact ⟨hlink.2, hlink.1⟩

theorem Lists.find_prev (h : c.Lists l) (hn : l.length < n) :
    find c.prev P n (c.prev none) = some (l.reverse.find? P) :=
  h.flip.find_next (by rwa [length_reverse])

variable [DecidableEq α]

theorem lists_clear (c : Circular α) : c.clear.Lists [] := by
  refine ⟨nodup_nil, fun l1 l2 heq => ?_⟩
  obtain ⟨rfl, rfl⟩ := append_eq_nil_iff.mp heq
  simp [clear, setNext, setPrev]

theorem Lists.pushFront (h : c.Lists l) (ha : a ∉ l) : (c.pushFront a).Lists (a :: l) := by
  have hhead : l.head? ≠ some a := fun heq => ha (mem_of_head? heq)
  have hnext : (c.pushFront a).next = update (update c.next (some a) l.head?) none (some a) := by
    rw [← h.next_head]
    rfl
  have hprev : (c.pushFront a).prev = update (update c.prev (some a) none) l.head? (some a) := by
    rw [← h.next_head]
    rfl
  refine ⟨nodup_cons.mpr ⟨ha, h.nodup⟩, fun l1 l2 heq => ?_⟩
  rw [hnext, hprev]
  cases l1 with
  | nil =>
    rw [nil_append] at heq
    rw [heq, head?_cons, getLast?_nil, update_self, update_of_ne hhead.symm, update_self]
    exact ⟨rfl, rfl⟩
  | cons b l1 =>
    rw [cons_append, List.cons.injEq] at heq
    obtain ⟨rfl, heq⟩ := heq
    have hlink := h.link l1 l2 heq
    cases l1 with
    | nil =>
      rw [nil_append] at heq
      rw [heq, getLast?_singleton, update_of_ne (by simp), update_self, update_self]
      exact ⟨rfl, rfl⟩
    | cons b' l1 =>
      have hlast : (b :: b' :: l1).getLast? = (b' :: l1).getLast? := getLast?_cons_cons
      have hnone : (b' :: l1).getLast? ≠ none := by simp
      have hself : (b' :: l1).getLast? ≠ some b := by
        intro hb
        refine ha ?_
        rw [← heq]
        exact mem_append_left _ (mem_of_getLast? hb)
      have hfirst : l2.head? ≠ l.head? := by
        rw [← heq, cons_append, head?_cons]
        have hnd := h.nodup
        rw [← heq] at hnd
        exact (head?_ne hnd (by simp)).symm
      have hb : l2.head? ≠ some b := by
        intro hb
        refine ha ?_
        rw [← heq]
        exact mem_append_right _ (mem_of_head? hb)
      rw [hlast, update_of_ne hnone, update_of_ne hself, update_of_ne hfirst, update_of_ne hb]
      exact hlink

theorem Lists.pushFronts {xs : List α} (h : c.Lists l) (hx : (xs.reverse ++ l).Nodup) :
    (xs.foldl Circular.pushFront c).Lists (xs.reverse ++ l) := by
  induction xs generalizing c l with
  | nil => exact h
  | cons x xs ih =>
    rw [reverse_cons, append_assoc] at hx ⊢
    refine ih (h.pushFront ?_) hx
    exact (nodup_cons.mp hx.of_append_right).1

theorem Lists.unlink (h : c.Lists (l1 ++ a :: l2)) : (c.unlink a).Lists (l1 ++ l2) := by
  have hp := h.link l1 (a :: l2) rfl
  have hn := h.link (l1 ++ [a]) l2 (by simp)
  rw [head?_cons] at hp
  rw [getLast?_concat] at hn
  have hnd := h.nodup
  have hnd' : (l1 ++ l2).Nodup := (nodup_middle.mp hnd).of_cons
  have hself : l2.head? ≠ some a := by
    intro heq
    have hmem := mem_of_head? heq
    exact (nodup_cons.mp (nodup_append.mp hnd).2.1).1 hmem
  have hprev : (c.unlink a).prev = update c.prev l2.head? l1.getLast? := by
    show update c.prev (c.next (some a)) (c.prev (some a)) = _
    rw [hn.1, hp.2]
  have hnext : (c.unlink a).next = update c.next l1.getLast? l2.head? := by
    show update c.next ((c.unlink a).prev (some a)) (c.next (some a)) = _
    rw [hprev, update_of_ne hself.symm, hp.2, hn.1]
  refine ⟨hnd', fun m1 m2 heq => ?_⟩
  rw [hnext, hprev]
  obtain ⟨as, rfl, rfl⟩ | ⟨bs, rfl, rfl⟩ := append_eq_append_iff.mp heq
  · -- the cut is before the place of `a`
    cases has : as with
    | nil => simp
    | cons b bs =>
      have hne : as ≠ [] := by simp [has]
      rw [← has]
      have hl : m1.getLast? ≠ (m1 ++ as).getLast? := by
        have hnd1 : (m1 ++ as).Nodup := (nodup_append.mp hnd').1
        rw [getLast?_append_of_ne_nil _ hne]
        exact getLast?_ne hnd1 hne
      have hf : (as ++ l2).head? ≠ l2.head? := by
        have hnd2 : (as ++ l2).Nodup := by
          rw [append_assoc] at hnd'
          exact (nodup_append.mp hnd').2.1
        rw [head?_append_of_ne_nil _ hne]
        exact head?_ne hnd2 hne
      rw [update_of_ne hl, update_of_ne hf]
      have hlink := h.link m1 (as ++ a :: l2) (by simp)
      have hcut : (as ++ l2).head? = as.head? := head?_append_of_ne_nil _ hne
      rwa [head?_append_of_ne_nil _ hne, ← hcut] at hlink
  · cases hbs : bs with
    | nil => simp
    | cons b cs =>
      have hne : bs ≠ [] := by simp [hbs]
      rw [← hbs]
      have hl : (l1 ++ bs).getLast? ≠ l1.getLast? := by
        have hnd1 : (l1 ++ bs).Nodup := by
          rw [← append_assoc] at hnd'
          exact (nodup_append.mp hnd').1
        rw [getLast?_append_of_ne_nil _ hne]
        exact (getLast?_ne hnd1 hne).symm
      have hf : m2.head? ≠ (bs ++ m2).head? := by
        have hnd2 : (bs ++ m2).Nodup := (nodup_append.mp hnd').2.1
        rw [head?_append_of_ne_nil _ hne]
        exact (head?_ne hnd2 hne).symm
      rw [update_of_ne hl, update_of_ne hf]
      have hlink := h.link (l1 ++ a :: bs) m2 (by simp)
      rwa [getLast?_append_of_ne_nil _ (by simp), getLast?_cons_of_ne_nil hne,
        ← getLast?_append_of_ne_nil l1 hne] at hlink

end Circular
