import Mathlib

-- Machines that take moves one at a time and show what happens as events.

-- What holds of each entry of a table and its new value, if one entry has changed.

theorem rel_update {ι α : Type} [DecidableEq ι] {r : α → α → Prop} (hrefl : ∀ a, r a a) {g : ι → α} {p : ι} {t : α}
    (h : r (g p) t) (q : ι) : r (g q) (Function.update g p t q) := by
  by_cases hq : q = p
  · rw [hq, Function.update_self]
    exact h
  · rw [Function.update_of_ne hq]
    exact hrefl (g q)

theorem field_update {ι α β : Type} [DecidableEq ι] (f : α → β) {g : ι → α} {p : ι} {t : α} (h : f t = f (g p)) (q : ι) :
    f (Function.update g p t q) = f (g q) :=
  rel_update (r := fun a b => f b = f a) (fun _ => rfl) h q

namespace Lts

open Function

-- What a move does to a state, and the events it shows; `none` where the move is not possible.
abbrev Machine (μ σ η : Type) := μ → σ → Option (σ × List η)

variable {μ σ η : Type}

-- The runs from `s` whose moves all meet `ok`, which sees the events so far.
inductive Run (M : Machine μ σ η) (ok : List η → σ → μ → Prop) (s : σ) : List η → σ → Prop where
  | nil : Run M ok s [] s
  | move {es es' : List η} {t t' : σ} (m : μ) (h : Run M ok s es t) (hok : ok es t m)
    (hm : M m t = some (t', es')) : Run M ok s (es ++ es') t'

-- Takes the moves of a list, as long as they are possible and meet `ok`.
def exec (M : Machine μ σ η) (ok : List η → σ → μ → Prop) [∀ es s m, Decidable (ok es s m)] :
    List μ → List η → σ → Option (List η × σ)
  | [], es, s => some (es, s)
  | m :: ms, es, s =>
    if ok es s m then
      match M m s with
      | some (t, es') => exec M ok ms (es ++ es') t
      | none => none
    else none

variable {M : Machine μ σ η} {ok : List η → σ → μ → Prop} {s t t' : σ} {es es' : List η}

-- What holds at the start and is kept by every move holds throughout.
theorem Run.inv {I : List η → σ → Prop} (hr : Run M ok s es t) (h : I [] s)
    (hstep : ∀ es t m t' es', I es t → ok es t m → M m t = some (t', es') → I (es ++ es') t') : I es t := by
  induction hr with
  | nil => exact h
  | move m _ hok hm ih => exact hstep _ _ m _ _ ih hok hm

variable {e : η} {ms : List μ} {P : List η → η → Prop}

theorem run_of_exec [∀ es s m, Decidable (ok es s m)] (hr : Run M ok s es t)
    (h : exec M ok ms es t = some (es', t')) : Run M ok s es' t' := by
  induction ms generalizing es t with
  | nil =>
    cases h
    exact hr
  | cons m ms ih =>
    rw [exec] at h
    by_cases hok : ok es t m
    · rw [if_pos hok] at h
      cases hm : M m t with
      | none => rw [hm] at h; cases h
      | some r =>
        rw [hm] at h
        exact ih (.move m hr hok hm) h
    · rw [if_neg hok] at h
      cases h

theorem run_of_map [∀ es s m, Decidable (ok es s m)] {β : Type} {f : List η × σ → β} {b : β}
    (h : (exec M ok ms [] s).map f = some b) : ∃ es t, Run M ok s es t ∧ f (es, t) = b := by
  obtain ⟨⟨es, t⟩, hexec, hb⟩ := Option.map_eq_some_iff.mp h
  exact ⟨es, t, run_of_exec .nil hexec, hb⟩

-- A property of events that looks at those before.
def Always (P : List η → η → Prop) (es : List η) : Prop :=
  ∀ before e after, es = before ++ e :: after → P before e

theorem always_nil (P : List η → η → Prop) : Always P [] := by
  intro before e after h
  have hlen := congrArg List.length h
  simp at hlen

theorem always_append (h : Always P es)
    (h' : Always (fun before e => P (es ++ before) e) es') : Always P (es ++ es') := by
  intro before e after heq
  obtain ⟨as, hb, hes'⟩ | ⟨bs, hes, ha⟩ := List.append_eq_append_iff.mp heq
  · rw [hb]
    exact h' as e after hes'
  cases bs with
  | nil =>
    rw [List.append_nil] at hes
    have h1 : P (es ++ []) e := h' [] e after ha.symm
    rwa [List.append_nil, hes] at h1
  | cons b bs =>
    rw [List.cons_append, List.cons.injEq] at ha
    obtain ⟨rfl, -⟩ := ha
    exact h before e bs hes

theorem always_singleton (h : P [] e) : Always P [e] := by
  intro before e' after heq
  cases before with
  | nil =>
    rw [List.nil_append, List.cons.injEq] at heq
    rw [← heq.1]
    exact h
  | cons b bs =>
    have hlen := congrArg List.length heq
    simp at hlen

theorem always_snoc (h : Always P es) (he : P es e) : Always P (es ++ [e]) :=
  always_append h (always_singleton (by rwa [List.append_nil]))

-- `got` is what a process has got by the events, `pc` where it is, and every event is fair to what
-- the processes had got before.
structure Standing {ι γ π : Type} (got : List η → ι → γ) (At : γ → π → Prop) (Fair : (ι → γ) → η → Prop)
    (es : List η) (pc : ι → π) : Prop where
  stand : ∀ p, At (got es p) (pc p)
  fair : Always (fun before e => Fair (got before) e) es

section Standing

variable {ι γ π : Type} [DecidableEq ι] {got : List η → ι → γ} {At : γ → π → Prop} {Fair : (ι → γ) → η → Prop}
  {pc : ι → π} {p : ι} {x : π}

theorem Standing.silent (h : Standing got At Fair es pc) (hx : At (got es p) x) :
    Standing got At Fair es (update pc p x) := by
  refine ⟨fun q => ?_, h.fair⟩
  by_cases hq : q = p
  · rw [hq, update_self]
    exact hx
  · rw [update_of_ne hq]
    exact h.stand q

theorem Standing.event (h : Standing got At Fair es pc) (hfair : Fair (got es) e)
    (hother : ∀ q ≠ p, got (es ++ [e]) q = got es q) (hx : At (got (es ++ [e]) p) x) :
    Standing got At Fair (es ++ [e]) (update pc p x) := by
  refine ⟨fun q => ?_, always_snoc h.fair hfair⟩
  by_cases hq : q = p
  · rw [hq, update_self]
    exact hx
  · rw [update_of_ne hq, hother q hq]
    exact h.stand q

end Standing

end Lts
