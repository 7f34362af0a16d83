import Xv6.Lts

-- mutex.c: the table of mutexes, with each function taken as one step.

namespace Mutexes

open Lts Function

abbrev MAX_MUTEXES : Nat := 64

structure Mutex where
  locked : Bool
  pid : Int

abbrev MutexId := Fin MAX_MUTEXES
abbrev Table := MutexId → Mutex

def mutexInit : Table := fun _ => ⟨false, 0⟩

-- The mutex that an argument names.
def slot (id : Int) : Option MutexId :=
  if h : 0 ≤ id ∧ id < MAX_MUTEXES then some ⟨id.toNat, by omega⟩ else none

def mutexCreate (pid : Int) (t : Table) : Int × Table :=
  match (List.finRange MAX_MUTEXES).find? fun i => decide ((t i).pid = 0) with
  | some i => (i.val, update t i { t i with pid := pid })
  | none => (-1, t)

-- There is no result while the caller has to sleep.
def mutexLock (pid id : Int) (t : Table) : Option (Int × Table) :=
  match slot id with
  | none => some (-1, t)
  | some i => if (t i).locked then none else some (0, update t i ⟨true, pid⟩)

-- mutex_unlock and mutex_free do the same.
def drop (pid id : Int) (t : Table) : Int × Table :=
  match slot id with
  | none => (-1, t)
  | some i => if (t i).pid ≠ pid then (-1, t) else (0, update t i ⟨false, 0⟩)

def mutexUnlock (pid id : Int) (t : Table) : Int × Table := drop pid id t

def mutexFree (pid id : Int) (t : Table) : Int × Table := drop pid id t

inductive Op where
  | create
  | lock (id : Int)
  | unlock (id : Int)
  | free (id : Int)
  deriving DecidableEq, Repr

structure Ret (ι : Type) where
  caller : ι
  op : Op
  res : Int
  deriving DecidableEq, Repr

-- The calls as steps of the processes, which are named by their pid.
def atomic : Machine (Int × Op) Table (Ret Int)
  | (pid, .create), t => some ((mutexCreate pid t).2, [⟨pid, .create, (mutexCreate pid t).1⟩])
  | (pid, .lock id), t =>
    match mutexLock pid id t with
    | some (r, t') => some (t', [⟨pid, .lock id, r⟩])
    | none => none
  | (pid, .unlock id), t => some ((mutexUnlock pid id t).2, [⟨pid, .unlock id, (mutexUnlock pid id t).1⟩])
  | (pid, .free id), t => some ((mutexFree pid id t).2, [⟨pid, .free id, (mutexFree pid id t).1⟩])

-- What the results tell the callers: who created a mutex that has not been freed, who holds it, and
-- whether it has been locked since.
structure Usage where
  creator : MutexId → Option Int
  holder : MutexId → Option Int
  used : MutexId → Bool

namespace Usage

def init : Usage := ⟨fun _ => none, fun _ => none, fun _ => false⟩

def next (u : Usage) : Ret Int → Usage
  | ⟨pid, .create, r⟩ =>
    match slot r with
    | some i => ⟨update u.creator i (some pid), update u.holder i none, update u.used i false⟩
    | none => u
  | ⟨pid, .lock id, r⟩ =>
    match slot id with
    | some i => if r = 0 then { u with
      holder := update u.holder i (some pid), used := update u.used i true } else u
    | none => u
  | ⟨_, .unlock id, r⟩ =>
    match slot id with
    | some i => if r = 0 then { u with holder := update u.holder i none } else u
    | none => u
  | ⟨_, .free id, r⟩ =>
    match slot id with
    | some i => if r = 0 then { u with
      creator := update u.creator i none, holder := update u.holder i none } else u
    | none => u

end Usage

def usage (es : List (Ret Int)) : Usage := es.foldl Usage.next Usage.init

theorem usage_snoc (es : List (Ret Int)) (e : Ret Int) : usage (es ++ [e]) = (usage es).next e := by
  simp [usage]

def Expected (u : Usage) : Ret Int → Prop
  | ⟨_, .create, r⟩ => ∀ i, slot r = some i → u.creator i = none
  | ⟨_, .lock id, r⟩ => r = 0 → ∃ i, slot id = some i ∧ u.creator i ≠ none
  | ⟨pid, .unlock id, r⟩ => r = 0 → ∃ i, slot id = some i ∧ u.holder i = some pid
  | ⟨pid, .free id, r⟩ => ∀ i, slot id = some i → u.creator i = some pid → u.holder i = none → r = 0

-- Only created mutexes are locked, a creator unlocks only what it has locked, and once a mutex has
-- been unlocked nobody creates one and its creator does not free it.
def Careful (u : Usage) : Int × Op → Prop
  | (pid, .create) => pid ≠ 0 ∧ ∀ i, u.creator i ≠ none → u.used i = true → u.holder i ≠ none
  | (pid, .lock id) => pid ≠ 0 ∧ ∀ i, slot id = some i → u.creator i ≠ none
  | (pid, .unlock id) => pid ≠ 0 ∧ ∀ i, slot id = some i → u.creator i = some pid → u.used i = true
  | (pid, .free id) => pid ≠ 0 ∧ ∀ i, slot id = some i → u.creator i = some pid → u.holder i = none → u.used i = false

instance (u : Usage) : (m : Int × Op) → Decidable (Careful u m)
  | (_, .create) => inferInstanceAs (Decidable (_ ∧ _))
  | (_, .lock _) => inferInstanceAs (Decidable (_ ∧ _))
  | (_, .unlock _) => inferInstanceAs (Decidable (_ ∧ _))
  | (_, .free _) => inferInstanceAs (Decidable (_ ∧ _))

-- How an entry of the table and the usage of the mutex agree.
inductive Agrees (m : Mutex) : Option Int → Option Int → Bool → Prop where
  | free (used : Bool) (hl : m.locked = false) (hp : m.pid = 0) : Agrees m none none used
  | fresh {c : Int} (hl : m.locked = false) (hp : m.pid = c) (hc : c ≠ 0) : Agrees m (some c) none false
  | held {c h : Int} (hl : m.locked = true) (hp : m.pid = h) (hh : h ≠ 0) : Agrees m (some c) (some h) true
  | released {c : Int} (hl : m.locked = false) (hp : m.pid = 0) : Agrees m (some c) none true

def Consistent (t : Table) (u : Usage) : Prop := ∀ i, Agrees (t i) (u.creator i) (u.holder i) (u.used i)

theorem consistent_init : Consistent mutexInit Usage.init := fun _ => .free false rfl rfl

theorem slot_val (i : MutexId) : slot i.val = some i := by
  have h : (0 : Int) ≤ i.val ∧ (i.val : Int) < MAX_MUTEXES := by omega
  rw [slot, dif_pos h]
  rfl

theorem slot_neg_one : slot (-1) = none := by decide

theorem Consistent.update {t : Table} {u : Usage} (h : Consistent t u) {i : MutexId} {m : Mutex}
    {c d : Option Int} {b : Bool} (hm : Agrees m c d b) :
    Consistent (update t i m) ⟨update u.creator i c, update u.holder i d, update u.used i b⟩ := by
  intro j
  by_cases hj : j = i
  · subst hj
    simpa using hm
  · simpa [hj] using h j

section Steps

variable {t : Table} {u : Usage} {pid : Int}

theorem create_step (h : Consistent t u) (hc : Careful u (pid, .create)) :
    Expected u ⟨pid, .create, (mutexCreate pid t).1⟩ ∧
      Consistent (mutexCreate pid t).2 (u.next ⟨pid, .create, (mutexCreate pid t).1⟩) := by
  unfold mutexCreate
  cases hf : (List.finRange MAX_MUTEXES).find? fun i => decide ((t i).pid = 0) with
  | none =>
    simp only [Expected, Usage.next, slot_neg_one]
    exact ⟨nofun, h⟩
  | some i =>
    have hpid : (t i).pid = 0 := by simpa using List.find?_some hf
    have hcre : u.creator i = none ∧ (t i).locked = false := by
      have hi := h i
      generalize hcr : u.creator i = c at hi
      generalize hho : u.holder i = d at hi
      generalize hus : u.used i = b at hi
      cases hi with
      | free _ hl _ => exact ⟨rfl, hl⟩
      | fresh _ hp hz | held _ hp hz => exact absurd (hp.symm.trans hpid) hz
      | released => exact absurd hho (hc.2 i (by simp [hcr]) hus)
    simp only [Expected, Usage.next, slot_val]
    refine ⟨fun j hj => ?_, h.update (.fresh hcre.2 rfl hc.1)⟩
    cases hj
    exact hcre.1

theorem lock_step (h : Consistent t u) {id r : Int} {t' : Table} (hc : Careful u (pid, .lock id))
    (hr : mutexLock pid id t = some (r, t')) :
    Expected u ⟨pid, .lock id, r⟩ ∧ Consistent t' (u.next ⟨pid, .lock id, r⟩) := by
  unfold mutexLock at hr
  cases hs : slot id with
  | none =>
    simp only [hs] at hr
    cases hr
    simp only [Expected, Usage.next, hs]
    exact ⟨fun h => absurd h (by decide), h⟩
  | some i =>
    simp only [hs] at hr
    split at hr
    · cases hr
    cases hr
    have hcre := hc.2 i hs
    obtain ⟨c, hcr⟩ := Option.ne_none_iff_exists'.mp hcre
    simp only [Expected, Usage.next, hs, if_true]
    refine ⟨fun _ => ⟨i, rfl, hcre⟩, ?_⟩
    have hup := h.update (i := i) (Agrees.held (m := ⟨true, pid⟩) (c := c) rfl rfl hc.1)
    rwa [← hcr, update_eq_self] at hup

theorem drop_cases (t : Table) (pid id : Int) :
    ((drop pid id t).1 ≠ 0 ∧ (drop pid id t).2 = t ∧ ∀ i, slot id = some i → (t i).pid ≠ pid) ∨
      ∃ i, slot id = some i ∧ (t i).pid = pid ∧ drop pid id t = (0, update t i ⟨false, 0⟩) := by
  unfold drop
  cases hs : slot id with
  | none => exact .inl ⟨(by decide : (-1 : Int) ≠ 0), rfl, nofun⟩
  | some i =>
    by_cases hp : (t i).pid = pid
    · refine .inr ⟨i, rfl, hp, ?_⟩
      simp only [hp, ne_eq, not_true, if_false]
    · refine .inl ?_
      simp only [ne_eq, hp, not_false_eq_true, if_true]
      exact ⟨by decide, trivial, fun j hj => by cases hj; exact hp⟩

theorem unlock_step (h : Consistent t u) {id : Int} (hc : Careful u (pid, .unlock id)) :
    Expected u ⟨pid, .unlock id, (mutexUnlock pid id t).1⟩ ∧
      Consistent (mutexUnlock pid id t).2 (u.next ⟨pid, .unlock id, (mutexUnlock pid id t).1⟩) := by
  unfold mutexUnlock
  rcases drop_cases t pid id with ⟨hr, ht, -⟩ | ⟨i, hs, hp, hd⟩
  · refine ⟨fun h0 => absurd h0 hr, ?_⟩
    rw [ht]
    simp only [Usage.next, hr, if_false]
    cases slot id <;> exact h
  rw [hd]
  have hi := h i
  have hcare := hc.2 i hs
  generalize hcr : u.creator i = c at hi
  generalize hho : u.holder i = d at hi
  generalize hus : u.used i = b at hi
  simp only [Expected, Usage.next, hs, if_true]
  cases hi with
  | free _ _ hp' | released _ hp' => exact absurd (hp.symm.trans hp') hc.1
  | @fresh c _ hp' _ =>
    have := hcare (hcr.trans (congrArg some (hp'.symm.trans hp)))
    rw [hus] at this
    cases this
  | @held c h' _ hp' _ =>
    refine ⟨fun _ => ⟨i, rfl, hho.trans (congrArg some (hp'.symm.trans hp))⟩, ?_⟩
    have hup := h.update (i := i) (Agrees.released (m := ⟨false, 0⟩) (c := c) rfl rfl)
    rwa [← hcr, update_eq_self, ← hus, update_eq_self] at hup

theorem free_step (h : Consistent t u) {id : Int} (hc : Careful u (pid, .free id)) :
    Expected u ⟨pid, .free id, (mutexFree pid id t).1⟩ ∧
      Consistent (mutexFree pid id t).2 (u.next ⟨pid, .free id, (mutexFree pid id t).1⟩) := by
  unfold mutexFree
  rcases drop_cases t pid id with ⟨hr, ht, hne⟩ | ⟨i, hs, hp, hd⟩
  · constructor
    · intro i hs hcr hho
      have hi := h i
      rw [hcr, hho, hc.2 i hs hcr hho] at hi
      cases hi with
      | fresh _ hp _ => exact absurd hp (hne i hs)
    · rw [ht]
      simp only [Usage.next, hr, if_false]
      cases slot id <;> exact h
  · rw [hd]
    simp only [Expected, Usage.next, hs, if_true]
    refine ⟨fun _ _ _ _ => trivial, ?_⟩
    have hup := h.update (i := i) (Agrees.free (m := ⟨false, 0⟩) (u.used i) rfl rfl)
    rwa [update_eq_self] at hup

end Steps

-- In every run of careful calls, every result is the one its caller expects.
theorem mutex_ids_exclusive {es : List (Ret Int)} {t : Table}
    (hr : Run atomic (fun es _ m => Careful (usage es) m) mutexInit es t) :
    Always (fun before e => Expected (usage before) e) es := by
  have hinv : Consistent t (usage es) ∧ Always (fun before e => Expected (usage before) e) es := by
    refine hr.inv (I := fun es t => Consistent t (usage es) ∧
      Always (fun before e => Expected (usage before) e) es) ⟨consistent_init, always_nil _⟩ ?_
    intro es t m t' es' ⟨hc, ha⟩ hok hm
    have hone : ∀ e, es' = [e] → Expected (usage es) e ∧ Consistent t' ((usage es).next e) →
        Consistent t' (usage (es ++ es')) ∧ Always (fun before e => Expected (usage before) e) (es ++ es') := by
      intro e he hstep
      rw [he, usage_snoc]
      exact ⟨hstep.2, always_snoc ha hstep.1⟩
    obtain ⟨pid, op⟩ := m
    cases op with
    | create =>
      cases hm
      exact hone _ rfl (create_step hc hok)
    | lock id =>
      simp only [atomic] at hm
      split at hm
      · next r t1 hlock =>
        cases hm
        exact hone _ rfl (lock_step hc hok hlock)
      · cases hm
    | unlock id =>
      cases hm
      exact hone _ rfl (unlock_step hc hok)
    | free id =>
      cases hm
      exact hone _ rfl (free_step hc hok)
  exact hinv.2

theorem mutex_ids_exclusive_lockFree : ∃ es t,
    Run atomic (fun es _ m => Careful (usage es) m) mutexInit es t ∧ es.map Ret.res = [0, 0, 0] ∧
      Always (fun before e => Expected (usage before) e) es := by
  have hrun : (exec atomic (fun es _ m => Careful (usage es) m) [(1, .create), (1, .lock 0), (1, .free 0)] []
      mutexInit).map (fun r => r.1.map Ret.res) = some [0, 0, 0] := by
    decide
  obtain ⟨es, t, hr, hes⟩ := run_of_map hrun
  exact ⟨es, t, hr, hes, mutex_ids_exclusive hr⟩

-- After an unlock the identifier is given to a second creator, although nobody has freed it.
theorem not_mutex_ids_exclusive : ∃ es t, Run atomic (fun _ _ _ => True) mutexInit es t ∧
    ¬Always (fun before e => Expected (usage before) e) es := by
  have hrun : (exec atomic (fun _ _ _ => True) [(1, .create), (1, .lock 0), (1, .unlock 0), (2, .create)] []
      mutexInit).map Prod.fst = some ([⟨1, .create, 0⟩, ⟨1, .lock 0, 0⟩, ⟨1, .unlock 0, 0⟩] ++ [⟨2, .create, 0⟩]) := by
    decide
  obtain ⟨es, t, hr, hes⟩ := run_of_map hrun
  refine ⟨es, t, hr, fun h => ?_⟩
  have hfree : (usage [⟨1, .create, 0⟩, ⟨1, .lock 0, 0⟩, ⟨1, .unlock 0, 0⟩]).creator 0 = none :=
    h _ _ [] hes 0 (by decide)
  revert hfree
  decide

end Mutexes
