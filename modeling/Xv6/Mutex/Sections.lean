import Xv6.Mutex

-- mutex.c with every access to the table as a step. Sections exclude each other within
-- mutex_create, and within the other functions on the same mutex.

namespace Mutexes

open Lts Function

-- `dropAcquire` and so on are the steps of mutex_unlock and, with `free`, of mutex_free.
inductive Pc where
  | user
  | createAcquire
  | createScan (i : Nat)
  | createMark (i : MutexId)
  | createRelease (r : Int)
  | lockAcquire (i : MutexId)
  | lockTest (i : MutexId)
  | lockSleep (i : MutexId)
  | lockSet (i : MutexId)
  | lockMark (i : MutexId)
  | lockRelease (i : MutexId)
  | dropAcquire (free : Bool) (i : MutexId)
  | dropTest (free : Bool) (i : MutexId)
  | dropClear (free : Bool) (i : MutexId)
  | dropUnmark (free : Bool) (i : MutexId)
  | dropRelease (free : Bool) (i : MutexId) (r : Int)

-- `tlock` is mtable.lock, `lk` are the spinlocks of the mutexes, with their holders.
structure State (ι : Type) where
  table : Table
  tlock : Option ι
  lk : MutexId → Option ι
  pc : ι → Pc

inductive Move (ι : Type) where
  | call (p : ι) (op : Op)
  | step (p : ι)

variable {ι : Type} {pid : ι → Int} {s s' : State ι} {i : MutexId} {pc : Pc}

section Machine

variable [DecidableEq ι]

namespace State

def init : State ι := ⟨mutexInit, none, fun _ => none, fun _ => .user⟩

@[simp]
def goto (s : State ι) (p : ι) (pc : Pc) : State ι := { s with pc := update s.pc p pc }

@[simp]
def setMutex (s : State ι) (i : MutexId) (m : Mutex) : State ι :=
  { s with table := update s.table i m }

@[simp]
def setTlock (s : State ι) (h : Option ι) : State ι := { s with tlock := h }

@[simp]
def setLk (s : State ι) (i : MutexId) (h : Option ι) : State ι := { s with lk := update s.lk i h }

end State

def dropOp (free : Bool) (i : MutexId) : Op := if free then .free i.val else .unlock i.val

def enter (s : State ι) (p : ι) (op : Op) (pc : MutexId → Pc) (id : Int) : State ι × List (Ret ι) :=
  match slot id with
  | some i => (s.goto p (pc i), [])
  | none => (s, [⟨p, op, -1⟩])

variable (pid : ι → Int)

-- A process that sleeps in mutex_lock may be woken at any time, also by kill.
def sections : Machine (Move ι) (State ι) (Ret ι)
  | .call p op, s =>
    match s.pc p with
    | .user =>
      match op with
      | .create => some (s.goto p .createAcquire, [])
      | .lock id => some (enter s p op .lockAcquire id)
      | .unlock id => some (enter s p op (.dropAcquire false) id)
      | .free id => some (enter s p op (.dropAcquire true) id)
    | _ => none
  | .step p, s =>
    match s.pc p with
    | .user => none
    | .createAcquire =>
      match s.tlock with
      | none => some ((s.setTlock (some p)).goto p (.createScan 0), [])
      | some _ => none
    | .createScan i =>
      if h : i < MAX_MUTEXES then
        if (s.table ⟨i, h⟩).pid = 0 then some (s.goto p (.createMark ⟨i, h⟩), [])
        else some (s.goto p (.createScan (i + 1)), [])
      else some (s.goto p (.createRelease (-1)), [])
    | .createMark i => some ((s.setMutex i { s.table i with pid := pid p }).goto p (.createRelease i.val), [])
    | .createRelease r => some ((s.setTlock none).goto p .user, [⟨p, .create, r⟩])
    | .lockAcquire i =>
      match s.lk i with
      | none => some ((s.setLk i (some p)).goto p (.lockTest i), [])
      | some _ => none
    | .lockTest i =>
      if (s.table i).locked then some ((s.setLk i none).goto p (.lockSleep i), [])
      else some (s.goto p (.lockSet i), [])
    | .lockSleep i => some (s.goto p (.lockAcquire i), [])
    | .lockSet i => some ((s.setMutex i { s.table i with locked := true }).goto p (.lockMark i), [])
    | .lockMark i => some ((s.setMutex i { s.table i with pid := pid p }).goto p (.lockRelease i), [])
    | .lockRelease i => some ((s.setLk i none).goto p .user, [⟨p, .lock i.val, 0⟩])
    | .dropAcquire free i =>
      match s.lk i with
      | none => some ((s.setLk i (some p)).goto p (.dropTest free i), [])
      | some _ => none
    | .dropTest free i =>
      if (s.table i).pid ≠ pid p then some (s.goto p (.dropRelease free i (-1)), [])
      else some (s.goto p (.dropClear free i), [])
    | .dropClear free i =>
      some ((s.setMutex i { s.table i with locked := false }).goto p (.dropUnmark free i), [])
    | .dropUnmark free i =>
      some ((s.setMutex i { s.table i with pid := 0 }).goto p (.dropRelease free i 0), [])
    | .dropRelease free i r => some ((s.setLk i none).goto p .user, [⟨p, dropOp free i, r⟩])

def holderNext (h : MutexId → Option ι) : Ret ι → MutexId → Option ι
  | ⟨p, .lock id, r⟩ =>
    match slot id with
    | some i => if r = 0 then update h i (some p) else h
    | none => h
  | ⟨p, .unlock id, r⟩ =>
    match slot id with
    | some i => if r = 0 ∧ h i = some p then update h i none else h
    | none => h
  | ⟨p, .free id, r⟩ =>
    match slot id with
    | some i => if r = 0 ∧ h i = some p then update h i none else h
    | none => h
  | ⟨_, .create, _⟩ => h

def holder (es : List (Ret ι)) : MutexId → Option ι := es.foldl holderNext fun _ => none

-- While a mutex is held only its holder's calls on it return 0, and its holder's unlock does.
def Excludes (h : MutexId → Option ι) : Ret ι → Prop
  | ⟨_, .create, _⟩ => True
  | ⟨p, .lock id, r⟩ => r = 0 → ∀ i q, slot id = some i → h i = some q → q = p
  | ⟨p, .unlock id, r⟩ => ∀ i q, slot id = some i → h i = some q → (r = 0 ↔ q = p)
  | ⟨p, .free id, r⟩ => ∀ i q, slot id = some i → h i = some q → (r = 0 ↔ q = p)

-- A mutex_create that writes its pid into an entry finds it still unmarked.
def Unraced (s : State ι) : Move ι → Prop
  | .step p =>
    match s.pc p with
    | .createMark i => (s.table i).pid = 0
    | _ => True
  | .call _ _ => True

instance (s : State ι) (m : Move ι) : Decidable (Unraced s m) := by
  unfold Unraced
  split
  · split <;> infer_instance
  · infer_instance

def At (h : MutexId → Option ι) (s : State ι) (p : ι) : Pc → Prop
  | .createScan _ | .createMark _ | .createRelease _ => s.tlock = some p
  | .lockTest i => s.lk i = some p
  | .lockSet i => s.lk i = some p ∧ (s.table i).locked = false ∧ h i = none
  | .lockMark i => s.lk i = some p ∧ (s.table i).locked = true ∧ h i = none
  | .lockRelease i => s.lk i = some p ∧ (s.table i).locked = true ∧ (s.table i).pid = pid p ∧ h i = none
  | .dropTest _ i => s.lk i = some p
  | .dropClear _ i => s.lk i = some p ∧ (s.table i).pid = pid p ∧ ∀ q, h i = some q → q = p
  | .dropUnmark _ i => s.lk i = some p ∧ (s.table i).pid = pid p ∧ ∀ q, h i = some q → q = p
  | .dropRelease _ i r => s.lk i = some p ∧ ∀ q, h i = some q → (r = 0 ↔ q = p)
  | _ => True

def Leaving (i : MutexId) : Pc → Prop
  | .dropUnmark _ j => j = i
  | .dropRelease _ j r => j = i ∧ r = 0
  | _ => False

def Held (s : State ι) (i : MutexId) (p : ι) : Prop :=
  Leaving i (s.pc p) ∨ ((s.table i).locked = true ∧ (s.table i).pid = pid p)

structure Inv (h : MutexId → Option ι) (s : State ι) : Prop where
  stand : ∀ p, At pid h s p (s.pc p)
  held : ∀ i p, h i = some p → Held pid s i p

end Machine

attribute [local simp] Leaving

section Steps

variable {h h' : MutexId → Option ι} {p q : ι}

-- An entry to a process that does not work on it: only a mutex_create may have marked it.
def Calm (m m' : Mutex) : Prop := m'.locked = m.locked ∧ (m.pid ≠ 0 → m'.pid = m.pid)

theorem calm_refl (m : Mutex) : Calm m m := ⟨rfl, fun _ => rfl⟩

structure Others (p : ι) (h h' : MutexId → Option ι) (s s' : State ι) : Prop where
  pc : ∀ q, q ≠ p → s'.pc q = s.pc q
  tlock : ∀ q, q ≠ p → s.tlock = some q → s'.tlock = some q
  lk : ∀ q i, q ≠ p → s.lk i = some q → s'.lk i = some q ∧ Calm (s.table i) (s'.table i) ∧ h' i = h i

variable {v : Int} {x : Option ι} {m : Mutex}

theorem At.keep (hat : At pid h s q pc) (hq : pid q ≠ 0) (hne : q ≠ p) (ho : Others p h h' s s') :
    At pid h' s' q pc := by
  have hpid : ∀ i, (s.table i).pid = pid q → Calm (s.table i) (s'.table i) → (s'.table i).pid = pid q := by
    intro i hi hc
    exact (hc.2 (by rw [hi]; exact hq)).trans hi
  cases pc with
  | user | createAcquire | lockAcquire | lockSleep | dropAcquire => trivial
  | createScan | createMark | createRelease => exact ho.tlock q hne hat
  | lockTest i | dropTest _ i => exact (ho.lk q i hne hat).1
  | lockSet i | lockMark i =>
    obtain ⟨hlk, hl, hh⟩ := hat
    obtain ⟨hlk', hc, hh'⟩ := ho.lk q i hne hlk
    exact ⟨hlk', hc.1.trans hl, hh'.trans hh⟩
  | lockRelease i =>
    obtain ⟨hlk, hl, hp, hh⟩ := hat
    obtain ⟨hlk', hc, hh'⟩ := ho.lk q i hne hlk
    exact ⟨hlk', hc.1.trans hl, hpid i hp hc, hh'.trans hh⟩
  | dropClear _ i | dropUnmark _ i =>
    obtain ⟨hlk, hp, hh⟩ := hat
    obtain ⟨hlk', hc, hh'⟩ := ho.lk q i hne hlk
    rw [← hh'] at hh
    exact ⟨hlk', hpid i hp hc, hh⟩
  | dropRelease _ i _ =>
    obtain ⟨hlk, hh⟩ := hat
    obtain ⟨hlk', -, hh'⟩ := ho.lk q i hne hlk
    rw [← hh'] at hh
    exact ⟨hlk', hh⟩

-- A step of `p` keeps the invariant if it does so for `p` and the holders of the mutexes that it
-- changes or gives up.
theorem Inv.step (hinv : Inv pid h s) (hnz : ∀ q, pid q ≠ 0) (ho : Others p h h' s s') (hp : At pid h' s' p (s'.pc p))
    (hheld : ∀ i, (h' i = h i ∧ Calm (s.table i) (s'.table i) ∧ ¬Leaving i (s.pc p)) ∨
      ∀ q, h' i = some q → Held pid s' i q) : Inv pid h' s' := by
  constructor
  · intro q
    by_cases hq : q = p
    · rw [hq]
      exact hp
    · rw [ho.pc q hq]
      exact (hinv.stand q).keep (hnz q) hq ho
  · intro i q hiq
    rcases hheld i with ⟨hh, hc, hl⟩ | hi
    · rcases hinv.held i q (hh ▸ hiq) with hleave | ⟨hlocked, hpid⟩
      · have hq : q ≠ p := by
          intro e
          subst e
          exact hl hleave
        exact .inl ((ho.pc q hq).symm ▸ hleave)
      · exact .inr ⟨hc.1.trans hlocked, (hc.2 (hpid ▸ hnz q)).trans hpid⟩
    · exact hi q hiq

theorem lk_of_leaving (hat : At pid h s p pc) (hl : Leaving i pc) : s.lk i = some p := by
  cases pc with
  | dropUnmark _ j => exact (hl : j = i) ▸ hat.1
  | dropRelease _ j _ => exact hl.1 ▸ hat.1
  | _ => exact hl.elim

theorem Inv.entry (hinv : Inv pid h s) (hlk : s.lk i = some p) (hl : ¬Leaving i (s.pc p))
    (hh : h i = some q) : (s.table i).locked = true ∧ (s.table i).pid = pid q := by
  rcases hinv.held i q hh with hleave | hentry
  · have hq := lk_of_leaving (hinv.stand q) hleave
    rw [hlk] at hq
    cases hq
    exact absurd hleave hl
  · exact hentry

theorem Inv.plain (hinv : Inv pid h s) (hnz : ∀ q, pid q ≠ 0) (ho : Others p h h s s') (htable : s'.table = s.table)
    (hl : ∀ i, ¬Leaving i (s.pc p)) (hp : At pid h s' p (s'.pc p)) : Inv pid h s' :=
  hinv.step hnz ho hp fun i => .inl ⟨rfl, htable ▸ calm_refl _, hl i⟩

theorem calm_mark (h0 : (s.table i).pid = 0) (j : MutexId) :
    Calm (s.table j) ((s.setMutex i { s.table i with pid := v }).table j) :=
  rel_update calm_refl (by simp [Calm, h0]) j

theorem excludes_drop {free : Bool} (hh : ∀ q, h i = some q → (v = 0 ↔ q = p)) :
    Excludes h ⟨p, dropOp free i, v⟩ := by
  have hall : ∀ j q, slot i.val = some j → h j = some q → (v = 0 ↔ q = p) := by
    intro j q hj hq
    rw [slot_val] at hj
    cases hj
    exact hh q hq
  cases free <;> exact hall

variable [DecidableEq ι]

theorem holder_snoc (es : List (Ret ι)) (e : Ret ι) : holder (es ++ [e]) = holderNext (holder es) e := by
  simp [holder]

theorem goto_pc_self : (s.goto p pc).pc p = pc := update_self ..

theorem others_goto : Others p h h s (s.goto p pc) :=
  ⟨fun _ hq => update_of_ne hq .., fun _ _ => id, fun _ _ _ hi => ⟨hi, calm_refl _, rfl⟩⟩

theorem others_setTlock (hx : ∀ q, q ≠ p → s.tlock ≠ some q) :
    Others p h h s ((s.setTlock x).goto p pc) :=
  ⟨fun _ hq => update_of_ne hq .., fun q hq ht => absurd ht (hx q hq), fun _ _ _ hi => ⟨hi, calm_refl _, rfl⟩⟩

theorem others_setLk (hx : ∀ q, q ≠ p → s.lk i ≠ some q) (hh : ∀ j, j ≠ i → h' j = h j) :
    Others p h h' s ((s.setLk i x).goto p pc) := by
  refine ⟨fun _ hq => update_of_ne hq .., fun _ _ => id, fun q j hq hj => ?_⟩
  have hne : j ≠ i := by
    intro e
    subst e
    exact hx q hq hj
  exact ⟨(update_of_ne hne ..).trans hj, calm_refl _, hh j hne⟩

theorem others_setMutex (hlk : s.lk i = some p) : Others p h h s ((s.setMutex i m).goto p pc) := by
  refine ⟨fun _ hq => update_of_ne hq .., fun _ _ => id, fun q j hq hj => ?_⟩
  have hne : j ≠ i := by
    intro e
    subst e
    rw [hlk] at hj
    cases hj
    exact hq rfl
  have htable : ((s.setMutex i m).goto p pc).table j = s.table j := update_of_ne hne ..
  rw [htable]
  exact ⟨hj, calm_refl _, rfl⟩

theorem others_mark (h0 : (s.table i).pid = 0) :
    Others p h h s ((s.setMutex i { s.table i with pid := v }).goto p pc) :=
  ⟨fun _ hq => update_of_ne hq .., fun _ _ => id, fun _ j _ hj => ⟨hj, calm_mark h0 j, rfl⟩⟩

theorem Inv.change (hinv : Inv pid h s) (hnz : ∀ q, pid q ≠ 0) (hlk : s.lk i = some p)
    (hl : ∀ j, j ≠ i → ¬Leaving j (s.pc p)) (hp : At pid h ((s.setMutex i m).goto p pc) p pc)
    (hi : ∀ q, h i = some q → Held pid ((s.setMutex i m).goto p pc) i q) :
    Inv pid h ((s.setMutex i m).goto p pc) := by
  refine hinv.step hnz (others_setMutex hlk) (by simpa using hp) fun j => ?_
  by_cases hj : j = i
  · subst hj
    exact .inr hi
  · refine .inl ⟨rfl, ?_, hl j hj⟩
    simpa [hj] using calm_refl _

end Steps

section Run

variable [DecidableEq ι] {h : MutexId → Option ι} {p : ι}

def Good (pid : ι → Int) (h : MutexId → Option ι) (r : State ι × List (Ret ι)) : Prop :=
  (r.2 = [] ∧ Inv pid h r.1) ∨ ∃ e, r.2 = [e] ∧ Excludes h e ∧ Inv pid (holderNext h e) r.1

theorem holderNext_drop (free : Bool) (i : MutexId) (v : Int) : holderNext h ⟨p, dropOp free i, v⟩ =
    if v = 0 ∧ h i = some p then update h i none else h := by
  cases free <;> simp [dropOp, holderNext, slot_val]

section Calls

variable (hinv : Inv pid h s) (hnz : ∀ q, pid q ≠ 0)

include hinv hnz

variable {op : Op} {r : State ι × List (Ret ι)}

theorem enter_good (hu : s.pc p = .user) {id : Int}
    {pc : MutexId → Pc} (hpc : ∀ s i, At pid h s p (pc i))
    (hn : slot id = none → Excludes h ⟨p, op, -1⟩ ∧ holderNext h ⟨p, op, -1⟩ = h) :
    Good pid h (enter s p op pc id) := by
  unfold enter
  cases hs : slot id with
  | none =>
    obtain ⟨he, hh⟩ := hn hs
    exact .inr ⟨_, rfl, he, hh.symm ▸ hinv⟩
  | some i =>
    refine .inl ⟨rfl, hinv.plain hnz others_goto rfl (by simp [hu]) ?_⟩
    simpa using hpc _ i

theorem call_good (hm : sections pid (.call p op) s = some r) : Good pid h r := by
  simp only [sections] at hm
  split at hm
  · next hu =>
    cases op with
    | create =>
      cases hm
      refine .inl ⟨rfl, hinv.plain hnz others_goto rfl (by simp [hu]) ?_⟩
      simp [At]
    | lock id =>
      cases hm
      refine enter_good hinv hnz hu (fun _ _ => trivial) fun hs => ⟨?_, by simp [holderNext, hs]⟩
      intro h0
      exact absurd h0 (by decide)
    | unlock id | free id =>
      cases hm
      refine enter_good hinv hnz hu (fun _ _ => trivial) fun hs => ⟨?_, by simp [holderNext, hs]⟩
      intro i q hi
      rw [hs] at hi
      cases hi
  · cases hm

theorem Inv.release {h' : MutexId → Option ι} {pc : Pc}
    (hlk : s.lk i = some p) (hh : ∀ j, j ≠ i → h' j = h j) (hl : ∀ j, j ≠ i → ¬Leaving j (s.pc p))
    (hp : ∀ s, At pid h' s p pc)
    (hi : ∀ q, h' i = some q → Held pid ((s.setLk i none).goto p pc) i q) :
    Inv pid h' ((s.setLk i none).goto p pc) := by
  have hown : ∀ q, q ≠ p → s.lk i ≠ some q := by
    intro q hq hsome
    rw [hlk] at hsome
    cases hsome
    exact hq rfl
  refine hinv.step hnz (others_setLk hown hh) ?_ fun j => ?_
  · simpa using hp _
  · by_cases hj : j = i
    · subst hj
      exact .inr hi
    · exact .inl ⟨hh j hj, calm_refl _, hl j hj⟩

theorem dropRelease_good {free : Bool} {v : Int} (hpc : s.pc p = .dropRelease free i v) :
    Good pid h ((s.setLk i none).goto p .user, [⟨p, dropOp free i, v⟩]) := by
  have hat := hinv.stand p
  rw [hpc] at hat
  obtain ⟨hlk, hh⟩ := hat
  refine .inr ⟨_, rfl, excludes_drop hh, ?_⟩
  have hleave : ∀ j, j ≠ i → ¬Leaving j (s.pc p) := by
    intro j hj hl
    rw [hpc] at hl
    exact hj hl.1.symm
  rw [holderNext_drop]
  by_cases hv : v = 0 ∧ h i = some p
  · rw [if_pos hv]
    exact hinv.release hnz hlk (fun j hj => update_of_ne hj ..) hleave (fun _ => trivial) (by simp)
  rw [if_neg hv]
  refine hinv.release hnz hlk (fun _ _ => rfl) hleave (fun _ => trivial) fun q hq => ?_
  have hvz : v ≠ 0 := by
    intro h0
    have hqp := (hh q hq).mp h0
    exact hv ⟨h0, hqp ▸ hq⟩
  refine .inr (hinv.entry hlk ?_ hq)
  rw [hpc]
  exact fun hl => hvz hl.2

theorem step_good (hinj : Function.Injective pid)
    (hrace : Unraced s (.step p)) (hm : sections pid (.step p) s = some r) : Good pid h r := by
  have hat := hinv.stand p
  simp only [sections] at hm
  simp only [Unraced] at hrace
  generalize hpc : s.pc p = pc at hat hm hrace
  cases pc with
  | user => cases hm
  | createAcquire =>
    cases ht : s.tlock with
    | some q => simp [ht] at hm
    | none =>
      simp only [ht] at hm
      cases hm
      refine .inl ⟨rfl, hinv.plain hnz (others_setTlock (by simp [ht])) rfl (by simp [hpc]) ?_⟩
      simp [At]
  | createScan i =>
    have hgo : ∀ pc, (∀ s : State ι, s.tlock = some p → At pid h s p pc) → Good pid h (s.goto p pc, []) := by
      intro pc hpc'
      refine .inl ⟨rfl, hinv.plain hnz others_goto rfl (by simp [hpc]) ?_⟩
      simpa using hpc' (s.goto p pc) hat
    simp only at hm
    split at hm
    · split at hm
      · cases hm
        exact hgo _ fun _ => id
      · cases hm
        exact hgo _ fun _ => id
    · cases hm
      exact hgo _ fun _ => id
  | createMark i =>
    cases hm
    refine .inl ⟨rfl, hinv.step hnz (others_mark hrace) ?_ fun j => .inl ⟨rfl, calm_mark hrace j, ?_⟩⟩
    · simpa [At] using hat
    · simp [hpc]
  | createRelease v =>
    cases hm
    have hown : ∀ q, q ≠ p → s.tlock ≠ some q := by
      intro q hq hsome
      rw [show s.tlock = some p from hat] at hsome
      cases hsome
      exact hq rfl
    refine .inr ⟨_, rfl, trivial, hinv.plain hnz (others_setTlock hown) rfl (by simp [hpc]) ?_⟩
    simp [At]
  | lockAcquire i | dropAcquire free i =>
    cases ht : s.lk i with
    | some q => simp [ht] at hm
    | none =>
      simp only [ht] at hm
      cases hm
      refine .inl ⟨rfl, hinv.plain hnz (others_setLk (by simp [ht]) fun _ _ => rfl) rfl
        (by simp [hpc]) ?_⟩
      simp [At]
  | lockTest i =>
    have hlk : s.lk i = some p := hat
    simp only at hm
    split at hm
    · cases hm
      refine .inl ⟨rfl, hinv.plain hnz (others_setLk ?_ fun _ _ => rfl) rfl (by simp [hpc]) ?_⟩
      · simp [hlk, eq_comm]
      · simp [At]
    · next hl =>
      cases hm
      refine .inl ⟨rfl, hinv.plain hnz others_goto rfl (by simp [hpc]) ?_⟩
      have hnone : h i = none := by
        cases hi : h i with
        | none => rfl
        | some q => exact absurd (hinv.entry hlk (by simp [hpc]) hi).1 hl
      simpa [At, hnone, hlk] using hl
  | lockSleep i =>
    cases hm
    refine .inl ⟨rfl, hinv.plain hnz others_goto rfl (by simp [hpc]) ?_⟩
    simp [At]
  | lockSet i =>
    obtain ⟨hlk, hl, hh⟩ := hat
    cases hm
    refine .inl ⟨rfl, hinv.change hnz hlk (by simp [hpc]) ?_ (by simp [hh])⟩
    simp [At, hlk, hh]
  | lockMark i =>
    obtain ⟨hlk, hl, hh⟩ := hat
    cases hm
    refine .inl ⟨rfl, hinv.change hnz hlk (by simp [hpc]) ?_ (by simp [hh])⟩
    simp [At, hlk, hh, hl]
  | lockRelease i =>
    obtain ⟨hlk, hl, hp, hh⟩ := hat
    cases hm
    refine .inr ⟨_, rfl, ?_, ?_⟩
    · intro _ j q hj hq
      rw [slot_val] at hj
      cases hj
      rw [hh] at hq
      cases hq
    · simp only [holderNext, slot_val, if_true]
      refine hinv.release hnz hlk (fun j hj => update_of_ne hj ..) (by simp [hpc])
        (fun _ => trivial) fun q hq => ?_
      rw [update_self] at hq
      cases hq
      exact .inr ⟨hl, hp⟩
  | dropTest free i =>
    have hlk : s.lk i = some p := hat
    have hentry : ∀ q, h i = some q → (s.table i).pid = pid q := fun q hq =>
      (hinv.entry hlk (by simp [hpc]) hq).2
    simp only at hm
    split at hm
    · next hne =>
      cases hm
      refine .inl ⟨rfl, hinv.plain hnz others_goto rfl (by simp [hpc]) ?_⟩
      rw [goto_pc_self]
      refine ⟨hlk, fun q hq => ?_⟩
      have hqp : q ≠ p := by
        intro e
        subst e
        exact hne (hentry q hq)
      simp [hqp]
    · next heq =>
      cases hm
      refine .inl ⟨rfl, hinv.plain hnz others_goto rfl (by simp [hpc]) ?_⟩
      rw [goto_pc_self]
      have heq := not_ne_iff.mp heq
      exact ⟨hlk, heq, fun q hq => hinj ((hentry q hq).symm.trans heq)⟩
  | dropClear free i =>
    obtain ⟨hlk, hp, hh⟩ := hat
    cases hm
    refine .inl ⟨rfl, hinv.change hnz hlk (by simp [hpc]) ?_ fun q hq => ?_⟩
    · simpa [At, hlk, hp] using hh
    · rw [hh q hq]
      simp [Held]
  | dropUnmark free i =>
    obtain ⟨hlk, hp, hh⟩ := hat
    cases hm
    refine .inl ⟨rfl, hinv.change hnz hlk (by simp [hpc, eq_comm]) ?_ fun q hq => ?_⟩
    · simpa [At, hlk] using hh
    · rw [hh q hq]
      simp [Held]
  | dropRelease free i v =>
    cases hm
    exact dropRelease_good hinv hnz hpc

end Calls

theorem inv_init : Inv pid (holder []) (State.init : State ι) := ⟨fun _ => trivial, fun _ _ => nofun⟩

-- Where each mutex_create finds the entry it marks still unmarked, a held mutex is locked,
-- unlocked and freed by nobody but its holder.
theorem mutex_exclusion (hinj : Function.Injective pid) (hnz : ∀ q, pid q ≠ 0) {es : List (Ret ι)}
    (hr : Run (sections pid) (fun _ s m => Unraced s m) State.init es s) :
    Always (fun before e => Excludes (holder before) e) es ∧
      ∀ i p, holder es i = some p → s.pc p = .user → (mutexUnlock (pid p) i.val s.table).1 = 0 := by
  have hall : Inv pid (holder es) s ∧ Always (fun before e => Excludes (holder before) e) es := by
    refine hr.inv (I := fun es s => Inv pid (holder es) s ∧
      Always (fun before e => Excludes (holder before) e) es) ⟨inv_init, always_nil _⟩ ?_
    intro es s m s' es' ⟨hinv, ha⟩ hok hm
    have hgood : Good pid (holder es) (s', es') := by
      cases m with
      | call p op => exact call_good hinv hnz hm
      | step p => exact step_good hinv hnz hinj hok hm
    rcases hgood with ⟨hes, hinv'⟩ | ⟨e, hes, he, hinv'⟩
    · rw [show es' = [] from hes, List.append_nil]
      exact ⟨hinv', ha⟩
    · rw [show es' = [e] from hes, holder_snoc]
      exact ⟨hinv', always_snoc ha he⟩
  refine ⟨hall.2, fun i p hi hu => ?_⟩
  rcases hall.1.held i p hi with hl | ⟨-, hpid⟩
  · rw [hu] at hl
    exact hl.elim
  · simp [mutexUnlock, drop, slot_val, hpid]

end Run

-- The moves of a call that nobody delays.
def wholeCall {ι : Type} (p : ι) (op : Op) (n : Nat) : List (Move ι) := .call p op :: List.replicate n (.step p)

def twoPids (b : Bool) : Int := if b then 2 else 1

theorem mutex_exclusion_lock : ∃ es s, Run (sections twoPids) (fun _ s m => Unraced s m) State.init es s ∧
    es = [⟨false, .create, 0⟩, ⟨false, .lock 0, 0⟩, ⟨true, .unlock 0, -1⟩] ∧
      Always (fun before e => Excludes (holder before) e) es := by
  have hrun : (exec (sections twoPids) (fun _ s m => Unraced s m) (wholeCall false .create 4 ++
      wholeCall false (.lock 0) 5 ++ wholeCall true (.unlock 0) 3) [] State.init).map Prod.fst =
        some [⟨false, .create, 0⟩, ⟨false, .lock 0, 0⟩, ⟨true, .unlock 0, -1⟩] := by
    decide
  obtain ⟨es, s, hr, hes⟩ := run_of_map hrun
  exact ⟨es, s, hr, hes, (mutex_exclusion (by decide) (by decide) hr).1⟩

-- The second process finds entry 0 unmarked, the first locks mutex 0, then the second marks it: now
-- the first cannot unlock it, and the second can.
theorem not_mutex_exclusion : ∃ es s, Run (sections twoPids) (fun _ _ _ => True) State.init es s ∧
    es = [⟨false, .lock 0, 0⟩, ⟨true, .create, 0⟩] ++ ⟨false, .unlock 0, -1⟩ :: [⟨true, .unlock 0, 0⟩] ∧
      ¬Always (fun before e => Excludes (holder before) e) es := by
  have hrun : (exec (sections twoPids) (fun _ _ _ => True) (wholeCall true .create 2 ++
      wholeCall false (.lock 0) 5 ++ List.replicate 2 (.step true) ++ wholeCall false (.unlock 0) 3 ++
        wholeCall true (.unlock 0) 5) [] State.init).map Prod.fst = some ([⟨false, .lock 0, 0⟩, ⟨true, .create, 0⟩] ++
            ⟨false, .unlock 0, -1⟩ :: [⟨true, .unlock 0, 0⟩]) := by
    decide
  obtain ⟨es, s, hr, hes⟩ := run_of_map hrun
  refine ⟨es, s, hr, hes, fun h => ?_⟩
  have hiff := h _ _ _ hes 0 false (by decide) (by decide)
  exact absurd (hiff.mpr rfl) (by decide)

end Mutexes
