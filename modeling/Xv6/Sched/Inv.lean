import Xv6.Sched.Rules

-- What holds of the locks, the processors and the process table.

namespace Sched

open Prog Function

variable {κ : Type}

section Views

def Off (s : State κ) (p : Slot) : Prop := ∀ c, (s.cpu c).run ≠ some p

def Phase.Fits : Phase → Cpu → Prop
  | .free, x => x.run = none ∧ x.proc = none
  | .chosen _, x => x.run = none ∧ x.proc = none
  | .loaded p, x => x.run = none ∧ x.proc = some p
  | .loaned p, x => (x.run = none ∨ x.run = some p) ∧ x.proc = some p

def Phase.Takes (phase : Phase) (p : Slot) : Prop := phase = .chosen p ∨ phase = .loaded p

-- A process that is switched out will have its lock when it goes on.
structure Th.Parked (x : Th) (p : Slot) : Prop where
  has : x.has = some p
  clean : x.dirty = false
  seen : x.seen = none
  calm : x.stage.Calm
  waking : x.waking = none

structure Locks (s : State κ) (g : Ctx κ → Th) : Prop where
  count : ∀ c, ∃ l : List Lock, l.Nodup ∧ (∀ lk, lk ∈ l ↔ s.lock lk = some c) ∧ l.length = (s.cpu c).noff
  has : ∀ c p, (g (current s c)).has = some p → s.lock (.proc p) = some c
  held : ∀ c p, s.lock (.proc p) = some c →
    (g (current s c)).has = some p ∨ ((g (.sched c)).phase = .loaned p ∧ (s.cpu c).run = none)
  lent : ∀ c p, (g (.sched c)).phase = .loaned p → (s.cpu c).run = none → s.lock (.proc p) = some c
  sleep : ∀ c chan lk, (g (current s c)).stage = .called chan lk ∨ (g (current s c)).stage = .back chan lk →
    s.lock lk = some c
  waking : ∀ c, (g (current s c)).waking ≠ none → ∃ lk : Lock, lk.Plain ∧ s.lock lk = some c

-- The same for one processor: `holds` are the locks that it has, x is the thread on
-- it, and `lent` is the process that its scheduler waits for.
structure Owns (holds : Lock → Prop) (noff : Nat) (x : Th) (lent : Slot → Prop) : Prop where
  count : ∃ l : List Lock, l.Nodup ∧ (∀ lk, lk ∈ l ↔ holds lk) ∧ l.length = noff
  has : ∀ p, x.has = some p → holds (.proc p)
  held : ∀ p, holds (.proc p) → x.has = some p ∨ lent p
  lent : ∀ p, lent p → holds (.proc p)
  sleep : ∀ chan lk, x.stage = .called chan lk ∨ x.stage = .back chan lk → holds lk
  waking : x.waking ≠ none → ∃ lk : Lock, lk.Plain ∧ holds lk

def OwnsAt (s : State κ) (g : Ctx κ → Th) (c : κ) : Prop :=
  Owns (fun lk => s.lock lk = some c) (s.cpu c).noff (g (current s c))
    fun p => (g (.sched c)).phase = .loaned p ∧ (s.cpu c).run = none

variable {s : State κ} {c : κ} {p : Slot} {phase : Phase} {x : Cpu}

theorem locks_iff {g : Ctx κ → Th} : Locks s g ↔ ∀ c, OwnsAt s g c := by
  constructor
  · intro h c
    exact ⟨h.count c, h.has c, h.held c, fun p hl => h.lent c p hl.1 hl.2, h.sleep c, h.waking c⟩
  · intro h
    exact ⟨fun c => (h c).count, fun c => (h c).has, fun c => (h c).held, fun c p hl hr => (h c).lent p ⟨hl, hr⟩,
      fun c => (h c).sleep, fun c => (h c).waking⟩

structure Switch (s : State κ) (g : Ctx κ → Th) : Prop where
  fits : ∀ c, (g (.sched c)).phase.Fits (s.cpu c)
  free : ∀ p, (g (.proc p)).phase = .free
  stage : ∀ c, (g (.sched c)).stage = .awake
  one : ∀ c c' p, (s.cpu c).run = some p → (s.cpu c').run = some p → c = c'
  off : ∀ p, Off s p → (g (.proc p)).Parked p
  away : ∀ c p, (g (.sched c)).phase = .loaned p →
    (g (.sched c)).has = none ∧ (g (.sched c)).seen = none ∧ (g (.sched c)).waking = none
  lent : ∀ c p, (g (.sched c)).phase = .loaned p → (s.cpu c).run = none → Off s p
  busy : ∀ c p, (g (.sched c)).phase.Takes p → (g (.sched c)).has = some p ∧ (g (.sched c)).waking = none ∧ Off s p

structure States (s : State κ) (g : Ctx κ → Th) : Prop where
  running : ∀ c p, (s.cpu c).run = some p → (g (.proc p)).dirty = false → (s.proc p).state = .running
  steady : ∀ p, Off s p → (s.proc p).state = .running → ∃ c, (g (.sched c)).phase.Takes p
  taken : ∀ c p, (g (.sched c)).phase.Takes p → (s.proc p).state = .running
  dirty : ∀ t, (g t).dirty = true → ∃ p, t = .proc p ∧ (g t).has = some p
  seen : ∀ c st, (g (current s c)).seen = some st → ∃ p, (g (current s c)).has = some p ∧ (s.proc p).state = st
  child : ∀ t p, (g t).child = some p → (s.proc p).state = .used
  apart : ∀ t t' p, (g t).child = some p → (g t').child = some p → t = t'

structure Sleeps (s : State κ) (g : Ctx κ → Th) : Prop where
  plain : ∀ t chan lk, (∃ set, (g t).stage = .released chan lk set) ∨ (g t).stage = .asleep chan lk → lk.Plain
  released : ∀ t chan lk set, (g t).stage = .released chan lk set →
    ∃ p c, t = .proc p ∧ (s.cpu c).run = some p ∧ (g t).has = some p ∧ (g t).waking = none
  chan : ∀ p chan lk, (g (.proc p)).stage = .released chan lk true ∨
    (g (.proc p)).stage = .asleep chan lk ∧ (s.proc p).state = .sleeping → (s.proc p).chan = chan
  before : ∀ p chan lk set c chan' ps, (g (.proc p)).stage = .released chan lk set → s.lock lk = some c →
    (g (current s c)).waking = some (chan', ps) → p ∉ ps
  woken : ∀ p chan lk c ps, (g (.proc p)).stage = .asleep chan lk → s.lock lk = some c →
    (g (current s c)).waking = some (chan, ps) → p ∈ ps → (s.proc p).state ≠ .sleeping

structure Inv (s : State κ) (g : Ctx κ → Th) : Prop where
  locks : Locks s g
  switch : Switch s g
  states : States s g
  sleeps : Sleeps s g

theorem current_of_none (h : (s.cpu c).run = none) : current s c = .sched c := by
  rw [current, h]

theorem current_of_some (h : (s.cpu c).run = some p) : current s c = .proc p := by
  rw [current, h]

theorem run_of_proc (h : current s c = .proc p) : (s.cpu c).run = some p := by
  unfold current at h
  split at h
  · cases h
  · cases h
    assumption

theorem run_of_sched {c' : κ} (h : current s c = .sched c') : (s.cpu c).run = none ∧ c' = c := by
  unfold current at h
  split at h
  · cases h
    exact ⟨‹_›, rfl⟩
  · cases h

theorem current_congr {s' : State κ} (h : (s'.cpu c).run = (s.cpu c).run) : current s' c = current s c := by
  rw [current, h, current]

theorem Phase.Fits.congr {x' : Cpu} (h : phase.Fits x) (hr : x'.run = x.run) (hp : x'.proc = x.proc) :
    phase.Fits x' := by
  cases phase <;> simp only [Fits, hr, hp] at h ⊢ <;> exact h

theorem Phase.Fits.loaned (h : phase.Fits x) (hr : x.run = some p) : phase = .loaned p := by
  cases phase <;> simp_all [Fits]

theorem Phase.Fits.takes (h : phase.Fits x) (ht : phase.Takes p) : x.run = none := by
  rcases ht with rfl | rfl <;> exact h.1

end Views

section Api

variable (s : State κ) (c c' : κ) (lk : Lock)

theorem proc_setProc (p : Slot) (z : Proc) : (s.setProc p z).proc p = z := update_self ..

theorem proc_setProc_of_ne {p q : Slot} (h : p ≠ q) (z : Proc) : (s.setProc q z).proc p = s.proc p :=
  update_of_ne h ..

variable [DecidableEq κ]

@[simp] theorem run_take : ((s.take c lk).cpu c').run = (s.cpu c').run :=
  field_update Cpu.run (by rfl) c'

@[simp] theorem proc_take : ((s.take c lk).cpu c').proc = (s.cpu c').proc :=
  field_update Cpu.proc (by rfl) c'

@[simp] theorem run_give : ((s.give c lk).cpu c').run = (s.cpu c').run :=
  field_update Cpu.run (by rfl) c'

@[simp] theorem proc_give : ((s.give c lk).cpu c').proc = (s.cpu c').proc :=
  field_update Cpu.proc (by rfl) c'

variable {lk}

theorem lock_take_of_ne {lk' : Lock} (h : lk' ≠ lk) : (s.take c lk).lock lk' = s.lock lk' := update_of_ne h ..

theorem lock_give_of_ne {lk' : Lock} (h : lk' ≠ lk) : (s.give c lk).lock lk' = s.lock lk' := update_of_ne h ..

theorem lock_take_iff (h : s.lock lk = none) {lk' : Lock} :
    (s.take c lk).lock lk' = some c' ↔ c' = c ∧ lk' = lk ∨ s.lock lk' = some c' := by
  by_cases hlk : lk' = lk
  · simp [hlk, State.take, h, eq_comm]
  · simp [hlk, lock_take_of_ne]

theorem lock_give_iff {lk' : Lock} : (s.give c lk).lock lk' = some c' ↔ lk' ≠ lk ∧ s.lock lk' = some c' := by
  by_cases hlk : lk' = lk
  · simp [hlk, State.give]
  · simp [hlk, lock_give_of_ne]

end Api

section Frames

variable {s s' : State κ} {g : Ctx κ → Th} {c c' : κ} {p q : Slot} {y : Th}

theorem Switch.inj (h : Switch s g) (heq : current s c = current s c') : c = c' := by
  cases hc : (s.cpu c).run with
  | none =>
    rw [current_of_none hc] at heq
    exact (run_of_sched heq.symm).2
  | some p =>
    rw [current_of_some hc] at heq
    exact h.one c c' p hc (run_of_proc heq.symm)

variable [DecidableEq κ]

theorem Switch.other (h : Switch s g) (hne : c' ≠ c) (y : Th) :
    update g (current s c) y (current s c') = g (current s c') :=
  update_of_ne (fun heq => hne (h.inj heq)) ..

theorem update_off (hoff : Off s p) (y : Th) : update g (current s c) y (.proc p) = g (.proc p) :=
  update_of_ne (fun heq => hoff c (run_of_proc heq.symm)) ..

theorem Switch.keep (h : Switch s g) (hrun : ∀ c, (s'.cpu c).run = (s.cpu c).run)
    (hproc : ∀ c, (s'.cpu c).proc = (s.cpu c).proc) (hx : (g (current s c)).phase = .free) (hy : y.phase = .free)
    (hst : ∀ c', current s c = .sched c' → y.stage = .awake) : Switch s' (update g (current s c) y) := by
  have hphase := field_update Th.phase (hy.trans hx.symm)
  have hoff : ∀ p, Off s' p → Off s p := fun p ho c' => hrun c' ▸ ho c'
  have hoff' : ∀ p, Off s p → Off s' p := fun p ho c' => (hrun c').symm ▸ ho c'
  -- a scheduler whose phase is not free is another context
  have hsched : ∀ c', (g (.sched c')).phase ≠ .free → update g (current s c) y (.sched c') = g (.sched c') := by
    intro c' hn
    refine update_of_ne (fun heq => hn ?_) ..
    rw [heq, hx]
  refine ⟨fun c' => ?_, fun p => ?_, fun c' => ?_, fun c1 c2 p h1 h2 => ?_, fun p ho => ?_, fun c' p hl => ?_,
    fun c' p hl hr => ?_, fun c' p ht => ?_⟩
  · rw [hphase]
    exact (h.fits c').congr (hrun c') (hproc c')
  · rw [hphase]
    exact h.free p
  · by_cases heq : Ctx.sched c' = current s c
    · rw [heq, update_self]
      exact hst c' heq.symm
    · rw [update_of_ne heq]
      exact h.stage c'
  · rw [hrun] at h1 h2
    exact h.one c1 c2 p h1 h2
  · rw [update_off (hoff p ho)]
    exact h.off p (hoff p ho)
  · rw [hphase] at hl
    rw [hsched c' (by rw [hl]; nofun)]
    exact h.away c' p hl
  · rw [hphase] at hl
    rw [hrun] at hr
    exact hoff' p (h.lent c' p hl hr)
  · rw [hphase] at ht
    have hn : (g (.sched c')).phase ≠ .free := by
      rcases ht with heq | heq <;> rw [heq] <;> nofun
    rw [hsched c' hn]
    obtain ⟨hh, hw, ho⟩ := h.busy c' p ht
    exact ⟨hh, hw, hoff' p ho⟩

theorem Locks.keep (h : Locks s g) (hsw : Switch s g) (hlock : s'.lock = s.lock)
    (hrun : ∀ c, (s'.cpu c).run = (s.cpu c).run) (hnoff : ∀ c, (s'.cpu c).noff = (s.cpu c).noff)
    (hhas : y.has = (g (current s c)).has) (hphase : ∀ p, y.phase = .loaned p ↔ (g (current s c)).phase = .loaned p)
    (hstage : ∀ chan lk, y.stage = .called chan lk ∨ y.stage = .back chan lk → s.lock lk = some c)
    (hwake : y.waking ≠ none → ∃ lk : Lock, lk.Plain ∧ s.lock lk = some c) :
    Locks s' (update g (current s c) y) := by
  have hp : ∀ t p, (update g (current s c) y t).phase = .loaned p ↔ (g t).phase = .loaned p :=
    fun t p => iff_of_eq (field_update (fun x : Th => x.phase = .loaned p) (propext (hphase p)) t)
  rw [locks_iff] at h ⊢
  intro c'
  have ho := h c'
  simp only [OwnsAt, hlock, hnoff, hrun, hp, current_congr (hrun c')] at ho ⊢
  by_cases heq : c' = c
  · subst heq
    rw [update_self]
    exact ⟨ho.count, hhas ▸ ho.has, hhas ▸ ho.held, ho.lent, hstage, hwake⟩
  · rwa [hsw.other heq]

theorem States.keep (h : States s g) (hsw : Switch s g) (hrun : ∀ c, (s'.cpu c).run = (s.cpu c).run)
    (hstate : ∀ p, (s'.proc p).state = (s.proc p).state)
    (hphase : ∀ p, y.phase.Takes p ↔ (g (current s c)).phase.Takes p) (hdirty : y.dirty = (g (current s c)).dirty)
    (hown : y.dirty = true → ∃ p, current s c = .proc p ∧ y.has = some p) (hchild : y.child = (g (current s c)).child)
    (hseen : ∀ st, y.seen = some st → ∃ p, y.has = some p ∧ (s.proc p).state = st) :
    States s' (update g (current s c) y) := by
  have hp : ∀ t p, (update g (current s c) y t).phase.Takes p ↔ (g t).phase.Takes p :=
    fun t p => iff_of_eq (field_update (fun x : Th => x.phase.Takes p) (propext (hphase p)) t)
  have hd := field_update Th.dirty hdirty
  have hch := field_update Th.child hchild
  refine ⟨fun c' p => ?_, fun p ho => ?_, fun c' p => ?_, fun t ht => ?_, fun c' st => ?_, fun t p => ?_,
    fun t t' p => ?_⟩
  · rw [hrun, hd, hstate]
    exact h.running c' p
  · rw [hstate]
    simp only [hp]
    exact h.steady p fun c' => hrun c' ▸ ho c'
  · rw [hp, hstate]
    exact h.taken c' p
  · by_cases heq : t = current s c
    · rw [heq, update_self] at ht ⊢
      exact hown ht
    · rw [update_of_ne heq] at ht ⊢
      exact h.dirty t ht
  · rw [current_congr (hrun c')]
    by_cases heq : c' = c
    · rw [heq, update_self]
      simp only [hstate]
      exact hseen st
    · rw [hsw.other heq]
      simp only [hstate]
      exact h.seen c' st
  · rw [hch, hstate]
    exact h.child t p
  · rw [hch, hch]
    exact h.apart t t' p

theorem Sleeps.keep (h : Sleeps s g)
    (hlock : ∀ lk c', lk.Plain → s'.lock lk = some c' → s.lock lk = some c' ∨ c' = c ∧ y.waking = none)
    (hrun : ∀ c, (s'.cpu c).run = (s.cpu c).run) (hstate : ∀ p, (s'.proc p).state = (s.proc p).state)
    (hchan : ∀ p, (s'.proc p).chan = (s.proc p).chan)
    (hreleased : ∀ chan lk set, y.stage = .released chan lk set →
      (g (current s c)).stage = .released chan lk set ∧ y.has = (g (current s c)).has)
    (hasleep : ∀ chan lk, y.stage = .asleep chan lk → (g (current s c)).stage = .asleep chan lk)
    (hwake : y.waking = (g (current s c)).waking) : Sleeps s' (update g (current s c) y) := by
  have hw := field_update Th.waking hwake
  have hcur : ∀ c', current s' c' = current s c' := fun c' => current_congr (hrun c')
  have hr : ∀ t chan lk set, (update g (current s c) y t).stage = .released chan lk set →
      (g t).stage = .released chan lk set ∧ (update g (current s c) y t).has = (g t).has := by
    intro t chan lk set ht
    by_cases heq : t = current s c
    · rw [heq, update_self] at ht ⊢
      exact hreleased chan lk set ht
    · rw [update_of_ne heq] at ht ⊢
      exact ⟨ht, rfl⟩
  have ha : ∀ t chan lk, (update g (current s c) y t).stage = .asleep chan lk → (g t).stage = .asleep chan lk := by
    intro t chan lk ht
    by_cases heq : t = current s c
    · rw [heq, update_self] at ht
      rw [heq]
      exact hasleep chan lk ht
    · rwa [update_of_ne heq] at ht
  refine ⟨fun t chan lk ht => ?_, fun t chan lk set ht => ?_, fun p chan lk hp => ?_,
    fun p chan lk set c' chan' ps hp hl hwk => ?_, fun p chan lk c' ps hp hl hwk => ?_⟩
  · refine h.plain t chan lk (ht.imp (fun ⟨set, hst⟩ => ⟨set, (hr t chan lk set hst).1⟩) (ha t chan lk))
  · obtain ⟨hst, hhas⟩ := hr t chan lk set ht
    rw [hhas, hw]
    obtain ⟨p, c', hp, hc', hrest⟩ := h.released t chan lk set hst
    exact ⟨p, c', hp, (hrun c').trans hc', hrest⟩
  · rw [hchan]
    rw [hstate] at hp
    rcases hp with hp | ⟨hp, hst⟩
    · exact h.chan p chan lk (.inl (hr _ chan lk true hp).1)
    · exact h.chan p chan lk (.inr ⟨ha _ chan lk hp, hst⟩)
  · rw [hcur] at hwk
    have hst := (hr _ chan lk set hp).1
    rcases hlock lk c' (h.plain _ chan lk (.inl ⟨set, hst⟩)) hl with hl | ⟨rfl, hn⟩
    · rw [hw] at hwk
      exact h.before p chan lk set c' chan' ps hst hl hwk
    · rw [update_self, hn] at hwk
      cases hwk
  · rw [hcur] at hwk
    rw [hstate]
    have hst := ha _ chan lk hp
    rcases hlock lk c' (h.plain _ chan lk (.inr hst)) hl with hl | ⟨rfl, hn⟩
    · rw [hw] at hwk
      exact h.woken p chan lk c' ps hst hl hwk
    · rw [update_self, hn] at hwk
      cases hwk

theorem Sleeps.alter (h : Sleeps s g) (hsw : Switch s g) (hlock : s'.lock = s.lock)
    (hrun : ∀ c, (s'.cpu c).run = (s.cpu c).run)
    (hstate : ∀ p chan lk, (g (.proc p)).stage = .asleep chan lk → (s'.proc p).state = .sleeping →
      (s.proc p).state = .sleeping)
    (hchan : ∀ p, (s'.proc p).chan = (s.proc p).chan ∨ Off s p ∧ (s'.proc p).state ≠ .sleeping)
    (hstage : y.stage = (g (current s c)).stage) (hhas : y.has = (g (current s c)).has)
    (hrel : ∀ chan lk set, y.stage = .released chan lk set → y.waking = none)
    (hbefore : ∀ p chan lk set chan' ps, (g (.proc p)).stage = .released chan lk set → s.lock lk = some c →
      y.waking = some (chan', ps) → p ∉ ps)
    (hwoken : ∀ p chan lk ps, (g (.proc p)).stage = .asleep chan lk → s.lock lk = some c →
      y.waking = some (chan, ps) → p ∈ ps → (s'.proc p).state ≠ .sleeping) :
    Sleeps s' (update g (current s c) y) := by
  have hs := field_update Th.stage hstage
  have hcur : ∀ c', current s' c' = current s c' := fun c' => current_congr (hrun c')
  refine ⟨fun t chan lk => ?_, fun t chan lk set ht => ?_, fun p chan lk hp => ?_,
    fun p chan lk set c' chan' ps hp hl hwk => ?_, fun p chan lk c' ps hp hl hwk => ?_⟩
  · rw [hs]
    exact h.plain t chan lk
  · have hst := ht
    rw [hs] at hst
    obtain ⟨p, c', rfl, hc', hh, hwk⟩ := h.released t chan lk set hst
    refine ⟨p, c', rfl, (hrun c').trans hc', ?_, ?_⟩
    · rw [field_update Th.has hhas, hh]
    · by_cases heq : .proc p = current s c
      · rw [heq, update_self] at ht ⊢
        exact hrel chan lk set ht
      · rw [update_of_ne heq, hwk]
  · rw [hs] at hp
    rcases hchan p with heq | ⟨hoff, hn⟩
    · rw [heq]
      exact h.chan p chan lk (hp.imp_right fun ha => ⟨ha.1, hstate p chan lk ha.1 ha.2⟩)
    rcases hp with hp | ⟨-, hst⟩
    · obtain ⟨p', c', hpp, hr, -⟩ := h.released _ chan lk true hp
      cases hpp
      exact absurd hr (hoff c')
    · exact absurd hst hn
  · rw [hs] at hp
    rw [hlock] at hl
    rw [hcur] at hwk
    by_cases heq : c' = c
    · rw [heq] at hl hwk
      rw [update_self] at hwk
      exact hbefore p chan lk set chan' ps hp hl hwk
    · rw [hsw.other heq] at hwk
      exact h.before p chan lk set c' chan' ps hp hl hwk
  · rw [hs] at hp
    rw [hlock] at hl
    rw [hcur] at hwk
    by_cases heq : c' = c
    · rw [heq] at hl hwk
      rw [update_self] at hwk
      exact hwoken p chan lk ps hp hl hwk
    · rw [hsw.other heq] at hwk
      exact fun hmem hst => h.woken p chan lk c' ps hp hl hwk hmem (hstate p chan lk hp hst)

theorem Locks.take (h : Locks s g) (hsw : Switch s g) {lk : Lock} (hfree : s.lock lk = none)
    (hphase : y.phase = (g (current s c)).phase) (hhas : ∀ p, y.has = some p ↔ lk = .proc p ∨ (g (current s c)).has = some p)
    (hstage : ∀ chan lk', y.stage = .called chan lk' ∨ y.stage = .back chan lk' → lk' = lk ∨ s.lock lk' = some c)
    (hwake : y.waking ≠ none → (g (current s c)).waking ≠ none) : Locks (s.take c lk) (update g (current s c) y) := by
  rw [locks_iff] at h ⊢
  intro c'
  have ho := h c'
  simp only [OwnsAt, field_update Th.phase hphase, run_take, current_congr (run_take s c c' lk)] at ho ⊢
  by_cases heq : c' = c
  · subst heq
    have hnoff : ((s.take c' lk).cpu c').noff = (s.cpu c').noff + 1 := by simp [State.take]
    simp only [lock_take_iff s _ _ hfree, hnoff, update_self, true_and]
    obtain ⟨⟨l, hnd, hmem, hlen⟩, hh, hd, hl, -, hwk⟩ := ho
    refine ⟨⟨lk :: l, List.nodup_cons.mpr ⟨?_, hnd⟩, fun lk' => ?_, ?_⟩, fun p hy => ?_, fun p hp => ?_,
      fun p hp => .inr (hl p hp), hstage, fun hw => ?_⟩
    · rw [hmem, hfree]
      nofun
    · rw [List.mem_cons, hmem]
    · rw [List.length_cons, hlen]
    · exact ((hhas p).mp hy).imp Eq.symm (hh p)
    · rcases hp with hlk | hp
      · exact .inl ((hhas p).mpr (.inl hlk.symm))
      · exact (hd p hp).imp_left fun hx => (hhas p).mpr (.inr hx)
    · obtain ⟨lk', hplain, hl⟩ := hwk (hwake hw)
      exact ⟨lk', hplain, .inr hl⟩
  · have hnoff : ((s.take c lk).cpu c').noff = (s.cpu c').noff := by simp [State.take, heq]
    simp only [lock_take_iff s _ _ hfree, hnoff, hsw.other heq, heq, false_and, false_or]
    exact ho

theorem Locks.give (h : Locks s g) (hsw : Switch s g) {lk : Lock} (hheld : s.lock lk = some c)
    (hx : (g (current s c)).phase = .free) (hphase : y.phase = .free)
    (hhas : ∀ p, y.has = some p ↔ lk ≠ .proc p ∧ (g (current s c)).has = some p)
    (hstage : ∀ chan lk', y.stage = .called chan lk' ∨ y.stage = .back chan lk' → lk' ≠ lk ∧ s.lock lk' = some c)
    (hwake : y.waking ≠ none → (g (current s c)).waking ≠ none ∧ ¬lk.Plain) :
    Locks (s.give c lk) (update g (current s c) y) := by
  rw [locks_iff] at h ⊢
  intro c'
  have ho := h c'
  simp only [OwnsAt, field_update Th.phase (hphase.trans hx.symm), run_give, current_congr (run_give s c c' lk)] at ho ⊢
  by_cases heq : c' = c
  · subst heq
    have hnoff : ((s.give c' lk).cpu c').noff = (s.cpu c').noff - 1 := by simp [State.give]
    simp only [lock_give_iff, hnoff, update_self]
    obtain ⟨⟨l, hnd, hmem, hlen⟩, hh, hd, -, -, hwk⟩ := ho
    refine ⟨⟨l.erase lk, hnd.erase lk, fun lk' => ?_, ?_⟩, fun p hy => ?_, fun p hp => ?_, fun p hp => ?_, hstage,
      fun hw => ?_⟩
    · rw [hnd.mem_erase_iff, hmem]
    · rw [List.length_erase_of_mem ((hmem lk).mpr hheld), hlen]
    · obtain ⟨hne, hy⟩ := (hhas p).mp hy
      exact ⟨hne.symm, hh p hy⟩
    · exact (hd p hp.2).imp_left fun hx => (hhas p).mpr ⟨hp.1.symm, hx⟩
    · rw [current_of_none hp.2, hp.1] at hx
      cases hx
    · obtain ⟨hw, hn⟩ := hwake hw
      obtain ⟨lk', hplain, hl⟩ := hwk hw
      exact ⟨lk', hplain, fun hlk => hn (hlk ▸ hplain), hl⟩
  · have hnoff : ((s.give c lk).cpu c').noff = (s.cpu c').noff := by simp [State.give, heq]
    have hlock : ∀ lk', (lk' ≠ lk ∧ s.lock lk' = some c') ↔ s.lock lk' = some c' := by
      refine fun lk' => ⟨And.right, fun hl => ⟨fun hlk => heq ?_, hl⟩⟩
      rw [hlk, hheld] at hl
      exact (Option.some.inj hl).symm
    simp only [lock_give_iff, hlock, hnoff, hsw.other heq]
    exact ho

end Frames

end Sched
