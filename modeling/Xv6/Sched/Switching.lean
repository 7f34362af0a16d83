import Xv6.Sched.Sound

-- The steps of the scheduler, and the two calls of swtch.

namespace Sched

open Prog Function

section Scheduler

variable {κ : Type} {s s' : State κ} {g : Ctx κ → Th} {c : κ} {p q : Slot} {y : Th}

theorem Inv.sched_clean (h : Inv s g) (c : κ) : (g (.sched c)).dirty = false := by
  by_contra hd
  rw [Bool.not_eq_false] at hd
  obtain ⟨p, hp, -⟩ := h.states.dirty _ hd
  cases hp

variable [DecidableEq κ]

variable {c' : κ} {stage : Stage} {chan : Chan} {lk : Lock}

theorem update_sched (h : c' ≠ c) (y : Th) : update g (.sched c) y (.sched c') = g (.sched c') :=
  update_of_ne (by simpa using h) ..

theorem update_proc (p : Slot) (y : Th) : update g (.sched c) y (.proc p) = g (.proc p) :=
  update_of_ne (by nofun) ..

theorem update_proc_sched (y : Th) : update g (.proc p) y (.sched c) = g (.sched c) := update_of_ne (by nofun) ..

theorem update_proc_of_ne (h : q ≠ p) (y : Th) : update g (.proc p) y (.proc q) = g (.proc q) :=
  update_of_ne (by simpa using h) ..

theorem Switch.sched (h : Switch s g) (hrun : ∀ c', (s'.cpu c').run = (s.cpu c').run)
    (hproc : ∀ c', c' ≠ c → (s'.cpu c').proc = (s.cpu c').proc) (hfits : y.phase.Fits (s'.cpu c))
    (hstage : y.stage = .awake) (hloan : ∀ p, y.phase ≠ .loaned p)
    (hbusy : ∀ p, y.phase.Takes p → y.has = some p ∧ y.waking = none ∧ Off s p) :
    Switch s' (update g (.sched c) y) := by
  have hoff : ∀ p, Off s' p ↔ Off s p := fun p => forall_congr' fun c' => by rw [hrun]
  refine ⟨fun c' => ?_, fun p => ?_, fun c' => ?_, fun c1 c2 p h1 h2 => ?_, fun p ho => ?_, fun c' p hl => ?_,
    fun c' p hl hr => ?_, fun c' p ht => ?_⟩
  · by_cases heq : c' = c
    · rw [heq, update_self]
      exact hfits
    · rw [update_sched heq]
      exact (h.fits c').congr (hrun c') (hproc c' heq)
  · rw [update_proc]
    exact h.free p
  · by_cases heq : c' = c
    · rw [heq, update_self, hstage]
    · rw [update_sched heq]
      exact h.stage c'
  · rw [hrun] at h1 h2
    exact h.one c1 c2 p h1 h2
  · rw [update_proc]
    exact h.off p ((hoff p).mp ho)
  · by_cases heq : c' = c
    · rw [heq, update_self] at hl
      exact absurd hl (hloan p)
    · rw [update_sched heq] at hl ⊢
      exact h.away c' p hl
  · rw [hrun] at hr
    by_cases heq : c' = c
    · rw [heq, update_self] at hl
      exact absurd hl (hloan p)
    · rw [update_sched heq] at hl
      exact (hoff p).mpr (h.lent c' p hl hr)
  · by_cases heq : c' = c
    · rw [heq, update_self] at ht ⊢
      obtain ⟨hh, hw, ho⟩ := hbusy p ht
      exact ⟨hh, hw, (hoff p).mpr ho⟩
    · rw [update_sched heq] at ht ⊢
      obtain ⟨hh, hw, ho⟩ := h.busy c' p ht
      exact ⟨hh, hw, (hoff p).mpr ho⟩

-- p->state = RUNNING
theorem Inv.choose (h : Inv s g) (hcur : current s c = .sched c) (hh : (g (current s c)).has = some q)
    (hs : (g (current s c)).seen = some .runnable) (hp : (g (current s c)).phase = .free)
    (hw : (g (current s c)).waking = none) : Inv (s.setProc q { s.proc q with state := .running })
      (update g (current s c) ((g (current s c)).enters (.chosen q))) := by
  obtain ⟨q', hq', hst⟩ := h.states.seen c _ hs
  rw [hh] at hq'
  cases hq'
  have hrun := (run_of_sched hcur).1
  have hclean : (g (current s c)).dirty = false := hcur ▸ h.sched_clean c
  have hoff := h.off hh hclean (by rw [hst]; nofun)
  have hlock := h.locks.has c q hh
  have hother : ∀ p, p ≠ q → (s.setProc q { s.proc q with state := .running }).proc p = s.proc p :=
    fun p hne => proc_setProc_of_ne s hne _
  have hch := field_update (g := g) (p := current s c) (t := (g (current s c)).enters (.chosen q)) Th.child rfl
  have hd := field_update (g := g) (p := current s c) (t := (g (current s c)).enters (.chosen q)) Th.dirty rfl
  have hhas := field_update (g := g) (p := current s c) (t := (g (current s c)).enters (.chosen q)) Th.has rfl
  have htakes : ∀ c' p, (g (.sched c')).phase.Takes p →
      (update g (current s c) ((g (current s c)).enters (.chosen q)) (.sched c')).phase.Takes p := by
    intro c' p ht
    have hne : c' ≠ c := by
      intro heq
      rw [heq, ← hcur, hp] at ht
      rcases ht with ht | ht <;> cases ht
    rw [hcur, update_sched hne]
    exact ht
  refine ⟨?_, ?_, ⟨fun c' p hr hcl => ?_, fun p ho hstp => ?_, fun c' p ht => ?_, fun t ht => ?_, fun c' st hst' => ?_,
    fun t p ht => ?_, fun t t' p => ?_⟩, ?_⟩
  · refine h.locks.keep h.switch rfl (fun _ => rfl) (fun _ => rfl) rfl (fun p => ?_) (h.locks.sleep c) (h.locks.waking c)
    rw [hp]
    exact ⟨nofun, nofun⟩
  · rw [hcur]
    rw [hcur] at hh hw hp
    have hfits := h.switch.fits c
    rw [hp] at hfits
    refine h.switch.sched (fun _ => rfl) (fun _ _ => rfl) hfits (h.switch.stage c) nofun fun p ht => ?_
    rcases ht with ht | ht <;> cases ht
    exact ⟨hh, hw, hoff⟩
  · rw [hd] at hcl
    rw [hother p fun heq => hoff c' (heq ▸ hr)]
    exact h.states.running c' p hr hcl
  · by_cases hpq : p = q
    · refine ⟨c, ?_⟩
      rw [← hcur, update_self, hpq]
      exact .inl rfl
    · rw [hother p hpq] at hstp
      obtain ⟨c', ht⟩ := h.states.steady p ho hstp
      exact ⟨c', htakes c' p ht⟩
  · by_cases hpq : p = q
    · rw [hpq, proc_setProc]
    have hne : c' ≠ c := by
      intro heq
      rw [heq, ← hcur, update_self] at ht
      rcases ht with ht | ht <;> cases ht
      exact hpq rfl
    rw [hcur, update_sched hne] at ht
    rw [hother p hpq]
    exact h.states.taken c' p ht
  · rw [hd] at ht
    rw [hhas]
    exact h.states.dirty t ht
  · exact h.seen_setProc hh rfl hst'
  · rw [hch] at ht
    exact h.child_other (by rw [hst]; nofun) ht
  · rw [hch, hch]
    exact h.states.apart t t' p
  · have hstate : ∀ p, ((s.setProc q { s.proc q with state := .running }).proc p).state = .sleeping →
        (s.proc p).state = .sleeping := by
      intro p hs
      by_cases hpq : p = q
      · rw [hpq, proc_setProc] at hs
        cases hs
      · rwa [hother p hpq] at hs
    refine h.sleeps.alter h.switch rfl (fun _ => rfl) (fun p _ _ _ => hstate p) (fun p => .inl ?_) rfl rfl
      (fun _ _ _ _ => hw) (fun p chan lk set => h.sleeps.before p chan lk set c)
      fun p chan lk ps hsp hl hwk hin hs => h.sleeps.woken p chan lk c ps hsp hl hwk hin (hstate p hs)
    exact field_setProc (by rfl) p

theorem run_setProc (s : State κ) (c c' : κ) (p : Option Slot) :
    ((s.setCpu c { s.cpu c with proc := p }).cpu c').run = (s.cpu c').run :=
  field_update Cpu.run (by rfl) c'

theorem noff_setProc (s : State κ) (c c' : κ) (p : Option Slot) :
    ((s.setCpu c { s.cpu c with proc := p }).cpu c').noff = (s.cpu c').noff :=
  field_update Cpu.noff (by rfl) c'

theorem cpu_setCpu (s : State κ) (c : κ) (x : Cpu) : (s.setCpu c x).cpu c = x := update_self ..

theorem cpu_setCpu_of_ne (s : State κ) {c : κ} (h : c' ≠ c) (x : Cpu) : (s.setCpu c x).cpu c' = s.cpu c' :=
  update_of_ne h ..

theorem run_setCpu {r : Option Slot} (h : ((s.setCpu c { s.cpu c with run := r }).cpu c').run = some q) :
    c' = c ∧ r = some q ∨ c' ≠ c ∧ (s.cpu c').run = some q := by
  by_cases heq : c' = c
  · rw [heq, cpu_setCpu] at h
    exact .inl ⟨heq, h⟩
  · rw [cpu_setCpu_of_ne s heq] at h
    exact .inr ⟨heq, h⟩

theorem run_setCpu_none (h : ((s.setCpu c { s.cpu c with run := none }).cpu c').run = some q) :
    c' ≠ c ∧ (s.cpu c').run = some q := (run_setCpu h).resolve_left (by simp)

-- c->proc = p
theorem Inv.load (h : Inv s g) (hcur : current s c = .sched c) (hp : (g (current s c)).phase = .chosen q) :
    Inv (s.setCpu c { s.cpu c with proc := some q })
      (update g (current s c) ((g (current s c)).enters (.loaded q))) := by
  have hrun := fun c' => run_setProc s c c' (some q)
  rw [hcur] at hp
  obtain ⟨hh, hw, hoff⟩ := h.switch.busy c q (.inl hp)
  refine ⟨?_, ?_, ?_, ?_⟩
  · refine h.locks.keep h.switch rfl hrun (fun c' => noff_setProc s c c' _) rfl (fun p => ?_) (h.locks.sleep c)
      (h.locks.waking c)
    rw [hcur, hp]
    exact ⟨nofun, nofun⟩
  · rw [hcur]
    refine h.switch.sched hrun (fun c' hne => by rw [cpu_setCpu_of_ne s hne]) ?_ (h.switch.stage c) nofun fun p ht => ?_
    · rw [cpu_setCpu]
      exact ⟨(run_of_sched hcur).1, rfl⟩
    · rcases ht with ht | ht <;> cases ht
      exact ⟨hh, hw, hoff⟩
  · refine h.states.keep h.switch hrun (fun _ => rfl) (fun p => ?_) rfl h.own rfl nofun
    rw [hcur, hp]
    constructor
    · rintro (ht | ht) <;> cases ht
      exact .inl rfl
    · rintro (ht | ht) <;> cases ht
      exact .inr rfl
  · exact h.sleeps.keep (fun _ _ _ hl => .inl hl) hrun (fun _ => rfl) (fun _ => rfl) (fun _ _ _ hs => ⟨hs, rfl⟩)
      (fun _ _ => id) rfl

-- c->proc = 0, after the process has switched back.
theorem Inv.clear (h : Inv s g) (hcur : current s c = .sched c) (hp : (g (current s c)).phase = .loaned q) :
    Inv (s.setCpu c { s.cpu c with proc := none })
      (update g (current s c) (((g (current s c)).enters .free).locks q)) := by
  have hrun := fun c' => run_setProc s c c' none
  have hr := (run_of_sched hcur).1
  rw [hcur] at hp
  obtain ⟨hh, -, hw⟩ := h.switch.away c q hp
  have hst := h.switch.stage c
  refine ⟨locks_iff.mpr fun c' => ?_, ?_, ?_, ?_⟩
  · have ho := locks_iff.mp h.locks c'
    rw [OwnsAt, noff_setProc, hrun, current_congr (hrun c')]
    by_cases heq : c' = c
    · subst heq
      rw [OwnsAt, hcur] at ho
      rw [← hcur, update_self, hcur]
      refine ⟨ho.count, fun p hhas => ?_, fun p hl => .inl ?_, (fun _ hp => by cases hp.1), fun chan lk hs => ?_,
        fun hwk => absurd hw hwk⟩
      · cases hhas
        exact ho.lent q ⟨hp, hr⟩
      · rcases ho.held p hl with hhas | ⟨hph, -⟩
        · rw [hh] at hhas
          cases hhas
        · rw [hp] at hph
          cases hph
          rfl
      · change (g (.sched c')).stage = _ ∨ (g (.sched c')).stage = _ at hs
        rw [hst] at hs
        rcases hs with hs | hs <;> cases hs
    · rw [h.switch.other heq, hcur, update_sched heq]
      exact ho
  · rw [hcur]
    refine h.switch.sched hrun (fun c' hne => by rw [cpu_setCpu_of_ne s hne]) ?_ hst (fun _ hp => by cases hp) fun p ht => ?_
    · rw [cpu_setCpu]
      exact ⟨hr, rfl⟩
    · rcases ht with ht | ht <;> cases ht
  · refine h.states.keep h.switch hrun (fun _ => rfl) (fun p => ?_) rfl (fun hd => ?_) rfl (fun _ hp => by cases hp)
    · rw [hcur, hp]
      constructor <;> rintro (ht | ht) <;> cases ht
    · change (g (current s c)).dirty = true at hd
      rw [hcur, h.sched_clean] at hd
      cases hd
  · refine h.sleeps.keep (fun _ _ _ hl => .inl hl) hrun (fun _ => rfl) (fun _ => rfl) (fun chan lk set hs => ?_)
      (fun _ _ => id) rfl
    change (g (current s c)).stage = _ at hs
    rw [hcur, hst] at hs
    cases hs

theorem Switch.other_setCpu {t : Ctx κ} (h : Switch s g) (hcur : current s c = t) (hne : c' ≠ c) (x : Cpu) (y : Th) :
    update g t y (current (s.setCpu c x) c') = g (current s c') := by
  have heq : current (s.setCpu c x) c' = current s c' := current_congr (by rw [cpu_setCpu_of_ne s hne])
  rw [heq, ← hcur]
  exact h.other hne y

-- swtch(&c->context, &p->context)
theorem Inv.swtch (h : Inv s g) (hcur : current s c = .sched c) (hp : (g (current s c)).phase = .loaded q) :
    Inv (s.setCpu c { s.cpu c with run := some q })
      (update g (current s c) ((g (current s c)).enters (.loaned q)).unlocks) := by
  have hr := (run_of_sched hcur).1
  rw [hcur] at hp
  have htakes : (g (.sched c)).phase.Takes q := .inr hp
  obtain ⟨hh, hw, hoff⟩ := h.switch.busy c q htakes
  have hlock := (h.lock_of_takes htakes).2
  have hpark := h.switch.off q hoff
  have hnow : current (s.setCpu c { s.cpu c with run := some q }) c = .proc q := current_of_some (by rw [cpu_setCpu])
  have hmono : ∀ p, Off (s.setCpu c { s.cpu c with run := some q }) p → Off s p := by
    intro p ho c' hr'
    by_cases heq : c' = c
    · rw [heq, hr] at hr'
      cases hr'
    · exact ho c' (by rw [cpu_setCpu_of_ne s heq, hr'])
  have hkeep : ∀ p c', c' ≠ c → s.lock (.proc p) = some c' → Off s p →
      Off (s.setCpu c { s.cpu c with run := some q }) p := by
    intro p c' hne hl ho c'' hr'
    rcases run_setCpu hr' with ⟨-, hq⟩ | ⟨-, hr'⟩
    · cases hq
      rw [hlock] at hl
      cases hl
      exact hne rfl
    · exact ho c'' hr'
  rw [hcur]
  have hstage := field_update (g := g) (p := .sched c) (t := ((g (.sched c)).enters (.loaned q)).unlocks) Th.stage rfl
  have hchild := field_update (g := g) (p := .sched c) (t := ((g (.sched c)).enters (.loaned q)).unlocks) Th.child rfl
  refine ⟨locks_iff.mpr fun c' => ?_, ⟨fun c' => ?_, fun p => ?_, fun c' => ?_, fun c1 c2 p h1 h2 => ?_, fun p ho => ?_, fun c' p hl => ?_,
    fun c' p hl hr' => ?_, fun c' p ht => ?_⟩, ⟨fun c' p hr' hcl => ?_, fun p ho hst => ?_, fun c' p ht => ?_, fun t ht => ?_,
    fun c' st hst => ?_, fun t p => ?_, fun t t' p => ?_⟩, ⟨fun t chan lk => ?_, fun t chan lk set ht => ?_,
    fun p chan lk => ?_, fun p chan lk set c' chan' ps hps hl hwk => ?_, fun p chan lk c' ps hps hl hwk => ?_⟩⟩
  · have ho := locks_iff.mp h.locks c'
    by_cases heq : c' = c
    · subst heq
      rw [OwnsAt, hcur] at ho
      rw [OwnsAt, hnow, cpu_setCpu, update_proc]
      refine ⟨ho.count, fun p hhas => ?_, fun p hl => .inl ?_, (fun _ hp => by cases hp.2), fun chan lk hs => ?_,
        fun hwk => absurd hpark.waking hwk⟩
      · rw [hpark.has] at hhas
        cases hhas
        exact hlock
      · rcases ho.held p hl with hhas | ⟨hph, -⟩
        · rw [hpark.has, ← hhas, hh]
        · rw [hp] at hph
          cases hph
      · have hcalm := hpark.calm
        rcases hs with hs | hs <;> rw [hs] at hcalm <;> cases hcalm
    · rw [OwnsAt, h.switch.other_setCpu hcur heq, cpu_setCpu_of_ne s heq, update_sched heq]
      exact ho
  -- the processors
  · by_cases heq : c' = c
    · rw [heq, update_self, cpu_setCpu]
      have hfits := h.switch.fits c
      rw [hp] at hfits
      exact ⟨.inr rfl, hfits.2⟩
    · rw [update_sched heq, cpu_setCpu_of_ne s heq]
      exact h.switch.fits c'
  · rw [update_proc]
    exact h.switch.free p
  · rw [hstage]
    exact h.switch.stage c'
  · rcases run_setCpu h1 with ⟨he1, hq⟩ | ⟨-, h1⟩ <;> rcases run_setCpu h2 with ⟨he2, hq'⟩ | ⟨-, h2⟩
    · rw [he1, he2]
    · cases hq
      exact absurd h2 (hoff c2)
    · cases hq'
      exact absurd h1 (hoff c1)
    · exact h.switch.one c1 c2 p h1 h2
  · rw [update_proc]
    exact h.switch.off p (hmono p ho)
  · by_cases heq : c' = c
    · rw [heq, update_self]
      exact ⟨rfl, rfl, hw⟩
    · rw [update_sched heq] at hl ⊢
      exact h.switch.away c' p hl
  · by_cases heq : c' = c
    · rw [heq, cpu_setCpu] at hr'
      cases hr'
    · rw [update_sched heq] at hl
      rw [cpu_setCpu_of_ne s heq] at hr'
      exact hkeep p c' heq (h.locks.lent c' p hl hr') (h.switch.lent c' p hl hr')
  · by_cases heq : c' = c
    · rw [heq, update_self] at ht
      rcases ht with ht | ht <;> cases ht
    · rw [update_sched heq] at ht ⊢
      obtain ⟨hh', hw', ho⟩ := h.switch.busy c' p ht
      exact ⟨hh', hw', hkeep p c' heq (h.lock_of_takes ht).2 ho⟩
  -- the states
  · rw [update_proc] at hcl
    rcases run_setCpu hr' with ⟨-, hq⟩ | ⟨-, hr'⟩
    · cases hq
      exact h.states.taken c q htakes
    · exact h.states.running c' p hr' hcl
  · obtain ⟨c', ht⟩ := h.states.steady p (hmono p ho) hst
    refine ⟨c', ?_⟩
    rw [update_sched]
    · exact ht
    · intro heq
      rw [heq, hp] at ht
      rcases ht with ht | ht <;> cases ht
      exact ho c (by rw [cpu_setCpu])
  · by_cases heq : c' = c
    · rw [heq, update_self] at ht
      rcases ht with ht | ht <;> cases ht
    · rw [update_sched heq] at ht
      exact h.states.taken c' p ht
  · by_cases heq : t = .sched c
    · rw [heq, update_self] at ht
      change (g (.sched c)).dirty = true at ht
      rw [h.sched_clean] at ht
      cases ht
    · rw [update_of_ne heq] at ht ⊢
      exact h.states.dirty t ht
  · by_cases heq : c' = c
    · rw [heq, hnow, update_proc, hpark.seen] at hst
      cases hst
    · rw [h.switch.other_setCpu hcur heq] at hst ⊢
      exact h.states.seen c' st hst
  · rw [hchild]
    exact h.states.child t p
  · rw [hchild, hchild]
    exact h.states.apart t t' p
  -- the sleepers
  · rw [hstage]
    exact h.sleeps.plain t chan lk
  · rw [hstage] at ht
    obtain ⟨p, c', rfl, hr', hrest⟩ := h.sleeps.released t chan lk set ht
    have hne : c' ≠ c := by
      intro heq
      rw [heq, hr] at hr'
      cases hr'
    rw [update_proc]
    exact ⟨p, c', rfl, by rw [cpu_setCpu_of_ne s hne, hr'], hrest⟩
  · rw [hstage]
    exact h.sleeps.chan p chan lk
  · rw [hstage] at hps
    by_cases heq : c' = c
    · rw [heq, hnow, update_proc, hpark.waking] at hwk
      cases hwk
    · rw [h.switch.other_setCpu hcur heq] at hwk
      exact h.sleeps.before p chan lk set c' chan' ps hps hl hwk
  · rw [hstage] at hps
    by_cases heq : c' = c
    · rw [heq, hnow, update_proc, hpark.waking] at hwk
      cases hwk
    · rw [h.switch.other_setCpu hcur heq] at hwk
      exact h.sleeps.woken p chan lk c' ps hps hl hwk

theorem Stage.Ready.calm (h : stage.Ready) : stage.switched.Calm := by
  cases stage <;> first | exact h | trivial

theorem Stage.Ready.of_asleep (h : stage.Ready)
    (hs : stage.switched = .asleep chan lk) : stage = .released chan lk true ∨ stage = .asleep chan lk := by
  cases stage with
  | released chan' lk' set =>
    cases hs
    exact .inl (by rw [show set = true from h])
  | asleep chan' lk' =>
    cases hs
    exact .inr rfl
  | awake | called chan' lk' | back chan' lk' => cases hs

theorem Stage.switched_ne_released {set : Bool} : stage.switched ≠ .released chan lk set := by
  cases stage <;> nofun

-- swtch(&p->context, &mycpu()->context)
theorem Inv.sched (h : Inv s g) (hcur : current s c = .proc p) (hh : (g (current s c)).has = some p)
    (hp : (g (current s c)).phase = .free) (hw : (g (current s c)).waking = none) (hs : (g (current s c)).stage.Ready)
    (hlock : s.lock (.proc p) = some c) (hst : (s.proc p).state ≠ .running) :
    Inv (s.setCpu c { s.cpu c with run := none }) (update g (current s c) (g (current s c)).switches) := by
  have hr := run_of_proc hcur
  have hloan := (h.switch.fits c).loaned hr
  obtain ⟨ha1, ha2, ha3⟩ := h.switch.away c p hloan
  have hnow : current (s.setCpu c { s.cpu c with run := none }) c = .sched c := current_of_none (by rw [cpu_setCpu])
  rw [hcur] at hh hp hw hs ⊢
  have hmono : ∀ q, Off s q → Off (s.setCpu c { s.cpu c with run := none }) q := by
    intro q ho c' hr'
    exact ho c' (run_setCpu_none hr').2
  have hoff : ∀ q, q ≠ p → Off (s.setCpu c { s.cpu c with run := none }) q → Off s q := by
    intro q hne ho c' hr'
    by_cases heq : c' = c
    · rw [heq, hr] at hr'
      cases hr'
      exact hne rfl
    · exact ho c' (by rw [cpu_setCpu_of_ne s heq, hr'])
  have hself : Off (s.setCpu c { s.cpu c with run := none }) p := by
    intro c' hr'
    obtain ⟨hne, hr'⟩ := run_setCpu_none hr'
    exact hne (h.switch.one c' c p hr' hr)
  have hchild := field_update (g := g) (p := .proc p) (t := (g (.proc p)).switches) Th.child rfl
  refine ⟨locks_iff.mpr fun c' => ?_, ⟨fun c' => ?_, fun q => ?_, fun c' => ?_, fun c1 c2 q h1 h2 => ?_, fun q ho => ?_, fun c' q hl => ?_,
    fun c' q hl hr' => ?_, fun c' q ht => ?_⟩, ⟨fun c' q hr' hcl => ?_, fun q ho hstq => ?_, fun c' q ht => ?_,
    fun t ht => ?_, fun c' st hst' => ?_, fun t q => ?_, fun t t' q => ?_⟩, ⟨fun t chan lk ht => ?_,
    fun t chan lk set ht => ?_, fun q chan lk hq => ?_, fun q chan lk set c' chan' ps hq hl hwk => ?_,
    fun q chan lk c' ps hq hl hwk => ?_⟩⟩
  · have ho := locks_iff.mp h.locks c'
    by_cases heq : c' = c
    · subst heq
      rw [OwnsAt, hcur] at ho
      rw [OwnsAt, hnow, cpu_setCpu, update_proc_sched]
      refine ⟨ho.count, fun q hhas => ?_, fun q hl => .inr ?_, fun q hl => ?_, fun chan lk hsl => ?_,
        fun hwk => absurd ha3 hwk⟩
      · rw [ha1] at hhas
        cases hhas
      · rcases ho.held q hl with hhas | ⟨-, hn⟩
        · rw [hh] at hhas
          cases hhas
          exact ⟨hloan, rfl⟩
        · rw [hr] at hn
          cases hn
      · rw [hloan] at hl
        cases hl.1
        exact hlock
      · rw [h.switch.stage] at hsl
        rcases hsl with hsl | hsl <;> cases hsl
    · rw [OwnsAt, h.switch.other_setCpu hcur heq, cpu_setCpu_of_ne s heq, update_proc_sched]
      exact ho
  -- the processors
  · rw [update_proc_sched]
    by_cases heq : c' = c
    · rw [heq, cpu_setCpu, hloan]
      have hfits := h.switch.fits c
      rw [hloan] at hfits
      exact ⟨.inl rfl, hfits.2⟩
    · rw [cpu_setCpu_of_ne s heq]
      exact h.switch.fits c'
  · by_cases heq : q = p
    · rw [heq, update_self]
      exact hp
    · rw [update_proc_of_ne heq]
      exact h.switch.free q
  · rw [update_proc_sched]
    exact h.switch.stage c'
  · exact h.switch.one c1 c2 q (run_setCpu_none h1).2 (run_setCpu_none h2).2
  · by_cases heq : q = p
    · rw [heq, update_self]
      exact ⟨hh, rfl, rfl, hs.calm, hw⟩
    · rw [update_proc_of_ne heq]
      exact h.switch.off q (hoff q heq ho)
  · rw [update_proc_sched] at hl ⊢
    exact h.switch.away c' q hl
  · rw [update_proc_sched] at hl
    by_cases heq : c' = c
    · rw [heq, hloan] at hl
      cases hl
      exact hself
    · rw [cpu_setCpu_of_ne s heq] at hr'
      exact hmono q (h.switch.lent c' q hl hr')
  · rw [update_proc_sched] at ht ⊢
    obtain ⟨hh', hw', ho⟩ := h.switch.busy c' q ht
    exact ⟨hh', hw', hmono q ho⟩
  -- the states
  · obtain ⟨hne, hr'⟩ := run_setCpu_none hr'
    rw [update_proc_of_ne fun (heq : q = p) => hne (h.switch.one c' c p (heq ▸ hr') hr)] at hcl
    exact h.states.running c' q hr' hcl
  · simp only [update_proc_sched]
    have hne : q ≠ p := by
      intro heq
      rw [heq] at hstq
      exact hst hstq
    exact h.states.steady q (hoff q hne ho) hstq
  · rw [update_proc_sched] at ht
    exact h.states.taken c' q ht
  · by_cases heq : t = .proc p
    · rw [heq, update_self] at ht
      cases ht
    · rw [update_of_ne heq] at ht ⊢
      exact h.states.dirty t ht
  · by_cases heq : c' = c
    · rw [heq, hnow, update_proc_sched, ha2] at hst'
      cases hst'
    · rw [h.switch.other_setCpu hcur heq] at hst' ⊢
      exact h.states.seen c' st hst'
  · rw [hchild]
    exact h.states.child t q
  · rw [hchild, hchild]
    exact h.states.apart t t' q
  -- the sleepers
  · by_cases heq : t = .proc p
    · rw [heq, update_self] at ht
      rcases ht with ⟨set, ht⟩ | ht
      · exact absurd ht Stage.switched_ne_released
      · exact h.sleeps.plain _ chan lk ((hs.of_asleep ht).imp (fun ht => ⟨true, ht⟩) id)
    · rw [update_of_ne heq] at ht
      exact h.sleeps.plain t chan lk ht
  · have hne : t ≠ .proc p := by
      intro heq
      rw [heq, update_self] at ht
      exact Stage.switched_ne_released ht
    rw [update_of_ne hne] at ht ⊢
    obtain ⟨q, c', rfl, hr', hrest⟩ := h.sleeps.released t chan lk set ht
    have hc : c' ≠ c := by
      intro heq
      rw [heq, hr] at hr'
      cases hr'
      exact hne rfl
    exact ⟨q, c', rfl, by rw [cpu_setCpu_of_ne s hc, hr'], hrest⟩
  · by_cases heq : q = p
    · subst heq
      rw [update_self] at hq
      rcases hq with hq | ⟨hq, hsl⟩
      · exact absurd hq Stage.switched_ne_released
      · exact h.sleeps.chan q chan lk ((hs.of_asleep hq).imp id fun ha => ⟨ha, hsl⟩)
    · rw [update_proc_of_ne heq] at hq
      exact h.sleeps.chan q chan lk hq
  · have hne : q ≠ p := by
      intro heq
      rw [heq, update_self] at hq
      exact Stage.switched_ne_released hq
    rw [update_proc_of_ne hne] at hq
    by_cases heq : c' = c
    · rw [heq, hnow, update_proc_sched, ha3] at hwk
      cases hwk
    · rw [h.switch.other_setCpu hcur heq] at hwk
      exact h.sleeps.before q chan lk set c' chan' ps hq hl hwk
  · by_cases heq : c' = c
    · rw [heq, hnow, update_proc_sched, ha3] at hwk
      cases hwk
    rw [h.switch.other_setCpu hcur heq] at hwk
    by_cases hqp : q = p
    · subst hqp
      rw [update_self] at hq
      rcases hs.of_asleep hq with hq | hq
      · exact fun hin => absurd hin (h.sleeps.before q chan lk true c' chan ps hq hl hwk)
      · exact h.sleeps.woken q chan lk c' ps hq hl hwk
    · rw [update_proc_of_ne hqp] at hq
      exact h.sleeps.woken q chan lk c' ps hq hl hwk

theorem Inv.renew (h : Inv s g) (hoff : Off s q) : Inv s (update g (.proc q) (Ctx.proc (κ := κ) q).fresh) := by
  have hg : ∀ c', update g (.proc q) (Ctx.proc (κ := κ) q).fresh (current s c') = g (current s c') :=
    fun c' => update_of_ne (fun heq => hoff c' (run_of_proc heq)) ..
  have hother : ∀ t, update g (.proc q) (Ctx.proc (κ := κ) q).fresh t = g t ∨
      t = .proc q ∧ update g (.proc q) (Ctx.proc (κ := κ) q).fresh t = Th.idle.locks q := by
    intro t
    by_cases heq : t = .proc q
    · right
      rw [heq, update_self]
      exact ⟨rfl, rfl⟩
    · exact .inl (update_of_ne heq ..)
  refine ⟨locks_iff.mpr fun c' => ?_,
    ⟨fun c' => ?_, fun p => ?_, fun c' => ?_, h.switch.one, fun p ho => ?_, fun c' p => ?_, fun c' p => ?_,
      fun c' p => ?_⟩,
    ⟨fun c' p hr => ?_, fun p ho hst => ?_, fun c' p => ?_, fun t ht => ?_, fun c' st => ?_, fun t p ht => ?_,
      fun t t' p ht ht' => ?_⟩,
    ⟨fun t chan lk ht => ?_, fun t chan lk set ht => ?_, fun p chan lk ht => ?_, fun p chan lk set c' chan' ps ht => ?_,
      fun p chan lk c' ps ht => ?_⟩⟩
  · rw [OwnsAt, hg, update_proc_sched]
    exact locks_iff.mp h.locks c'
  · rw [update_proc_sched]
    exact h.switch.fits c'
  · rcases hother (.proc p) with heq | ⟨-, heq⟩ <;> rw [heq]
    · exact h.switch.free p
    · rfl
  · rw [update_proc_sched]
    exact h.switch.stage c'
  · by_cases hpq : p = q
    · rw [hpq, update_self]
      exact ⟨rfl, rfl, rfl, trivial, rfl⟩
    · rw [update_proc_of_ne hpq]
      exact h.switch.off p ho
  · rw [update_proc_sched]
    exact h.switch.away c' p
  · rw [update_proc_sched]
    exact h.switch.lent c' p
  · rw [update_proc_sched]
    exact h.switch.busy c' p
  · rw [update_proc_of_ne fun (heq : p = q) => hoff c' (heq ▸ hr)]
    exact h.states.running c' p hr
  · simp only [update_proc_sched]
    exact h.states.steady p ho hst
  · rw [update_proc_sched]
    exact h.states.taken c' p
  · rcases hother t with heq | ⟨-, heq⟩ <;> rw [heq] at ht
    · rw [heq]
      exact h.states.dirty t ht
    · cases ht
  · rw [hg]
    exact h.states.seen c' st
  · rcases hother t with heq | ⟨-, heq⟩ <;> rw [heq] at ht
    · exact h.states.child t p ht
    · cases ht
  · rcases hother t with heq | ⟨-, heq⟩ <;> rw [heq] at ht
    · rcases hother t' with heq' | ⟨-, heq'⟩ <;> rw [heq'] at ht'
      · exact h.states.apart t t' p ht ht'
      · cases ht'
    · cases ht
  · rcases hother t with heq | ⟨-, heq⟩ <;> rw [heq] at ht
    · exact h.sleeps.plain t chan lk ht
    · rcases ht with ⟨set, ht⟩ | ht <;> cases ht
  · rcases hother t with heq | ⟨-, heq⟩ <;> rw [heq] at ht
    · rw [heq]
      exact h.sleeps.released t chan lk set ht
    · cases ht
  · rcases hother (.proc p) with heq | ⟨-, heq⟩ <;> rw [heq] at ht
    · exact h.sleeps.chan p chan lk ht
    · rcases ht with ht | ⟨ht, -⟩ <;> cases ht
  · rw [hg]
    rcases hother (.proc p) with heq | ⟨-, heq⟩ <;> rw [heq] at ht
    · exact h.sleeps.before p chan lk set c' chan' ps ht
    · cases ht
  · rw [hg]
    rcases hother (.proc p) with heq | ⟨-, heq⟩ <;> rw [heq] at ht
    · exact h.sleeps.woken p chan lk c' ps ht
    · cases ht

end Scheduler

end Sched
