import Xv6.Sched.Run

-- No wakeup is lost, and a process runs on one processor at most.

namespace Sched

open Prog

def returns (f : Fn) : Kern Unit → Bool
  | .act (.leave f') _ => f' = f
  | _ => false

def switches (p : Slot) : Kern Unit → Bool
  | .act (.swtch p') _ => p' = p
  | _ => false

theorem of_returns {f : Fn} {m : Kern Unit} (h : returns f m = true) : ∃ k, m = .act (.leave f) k := by
  unfold returns at h
  split at h
  · next f' k =>
    cases of_decide_eq_true h
    exact ⟨k, rfl⟩
  · cases h

theorem of_switches {p : Slot} {m : Kern Unit} (h : switches p m = true) : ∃ k, m = .act (.swtch p) k := by
  unfold switches at h
  split at h
  · next p' k =>
    cases of_decide_eq_true h
    exact ⟨k, rfl⟩
  · cases h

variable {κ : Type} {g : Ctx κ → Th} {c : κ} {chan : Chan} {lk : Lock}

section States

variable {s s' : State κ} {p q : Slot}

theorem Inv.back_running (h : Inv s g) (hst : (g (.proc p)).stage = .back chan lk) :
    ∃ c, current s c = .proc p ∧ s.lock lk = some c := by
  have hon : ¬Off s p := by
    intro hoff
    have hcalm := (h.switch.off p hoff).calm
    rw [hst] at hcalm
    cases hcalm
  obtain ⟨c, hr⟩ := not_forall_not.mp hon
  have hcur := current_of_some hr
  refine ⟨c, hcur, h.locks.sleep c chan lk (.inr ?_)⟩
  rw [hcur]
  exact hst

theorem Inv.proc_cases (h : Inv s g) (hp : (s.cpu c).proc = some p) :
    (s.cpu c).run = some p ∨ s.lock (.proc p) = some c ∧ Off s p := by
  have hfits := h.switch.fits c
  cases hph : (g (.sched c)).phase with
  | free | chosen q =>
    rw [hph] at hfits
    rw [hfits.2] at hp
    cases hp
  | loaded q =>
    have ht : (g (.sched c)).phase.Takes q := .inr hph
    rw [hph] at hfits
    rw [hfits.2] at hp
    cases hp
    exact .inr ⟨(h.lock_of_takes ht).2, (h.switch.busy c p ht).2.2⟩
  | loaned q =>
    rw [hph] at hfits
    rw [hfits.2] at hp
    cases hp
    rcases hfits.1 with hr | hr
    · exact .inr ⟨h.locks.lent c p hph hr, h.switch.lent c p hph hr⟩
    · exact .inl hr

theorem Inv.proc_inj (h : Inv s g) {c' : κ} (hp : (s.cpu c).proc = some p) (hp' : (s.cpu c').proc = some p) :
    c = c' := by
  rcases h.proc_cases hp with hr | ⟨hl, hoff⟩
  · rcases h.proc_cases hp' with hr' | ⟨-, hoff'⟩
    · exact h.switch.one c c' p hr hr'
    · exact absurd hr (hoff' c)
  · rcases h.proc_cases hp' with hr' | ⟨hl', -⟩
    · exact absurd hr' (hoff c')
    · rw [hl] at hl'
      exact Option.some.inj hl'

theorem Inv.running_iff (h : Inv s g) (hl : s.lock (.proc p) = none) :
    (s.proc p).state = .running ↔ ∃! c, (s.cpu c).proc = some p := by
  constructor
  · intro hst
    have hon : ¬Off s p := by
      intro hoff
      obtain ⟨c, ht⟩ := h.states.steady p hoff hst
      have hlock := (h.lock_of_takes ht).2
      rw [hl] at hlock
      cases hlock
    obtain ⟨c, hr⟩ := not_forall_not.mp hon
    have hfits := h.switch.fits c
    rw [hfits.loaned hr] at hfits
    exact ⟨c, hfits.2, fun c' hp' => h.proc_inj hp' hfits.2⟩
  · rintro ⟨c, hp, -⟩
    rcases h.proc_cases hp with hr | ⟨hlock, -⟩
    · refine h.states.running c p hr ?_
      have hcur := current_of_some hr
      cases hd : (g (.proc p)).dirty with
      | false => rfl
      | true =>
        obtain ⟨q, hq, hhas⟩ := h.states.dirty _ hd
        cases hq
        rw [← hcur] at hhas
        rw [h.locks.has c p hhas] at hl
        cases hl
    · rw [hl] at hlock
      cases hlock

inductive Turns (s : State κ) (g : Ctx κ → Th) (c : κ) (p : Slot) : ProcState → Prop
  | same : Turns s g c p (s.proc p).state
  | other {st : ProcState} (hr : st ≠ .running) (hs : st ≠ .sleeping) : Turns s g c p st
  | running (h : (s.proc p).state = .runnable) : Turns s g c p .running
  | sleeping {chan : Chan} {lk : Lock} (hcur : current s c = .proc p)
    (hst : (g (current s c)).stage = .released chan lk true) : Turns s g c p .sleeping

theorem turns_setProc {z : Proc} (hz : Turns s g c q z.state) : Turns s g c p ((s.setProc q z).proc p).state := by
  by_cases heq : p = q
  · subst heq
    rw [proc_setProc]
    exact hz
  · rw [proc_setProc_of_ne s heq]
    exact .same

theorem turns_roused (q : Slot) (chan : Chan) : Turns s g c q (roused (s.proc q) chan).state := by
  unfold roused
  split
  · exact .other (by nofun) (by nofun)
  · exact .same

theorem turns_struck (q : Slot) : Turns s g c q (struck (s.proc q)).state := by
  unfold struck
  split
  · exact .other (by nofun) (by nofun)
  · exact .same

variable [DecidableEq κ]

theorem Inv.turns (h : Inv s g) {a : Act} {W : sig.Res a → Th → Prop} {r : sig.Res a}
    (hrule : Rule (current s c) a (g (current s c)) W) (hs : Sched.step c a s = .done r s') (p : Slot) :
    Turns s g c p (s'.proc p).state := by
  obtain ⟨t, ht⟩ : ∃ t, t = current s c := ⟨_, rfl⟩
  rw [← ht] at hrule
  cases hrule with
  | acquire | lock | retake =>
    obtain ⟨-, rfl⟩ := acquire_done hs
    exact .same
  | release | unlock | drop =>
    obtain ⟨-, rfl⟩ := release_done hs
    exact .same
  | sched =>
    obtain ⟨-, -, rfl⟩ := sched_done hs
    exact .same
  | choose hx hse hp hw =>
    cases hs
    rw [ht] at hx hse
    obtain ⟨q, hq, hst⟩ := h.states.seen c _ hse
    rw [hx] at hq
    cases hq
    exact turns_setProc (.running hst)
  | sleeps hx hc hp hst =>
    cases hs
    rw [ht] at hst
    exact turns_setProc (.sleeping ht.symm hst)
  | alloc | ready | yields | dies | reap | undo =>
    cases hs
    exact turns_setProc (.other (by nofun) (by nofun))
  | rouse =>
    cases hs
    exact turns_setProc (turns_roused _ _)
  | strike =>
    simp only [Sched.step] at hs
    split at hs
    · cases hs
      exact turns_setProc (turns_struck _)
    · cases hs
      exact .same
  | setChan | tidy | setPid | setParent | setXstate =>
    cases hs
    exact turns_setProc .same
  | call =>
    simp only [Sched.step] at hs
    split at hs
    · cases hs
      exact .same
    · cases hs
  | enter =>
    simp only [Sched.step] at hs
    split at hs
    · cases hs
    · cases hs
      exact .same
  | never => cases hs
  | _ =>
    cases hs
    exact .same

end States

section Runs

variable [DecidableEq κ] {P P' : Config sig Halt (State κ) (Ctx κ)} {p : Slot} {m : Kern Unit}

abbrev Keeping (P : Config sig Halt (State κ) (Ctx κ)) (g : Ctx κ → Th) : Prop :=
  Governed Rule (fun _ => True) (fun past x => x.stage.nap = nap past) Inv Th.idle P g

section

omit [DecidableEq κ]

theorem Keeping.rule (h : Keeping P g) {t : Ctx κ} {a : Act} {k : sig.Res a → Kern Unit}
    (hprog : P.program t = .act a k) : ∃ W, Rule t a (g t) W := by
  have hrest := (h.rest t).2
  rw [hprog] at hrest
  obtain ⟨W, hrule, -⟩ := hrest
  exact ⟨W, hrule⟩

-- wakeup returns to a caller that holds lk, and `p` has released lk in sleep.
theorem Keeping.wakeup (h : Keeping P g) {rest : Rest}
    (hret : returns (.wakeup chan) (P.program (current P.state c)) = true) (hl : P.state.lock lk = some c)
    (hnap : nap (P.past (.proc p)) = some ⟨chan, lk, rest⟩) (hrest : rest ≠ .called) :
    rest = .slept ∧ (P.state.proc p).state ≠ .sleeping := by
  obtain ⟨k, hprog⟩ := of_returns hret
  obtain ⟨W, hrule⟩ := h.rule hprog
  obtain ⟨ps, hx, hw, hall⟩ : ∃ ps, (g (current P.state c)).has = none ∧
      (g (current P.state c)).waking = some (chan, ps) ∧ ∀ p, p ∈ ps := by
    generalize current P.state c = t at hrule ⊢
    cases hrule with
    | leave hx hp hw hall => exact ⟨_, hx, hw, hall⟩
  have hstage := (h.rest (.proc p)).1.trans hnap
  cases hst : (g (.proc p)).stage with
  | awake =>
    rw [hst] at hstage
    cases hstage
  | called chan' lk' =>
    rw [hst] at hstage
    cases hstage
    exact absurd rfl hrest
  | released chan' lk' set =>
    rw [hst] at hstage
    cases hstage
    exact absurd (hall p) (h.inv.sleeps.before p chan lk set c chan ps hst hl hw)
  | asleep chan' lk' =>
    rw [hst] at hstage
    cases hstage
    exact ⟨rfl, h.inv.sleeps.woken p chan lk c ps hst hl hw (hall p)⟩
  | back chan' lk' =>
    rw [hst] at hstage
    cases hstage
    refine ⟨rfl, ?_⟩
    -- then the caller is `p`
    obtain ⟨c', hcur, hl'⟩ := h.inv.back_running hst
    rw [hl] at hl'
    cases hl'
    rw [h.inv.running hcur]
    · nofun
    rw [← hcur]
    cases hd : (g (current P.state c)).dirty with
    | false => rfl
    | true =>
      obtain ⟨q, -, hhas⟩ := h.inv.own hd
      rw [hx] at hhas
      cases hhas

theorem Keeping.returned (h : Keeping P g) (hcur : current P.state c = .proc p)
    (hret : returns (.sleep chan lk) (P.program (.proc p)) = true) :
    P.state.lock lk = some c ∧ P.state.lock (.proc p) ≠ some c := by
  obtain ⟨k, hprog⟩ := of_returns hret
  obtain ⟨W, hrule⟩ := h.rule hprog
  obtain ⟨hx, hst⟩ : (g (.proc p)).has = none ∧ (g (.proc p)).stage = .back chan lk := by
    cases hrule with
    | returns hx hp hst => exact ⟨hx, hst⟩
  refine ⟨h.inv.locks.sleep c chan lk (.inr (by rw [hcur, hst])), fun hl => ?_⟩
  rcases h.inv.locks.held c p hl with hhas | ⟨-, hr⟩
  · rw [hcur, hx] at hhas
    cases hhas
  · rw [run_of_proc hcur] at hr
    cases hr

theorem Keeping.switched (h : Keeping P g) (hcur : switches p (P.program (current P.state c)) = true) :
    (P.state.proc p).state = .running := by
  obtain ⟨k, hprog⟩ := of_switches hcur
  obtain ⟨W, hrule⟩ := h.rule hprog
  generalize current P.state c = t at hrule
  cases hrule with
  | swtch hp => exact h.inv.states.taken _ p (.inr hp)

end

variable {b : Beat (List Op) Intr κ}

theorem Keeping.turns (h : Keeping P g) (hb : (machine κ).next b P = some P') (p : Slot) :
    ∃ c, Turns P.state g c p (P'.state.proc p).state := by
  cases b with
  | step c =>
    obtain ⟨a, k, r, s, hprog, hstep, rfl⟩ := Cpus.next_step hb
    obtain ⟨W, hrule⟩ := h.rule hprog
    refine ⟨c, ?_⟩
    have hstate : ((P.after (current P.state c) s (k r) ⟨a, r⟩).setup ((machine κ).spawn a)).state = s := by
      cases (machine κ).spawn a <;> rfl
    change Turns P.state g c p (((P.after (current P.state c) s (k r) ⟨a, r⟩).setup ((machine κ).spawn a)).state.proc p).state
    rw [hstate]
    exact h.inv.turns hrule hstep p
  | call c x =>
    obtain ⟨rfl, -⟩ := Cpus.next_call hb
    exact ⟨c, .same⟩
  | interrupt c i =>
    obtain ⟨-, rfl⟩ := Cpus.next_interrupt hb
    exact ⟨c, .same⟩

theorem Keeping.awake (h : Keeping P g) (hb : (machine κ).next b P = some P')
    (hnap : nap (P.past (.proc p)) = some ⟨chan, lk, .slept⟩) (hst : (P.state.proc p).state ≠ .sleeping) :
    (P'.state.proc p).state ≠ .sleeping := by
  obtain ⟨c, hturns⟩ := h.turns hb p
  intro heq
  rw [heq] at hturns
  generalize hz : Table.ProcState.sleeping = z at hturns
  cases hturns with
  | same => exact hst hz.symm
  | other _ hs => exact hs hz.symm
  | running _ => cases hz
  | sleeping hcur hs =>
    rw [hcur] at hs
    have hstage := (h.rest (.proc p)).1.trans hnap
    rw [hs] at hstage
    cases hstage

-- A caller of wakeup that holds lk after a process has released it in sleep has taken it
-- since then.
theorem no_lost_wakeup (h : (machine κ).Reach boot P) :
    (∀ c p chan lk rest, returns (.wakeup chan) (P.program (current P.state c)) = true → P.state.lock lk = some c →
      nap (P.past (.proc p)) = some ⟨chan, lk, rest⟩ → rest ≠ .called →
      rest = .slept ∧ (P.state.proc p).state ≠ .sleeping) ∧
    (∀ b P' p chan lk, (machine κ).next b P = some P' → nap (P.past (.proc p)) = some ⟨chan, lk, .slept⟩ →
      (P.state.proc p).state ≠ .sleeping → (P'.state.proc p).state ≠ .sleeping) ∧
    (∀ c p chan lk, current P.state c = .proc p → returns (.sleep chan lk) (P.program (.proc p)) = true →
      P.state.lock lk = some c ∧ P.state.lock (.proc p) ≠ some c) := by
  obtain ⟨g, hg⟩ := governed h
  exact ⟨fun c p chan lk rest => Keeping.wakeup hg, fun b P' p chan lk hb => Keeping.awake hg hb,
    fun c p chan lk => Keeping.returned hg⟩

theorem no_lost_wakeup_interrupt : ∃ P, (machine Bool).Reach boot P ∧
    nap (P.past (.proc initproc)) = some ⟨.other 7, .other 0, .slept⟩ ∧
    (P.state.proc initproc).chan = .other 7 ∧ (P.state.proc initproc).state ≠ .sleeping := by
  have hrun : ((machine Bool).run
      ([.call true []] ++ List.replicate 7 (.step true) ++ [.call true [.acquire 0, .sleep (.other 7) 0]] ++
        List.replicate 11 (.step true) ++ [.interrupt true ⟨[.acquire 0, .wakeup (.other 7)], false⟩] ++
        List.replicate 258 (.step true)) boot).any
      (fun P => returns (.wakeup (.other 7)) (P.program (current P.state true)) &&
        decide (P.state.lock (.other 0) = some true ∧
          nap (P.past (.proc initproc)) = some ⟨.other 7, .other 0, .slept⟩ ∧
          (P.state.proc initproc).chan = .other 7)) = true := by
    decide +kernel
  obtain ⟨P, hreach, hP⟩ := Cpus.reach_of_any hrun
  rw [Bool.and_eq_true] at hP
  obtain ⟨hl, hnap, hchan⟩ := of_decide_eq_true hP.2
  have hawake := (no_lost_wakeup hreach).1 true initproc (.other 7) (.other 0) .slept hP.1 hl hnap (by decide)
  exact ⟨P, hreach, hnap, hchan, hawake.2⟩

theorem Keeping.turned (h : Keeping P g) (hb : (machine κ).next b P = some P')
    (hst : (P'.state.proc p).state = .running) :
    (P.state.proc p).state = .running ∨ (P.state.proc p).state = .runnable := by
  obtain ⟨c, hturns⟩ := h.turns hb p
  rw [hst] at hturns
  generalize hz : Table.ProcState.running = z at hturns
  cases hturns with
  | same => exact .inl rfl
  | other hr _ => exact absurd hz.symm hr
  | running hr => exact .inr hr
  | sleeping _ _ => cases hz

theorem one_cpu_per_process (h : (machine κ).Reach boot P) : (∀ p, P.state.lock (.proc p) = none →
      ((P.state.proc p).state = .running ↔ ∃! c, (P.state.cpu c).proc = some p)) ∧
    (∀ c c' p, (P.state.cpu c).proc = some p → (P.state.cpu c').proc = some p → c = c') ∧
    (∀ c p, switches p (P.program (current P.state c)) = true → (P.state.proc p).state = .running) ∧
    (∀ b P' p, (machine κ).next b P = some P' → (P'.state.proc p).state = .running →
      (P.state.proc p).state = .running ∨ (P.state.proc p).state = .runnable) := by
  obtain ⟨g, hg⟩ := governed h
  exact ⟨fun p => hg.inv.running_iff, fun c c' p => hg.inv.proc_inj, fun c p => Keeping.switched hg,
    fun b P' p => Keeping.turned hg⟩

theorem one_cpu_per_process_forked : ∃ P, (machine Bool).Reach boot P ∧
    (P.state.proc 0).state = .running ∧ (P.state.proc 1).state = .running ∧
    (∃! c, (P.state.cpu c).proc = some 0) ∧ ∃! c, (P.state.cpu c).proc = some 1 := by
  have hrun : ((machine Bool).run
      ([.call true []] ++ List.replicate 7 (.step true) ++ [.call true [.fork true true]] ++
        List.replicate 19 (.step true) ++ [.call false []] ++ List.replicate 10 (.step false)) boot).any
      (fun P => decide (P.state.lock (.proc 0) = none ∧ P.state.lock (.proc 1) = none ∧
        (P.state.proc 0).state = .running ∧ (P.state.proc 1).state = .running)) = true := by
    decide +kernel
  obtain ⟨P, hreach, hP⟩ := Cpus.reach_of_any hrun
  obtain ⟨hl0, hl1, hst0, hst1⟩ := of_decide_eq_true hP
  have hone := (one_cpu_per_process hreach).1
  exact ⟨P, hreach, hst0, hst1, (hone 0 hl0).mp hst0, (hone 1 hl1).mp hst1⟩

end Runs

end Sched
