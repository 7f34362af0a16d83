import Xv6.Sched.Inv

-- Every step that the rules allow keeps the invariant.

namespace Sched

open Prog Function

variable {κ : Type} {g : Ctx κ → Th} {p q : Slot} {lk : Lock} {ps : List Slot} {st : ProcState}

section Facts

variable {s : State κ} {c c' : κ}

section

variable (h : Inv s g)

include h

theorem Inv.lock_of_takes (ht : (g (.sched c)).phase.Takes p) :
    current s c = .sched c ∧ s.lock (.proc p) = some c := by
  have hcur := current_of_none ((h.switch.fits c).takes ht)
  refine ⟨hcur, h.locks.has c p ?_⟩
  rw [hcur]
  exact (h.switch.busy c p ht).1

theorem Inv.not_takes (hl : s.lock (.proc p) = some c) (hp : (g (current s c)).phase = .free)
    (c' : κ) : ¬(g (.sched c')).phase.Takes p := by
  intro ht
  obtain ⟨hcur, hl'⟩ := h.lock_of_takes ht
  rw [hl] at hl'
  cases hl'
  rw [← hcur, hp] at ht
  rcases ht with ht | ht <;> cases ht

theorem Inv.off (hh : (g (current s c)).has = some p) (hc : (g (current s c)).dirty = false)
    (hst : (s.proc p).state ≠ .running) : Off s p := by
  intro c' hr
  refine hst (h.states.running c' p hr ?_)
  by_contra hd
  rw [Bool.not_eq_false] at hd
  obtain ⟨p', hp', hown⟩ := h.states.dirty _ hd
  cases hp'
  rw [← current_of_some hr] at hown hd
  have hl := h.locks.has c' p hown
  rw [h.locks.has c p hh] at hl
  cases hl
  rw [hc] at hd
  cases hd

theorem Inv.running (hcur : current s c = .proc p) (hc : (g (.proc p)).dirty = false) :
    (s.proc p).state = .running := h.states.running c p (run_of_proc hcur) hc

theorem Inv.own (hd : (g (current s c)).dirty = true) :
    ∃ p, current s c = .proc p ∧ (g (current s c)).has = some p := h.states.dirty _ hd

theorem Inv.opened (hn : (s.cpu c).noff = 0) :
    (g (current s c)).Open ∧ (g (current s c)).waking = none := by
  have hno : ∀ lk, s.lock lk ≠ some c := by
    intro lk hl
    obtain ⟨l, -, hmem, hlen⟩ := h.locks.count c
    have hin := (hmem lk).mpr hl
    rw [hn, List.length_eq_zero_iff] at hlen
    rw [hlen] at hin
    cases hin
  have hhas : (g (current s c)).has = none := by
    cases hh : (g (current s c)).has with
    | none => rfl
    | some p => exact absurd (h.locks.has c p hh) (hno _)
  have hphase : (g (current s c)).phase = .free := by
    cases hr : (s.cpu c).run with
    | some p =>
      rw [current_of_some hr]
      exact h.switch.free p
    | none =>
      rw [current_of_none hr]
      cases hph : (g (.sched c)).phase with
      | free => rfl
      | chosen p => exact absurd (h.lock_of_takes (.inl hph)).2 (hno _)
      | loaded p => exact absurd (h.lock_of_takes (.inr hph)).2 (hno _)
      | loaned p => exact absurd (h.locks.lent c p hph hr) (hno _)
  refine ⟨⟨hhas, ?_, hphase, ?_, ?_⟩, ?_⟩
  · by_contra hd
    rw [Bool.not_eq_false] at hd
    obtain ⟨p, -, hh⟩ := h.own hd
    rw [hhas] at hh
    cases hh
  · cases hs : (g (current s c)).seen with
    | none => rfl
    | some st =>
      obtain ⟨p, hh, -⟩ := h.states.seen c st hs
      rw [hhas] at hh
      cases hh
  · cases hs : (g (current s c)).stage with
    | awake => trivial
    | asleep chan lk => trivial
    | called chan lk => exact absurd (h.locks.sleep c chan lk (.inl hs)) (hno _)
    | back chan lk => exact absurd (h.locks.sleep c chan lk (.inr hs)) (hno _)
    | released chan lk set =>
      obtain ⟨p, -, -, -, hh, -⟩ := h.sleeps.released _ chan lk set hs
      rw [hhas] at hh
      cases hh
  · by_contra hw
    obtain ⟨lk, -, hl⟩ := h.locks.waking c hw
    exact hno lk hl

end

end Facts

section Acts

variable {s s' : State κ} {c : κ} {y : Th} {z : Proc}

theorem Inv.stage_awake (h : Inv s g) {c' : κ} (hcur : current s c = .sched c') :
    (g (current s c)).stage = .awake := by
  rw [hcur]
  exact h.switch.stage c'

theorem Inv.waking_not_released (h : Inv s g) {w : Chan × List Slot}
    (hw : (g (current s c)).waking = some w) (chan : Chan) (lk : Lock) (set : Bool) :
    (g (current s c)).stage ≠ .released chan lk set := by
  intro hst
  obtain ⟨q, c', -, -, -, hn⟩ := h.sleeps.released _ chan lk set hst
  rw [hw] at hn
  cases hn

theorem setProc_self (s : State κ) (p : Slot) : s.setProc p (s.proc p) = s := by
  rw [State.setProc, update_eq_self]

theorem Inv.child_other (h : Inv s g) (hq : (s.proc q).state ≠ .used) {t : Ctx κ}
    (hc : (g t).child = some p) : ((s.setProc q z).proc p).state = .used := by
  have hu := h.states.child t p hc
  have hne : p ≠ q := by
    intro heq
    rw [heq] at hu
    exact hq hu
  rw [proc_setProc_of_ne s hne]
  exact hu

theorem field_setProc {β : Type} {f : Proc → β} (hz : f z = f (s.proc q)) (p : Slot) :
    f ((s.setProc q z).proc p) = f (s.proc p) := field_update f hz p

theorem Stage.Calm.not_released {stage : Stage} (h : stage.Calm) (chan : Chan) (lk : Lock)
    (set : Bool) : stage ≠ .released chan lk set := by
  rintro rfl
  cases h

variable [DecidableEq κ] {stage : Stage} {chan : Chan}

section Free

variable (h : Inv s g) (hp : (g (current s c)).phase = .free)

include h hp

theorem Inv.quiet (hlock : s'.lock = s.lock) (hcpu : s'.cpu = s.cpu)
    (hstate : ∀ p, (s'.proc p).state = (s.proc p).state)
    (hchan : ∀ p, (s'.proc p).chan = (s.proc p).chan)
    (hseen : ∀ st, y.seen = some st → ∃ p, y.has = some p ∧ (s.proc p).state = st)
    (hy : y = { g (current s c) with seen := y.seen }) : Inv s' (update g (current s c) y) := by
  have hrun : ∀ c, (s'.cpu c).run = (s.cpu c).run := fun c => by rw [hcpu]
  have hfield : ∀ {β : Type} (f : Th → β), (∀ z w, f { z with seen := w } = f z) → f y = f (g (current s c)) := by
    intro β f hf
    rw [hy]
    exact hf _ _
  have hhas := hfield Th.has fun _ _ => rfl
  have hphase := hfield Th.phase fun _ _ => rfl
  have hstage := hfield Th.stage fun _ _ => rfl
  have hwake := hfield Th.waking fun _ _ => rfl
  have hdirty := hfield Th.dirty fun _ _ => rfl
  refine ⟨?_, ?_, ?_, ?_⟩
  · refine h.locks.keep h.switch hlock hrun (fun c => by rw [hcpu]) hhas (fun p => by rw [hphase]) (fun chan lk hst => ?_) fun hw => ?_
    · rw [hstage] at hst
      exact h.locks.sleep c chan lk hst
    · rw [hwake] at hw
      exact h.locks.waking c hw
  · refine h.switch.keep hrun (fun c => by rw [hcpu]) hp (hphase.trans hp) fun c' hcur => ?_
    rw [hstage]
    exact h.stage_awake hcur
  · refine h.states.keep h.switch hrun hstate (fun p => by rw [hphase]) hdirty (fun hd => ?_) (hfield Th.child fun _ _ => rfl) hseen
    rw [hdirty] at hd
    rw [hhas]
    exact h.own hd
  · refine h.sleeps.keep (fun lk c' _ hl => .inl (hlock ▸ hl)) hrun hstate hchan (fun chan lk set hst => ?_)
      (fun chan lk hst => ?_) hwake
    · exact ⟨hstage ▸ hst, hhas⟩
    · exact hstage ▸ hst

theorem Inv.still (hlock : s'.lock = s.lock) (hcpu : s'.cpu = s.cpu)
    (hstate : ∀ p, (s'.proc p).state = (s.proc p).state)
    (hchan : ∀ p, (s'.proc p).chan = (s.proc p).chan) :
    Inv s' (update g (current s c) (g (current s c))) :=
  h.quiet hp hlock hcpu hstate hchan (h.states.seen c) rfl

theorem Inv.acquire (hl : lk.Plain) (hfree : s.lock lk = none) (hw : (g (current s c)).waking = none)
    (hst : stage = (g (current s c)).stage ∨
      ∃ p chan, current s c = .proc p ∧ (g (current s c)).stage = .asleep chan lk ∧ stage = .back chan lk) :
    Inv (s.take c lk) (update g (current s c) ((g (current s c)).reaches stage)) := by
  have hrun := fun c' => run_take s c c' lk
  have hsame : ∀ stage', stage = stage' → (∀ chan, stage' ≠ .back chan lk) → (g (current s c)).stage = stage' := by
    intro stage' heq hn
    rcases hst with hst | ⟨p, chan, -, -, hst⟩
    · rw [← hst, heq]
    · exact absurd (heq.symm.trans hst) (hn chan)
  refine ⟨?_, ?_, ?_, ?_⟩
  · refine h.locks.take h.switch hfree rfl (fun p => ?_) (fun chan lk' hs => ?_) fun hn => absurd hw hn
    · exact ⟨.inr, fun ho => ho.resolve_left fun heq => hl p heq⟩
    rcases hst with hst | ⟨p, chan', -, -, hst⟩
    · refine .inr (h.locks.sleep c chan lk' ?_)
      change stage = _ ∨ stage = _ at hs
      rwa [hst] at hs
    · change stage = _ ∨ stage = _ at hs
      rw [hst] at hs
      rcases hs with hs | hs <;> cases hs
      exact .inl rfl
  · refine h.switch.keep hrun (fun c' => proc_take s c c' lk) hp hp fun c' hcur => ?_
    rcases hst with hst | ⟨p, chan, hpc, -, -⟩
    · exact hst.trans (h.stage_awake hcur)
    · rw [hpc] at hcur
      cases hcur
  · exact h.states.keep h.switch hrun (fun _ => rfl) (fun _ => Iff.rfl) rfl h.own rfl (h.states.seen c)
  · refine h.sleeps.keep (fun lk' c' _ hl' => ?_) hrun (fun _ => rfl) (fun _ => rfl) (fun chan lk' set hs => ?_)
      (fun chan lk' hs => ?_) rfl
    · exact ((lock_take_iff s c c' hfree).mp hl').symm.imp_right fun hl => ⟨hl.1, hw⟩
    · exact ⟨hsame _ hs nofun, rfl⟩
    · exact hsame _ hs nofun

theorem Inv.release (hl : lk.Plain) (hheld : s.lock lk = some c)
    (hw : (g (current s c)).waking = none) (hs : (g (current s c)).stage.Calm) :
    Inv (s.give c lk) (update g (current s c) (g (current s c))) := by
  have hrun := fun c' => run_give s c c' lk
  refine ⟨?_, ?_, ?_, ?_⟩
  · refine h.locks.give h.switch hheld hp hp (fun p => ?_) (fun chan lk' hst => ?_) fun hn => absurd hw hn
    · exact ⟨fun hh => ⟨hl p, hh⟩, And.right⟩
    · rcases hst with hst | hst <;> rw [hst] at hs <;> cases hs
  · exact h.switch.keep hrun (fun c' => proc_give s c c' lk) hp hp fun c' hcur => h.stage_awake hcur
  · exact h.states.keep h.switch hrun (fun _ => rfl) (fun _ => Iff.rfl) rfl h.own rfl (h.states.seen c)
  · refine h.sleeps.keep (fun lk' c' _ hl' => ?_) hrun (fun _ => rfl) (fun _ => rfl)
      (fun chan lk' set hst => ⟨hst, rfl⟩) (fun _ _ => id) rfl
    exact .inl ((lock_give_iff s c c').mp hl').2

theorem Inv.drop (hcur : current s c = .proc p) (hl : lk.Plain) (hheld : s.lock lk = some c)
    (hh : (g (current s c)).has = some p)
    (hw : (g (current s c)).waking = none) :
    Inv (s.give c lk) (update g (current s c) ((g (current s c)).reaches (.released chan lk false))) := by
  have hrun := fun c' => run_give s c c' lk
  have hcur' : ∀ c', current (s.give c lk) c' = current s c' := fun c' => current_congr (hrun c')
  have hself : update g (current s c) ((g (current s c)).reaches (.released chan lk false)) (.proc p) =
      (g (current s c)).reaches (.released chan lk false) := by
    rw [← hcur, update_self]
  have hother : ∀ t, t ≠ .proc p →
      update g (current s c) ((g (current s c)).reaches (.released chan lk false)) t = g t :=
    fun t hne => update_of_ne (fun heq => hne (heq.trans hcur)) ..
  have hwk := field_update (g := g) (p := current s c) (t := (g (current s c)).reaches (.released chan lk false))
    Th.waking rfl
  refine ⟨?_, ?_, ?_, ?_⟩
  · refine h.locks.give h.switch hheld hp hp (fun p => ?_) nofun fun hn => absurd hw hn
    exact ⟨fun hh => ⟨hl p, hh⟩, And.right⟩
  · refine h.switch.keep hrun (fun c' => proc_give s c c' lk) hp hp fun c' heq => ?_
    rw [hcur] at heq
    cases heq
  · exact h.states.keep h.switch hrun (fun _ => rfl) (fun _ => Iff.rfl) rfl h.own rfl (h.states.seen c)
  · refine ⟨fun t chan' lk' ht => ?_, fun t chan' lk' set ht => ?_, fun q chan' lk' hq => ?_,
      fun q chan' lk' set c' chan'' ps hq hl' hps => ?_, fun q chan' lk' c' ps hq hl' hps => ?_⟩
    · by_cases heq : t = .proc p
      · rw [heq, hself] at ht
        rcases ht with ⟨set, ht⟩ | ht <;> cases ht
        exact hl
      · rw [hother t heq] at ht
        exact h.sleeps.plain t chan' lk' ht
    · by_cases heq : t = .proc p
      · subst heq
        rw [hself]
        exact ⟨p, c, rfl, (hrun c).trans (run_of_proc hcur), hh, hw⟩
      · rw [hother t heq] at ht ⊢
        obtain ⟨q, c', hq, hr, hrest⟩ := h.sleeps.released t chan' lk' set ht
        exact ⟨q, c', hq, (hrun c').trans hr, hrest⟩
    · by_cases heq : Ctx.proc (κ := κ) q = .proc p
      · rw [heq, hself] at hq
        rcases hq with hq | ⟨hq, -⟩ <;> cases hq
      · rw [hother _ heq] at hq
        exact h.sleeps.chan q chan' lk' hq
    · obtain ⟨hne, hl'⟩ := (lock_give_iff s c c').mp hl'
      rw [hcur', hwk] at hps
      by_cases heq : Ctx.proc (κ := κ) q = .proc p
      · rw [heq, hself] at hq
        cases hq
        exact absurd rfl hne
      · rw [hother _ heq] at hq
        exact h.sleeps.before q chan' lk' set c' chan'' ps hq hl' hps
    · obtain ⟨-, hl'⟩ := (lock_give_iff s c c').mp hl'
      rw [hcur', hwk] at hps
      by_cases heq : Ctx.proc (κ := κ) q = .proc p
      · rw [heq, hself] at hq
        cases hq
      · rw [hother _ heq] at hq
        exact h.sleeps.woken q chan' lk' c' ps hq hl' hps

theorem Inv.lock (hfree : s.lock (.proc p) = none) (hh : (g (current s c)).has = none)
    (hc : (g (current s c)).dirty = false) (hs : (g (current s c)).seen = none) :
    Inv (s.take c (.proc p)) (update g (current s c) ((g (current s c)).locks p)) := by
  have hrun := fun c' => run_take s c c' (.proc p)
  refine ⟨?_, ?_, ?_, ?_⟩
  · refine h.locks.take h.switch hfree rfl (fun q => ?_) (fun chan lk hst => .inr (h.locks.sleep c chan lk hst)) id
    rw [hh]
    simp [Th.locks]
  · exact h.switch.keep hrun (fun c' => proc_take s c c' _) hp hp fun c' hcur => h.stage_awake hcur
  · refine h.states.keep h.switch hrun (fun _ => rfl) (fun _ => Iff.rfl) rfl (fun hd => ?_) rfl fun st hst => ?_
    · exact absurd (hc.symm.trans hd) nofun
    · exact absurd (hs.symm.trans hst) nofun
  · refine h.sleeps.keep (fun lk c' hpl hl => ?_) hrun (fun _ => rfl) (fun _ => rfl) (fun chan lk set hst => ?_)
      (fun _ _ => id) rfl
    · rw [lock_take_of_ne s c (hpl p)] at hl
      exact .inl hl
    · obtain ⟨q, -, -, -, hq, -⟩ := h.sleeps.released _ chan lk set hst
      rw [hh] at hq
      cases hq

theorem Inv.unlock (hheld : s.lock (.proc p) = some c) (hh : (g (current s c)).has = some p)
    (hc : (g (current s c)).dirty = false) (hs : (g (current s c)).stage.Calm) :
    Inv (s.give c (.proc p)) (update g (current s c) (g (current s c)).unlocks) := by
  have hrun := fun c' => run_give s c c' (.proc p)
  refine ⟨?_, ?_, ?_, ?_⟩
  · refine h.locks.give h.switch hheld hp hp (fun q => ⟨nofun, fun hq => ?_⟩) (fun chan lk hst => ?_)
      fun hw => ⟨hw, fun hpl => hpl p rfl⟩
    · rw [hh] at hq
      cases hq.2
      exact absurd rfl hq.1
    · change (g (current s c)).stage = _ ∨ (g (current s c)).stage = _ at hst
      rcases hst with hst | hst <;> rw [hst] at hs <;> cases hs
  · exact h.switch.keep hrun (fun c' => proc_give s c c' _) hp hp fun c' hcur => h.stage_awake hcur
  · refine h.states.keep h.switch hrun (fun _ => rfl) (fun _ => Iff.rfl) rfl (fun hd => ?_) rfl nofun
    exact absurd (hc.symm.trans hd) nofun
  · refine h.sleeps.keep (fun lk c' hpl hl => ?_) hrun (fun _ => rfl) (fun _ => rfl) (fun chan lk set hst => ?_)
      (fun _ _ => id) rfl
    · rw [lock_give_of_ne s c (hpl p)] at hl
      exact .inl hl
    · exact absurd hst (hs.not_released chan lk set)

theorem Inv.wakes {w : Option (Chan × List Slot)}
    (hlock : w ≠ none → ∃ lk : Lock, lk.Plain ∧ s.lock lk = some c)
    (hrel : ∀ chan lk set, (g (current s c)).stage = .released chan lk set → w = none)
    (hbefore : ∀ p chan lk set chan' ps, (g (.proc p)).stage = .released chan lk set → s.lock lk = some c →
      w = some (chan', ps) → p ∉ ps)
    (hwoken : ∀ p chan lk ps, (g (.proc p)).stage = .asleep chan lk → s.lock lk = some c → w = some (chan, ps) →
      p ∈ ps → (s.proc p).state ≠ .sleeping) : Inv s (update g (current s c) ((g (current s c)).wakes w)) := by
  refine ⟨?_, ?_, ?_, ?_⟩
  · exact h.locks.keep h.switch rfl (fun _ => rfl) (fun _ => rfl) rfl (fun _ => Iff.rfl) (h.locks.sleep c) hlock
  · exact h.switch.keep (fun _ => rfl) (fun _ => rfl) hp hp fun c' hcur => h.stage_awake hcur
  · exact h.states.keep h.switch (fun _ => rfl) (fun _ => rfl) (fun _ => Iff.rfl) rfl h.own rfl nofun
  · exact h.sleeps.alter h.switch rfl (fun _ => rfl) (fun _ _ _ _ => id) (fun _ => .inl rfl) rfl rfl hrel hbefore hwoken

theorem Inv.leave : Inv s (update g (current s c) ((g (current s c)).wakes none)) :=
  h.wakes hp (fun hn => absurd rfl hn) (fun _ _ _ _ => rfl) nofun nofun

-- wakeup passes over its caller, which is not asleep.
theorem Inv.pass (hcur : current s c = .proc p) (hh : (g (current s c)).has = none)
    (hc : (g (current s c)).dirty = false) (hw : (g (current s c)).waking = some (chan, ps)) :
    Inv s (update g (current s c) ((g (current s c)).wakes (some (chan, p :: ps)))) := by
  refine h.wakes hp (fun _ => h.locks.waking c (by rw [hw]; nofun))
    (fun chan lk set hst => absurd hst (h.waking_not_released hw chan lk set)) ?_ ?_
  · intro q chan' lk set chan'' qs hst hl heq hin
    cases heq
    rcases List.mem_cons.mp hin with rfl | hin
    · obtain ⟨q', c', hq', -, hq, -⟩ := h.sleeps.released _ chan' lk set hst
      rw [← hcur, hh] at hq
      cases hq
    · exact h.sleeps.before q chan' lk set c _ ps hst hl hw hin
  · intro q chan' lk qs hst hl heq hin
    cases heq
    rcases List.mem_cons.mp hin with rfl | hin
    · rw [h.running hcur (hcur ▸ hc)]
      nofun
    · exact h.sleeps.woken q chan lk c ps hst hl hw hin

end Free

theorem Inv.enter (h : Inv s g) (ho : (g (current s c)).Open) (hn : (s.cpu c).noff ≠ 0)
    (chan : Chan) : Inv s (update g (current s c) ((g (current s c)).wakes (some (chan, [])))) := by
  refine h.wakes ho.phase (fun _ => ?_) (fun chan lk set hst => absurd hst (ho.calm.not_released chan lk set)) ?_ ?_
  · obtain ⟨l, -, hmem, hlen⟩ := h.locks.count c
    obtain ⟨lk, hin⟩ := List.exists_mem_of_length_pos (Nat.pos_of_ne_zero (hlen ▸ hn))
    have hl := (hmem lk).mp hin
    refine ⟨lk, fun p heq => ?_, hl⟩
    rw [heq] at hl
    rcases h.locks.held c p hl with hh | ⟨hph, hr⟩
    · rw [ho.has] at hh
      cases hh
    · rw [← current_of_none hr, ho.phase] at hph
      cases hph
  · intro p chan' lk set chan'' ps _ _ heq
    cases heq
    exact List.not_mem_nil
  · intro p chan' lk ps _ _ heq hin
    cases heq
    cases hin

section

variable (h : Inv s g) (hh : (g (current s c)).has = some q)

include h hh

theorem Inv.seen_setProc (hy : y.seen = none) {c' : κ}
    (hst : (update g (current s c) y (current s c')).seen = some st) :
    ∃ p, (update g (current s c) y (current s c')).has = some p ∧ ((s.setProc q z).proc p).state = st := by
  by_cases heq : c' = c
  · rw [heq, update_self, hy] at hst
    cases hst
  rw [h.switch.other heq] at hst ⊢
  obtain ⟨p, hp, hps⟩ := h.states.seen c' st hst
  refine ⟨p, hp, ?_⟩
  rw [proc_setProc_of_ne s, hps]
  intro hpq
  have hl := h.locks.has c' p hp
  rw [hpq, h.locks.has c q hh] at hl
  cases hl
  exact heq rfl

theorem Inv.alter_states (hp : (g (current s c)).phase = .free)
    (hoff : Off s q) (hz : z.state ≠ .running) (hhas : y.has = (g (current s c)).has) (hphase : y.phase = .free)
    (hdirty : y.dirty = (g (current s c)).dirty) (hseen : y.seen = none)
    (hchild : ∀ t p, (update g (current s c) y t).child = some p → ((s.setProc q z).proc p).state = .used)
    (hapart : ∀ t t' p, (update g (current s c) y t).child = some p →
      (update g (current s c) y t').child = some p → t = t') :
    States (s.setProc q z) (update g (current s c) y) := by
  have hph := field_update Th.phase (hphase.trans hp.symm)
  have hd := field_update Th.dirty hdirty
  have hhs := field_update Th.has hhas
  have hself : ((s.setProc q z).proc q) = z := update_self ..
  have hother : ∀ p, p ≠ q → (s.setProc q z).proc p = s.proc p := fun p hne => update_of_ne hne ..
  refine ⟨fun c' p hr hcl => ?_, fun p ho hst => ?_, fun c' p ht => ?_, fun t ht => ?_, fun c' st hst => ?_, hchild,
    hapart⟩
  · rw [hd] at hcl
    rw [hother p fun heq => hoff c' (heq ▸ hr)]
    exact h.states.running c' p hr hcl
  · simp only [hph]
    have hne : p ≠ q := by
      intro heq
      rw [heq, hself] at hst
      exact hz hst
    rw [hother p hne] at hst
    exact h.states.steady p ho hst
  · rw [hph] at ht
    rw [hother p fun heq => h.not_takes (h.locks.has c q hh) hp c' (heq ▸ ht)]
    exact h.states.taken c' p ht
  · rw [hd] at ht
    rw [hhs]
    exact h.states.dirty t ht
  · exact h.seen_setProc hh hseen hst

theorem Inv.alter (hp : (g (current s c)).phase = .free)
    (hoff : Off s q) (hz : z.state ≠ .running) (hzs : z.state ≠ .sleeping) (ch : Option Slot)
    (hchild : ∀ t p, (update g (current s c) ((g (current s c)).bears ch) t).child = some p →
      ((s.setProc q z).proc p).state = .used)
    (hapart : ∀ t t' p, (update g (current s c) ((g (current s c)).bears ch) t).child = some p →
      (update g (current s c) ((g (current s c)).bears ch) t').child = some p → t = t') :
    Inv (s.setProc q z) (update g (current s c) ((g (current s c)).bears ch)) := by
  have hself : ((s.setProc q z).proc q) = z := update_self ..
  have hother : ∀ p, p ≠ q → (s.setProc q z).proc p = s.proc p := fun p hne => update_of_ne hne ..
  have hstate : ∀ p, ((s.setProc q z).proc p).state = .sleeping → (s.proc p).state = .sleeping := by
    intro p hst
    by_cases heq : p = q
    · rw [heq, hself] at hst
      exact absurd hst hzs
    · rwa [hother p heq] at hst
  refine ⟨?_, ?_, h.alter_states hh hp hoff hz rfl hp rfl rfl hchild hapart, ?_⟩
  · exact h.locks.keep h.switch rfl (fun _ => rfl) (fun _ => rfl) rfl (fun _ => Iff.rfl) (h.locks.sleep c) (h.locks.waking c)
  · exact h.switch.keep (fun _ => rfl) (fun _ => rfl) hp hp fun c' hcur => h.stage_awake hcur
  · refine h.sleeps.alter h.switch rfl (fun _ => rfl) (fun p _ _ _ => hstate p) (fun p => ?_) rfl rfl
      (fun chan lk set hst => ?_) (fun p chan lk set chan' ps hst hl hw => ?_) fun p chan lk ps hst hl hw hin hs => ?_
    · by_cases heq : p = q
      · rw [heq, hself]
        exact .inr ⟨hoff, hzs⟩
      · exact .inl (by rw [hother p heq])
    · obtain ⟨_, _, -, -, -, hn⟩ := h.sleeps.released _ chan lk set hst
      exact hn
    · exact h.sleeps.before p chan lk set c chan' ps hst hl hw
    · exact h.sleeps.woken p chan lk c ps hst hl hw hin (hstate p hs)

end

section Locked

variable (h : Inv s g) (hh : (g (current s c)).has = some q) (hc : (g (current s c)).dirty = false)
  (hp : (g (current s c)).phase = .free)

include h hh hc hp

theorem Inv.alter_state (hq : (s.proc q).state ≠ .running) (hu : (s.proc q).state ≠ .used)
    (hz : z.state ≠ .running) (hzs : z.state ≠ .sleeping) :
    Inv (s.setProc q z) (update g (current s c) (g (current s c)).blinks) := by
  have hch := field_update (g := g) (p := current s c) (t := (g (current s c)).blinks) Th.child rfl
  refine h.alter hh hp (h.off hh hc hq) hz hzs (g (current s c)).child (fun t p ht => ?_) fun t t' p ht ht' => ?_
  · change (update g (current s c) (g (current s c)).blinks t).child = some p at ht
    rw [hch] at ht
    exact h.child_other hu ht
  · change (update g (current s c) (g (current s c)).blinks t).child = some p at ht
    change (update g (current s c) (g (current s c)).blinks t').child = some p at ht'
    rw [hch] at ht ht'
    exact h.states.apart t t' p ht ht'

theorem Inv.rouse (hw : (g (current s c)).waking = some (chan, ps)) :
    Inv (s.setProc q (roused (s.proc q) chan))
      (update g (current s c) ((g (current s c)).wakes (some (chan, q :: ps)))) := by
  have hrel := h.waking_not_released hw
  have hlock := h.locks.waking c (by rw [hw]; nofun)
  -- the process is not on its way into sleep, since its lock is held here
  have hbefore : ∀ p chan' lk set chan'' qs, (g (.proc p)).stage = .released chan' lk set → s.lock lk = some c →
      some (chan, q :: ps) = some (chan'', qs) → p ∉ qs := by
    intro p chan' lk set chan'' qs hst hl heq hin
    cases heq
    rcases List.mem_cons.mp hin with rfl | hin
    · obtain ⟨p', c', hp', hr, hown, hn⟩ := h.sleeps.released _ chan' lk set hst
      cases hp'
      rw [← current_of_some hr] at hown hn
      have hl' := h.locks.has c' p hown
      rw [h.locks.has c p hh] at hl'
      cases hl'
      rw [hw] at hn
      cases hn
    · exact h.sleeps.before p chan' lk set c _ ps hst hl hw hin
  by_cases hcond : (s.proc q).state = .sleeping ∧ (s.proc q).chan = chan
  · rw [roused, if_pos hcond]
    have hoff : (s.proc q).state ≠ .running := by rw [hcond.1]; nofun
    have hused : (s.proc q).state ≠ .used := by rw [hcond.1]; nofun
    have h1 := h.alter_state (z := { s.proc q with state := .runnable }) hh hc hp hoff hused nofun nofun
    have hstage := field_update (g := g) (p := current s c) (t := (g (current s c)).blinks) Th.stage rfl
    have h2 := h1.wakes (c := c) (w := some (chan, q :: ps)) (by
        change (update g (current s c) _ (current s c)).phase = .free
        rw [update_self]
        exact hp) (fun _ => hlock) (fun chan' lk set hst => by
        rw [hstage] at hst
        exact absurd hst (hrel chan' lk set)) (fun p chan' lk set chan'' qs hst => by
        rw [hstage] at hst
        exact hbefore p chan' lk set chan'' qs hst) (fun p chan' lk qs hst hl heq hin => by
        rw [hstage] at hst
        by_cases hpq : p = q
        · rw [hpq, proc_setProc]
          nofun
        · rw [proc_setProc_of_ne s hpq]
          cases heq
          exact h.sleeps.woken p chan lk c ps hst hl hw ((List.mem_cons.mp hin).resolve_left hpq))
    change Inv _ (update (update g (current s c) _) (current s c)
      ((update g (current s c) (g (current s c)).blinks (current s c)).wakes _)) at h2
    rw [update_idem, update_self] at h2
    exact h2
  · rw [roused, if_neg hcond, setProc_self]
    refine h.wakes hp (fun _ => hlock) (fun chan' lk set hst => absurd hst (hrel chan' lk set)) hbefore ?_
    intro p chan' lk qs hst hl heq hin
    cases heq
    rcases List.mem_cons.mp hin with rfl | hin
    · exact fun hs => hcond ⟨hs, h.sleeps.chan p chan lk (.inr ⟨hst, hs⟩)⟩
    · exact h.sleeps.woken p chan lk c ps hst hl hw hin

theorem Inv.strike :
    Inv (s.setProc q (struck (s.proc q))) (update g (current s c) (g (current s c)).blinks) := by
  by_cases hst : (s.proc q).state = .sleeping
  · rw [struck, if_pos hst]
    exact h.alter_state hh hc hp (by rw [hst]; nofun) (by rw [hst]; nofun) nofun nofun
  rw [struck, if_neg hst]
  exact h.quiet hp rfl rfl (field_setProc rfl) (field_setProc rfl) nofun rfl

theorem Inv.alloc (hs : (g (current s c)).seen = some .unused) : Inv (s.setProc q { s.proc q with state := .used })
      (update g (current s c) ((g (current s c)).bears (some q))) := by
  obtain ⟨q', hq', hst⟩ := h.states.seen c _ hs
  rw [hh] at hq'
  cases hq'
  have hnone : ∀ t, (g t).child ≠ some q := by
    intro t ht
    have hu := h.states.child t q ht
    rw [hst] at hu
    cases hu
  have hself : ∀ t p, (update g (current s c) ((g (current s c)).bears (some q)) t).child = some p →
      (t = current s c ∧ p = q) ∨ (t ≠ current s c ∧ (g t).child = some p) := by
    intro t p ht
    by_cases heq : t = current s c
    · rw [heq, update_self] at ht
      cases ht
      exact .inl ⟨heq, rfl⟩
    · rw [update_of_ne heq] at ht
      exact .inr ⟨heq, ht⟩
  refine h.alter (z := { s.proc q with state := .used }) hh hp (h.off hh hc (by rw [hst]; nofun)) nofun nofun (some q)
    (fun t p ht => ?_) fun t t' p ht ht' => ?_
  · rcases hself t p ht with ⟨-, rfl⟩ | ⟨-, ht⟩
    · rw [proc_setProc]
    · exact h.child_other (by rw [hst]; nofun) ht
  rcases hself t p ht with ⟨rfl, rfl⟩ | ⟨hne, ht⟩ <;> rcases hself t' p ht' with ⟨heq', hp'⟩ | ⟨hne', ht'⟩
  · exact heq'.symm
  · exact absurd ht' (hnone t')
  · rw [hp'] at ht
    exact absurd ht (hnone t)
  · exact h.states.apart t t' p ht ht'

theorem Inv.settle (hch : (g (current s c)).child = some q) (hz : z.state ≠ .running)
    (hzs : z.state ≠ .sleeping) :
    Inv (s.setProc q z) (update g (current s c) ((g (current s c)).bears none)) := by
  have hused := h.states.child _ q hch
  have hself : ∀ t p, (update g (current s c) ((g (current s c)).bears none) t).child = some p →
      (g t).child = some p ∧ p ≠ q := by
    intro t p ht
    have heq : t ≠ current s c := by
      intro heq
      rw [heq, update_self] at ht
      cases ht
    rw [update_of_ne heq] at ht
    refine ⟨ht, fun hpq => ?_⟩
    rw [hpq] at ht
    exact heq (h.states.apart t _ q ht hch)
  refine h.alter hh hp (h.off hh hc (by rw [hused]; nofun)) hz hzs none (fun t p ht => ?_) fun t t' p ht ht' => ?_
  · obtain ⟨ht, hpq⟩ := hself t p ht
    rw [proc_setProc_of_ne s hpq]
    exact h.states.child t p ht
  · exact h.states.apart t t' p (hself t p ht).1 (hself t' p ht').1

theorem Inv.reap (hs : (g (current s c)).seen = some .zombie) :
    Inv (s.setProc q (freed (s.proc q))) (update g (current s c) (g (current s c)).blinks) := by
  obtain ⟨q', hq', hst⟩ := h.states.seen c _ hs
  rw [hh] at hq'
  cases hq'
  exact h.alter_state hh hc hp (by rw [hst]; nofun) (by rw [hst]; nofun) nofun nofun

end Locked

variable (h : Inv s g) (hcur : current s c = .proc p) (hp : (g (current s c)).phase = .free)

include h hcur hp

-- A process gives up its state RUNNING.
theorem Inv.soil (hh : (g (current s c)).has = some p)
    (hc : (g (current s c)).dirty = false)
    (hst : st = .sleeping → ∃ chan lk, (g (current s c)).stage = .released chan lk true) :
    Inv (s.setProc p { s.proc p with state := st }) (update g (current s c) (g (current s c)).soils) := by
  have hr := run_of_proc hcur
  have hrunning := h.running hcur (hcur ▸ hc)
  have hother : ∀ q, q ≠ p → (s.setProc p { s.proc p with state := st }).proc q = s.proc q :=
    fun q hne => proc_setProc_of_ne s hne _
  have hph := field_update (g := g) (p := current s c) (t := (g (current s c)).soils) Th.phase rfl
  have hch := field_update (g := g) (p := current s c) (t := (g (current s c)).soils) Th.child rfl
  refine ⟨?_, ?_, ⟨fun c' q hr' hcl => ?_, fun q ho hst' => ?_, fun c' q ht => ?_, fun t ht => ?_, fun c' st' hst' => ?_,
    fun t q ht => ?_, fun t t' q => ?_⟩, ?_⟩
  · exact h.locks.keep h.switch rfl (fun _ => rfl) (fun _ => rfl) rfl (fun _ => Iff.rfl) (h.locks.sleep c) (h.locks.waking c)
  · exact h.switch.keep (fun _ => rfl) (fun _ => rfl) hp hp fun c' hcur => h.stage_awake hcur
  · have hne : q ≠ p := by
      intro heq
      rw [heq, ← hcur, update_self] at hcl
      cases hcl
    rw [hcur, update_of_ne (by simpa using hne)] at hcl
    rw [hother q hne]
    exact h.states.running c' q hr' hcl
  · simp only [hph]
    rw [hother q fun heq => ho c (heq ▸ hr)] at hst'
    exact h.states.steady q ho hst'
  · rw [hph] at ht
    rw [hother q fun heq => (h.switch.busy c' q ht).2.2 c (heq ▸ hr)]
    exact h.states.taken c' q ht
  · by_cases heq : t = current s c
    · rw [heq, update_self]
      exact ⟨p, hcur, hh⟩
    · rw [update_of_ne heq] at ht ⊢
      exact h.states.dirty t ht
  · exact h.seen_setProc hh rfl hst'
  · rw [hch] at ht
    exact h.child_other (by rw [hrunning]; nofun) ht
  · rw [hch, hch]
    exact h.states.apart t t' q
  · refine h.sleeps.alter h.switch rfl (fun _ => rfl) (fun q chan lk hsq hs => ?_) (fun q => .inl ?_) rfl rfl
      (fun chan lk set hs => ?_) (fun q chan lk set => h.sleeps.before q chan lk set c)
      fun q chan lk ps hsq hl hw hin hs => ?_
    · by_cases hqp : q = p
      · rw [hqp, proc_setProc] at hs
        obtain ⟨chan', lk', hst⟩ := hst hs
        rw [hqp, ← hcur, hst] at hsq
        cases hsq
      · rwa [hother q hqp] at hs
    · exact field_setProc (by rfl) q
    · obtain ⟨_, _, -, -, -, hn⟩ := h.sleeps.released _ chan lk set hs
      exact hn
    · by_cases hqp : q = p
      · rw [hqp, proc_setProc] at hs
        obtain ⟨chan', lk', hst⟩ := hst hs
        rw [hqp, ← hcur, hst] at hsq
        cases hsq
      · rw [hother q hqp] at hs
        exact h.sleeps.woken q chan lk c ps hsq hl hw hin hs

theorem Inv.setChan (hc : (g (current s c)).dirty = false) (hst : stage = (g (current s c)).stage ∧ stage.Calm ∨
      ∃ lk, (g (current s c)).stage = .released chan lk false ∧ stage = .released chan lk true) :
    Inv (s.setProc p { s.proc p with chan := chan })
      (update g (current s c) ((g (current s c)).reaches stage)) := by
  have hrunning := h.running hcur (hcur ▸ hc)
  have hstate : ∀ q, ((s.setProc p { s.proc p with chan := chan }).proc q).state = (s.proc q).state :=
    field_setProc (by rfl)
  have hself : update g (current s c) ((g (current s c)).reaches stage) (.proc p) =
      (g (current s c)).reaches stage := by
    rw [← hcur, update_self]
  have hother : ∀ t, t ≠ .proc p → update g (current s c) ((g (current s c)).reaches stage) t = g t :=
    fun t hne => update_of_ne (fun heq => hne (heq.trans hcur)) ..
  have hwk := field_update (g := g) (p := current s c) (t := (g (current s c)).reaches stage) Th.waking rfl
  have hhas := field_update (g := g) (p := current s c) (t := (g (current s c)).reaches stage) Th.has rfl
  have hrel : ∀ t chan' lk set, (update g (current s c) ((g (current s c)).reaches stage) t).stage =
      .released chan' lk set → ∃ set', (g t).stage = .released chan' lk set' := by
    intro t chan' lk set ht
    by_cases heq : t = .proc p
    · rw [heq, hself] at ht
      rw [heq, ← hcur]
      rcases hst with ⟨hsame, -⟩ | ⟨lk', hold, hnew⟩
      · exact ⟨set, hsame ▸ ht⟩
      · change stage = _ at ht
        rw [hnew] at ht
        cases ht
        exact ⟨false, hold⟩
    · rw [hother t heq] at ht
      exact ⟨set, ht⟩
  have hasl : ∀ t chan' lk, (update g (current s c) ((g (current s c)).reaches stage) t).stage =
      .asleep chan' lk → (g t).stage = .asleep chan' lk := by
    intro t chan' lk ht
    by_cases heq : t = .proc p
    · rw [heq, hself] at ht
      rw [heq, ← hcur]
      rcases hst with ⟨hsame, -⟩ | ⟨lk', hold, hnew⟩
      · exact hsame ▸ ht
      · change stage = _ at ht
        rw [hnew] at ht
        cases ht
    · rwa [hother t heq] at ht
  refine ⟨?_, ?_, ?_, ⟨fun t chan' lk ht => ?_, fun t chan' lk set ht => ?_, fun q chan' lk hq => ?_,
    fun q chan' lk set c' chan'' ps hq hl hps => ?_, fun q chan' lk c' ps hq hl hps => ?_⟩⟩
  · refine h.locks.keep h.switch rfl (fun _ => rfl) (fun _ => rfl) rfl (fun _ => Iff.rfl) (fun chan' lk hs => ?_) (h.locks.waking c)
    change stage = _ ∨ stage = _ at hs
    rcases hst with ⟨-, hcalm⟩ | ⟨lk', -, hnew⟩
    · rcases hs with hs | hs <;> rw [hs] at hcalm <;> cases hcalm
    · rw [hnew] at hs
      rcases hs with hs | hs <;> cases hs
  · refine h.switch.keep (fun _ => rfl) (fun _ => rfl) hp hp fun c' heq => ?_
    rw [hcur] at heq
    cases heq
  · exact h.states.keep h.switch (fun _ => rfl) hstate (fun _ => Iff.rfl) rfl h.own rfl (h.states.seen c)
  · exact h.sleeps.plain t chan' lk (ht.imp (fun ⟨set, hs⟩ => hrel t chan' lk set hs) (hasl t chan' lk))
  · obtain ⟨set', hs⟩ := hrel t chan' lk set ht
    rw [hwk, hhas]
    exact h.sleeps.released t chan' lk set' hs
  · by_cases hqp : q = p
    · subst hqp
      rw [hself] at hq
      change stage = _ ∨ stage = _ ∧ _ at hq
      rw [hstate, hrunning] at hq
      rw [proc_setProc]
      have hq := hq.resolve_right fun hq => nomatch hq.2
      rcases hst with ⟨-, hcalm⟩ | ⟨lk', -, hnew⟩
      · rw [hq] at hcalm
        cases hcalm
      · rw [hnew] at hq
        cases hq
        rfl
    · rw [hother _ (by simpa using hqp), hstate] at hq
      rw [proc_setProc_of_ne s hqp]
      exact h.sleeps.chan q chan' lk hq
  · obtain ⟨set', hs⟩ := hrel _ chan' lk set hq
    rw [hwk] at hps
    exact h.sleeps.before q chan' lk set' c' chan'' ps hs hl hps
  · rw [hwk] at hps
    rw [hstate]
    exact h.sleeps.woken q chan' lk c' ps (hasl _ chan' lk hq) hl hps

theorem Inv.reach
    (hst : (∃ chan lk, s.lock lk = some c ∧ stage = .called chan lk) ∨ stage = .awake) :
    Inv s (update g (current s c) ((g (current s c)).reaches stage)) := by
  refine ⟨?_, ?_, ?_, ?_⟩
  · refine h.locks.keep h.switch rfl (fun _ => rfl) (fun _ => rfl) rfl (fun _ => Iff.rfl) (fun chan lk hs => ?_) (h.locks.waking c)
    change stage = _ ∨ stage = _ at hs
    rcases hst with ⟨chan', lk', hl, hst⟩ | hst
    · rw [hst] at hs
      rcases hs with hs | hs <;> cases hs
      exact hl
    · rw [hst] at hs
      rcases hs with hs | hs <;> cases hs
  · refine h.switch.keep (fun _ => rfl) (fun _ => rfl) hp hp fun c' heq => ?_
    rw [hcur] at heq
    cases heq
  · exact h.states.keep h.switch (fun _ => rfl) (fun _ => rfl) (fun _ => Iff.rfl) rfl h.own rfl (h.states.seen c)
  · refine h.sleeps.keep (fun _ _ _ hl => .inl hl) (fun _ => rfl) (fun _ => rfl) (fun _ => rfl)
      (fun chan lk set hs => ?_) (fun chan lk hs => ?_) rfl
    · change stage = _ at hs
      rcases hst with ⟨chan', lk', -, hst⟩ | hst <;> rw [hst] at hs <;> cases hs
    · change stage = _ at hs
      rcases hst with ⟨chan', lk', -, hst⟩ | hst <;> rw [hst] at hs <;> cases hs

end Acts

end Sched
