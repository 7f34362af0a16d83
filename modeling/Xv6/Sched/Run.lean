import Xv6.Sched.Switching

-- Every step by the rules keeps the invariant, and a process's steps tell where it is in sleep.

namespace Sched

open Prog

-- How far a call of sleep has got: it has released lk, has switched to the scheduler.
inductive Rest where
  | called
  | released
  | slept
  deriving DecidableEq

structure Nap where
  chan : Chan
  lk : Lock
  rest : Rest
  deriving DecidableEq

def Nap.releases (n : Nap) (lk : Lock) : Nap :=
  { n with rest := if n.rest = .called ∧ lk = n.lk then .released else n.rest }

def Nap.switches (n : Nap) : Nap := { n with rest := if n.rest = .released then .slept else n.rest }

def napNext (x : Option Nap) : Event sig → Option Nap
  | ⟨.enter (.sleep chan lk), _⟩ => some ⟨chan, lk, .called⟩
  | ⟨.release lk, _⟩ => x.map fun n => n.releases lk
  | ⟨.sched _, _⟩ => x.map Nap.switches
  | ⟨.leave (.sleep _ _), _⟩ => none
  | _ => x

def nap (past : List (Event sig)) : Option Nap := past.foldl napNext none

theorem nap_snoc (past : List (Event sig)) (e : Event sig) :
    nap (past ++ [e]) = napNext (nap past) e := by
  rw [nap, List.foldl_append]
  rfl

def Stage.nap : Stage → Option Nap
  | .awake => none
  | .called chan lk => some ⟨chan, lk, .called⟩
  | .released chan lk _ => some ⟨chan, lk, .released⟩
  | .asleep chan lk => some ⟨chan, lk, .slept⟩
  | .back chan lk => some ⟨chan, lk, .slept⟩

theorem napNext_release {stage : Stage} (h : stage.Calm) (lk : Lock) (r : sig.Res (.release lk)) :
    napNext stage.nap ⟨.release lk, r⟩ = stage.nap := by
  cases stage with
  | awake => rfl
  | asleep chan lk' => exact congrArg some (by simp [Nap.releases])
  | called chan lk' | released chan lk' set | back chan lk' => cases h

theorem napNext_sched (stage : Stage) (p : Slot) (r : sig.Res (.sched p)) :
    napNext stage.nap ⟨.sched p, r⟩ = stage.switched.nap := by
  cases stage <;> rfl

theorem Rule.nap {κ : Type} {t : Ctx κ} {a : Act} {x x' : Th} {W : sig.Res a → Th → Prop}
    {r : sig.Res a} (hrule : Rule t a x W) (hW : W r x') :
    x'.stage.nap = napNext x.stage.nap ⟨a, r⟩ := by
  cases hrule with
  | release _ _ _ hs | unlock _ _ _ hs =>
    subst hW
    exact (napNext_release hs _ r).symm
  | sched _ _ _ _ _ =>
    subst hW
    exact (napNext_sched _ _ r).symm
  | drop _ _ _ hs _ _ =>
    subst hW
    rw [hs]
    exact congrArg some (by simp [Nap.releases])
  | setChan _ _ _ hs | retake _ _ hs _ _ =>
    subst hW
    rw [hs]
    rfl
  | myproc _ | pass _ _ _ _ _ =>
    rw [hW.2]
    rfl
  | never => cases hW
  | _ =>
    subst hW
    rfl

section Step

variable {κ : Type} {s s' : State κ} {g : Ctx κ → Th} {c : κ} {p : Slot} {lk : Lock}

theorem Inv.me (h : Inv s g) (hp : (g (current s c)).phase = .free) :
    (s.cpu c).proc = (current s c).me := by
  have hfits := h.switch.fits c
  cases hr : (s.cpu c).run with
  | none =>
    rw [current_of_none hr] at hp ⊢
    rw [hp] at hfits
    exact hfits.2
  | some p =>
    rw [hfits.loaned hr] at hfits
    rw [current_of_some hr]
    exact hfits.2

theorem inv_boot : Inv (boot : Config sig Halt (State κ) (Ctx κ)).state Ctx.fresh := by
  have hstate : ∀ p, ((boot : Config sig Halt (State κ) (Ctx κ)).state.proc p).state ≠ .running := by
    intro p
    simp only [boot]
    split <;> nofun
  refine ⟨⟨fun c => ⟨[], List.nodup_nil, fun lk => ⟨nofun, nofun⟩, rfl⟩, nofun, nofun, nofun, fun c chan lk h => ?_,
    fun c h => absurd rfl h⟩, ⟨fun c => ⟨rfl, rfl⟩, fun p => rfl, fun c => rfl, nofun,
    fun p _ => ⟨rfl, rfl, rfl, trivial, rfl⟩, nofun, nofun, fun c p h => ?_⟩,
    ⟨nofun, fun p _ h => absurd h (hstate p), fun c p h => ?_, fun t h => ?_, nofun, fun t p h => ?_,
    fun t t' p h => ?_⟩, ⟨fun t chan lk h => ?_, fun t chan lk set h => ?_, fun p chan lk h => ?_, nofun, nofun⟩⟩
  · rcases h with h | h <;> cases h
  · rcases h with h | h <;> cases h
  · rcases h with h | h <;> cases h
  · cases t <;> cases h
  · cases t <;> cases h
  · cases t <;> cases h
  · cases t <;> rcases h with ⟨set, h⟩ | h <;> cases h
  · cases t <;> cases h
  · rcases h with h | ⟨h, -⟩ <;> cases h

variable [DecidableEq κ]

theorem acquire_done {r : sig.Res (.acquire lk)} (hs : step c (.acquire lk) s = .done r s') :
    s.lock lk = none ∧ s' = s.take c lk := by
  simp only [step] at hs
  split at hs
  · cases hs
    exact ⟨‹_›, rfl⟩
  · split at hs <;> cases hs

theorem release_done {r : sig.Res (.release lk)} (hs : step c (.release lk) s = .done r s') :
    s.lock lk = some c ∧ s' = s.give c lk := by
  simp only [step] at hs
  split at hs
  · cases hs
    exact ⟨‹_›, rfl⟩
  · cases hs

theorem sched_done {r : sig.Res (.sched p)} (hs : step c (.sched p) s = .done r s') :
    s.lock (.proc p) = some c ∧ (s.proc p).state ≠ .running ∧ s' = s.setCpu c { s.cpu c with run := none } := by
  simp only [step] at hs
  split at hs
  · cases hs
  split at hs
  · cases hs
  · split at hs
    · cases hs
    · cases hs
      exact ⟨not_not.mp ‹_›, ‹_›, rfl⟩

theorem Inv.step (h : Inv s g) {a : Act} {W : sig.Res a → Th → Prop} {r : sig.Res a}
    (hrule : Rule (current s c) a (g (current s c)) W) (hs : step c a s = .done r s') :
    ∃ y, W r y ∧ Inv s' (Prog.renew Ctx.fresh (Function.update g (current s c) y) ((machine κ).spawn a)) := by
  obtain ⟨t, ht⟩ : ∃ t, t = current s c := ⟨_, rfl⟩
  rw [← ht] at hrule ⊢
  cases hrule with
  | acquire hl hp hw _ =>
    obtain ⟨hfree, rfl⟩ := acquire_done hs
    subst ht
    exact ⟨_, rfl, h.acquire hp hl hfree hw (.inl rfl)⟩
  | release hl hp hw hst =>
    obtain ⟨hheld, rfl⟩ := release_done hs
    subst ht
    exact ⟨_, rfl, h.release hp hl hheld hw hst⟩
  | lock p hx hc hp hse =>
    obtain ⟨hfree, rfl⟩ := acquire_done hs
    subst ht
    exact ⟨_, rfl, h.lock hp hfree hx hc hse⟩
  | unlock hx hc hp hst =>
    obtain ⟨hheld, rfl⟩ := release_done hs
    subst ht
    exact ⟨_, rfl, h.unlock hp hheld hx hc hst⟩
  | myproc hp =>
    cases hs
    subst ht
    exact ⟨_, ⟨h.me hp, rfl⟩, h.still hp rfl rfl (fun _ => rfl) (fun _ => rfl)⟩
  | @pass _ _ p chan ps hp hw hx hme hc =>
    cases hs
    subst ht
    refine ⟨_, ⟨h.me hp, rfl⟩, h.pass hp ?_ hx hc hw⟩
    cases hcur : current s c with
    | sched c' =>
      rw [hcur] at hme
      cases hme
    | proc q =>
      rw [hcur] at hme
      cases hme
      rfl
  | state hx hc hp =>
    cases hs
    subst ht
    refine ⟨_, rfl, h.quiet hp rfl rfl (fun _ => rfl) (fun _ => rfl) (fun st hse => ⟨_, hx, ?_⟩) rfl⟩
    cases hse
    rfl
  | choose hx hse hp hw =>
    cases hs
    rw [ht] at hx hse hp hw ⊢
    exact ⟨_, rfl, h.choose (by rw [← ht, (run_of_sched ht.symm).2]) hx hse hp hw⟩
  | alloc hx hse hc hp _ =>
    cases hs
    subst ht
    exact ⟨_, rfl, h.alloc hx hc hp hse⟩
  | ready hx hc hp hch | undo hx hc hp hch =>
    cases hs
    subst ht
    exact ⟨_, rfl, h.settle hx hc hp hch (by nofun) (by nofun)⟩
  | yields hx hc hp _ | dies hx hc hp _ =>
    cases hs
    rw [ht] at hx hc hp ⊢
    exact ⟨_, rfl, h.soil ht.symm hp hx hc (by nofun)⟩
  | sleeps hx hc hp hst =>
    cases hs
    rw [ht] at hx hc hp hst ⊢
    exact ⟨_, rfl, h.soil ht.symm hp hx hc fun _ => ⟨_, _, hst⟩⟩
  | rouse hx hc hp hw =>
    cases hs
    subst ht
    exact ⟨_, rfl, h.rouse hx hc hp hw⟩
  | strike pid hx hc hp =>
    subst ht
    simp only [Sched.step] at hs
    split at hs
    · cases hs
      exact ⟨_, rfl, h.strike hx hc hp⟩
    · cases hs
      exact ⟨_, rfl, h.quiet hp rfl rfl (fun _ => rfl) (fun _ => rfl) (by nofun) rfl⟩
  | reap hx hc hp hse =>
    cases hs
    subst ht
    exact ⟨_, rfl, h.reap hx hc hp hse⟩
  | context hx hc hp hch =>
    cases hs
    subst ht
    refine ⟨_, rfl, (h.still hp rfl rfl (fun _ => rfl) (fun _ => rfl)).renew ?_⟩
    refine h.off hx hc ?_
    rw [h.states.child _ _ hch]
    nofun
  | setChan hx hc hp hst =>
    cases hs
    rw [ht] at hc hp hst ⊢
    exact ⟨_, rfl, h.setChan ht.symm hp hc (.inr ⟨_, hst, rfl⟩)⟩
  | tidy chan hx hc hp hst =>
    cases hs
    rw [ht] at hc hp hst ⊢
    exact ⟨_, rfl, h.setChan ht.symm hp hc (.inl ⟨rfl, hst⟩)⟩
  | load hp =>
    cases hs
    obtain ⟨-, rfl⟩ := run_of_sched ht.symm
    rw [ht] at hp ⊢
    exact ⟨_, rfl, h.load ht.symm hp⟩
  | clear hp =>
    cases hs
    obtain ⟨-, rfl⟩ := run_of_sched ht.symm
    rw [ht] at hp ⊢
    exact ⟨_, rfl, h.clear ht.symm hp⟩
  | swtch hp =>
    cases hs
    obtain ⟨-, rfl⟩ := run_of_sched ht.symm
    rw [ht] at hp ⊢
    exact ⟨_, rfl, h.swtch ht.symm hp⟩
  | sched hx hc hp hw hst =>
    obtain ⟨hl, hne, rfl⟩ := sched_done hs
    rw [ht] at hx hp hw hst ⊢
    exact ⟨_, rfl, h.sched ht.symm hx hp hw hst hl hne⟩
  | call hx hw hst chan lk hl =>
    change (if s.lock lk = some c then _ else _) = _ at hs
    split at hs
    · next hheld =>
      cases hs
      rw [ht] at hx ⊢
      exact ⟨_, rfl, h.reach ht.symm hx.phase (.inl ⟨_, _, hheld, rfl⟩)⟩
    · cases hs
  | drop hx hc hp hst hl hw =>
    obtain ⟨hheld, rfl⟩ := release_done hs
    rw [ht] at hx hp hw ⊢
    exact ⟨_, rfl, h.drop hp ht.symm hl hheld hx hw⟩
  | retake hx hp hst hl hw =>
    obtain ⟨hfree, rfl⟩ := acquire_done hs
    rw [ht] at hp hw hst ⊢
    exact ⟨_, rfl, h.acquire hp hl hfree hw (.inr ⟨_, _, ht.symm, hst, rfl⟩)⟩
  | returns hx hp hst =>
    cases hs
    rw [ht] at hp ⊢
    exact ⟨_, rfl, h.reach ht.symm hp (.inr rfl)⟩
  | enter hx hw chan =>
    subst ht
    change (if (s.cpu c).noff = 0 then _ else _) = _ at hs
    split at hs
    · cases hs
    · next hn =>
      cases hs
      exact ⟨_, rfl, h.enter hx hn chan⟩
  | leave hx hp hw _ =>
    cases hs
    subst ht
    exact ⟨_, rfl, h.leave hp⟩
  | nextpid _ hp | killed _ _ hp | parent _ _ hp =>
    cases hs
    subst ht
    exact ⟨_, rfl, h.still hp rfl rfl (fun _ => rfl) (fun _ => rfl)⟩
  | setPid _ _ _ hp | setParent _ _ _ hp | setXstate _ _ _ hp =>
    cases hs
    subst ht
    exact ⟨_, rfl, h.still hp rfl rfl (field_setProc rfl) (field_setProc rfl)⟩
  | never _ _ => cases hs

theorem discipline : (machine κ).Discipline Rule (fun _ => True) (fun past x => x.stage.nap = nap past) Inv Th.idle
    Ctx.fresh where
  call := body_spec
  interrupt s g c i h hen := by
    obtain ⟨ho, hw⟩ := h.opened (of_decide_eq_true hen)
    exact trap_spec ho hw i
  step s g c a W r s' h hrule hs := h.step hrule hs
  record t past a x W r x' h hrule hW := by
    rw [nap_snoc, ← h]
    exact hrule.nap hW
  spawn a t m h := by
    simp only [machine] at h
    split at h
    · cases h
      exact ⟨rfl, forkret_spec _⟩
    · cases h

theorem governed {P : Config sig Halt (State κ) (Ctx κ)} (h : (machine κ).Reach boot P) :
    ∃ g, Governed Rule (fun _ => True) (fun past x => x.stage.nap = nap past) Inv Th.idle P g := by
  refine discipline.reach ⟨Ctx.fresh, inv_boot, fun t => ?_⟩ h
  cases t with
  | sched c => exact ⟨rfl, rfl⟩
  | proc p =>
    refine ⟨rfl, ?_⟩
    simp only [boot]
    split
    · exact forkret_spec p
    · trivial

end Step

end Sched
