import Xv6.Table.Family

-- What an entry of the table is like while nobody uses it.

namespace Table

open Lts

-- Nobody asks to kill pid 0.
def Sane : Move → Prop
  | .call _ (.kill pid) => pid ≠ 0
  | _ => True

def Clean (t : Slot → Proc) : Prop := ∀ q, (t q).state = .unused → t q = freeproc

structure Fresh (s : State) : Prop where
  clean : Clean s.proc
  kills : ∀ p pid i, s.pc p = .killScan pid i → pid ≠ 0

variable {t : Slot → Proc}

section Steps

variable {l : Lives} {s s' : State} {p q : Slot} {x : Proc}

theorem Clean.update (h : Clean t) (hx : x.state = .unused → x = freeproc) : Clean (Function.update t p x) := by
  intro q hq
  by_cases hqp : q = p
  · rw [hqp, Function.update_self] at hq ⊢
    exact hx hq
  · rw [Function.update_of_ne hqp] at hq ⊢
    exact h q hq

theorem Clean.update_used (h : Clean t) (hx : x.state ≠ .unused) : Clean (Function.update t p x) :=
  h.update fun e => absurd e hx

theorem Clean.wakeup (h : Clean t) (me : Slot) (chan : Option Slot) : Clean (wakeup t me chan) := by
  intro q hq
  have hun := (same_wakeup t me chan q).unused.mp hq
  have hsleep : ¬(q ≠ me ∧ (t q).state = .sleeping ∧ (t q).chan = chan) := by
    rintro ⟨-, h, -⟩
    rw [hun] at h
    cases h
  rw [Table.wakeup, if_neg hsleep]
  exact h q hun

section

variable (h : Fresh s)

include h

theorem Fresh.goto {pc : Pc} (hc : Clean s'.proc) (hpc : s'.pc = Function.update s.pc p pc)
    (hk : ∀ pid i, pc = .killScan pid i → pid ≠ 0) : Fresh s' := by
  refine ⟨hc, fun q pid i hq => ?_⟩
  by_cases hqp : q = p
  · rw [hqp, hpc, Function.update_self] at hq
    exact hk pid i hq
  · rw [update_pc hpc q hqp] at hq
    exact h.kills q pid i hq

theorem Fresh.forkScan (mem : Bool) (i : Nat) : Fresh (forkScan s p mem i).1 := by
  unfold Table.forkScan
  split
  · next hi =>
    dsimp only
    split
    · cases mem with
      | true =>
        have hmid : Fresh (s.goto ⟨i, hi⟩ .user) := h.goto h.clean rfl (by simp)
        exact hmid.goto (p := p) (h.clean.update_used (by simp [allocproc])) rfl (by simp)
      | false => exact h.goto (p := p) (h.clean.update fun _ => rfl) rfl (by simp)
    · exact h.goto (p := p) h.clean rfl (by simp)
  · exact h.goto (p := p) h.clean rfl (by simp)

theorem Fresh.exitReparent (status : Int) (i : Nat) : Fresh (exitReparent s p status i).1 := by
  unfold Table.exitReparent
  split
  · dsimp only
    split
    · next hchild =>
      refine h.goto (p := p) (Clean.wakeup (h.clean.update_used fun hun => ?_) _ _) rfl nofun
      rw [h.clean _ hun] at hchild
      cases hchild
    · exact h.goto (p := p) h.clean rfl nofun
  · exact h.goto (p := p) h.clean rfl nofun

theorem Fresh.waitScan (addr : Addr) (i : Nat) (havekids : Bool) :
    Fresh (waitScan s p addr i havekids).1 := by
  unfold Table.waitScan
  split
  · dsimp only
    split
    · split
      · split
        · exact h.goto (p := p) h.clean rfl nofun
        · exact h.goto (p := p) (h.clean.update fun _ => rfl) rfl nofun
      · exact h.goto (p := p) h.clean rfl nofun
    · exact h.goto (p := p) h.clean rfl nofun
  · split
    · exact h.goto (p := p) h.clean rfl nofun
    · exact h.goto (p := p) (h.clean.update_used nofun) rfl nofun

theorem Fresh.killScan {pid : Pid} (hpid : pid ≠ 0) (i : Nat) : Fresh (killScan s p pid i).1 := by
  unfold Table.killScan
  split
  · dsimp only
    split
    · next hmatch =>
      refine h.goto (p := p) (h.clean.update_used fun hun => ?_) rfl nofun
      rw [h.clean _ ((same_setKilled _).unused.mp hun)] at hmatch
      exact hpid hmatch.symm
    · refine h.goto (p := p) h.clean rfl fun pid' i' e => ?_
      cases e
      exact hpid
  · exact h.goto (p := p) h.clean rfl nofun

theorem Fresh.acquire {pc : Pc} {r : State × List Event} (hm : acquire s p pc = some r)
    (hpc : ∀ pid i, pc ≠ .killScan pid i) : Fresh r.1 := by
  unfold Table.acquire at hm
  split at hm
  · cases hm
    exact h.goto (p := p) h.clean rfl fun pid i e => absurd e (hpc pid i)
  · cases hm

theorem Fresh.step (hf : Family l s) (hrun : (s.proc p).state = .running) {mem : Bool}
    {r : State × List Event} (hm : stepOf s p mem = some r) : Fresh r.1 := by
  have hat := hf.stand p
  unfold stepOf at hm
  generalize hpc : s.pc p = pc at hat hm
  cases pc with
  | user => cases hm
  | forkScan i =>
    cases hm
    exact h.forkScan mem i
  | exitReparent status i =>
    cases hm
    exact h.exitReparent status i
  | waitScan addr i havekids =>
    cases hm
    exact h.waitScan addr i havekids
  | killScan pid i =>
    cases hm
    exact h.killScan (h.kills p pid i hpc) i
  | forkParent np pid =>
    simp only at hm
    split at hm
    · cases hm
      refine h.goto (p := p) (h.clean.update_used ?_) rfl nofun
      rw [hat.2.1]
      decide
    · cases hm
  | forkRun np pid | exitZombie status =>
    cases hm
    exact h.goto (p := p) (h.clean.update_used nofun) rfl nofun
  | exitAcquire status | waitAcquire addr => exact h.acquire hm nofun
  | exitWake status =>
    cases hm
    exact h.goto (p := p) (h.clean.wakeup _ _) rfl nofun
  | waitSleep addr =>
    cases hm
    refine h.goto (p := p) (h.clean.update_used ?_) rfl nofun
    rw [hrun]
    decide

theorem Fresh.move (hf : Family l s) {m : Move} (hok : Sane m) {es : List Event}
    (hm : table m s = some (s', es)) : Fresh s' := by
  cases m with
  | step p mem =>
    simp only [table] at hm
    split at hm
    · next hrun => exact h.step hf hrun hm
    · cases hm
  | dispatch p | yield p =>
    simp only [table] at hm
    split at hm
    · cases hm
      exact ⟨h.clean.update_used (by simp), h.kills⟩
    · cases hm
  | call p c =>
    have hs' : s' = s.goto p (start c) := by
      simp only [table] at hm
      split at hm
      · cases c with
        | exit status =>
          simp only at hm
          split at hm <;> cases hm
          rfl
        | _ => cases hm; rfl
      · cases hm
    subst hs'
    refine h.goto (p := p) h.clean rfl fun pid i e => ?_
    cases c with
    | kill pid' => cases e; exact hok
    | _ => cases e

end

theorem fresh_boot : Fresh boot := by
  refine ⟨fun q hq => ?_, fun p pid i h => nomatch h⟩
  by_cases hq' : q = initproc
  · rw [hq'] at hq
    cases hq
  · exact if_neg hq'

theorem fresh_of_run {es : List Event} (hr : Run table (fun _ _ m => Sane m) boot es s) : Fresh s := by
  have hall : Fresh s ∧ Family (lives es) s := by
    refine hr.inv (I := fun es s => Fresh s ∧ Family (lives es) s) ⟨fresh_boot, family_boot⟩ ?_
    intro es s m s' es' ⟨h, hf⟩ hok hm
    refine ⟨h.move hf hok hm, ?_⟩
    rcases table_refines hf hm with ⟨hes, hf'⟩ | ⟨e, hes, -, hf'⟩
    · rwa [show es' = [] from hes, List.append_nil]
    · rwa [show es' = [e] from hes, lives_snoc]
  exact hall.1

end Steps

section Kill

variable {p : Slot} {pid : Pid}

theorem kill_cases (pid : Pid) (t : Slot → Proc) :
    (∃ q, (t q).pid = pid ∧ kill pid t = (0, Function.update t q (setKilled (t q)))) ∨
      ((∀ q, (t q).pid ≠ pid) ∧ kill pid t = (-1, t)) := by
  unfold kill
  cases hf : (List.finRange NPROC).find? fun q => decide ((t q).pid = pid) with
  | some q => exact .inl ⟨q, by simpa using List.find?_some hf, rfl⟩
  | none =>
    refine .inr ⟨fun q => ?_, rfl⟩
    simpa using List.find?_eq_none.mp hf q (List.mem_finRange q)

theorem kill_eq_zero : (kill pid t).1 = 0 ↔ ∃ q, (t q).pid = pid := by
  rcases kill_cases pid t with ⟨q, hq, hk⟩ | ⟨hno, hk⟩
  · simp only [hk, true_iff]
    exact ⟨q, hq⟩
  rw [hk]
  constructor
  · intro h
    exact absurd h (by simp)
  · rintro ⟨q, hq⟩
    exact absurd hq (hno q)

theorem kill_changes (h : ∀ q, (t q).pid = pid → (t q).killed = false ∨ (t q).state = .sleeping)
    (hk : (kill pid t).1 = 0) : (kill pid t).2 ≠ t := by
  rcases kill_cases pid t with ⟨q, hq, hkill⟩ | ⟨-, hkill⟩
  · rw [hkill]
    intro e
    have hq' : setKilled (t q) = t q := by simpa using congrFun e q
    rcases h q hq with hkl | hsl
    · have hk := congrArg Proc.killed hq'
      rw [hkl] at hk
      cases hk
    · have hs := congrArg Proc.state hq'
      simp [setKilled, hsl] at hs
  · rw [hkill] at hk
    exact absurd hk (by simp)

end Kill

-- Where nobody kills pid 0, the entries not in use are as freeproc leaves them, allocproc makes
-- processes that are not killed, and kill finds exactly those in use.
theorem fresh_clean {s : State} {es : List Event} (hr : Run table (fun _ _ m => Sane m) boot es s) :
    Clean s.proc ∧ (∀ q pid, (s.proc q).state = .unused → (allocproc pid (s.proc q)).killed = false) ∧
      ∀ pid, pid ≠ 0 → ((kill pid s.proc).1 = 0 ↔ ∃ q, (s.proc q).state ≠ .unused ∧ (s.proc q).pid = pid) ∧
        ((∀ q, (s.proc q).pid = pid → (s.proc q).killed = false ∨ (s.proc q).state = .sleeping) →
          (kill pid s.proc).1 = 0 → (kill pid s.proc).2 ≠ s.proc) := by
  have hc : Clean s.proc := (fresh_of_run hr).clean
  refine ⟨hc, fun q pid hq => ?_, fun pid hpid => ⟨?_, kill_changes⟩⟩
  · show (s.proc q).killed = false
    rw [hc q hq]
    rfl
  · rw [kill_eq_zero]
    refine exists_congr fun q => ⟨fun hq => ⟨fun hun => ?_, hq⟩, And.right⟩
    rw [hc q hun] at hq
    exact hpid hq.symm

instance : (m : Move) → Decidable (Sane m)
  | .call _ (.kill _) => inferInstanceAs (Decidable (_ ≠ _))
  | .call _ .fork | .call _ (.exit _) | .call _ (.wait _) => isTrue trivial
  | .step _ _ | .dispatch _ | .yield _ => isTrue trivial

theorem fresh_clean_kill : ∃ es s, Run table (fun _ _ m => Sane m) boot es s ∧
    es = [.forked 0 1 2, .killed 0 0] ∧ Clean s.proc := by
  have hrun : (exec table (fun _ _ m => Sane m) (.dispatch 0 :: wholeCall 0 .fork 4 ++ wholeCall 0 (.kill 2) 2) []
      boot).map Prod.fst = some [.forked 0 1 2, .killed 0 0] := by
    decide
  obtain ⟨es, s, hr, hes⟩ := run_of_map hrun
  exact ⟨es, s, hr, hes, (fresh_clean hr).1⟩

-- The first process kills pid 0 and forks: the call returns 0, and the child is killed from the
-- start.
theorem not_fresh_clean : ∃ es s, Run table (fun _ _ _ => True) boot es s ∧ es = [.killed 0 0] ∧
    (∀ q, (s.proc q).state ≠ .unused → (s.proc q).pid ≠ 0) ∧ ¬Clean s.proc ∧
      (s.proc 1).state = .unused ∧ (allocproc 2 (s.proc 1)).killed = true := by
  have hrun : (exec table (fun _ _ _ => True) (.dispatch 0 :: wholeCall 0 (.kill 0) 2) [] boot).map
      (fun r => (r.1, r.2.proc 1, decide (∀ q, (r.2.proc q).state ≠ .unused → (r.2.proc q).pid ≠ 0))) =
        some ([.killed 0 0], { freeproc with killed := true }, true) := by
    decide
  obtain ⟨es, s, hr, hs⟩ := run_of_map hrun
  simp only [Prod.mk.injEq, decide_eq_true_eq] at hs
  obtain ⟨hes, hslot, hpids⟩ := hs
  have hun : (s.proc 1).state = .unused := by rw [hslot]; rfl
  refine ⟨es, s, hr, hes, hpids, fun hc => ?_, hun, by rw [hslot]; rfl⟩
  have hclean := hc 1 hun
  rw [hslot] at hclean
  exact absurd (congrArg Proc.killed hclean) (by decide)

end Table
