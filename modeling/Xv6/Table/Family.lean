import Xv6.Table

-- The table refines a history of births, deaths and funerals in which every death is attended once,
-- by the parent.

namespace Table

open Lts Function

-- What a slot is to the outside: free, a process with its parent, or a process that has exited.
inductive Life where
  | free
  | live (pid : Pid) (parent : Slot)
  | dead (pid : Pid) (parent : Slot) (status : Int)

abbrev Lives := Slot → Life

namespace Life

def isLive : Life → Prop
  | .live _ _ => True
  | _ => False

def orphan (p : Slot) : Life → Life
  | .free => .free
  | .live pid parent => .live pid (if parent = p then initproc else parent)
  | .dead pid parent status => .dead pid (if parent = p then initproc else parent) status

def parent : Life → Option Slot
  | .free => none
  | .live _ parent | .dead _ parent _ => some parent

def die (status : Int) : Life → Life
  | .live pid parent => .dead pid parent status
  | l => l

end Life

def Lives.init : Lives := fun p => if p = initproc then .live 1 initproc else .free

def Lives.next (l : Lives) : Event → Lives
  | .forked p np pid => update l np (.live pid p)
  | .exited p status => fun q => (if q = p then (l q).die status else l q).orphan p
  | .reaped _ q _ _ => update l q .free
  | .badAddr _ _ | .killed _ _ | .failed _ => l

def lives (es : List Event) : Lives := es.foldl Lives.next Lives.init

-- A process is born into a free slot, of a live parent; only a live one exits; and a dead one is
-- reaped by its parent, who gets its pid and status.
def Lawful (l : Lives) : Event → Prop
  | .forked p np _ => l np = .free ∧ (l p).isLive
  | .exited p _ => p ≠ initproc ∧ (l p).isLive
  | .reaped p q pid status => l q = .dead pid p status
  | .badAddr p q => ∃ pid status, l q = .dead pid p status
  | .killed _ _ | .failed _ => True

inductive Kind where
  | unused
  | used
  | alive
  | zombie
  deriving DecidableEq

def kind : ProcState → Kind
  | .unused => .unused
  | .used => .used
  | .sleeping | .runnable | .running => .alive
  | .zombie => .zombie

attribute [local simp] kind

def Alive (p : Proc) : Prop := kind p.state = .alive

-- How the entry of a slot shows its life.
def Shows (p : Proc) : Life → Prop
  | .free => p.state = .unused ∨ p.state = .used
  | .live pid _ => Alive p ∧ p.pid = pid
  | .dead pid _ status => p.state = .zombie ∧ p.pid = pid ∧ p.xstate = status

attribute [local simp] Shows

-- A process on its way out has already passed the child `q` to initproc.
def Passed (q : Slot) : Pc → Prop
  | .exitReparent _ i => q.val < i
  | .exitWake _ | .exitZombie _ => True
  | _ => False

def At (s : State) (p : Slot) : Pc → Prop
  | .user => True
  | .forkParent np pid => Alive (s.proc p) ∧ (s.proc np).state = .used ∧ (s.proc np).pid = pid ∧
    (s.proc np).parent = none
  | .forkRun np pid => Alive (s.proc p) ∧ (s.proc np).state = .used ∧ (s.proc np).pid = pid ∧
    (s.proc np).parent = some p
  | .exitAcquire _ => Alive (s.proc p) ∧ p ≠ initproc
  | .exitReparent _ i => Alive (s.proc p) ∧ p ≠ initproc ∧ s.waitLock = some p ∧
    ∀ q : Slot, q.val < i → (s.proc q).parent ≠ some p
  | .exitWake _ | .exitZombie _ => Alive (s.proc p) ∧ p ≠ initproc ∧ s.waitLock = some p ∧
    ∀ q : Slot, (s.proc q).parent ≠ some p
  | .waitScan _ _ _ => Alive (s.proc p) ∧ s.waitLock = some p
  | .forkScan _ | .waitAcquire _ | .waitSleep _ | .killScan _ _ => Alive (s.proc p)

def forking : Pc → Option Slot
  | .forkParent np _ | .forkRun np _ => some np
  | _ => none

structure Family (l : Lives) (s : State) : Prop where
  shows : ∀ q, Shows (s.proc q) (l q)
  stand : ∀ p, At s p (s.pc p)
  forker : ∀ p p' np, forking (s.pc p) = some np → forking (s.pc p') = some np → p = p'
  child : ∀ q r, q ≠ initproc → (l q).parent = some r →
    (s.proc q).parent = some r ∨ ((s.proc q).parent = some initproc ∧ Passed q (s.pc r))
  parent : ∀ q r, (s.proc q).parent = some r → Alive (s.proc r)
  unborn : ∀ q, (s.proc q).state = .unused → (s.proc q).parent = none
  init : Alive (s.proc initproc)

variable {s s' : State} {p q np : Slot} {l : Lives}

section Frame

variable {l l' : Lives} {pc : Pc}

structure Same (a b : Proc) : Prop where
  kind : kind b.state = kind a.state
  parent : b.parent = a.parent
  named : a.state ≠ .unused → b.pid = a.pid ∧ b.xstate = a.xstate

theorem Same.refl (a : Proc) : Same a a := ⟨rfl, rfl, fun _ => ⟨rfl, rfl⟩⟩

theorem kind_eq_used {x : ProcState} : kind x = .used ↔ x = .used := by cases x <;> simp

theorem kind_eq_unused {x : ProcState} : kind x = .unused ↔ x = .unused := by cases x <;> simp

theorem kind_eq_zombie {x : ProcState} : kind x = .zombie ↔ x = .zombie := by cases x <;> simp

variable {a b : Proc}

theorem Same.alive (h : Same a b) : Alive b ↔ Alive a := by rw [Alive, Alive, h.kind]

theorem Same.used (h : Same a b) : b.state = .used ↔ a.state = .used := by
  rw [← kind_eq_used, h.kind, kind_eq_used]

theorem Same.unused (h : Same a b) : b.state = .unused ↔ a.state = .unused := by
  rw [← kind_eq_unused, h.kind, kind_eq_unused]

theorem Same.zombie (h : Same a b) : b.state = .zombie ↔ a.state = .zombie := by
  rw [← kind_eq_zombie, h.kind, kind_eq_zombie]

theorem Alive.ne {x : ProcState} (h : Alive a) (hx : kind x ≠ .alive) : a.state ≠ x := by
  rintro rfl
  exact hx h

theorem Alive.ne_unused (h : Alive a) : a.state ≠ .unused := h.ne nofun

theorem Alive.ne_used (h : Alive a) : a.state ≠ .used := h.ne nofun

theorem Alive.ne_zombie (h : Alive a) : a.state ≠ .zombie := h.ne nofun

theorem Same.shows (h : Same a b) {x : Life} (hs : Shows a x) : Shows b x := by
  cases x with
  | free => simpa only [Shows, h.unused, h.used] using hs
  | live pid parent =>
    have hn := h.named hs.1.ne_unused
    exact ⟨h.alive.mpr hs.1, hn.1.trans hs.2⟩
  | dead pid parent status =>
    have hn := h.named (by rw [hs.1]; decide)
    exact ⟨h.zombie.mpr hs.1, hn.1.trans hs.2.1, hn.2.trans hs.2.2⟩

theorem At.alive (h : At s p pc) (hu : pc ≠ .user) : Alive (s.proc p) := by
  cases pc with
  | user => exact absurd rfl hu
  | forkScan | waitAcquire | waitSleep | killScan => exact h
  | _ => exact h.1

theorem At.used (h : At s p pc) (hfork : forking pc = some np) : (s.proc np).state = .used := by
  cases pc with
  | forkParent | forkRun => cases hfork; exact h.2.1
  | _ => cases hfork

theorem Family.at (hf : Family l s) (hpc : s.pc p = pc) : At s p pc := hpc ▸ hf.stand p

-- What the others rely on: that `q` lives, the child that `q` makes, and the
-- children that `q` has given away.
structure Spares (q : Slot) (pc : Pc) (s s' : State) : Prop where
  alive : Alive (s.proc q) → Alive (s'.proc q)
  made : ∀ np, forking pc = some np →
    (s'.proc np).state = .used ∧ (s'.proc np).pid = (s.proc np).pid ∧ (s'.proc np).parent = (s.proc np).parent
  lock : s.waitLock = some q → s'.waitLock = some q ∧ ∀ r, (s'.proc r).parent = some q → (s.proc r).parent = some q

theorem At.keep (h : At s q pc) (hk : Spares q pc s s') : At s' q pc := by
  cases pc with
  | user => trivial
  | forkScan | waitAcquire | waitSleep | killScan => exact hk.alive h
  | exitAcquire => exact ⟨hk.alive h.1, h.2⟩
  | waitScan => exact ⟨hk.alive h.1, (hk.lock h.2).1⟩
  | forkParent np pid | forkRun np pid =>
    obtain ⟨ha, -, hpid, hpar⟩ := h
    obtain ⟨hu', hpid', hpar'⟩ := hk.made np rfl
    exact ⟨hk.alive ha, hu', hpid'.trans hpid, hpar'.trans hpar⟩
  | exitReparent status i =>
    obtain ⟨ha, hne, hl, hgone⟩ := h
    obtain ⟨hl', hback⟩ := hk.lock hl
    exact ⟨hk.alive ha, hne, hl', fun r hr hpar => hgone r hr (hback r hpar)⟩
  | exitWake status | exitZombie status =>
    obtain ⟨ha, hne, hl, hgone⟩ := h
    obtain ⟨hl', hback⟩ := hk.lock hl
    exact ⟨hk.alive ha, hne, hl', fun r hpar => hgone r (hback r hpar)⟩

theorem Family.others (hf : Family l s) (hpc : ∀ q, q ≠ p → s'.pc q = s.pc q)
    (hs : ∀ q, q ≠ p → Spares q (s.pc q) s s') (hp : At s' p (s'.pc p))
    (hfork : ∀ np, forking (s'.pc p) = some np → forking (s.pc p) = some np ∨ (s.proc np).state = .unused) :
    (∀ q, At s' q (s'.pc q)) ∧ ∀ q q' np, forking (s'.pc q) = some np → forking (s'.pc q') = some np → q = q' := by
  constructor
  · intro q
    by_cases hq : q = p
    · rw [hq]
      exact hp
    · rw [hpc q hq]
      exact (hf.stand q).keep (hs q hq)
  -- A child that `p` has just taken was in nobody's hands.
  · have hnew : ∀ q np, q ≠ p → forking (s'.pc p) = some np → forking (s.pc q) = some np → p = q := by
      intro q np hq h h'
      rcases hfork np h with hold | hun
      · exact hf.forker p q np hold h'
      · have hused := (hf.stand q).used h'
        rw [hun] at hused
        cases hused
    intro q q' np h h'
    by_cases hq : q = p <;> by_cases hq' : q' = p
    · rw [hq, hq']
    · subst hq
      rw [hpc q' hq'] at h'
      exact hnew q' np hq' h h'
    · subst hq'
      rw [hpc q hq] at h
      exact (hnew q np hq h' h).symm
    · rw [hpc q hq] at h
      rw [hpc q' hq'] at h'
      exact hf.forker q q' np h h'

theorem Family.child_keep (hf : Family l s) (hpc : ∀ q, q ≠ p → s'.pc q = s.pc q)
    (hpass : ∀ q, Passed q (s.pc p) → Passed q (s'.pc p)) {q r : Slot} (hq : q ≠ initproc)
    (hr : (l q).parent = some r) :
    (s.proc q).parent = some r ∨ ((s.proc q).parent = some initproc ∧ Passed q (s'.pc r)) := by
  refine (hf.child q r hq hr).imp_right fun h => ⟨h.1, ?_⟩
  by_cases hrp : r = p
  · subst hrp
    exact hpass q h.2
  · rw [hpc r hrp]
    exact h.2

theorem Family.quiet (hf : Family l s) (hsame : ∀ q, Same (s.proc q) (s'.proc q))
    (hpc : ∀ q, q ≠ p → s'.pc q = s.pc q) (hlock : ∀ q, q ≠ p → s.waitLock = some q → s'.waitLock = some q)
    (hp : At s' p (s'.pc p)) (hfork : forking (s'.pc p) = none ∨ s'.pc p = s.pc p)
    (hpass : ∀ q, Passed q (s.pc p) → Passed q (s'.pc p)) : Family l s' := by
  have hspare : ∀ q, q ≠ p → Spares q (s.pc q) s s' := by
    intro q hq
    refine ⟨(hsame q).alive.mpr, fun np hnp => ?_, fun hl => ⟨hlock q hq hl, fun r hr => ?_⟩⟩
    · have hused := (hf.stand q).used hnp
      exact ⟨(hsame np).used.mpr hused, ((hsame np).named (by rw [hused]; decide)).1, (hsame np).parent⟩
    · rwa [(hsame r).parent] at hr
  have hfork' : ∀ np, forking (s'.pc p) = some np → forking (s.pc p) = some np ∨ (s.proc np).state = .unused := by
    intro np hnp
    rcases hfork with h | h
    · rw [h] at hnp
      cases hnp
    · exact .inl (h ▸ hnp)
  obtain ⟨hstand, hforker⟩ := hf.others hpc hspare hp hfork'
  refine ⟨fun q => (hsame q).shows (hf.shows q), hstand, hforker, ?_, ?_, ?_, (hsame _).alive.mpr hf.init⟩
  · intro q r hq hr
    rw [(hsame q).parent]
    exact hf.child_keep hpc hpass hq hr
  · intro q r hr
    rw [(hsame q).parent] at hr
    exact (hsame r).alive.mpr (hf.parent q r hr)
  · intro q hq
    rw [(hsame q).parent]
    exact hf.unborn q ((hsame q).unused.mp hq)

theorem same_wakeup (t : Slot → Proc) (me : Slot) (chan : Option Slot) (q : Slot) :
    Same (t q) (wakeup t me chan q) := by
  unfold wakeup
  split
  · next h =>
    refine ⟨?_, rfl, fun _ => ⟨rfl, rfl⟩⟩
    rw [h.2.1]
    rfl
  · exact .refl _

theorem same_setKilled (a : Proc) : Same a (setKilled a) := by
  refine ⟨?_, rfl, fun _ => ⟨rfl, rfl⟩⟩
  unfold setKilled
  by_cases h : a.state = .sleeping
  · simp [h]
  · simp [h]

theorem same_update {t : Slot → Proc} {x : Proc} (h : Same (t p) x) (q : Slot) : Same (t q) (update t p x q) :=
  rel_update Same.refl h q

theorem same_of_alive (ha : Alive a) (hb : Alive b) (hpar : b.parent = a.parent) (hpid : b.pid = a.pid)
    (hx : b.xstate = a.xstate) : Same a b :=
  ⟨hb.trans ha.symm, hpar, fun _ => ⟨hpid, hx⟩⟩

theorem alive_of_running (h : a.state = .running) : Alive a := by rw [Alive, h]; rfl

theorem Shows.eq_free {x : Life} (h : Shows a x) (hs : a.state = .unused ∨ a.state = .used) : x = .free := by
  cases x with
  | free => rfl
  | live => rcases hs with hs | hs <;> simp [Alive, hs] at h
  | dead => rcases hs with hs | hs <;> simp [hs] at h

theorem Shows.isLive {x : Life} (h : Shows a x) (ha : Alive a) : ∃ parent, x = .live a.pid parent := by
  cases x with
  | free => rcases h with h | h <;> simp [Alive, h] at ha
  | live pid parent => exact ⟨parent, by rw [h.2]⟩
  | dead => simp at h; simp [Alive, h.1] at ha

theorem Shows.isDead {x : Life} (h : Shows a x) (ha : a.state = .zombie) :
    ∃ parent, x = .dead a.pid parent a.xstate := by
  cases x with
  | free => simp [ha] at h
  | live => simp [Alive, ha] at h
  | dead pid parent status => exact ⟨parent, by rw [h.2.1, h.2.2]⟩

theorem Family.user_of_not_alive (hf : Family l s) (h : ¬Alive (s.proc p)) : s.pc p = .user := by
  by_contra hu
  exact h ((hf.stand p).alive hu)

end Frame

variable {status : Int} {i : Nat} {addr : Addr} {havekids : Bool} {pc : Pc}

section Steps

variable {pid : Pid} {x : Proc}

theorem update_ne {t t' : Slot → Proc} (h : t' = update t np x) (hq : q ≠ np) : t' q = t q := by
  rw [h, update_of_ne hq]

theorem update_self {t t' : Slot → Proc} (h : t' = update t np x) : t' np = x := by
  rw [h, Function.update_self]

structure Changes (s s' : State) (p np : Slot) (x : Proc) (pc : Pc) : Prop where
  proc : s'.proc = update s.proc np x
  others : ∀ q, q ≠ p → s'.pc q = s.pc q
  self : s'.pc p = pc

-- Nobody loses the child that it makes, or a live process that it relies on.
theorem Family.change (hf : Family l s) {l' : Lives} (hc : Changes s s' p np x pc)
    (halive : Alive (s.proc np) → Alive x ∨ (np = p ∧ p ≠ initproc ∧ ∀ q, (s.proc q).parent ≠ some p))
    (hforked : ∀ q, q ≠ p → forking (s.pc q) ≠ some np) (hlock : ∀ q, q ≠ p → s.waitLock = some q →
      s'.waitLock = some q ∧ (x.parent = some q → (s.proc np).parent = some q))
    (hat : At s' p pc) (hfork : ∀ m, forking pc = some m → forking (s.pc p) = some m ∨ (s.proc m).state = .unused)
    (hshow : Shows x (l' np)) (hshows : ∀ q, q ≠ np → Shows (s.proc q) (l' q))
    (hchild : ∀ q r, q ≠ initproc → (l' q).parent = some r →
      (s'.proc q).parent = some r ∨ ((s'.proc q).parent = some initproc ∧ Passed q (s'.pc r)))
    (hparent : ∀ r, x.parent = some r → Alive (s'.proc r)) (hunborn : x.state = .unused → x.parent = none) :
    Family l' s' := by
  have hkeep : ∀ r, Alive (s.proc r) → Alive (s'.proc r) ∨ (r = p ∧ p ≠ initproc ∧ ∀ q, (s.proc q).parent ≠ some p) := by
    intro r hr
    by_cases hrn : r = np
    · subst hrn
      rw [update_self hc.proc]
      exact halive hr
    · rw [update_ne hc.proc hrn]
      exact .inl hr
  have hspare : ∀ q, q ≠ p → Spares q (s.pc q) s s' := by
    intro q hq
    refine ⟨fun h => (hkeep q h).resolve_right fun h => hq h.1, fun m hm => ?_, fun h => ⟨(hlock q hq h).1, fun r hr => ?_⟩⟩
    · have hne : m ≠ np := fun e => hforked q hq (e ▸ hm)
      rw [update_ne hc.proc hne]
      exact ⟨(hf.stand q).used hm, rfl, rfl⟩
    · by_cases hrn : r = np
      · subst hrn
        rw [update_self hc.proc] at hr
        exact (hlock q hq h).2 hr
      · rwa [update_ne hc.proc hrn] at hr
  obtain ⟨hstand, hforker⟩ := hf.others hc.others hspare (hc.self ▸ hat) (hc.self ▸ hfork)
  refine ⟨fun q => ?_, hstand, hforker, hchild, fun q r hr => ?_, fun q hq => ?_, ?_⟩
  · by_cases hqn : q = np
    · rw [hqn, update_self hc.proc]
      exact hshow
    · rw [update_ne hc.proc hqn]
      exact hshows q hqn
  · by_cases hqn : q = np
    · rw [hqn, update_self hc.proc] at hr
      exact hparent r hr
    · rw [update_ne hc.proc hqn] at hr
      refine (hkeep r (hf.parent q r hr)).resolve_right fun h => h.2.2 q ?_
      rw [hr, h.1]
  · by_cases hqn : q = np
    · rw [hqn, update_self hc.proc] at hq ⊢
      exact hunborn hq
    · rw [update_ne hc.proc hqn] at hq ⊢
      exact hf.unborn q hq
  · exact (hkeep _ hf.init).resolve_right fun h => h.2.1 h.1.symm

theorem Changes.parent (hc : Changes s s' p np x pc) (hpar : x.parent = (s.proc np).parent) (q : Slot) :
    (s'.proc q).parent = (s.proc q).parent := by
  rw [hc.proc]
  exact field_update Proc.parent hpar q

theorem Family.not_forking (hf : Family l s) (h : (s.proc np).state ≠ .used) (q : Slot) : forking (s.pc q) ≠ some np :=
  fun hq => h ((hf.stand q).used hq)

theorem Family.only_forker (hf : Family l s) (h : forking (s.pc p) = some np) (hq : q ≠ p) : forking (s.pc q) ≠ some np :=
  fun h' => hq (hf.forker q p np h' h)

theorem other_lock (hl : s.waitLock = some p) {P : Prop} (q : Slot) (hq : q ≠ p) (h : s.waitLock = some q) : P := by
  rw [hl] at h
  exact absurd (Option.some.inj h).symm hq

variable (hf : Family l s)

include hf

-- fork takes an entry.
theorem Family.alloc (hp : Alive (s.proc p)) (hpass : ∀ q, ¬Passed q (s.pc p))
    (hun : (s.proc np).state = .unused) (hc : Changes s s' p np x (.forkParent np pid)) (hused : x.state = .used)
    (hpid : x.pid = pid) (hpar : x.parent = (s.proc np).parent) (hlock : s'.waitLock = s.waitLock) : Family l s' := by
  have hnone := hpar.trans (hf.unborn np hun)
  have hpn : p ≠ np := by
    rintro rfl
    exact hp.ne_unused hun
  have hat : At s' p (.forkParent np pid) := by
    rw [At, update_self hc.proc, update_ne hc.proc hpn]
    exact ⟨hp, hused, hpid, hnone⟩
  refine hf.change hc (fun h => absurd hun h.ne_unused) (fun q _ => hf.not_forking (by rw [hun]; nofun) q)
    (fun q _ h => ⟨hlock.trans h, fun h => hpar ▸ h⟩) hat ?_ ?_ (fun q _ => hf.shows q) (fun q r hq hr => ?_) ?_ ?_
  · intro m hm
    cases hm
    exact .inr hun
  · rw [(hf.shows np).eq_free (.inl hun)]
    exact .inr hused
  · rw [hc.parent hpar]
    exact hf.child_keep hc.others (fun q h => absurd h (hpass q)) hq hr
  · intro r hr
    rw [hnone] at hr
    cases hr
  · exact fun _ => hnone

-- fork gives the child its parent.
theorem Family.adopt (hpc0 : s.pc p = .forkParent np pid) (hl : s.waitLock = none)
    (hc : Changes s s' p np { s.proc np with parent := some p } (.forkRun np pid)) : Family l s' := by
  obtain ⟨hp, hused, hpid, -⟩ := hf.at hpc0
  have hpn : p ≠ np := by
    rintro rfl
    exact hp.ne_used hused
  have hat : At s' p (.forkRun np pid) := by
    rw [At, update_self hc.proc, update_ne hc.proc hpn]
    exact ⟨hp, hused, hpid, rfl⟩
  have hshow : Shows { s.proc np with parent := some p } (l np) := by
    rw [(hf.shows np).eq_free (.inr hused)]
    exact .inr hused
  refine hf.change hc (fun h => absurd hused h.ne_used) (fun q hq => hf.only_forker (by rw [hpc0]; rfl) hq) (fun q _ h => ?_)
    hat (fun m hm => ?_) hshow (fun q _ => hf.shows q) (fun q r hq hr => ?_) ?_ (fun h => ?_)
  · rw [hl] at h
    cases h
  · rw [hpc0]
    exact .inl hm
  · have hqn : q ≠ np := by
      intro e
      rw [e, (hf.shows np).eq_free (.inr hused)] at hr
      cases hr
    rw [update_ne hc.proc hqn]
    refine hf.child_keep hc.others (fun q h => ?_) hq hr
    rw [hpc0] at h
    exact h.elim
  · rintro r hr
    cases hr
    exact hat.1
  · rw [show (s.proc np).state = .unused from h] at hused
    cases hused

-- fork lets the child go.
theorem Family.born (hpc0 : s.pc p = .forkRun np pid)
    (hc : Changes s s' p np { s.proc np with state := .runnable } .user) (hlock : s'.waitLock = s.waitLock) :
    Lawful l (.forked p np pid) ∧ Family (l.next (.forked p np pid)) s' := by
  obtain ⟨hp, hused, hpid, hpar⟩ := hf.at hpc0
  obtain ⟨grand, hlive⟩ := (hf.shows p).isLive hp
  refine ⟨⟨(hf.shows np).eq_free (.inr hused), by rw [hlive]; trivial⟩, ?_⟩
  refine hf.change hc (fun _ => .inl rfl) (fun q hq => hf.only_forker (by rw [hpc0]; rfl) hq)
    (fun q _ h => ⟨hlock.trans h, id⟩) trivial nofun ?_ (fun q hq => ?_) (fun q r hq hr => ?_) (fun r hr => ?_) nofun
  · rw [Lives.next, Function.update_self]
    exact ⟨rfl, hpid⟩
  · rw [Lives.next, update_of_ne hq]
    exact hf.shows q
  · rw [hc.parent rfl]
    by_cases hqn : q = np
    · rw [hqn, Lives.next, Function.update_self] at hr
      cases hr
      exact .inl (hqn ▸ hpar)
    · rw [Lives.next, update_of_ne hqn] at hr
      refine hf.child_keep hc.others (fun q h => ?_) hq hr
      rw [hpc0] at h
      exact h.elim
  · have hrp : r = p := Option.some.inj (hr.symm.trans hpar)
    subst hrp
    by_cases hrn : r = np
    · exact absurd hused (hrn ▸ hp.ne_used)
    · rwa [update_ne hc.proc hrn]

-- exit passes a child to initproc.
theorem Family.pass (hpc0 : s.pc p = .exitReparent status i) {pp : Slot} (hi : pp.val = i)
    (hchild : (s.proc pp).parent = some p)
    (hc : Changes s s' p pp { s.proc pp with parent := some initproc } (.exitReparent status (i + 1)))
    (hlock : s'.waitLock = s.waitLock) : Family l s' := by
  obtain ⟨hp, hne, hl, hgone⟩ := hf.at hpc0
  have hstate : ∀ q, (s'.proc q).state = (s.proc q).state := by
    rw [hc.proc]
    exact field_update Proc.state (by rfl)
  have hat : At s' p (.exitReparent status (i + 1)) := by
    refine ⟨?_, hne, hlock.trans hl, fun q hq hpar => ?_⟩
    · rw [Alive, hstate]
      exact hp
    by_cases hqp : q = pp
    · rw [hqp, update_self hc.proc] at hpar
      exact hne (Option.some.inj hpar).symm
    · rw [update_ne hc.proc hqp] at hpar
      have hne' : q.val ≠ pp.val := fun e => hqp (Fin.ext e)
      exact hgone q (by omega) hpar
  have hforked : ∀ q, q ≠ p → forking (s.pc q) ≠ some pp := by
    intro q hq hnp
    have hat := hf.stand q
    cases hpcq : s.pc q <;> rw [hpcq] at hnp hat <;> cases hnp
    · rw [hat.2.2.2] at hchild
      cases hchild
    · rw [hat.2.2.2] at hchild
      exact hq (Option.some.inj hchild)
  have hpasses : ∀ q, Passed q (s.pc p) → Passed q (s'.pc p) := by
    intro q h
    rw [hpc0] at h
    rw [hc.self]
    exact Nat.lt_succ_of_lt h
  have hnew : ∀ q r, q ≠ initproc → (l q).parent = some r →
      (s'.proc q).parent = some r ∨ ((s'.proc q).parent = some initproc ∧ Passed q (s'.pc r)) := by
    intro q r hq hr
    have hkeep := hf.child_keep hc.others hpasses hq hr
    by_cases hqp : q = pp
    · subst hqp
      rw [update_self hc.proc]
      rw [hchild] at hkeep
      rcases hkeep with h | ⟨h, -⟩
      · cases h
        refine .inr ⟨rfl, ?_⟩
        rw [hc.self]
        show q.val < i + 1
        omega
      · exact absurd (Option.some.inj h) hne
    · rwa [update_ne hc.proc hqp]
  have hshow : Shows { s.proc pp with parent := some initproc } (l pp) := hf.shows pp
  refine hf.change hc .inl hforked (fun q hq h => other_lock hl q hq h) hat nofun hshow (fun q _ => hf.shows q) hnew
    (fun r hr => ?_) fun h => ?_
  · cases hr
    rw [Alive, hstate]
    exact hf.init
  · rw [hf.unborn pp h] at hchild
    cases hchild

-- exit makes a zombie.
theorem Family.die (hpc0 : s.pc p = .exitZombie status)
    (hc : Changes s s' p p { s.proc p with xstate := status, state := .zombie } .user) :
    Lawful l (.exited p status) ∧ Family (l.next (.exited p status)) s' := by
  obtain ⟨hp, hne, hl, hgone⟩ := hf.at hpc0
  obtain ⟨grand, hlive⟩ := (hf.shows p).isLive hp
  refine ⟨⟨hne, by rw [hlive]; trivial⟩, ?_⟩
  have hnew : ∀ q r, q ≠ initproc → (l.next (.exited p status) q).parent = some r →
      (s'.proc q).parent = some r ∨ ((s'.proc q).parent = some initproc ∧ Passed q (s'.pc r)) := by
    intro q r hq hr
    rw [hc.parent rfl]
    -- What the parent of `q` was before.
    have hold : ∃ r0, (l q).parent = some r0 ∧ r = if r0 = p then initproc else r0 := by
      by_cases hqp : q = p
      · subst hqp
        simp only [Lives.next, if_true, hlive, Life.die, Life.orphan, Life.parent, Option.some.injEq] at hr
        exact ⟨grand, by rw [hlive]; rfl, hr.symm⟩
      simp only [Lives.next, hqp, if_false] at hr
      cases hlq : l q with
      | free => simp [hlq, Life.orphan, Life.parent] at hr
      | live pid r0 | dead pid r0 st =>
        simp only [hlq, Life.orphan, Life.parent, Option.some.injEq] at hr
        exact ⟨r0, rfl, hr.symm⟩
    obtain ⟨r0, hr0, heq⟩ := hold
    rcases hf.child q r0 hq hr0 with h | ⟨h, h'⟩
    · have hrp : r0 ≠ p := by
        intro e
        subst e
        exact hgone q h
      rw [if_neg hrp] at heq
      exact .inl (heq ▸ h)
    · by_cases hrp : r0 = p
      · rw [if_pos hrp] at heq
        exact .inl (heq ▸ h)
      · rw [if_neg hrp] at heq
        rw [heq, hc.others r0 hrp]
        exact .inr ⟨h, h'⟩
  refine hf.change hc (fun _ => .inr ⟨rfl, hne, hgone⟩) (fun q _ => hf.not_forking hp.ne_used q)
    (fun q hq h => other_lock hl q hq h) trivial nofun ?_ (fun q hq => ?_) hnew (fun r hr => ?_) nofun
  · simp [Lives.next, hlive, Life.die, Life.orphan]
  · have hshow := hf.shows q
    simp only [Lives.next, hq, if_false]
    cases hlq : l q <;> rw [hlq] at hshow <;> exact hshow
  · have hrp : r ≠ p := fun e => hgone p (e ▸ hr)
    rw [update_ne hc.proc hrp]
    exact hf.parent p r hr

theorem Family.zombie_child (hpc0 : s.pc p = .waitScan addr i havekids) (hz : (s.proc q).state = .zombie)
    (hpar : (s.proc q).parent = some p) : l q = .dead (s.proc q).pid p (s.proc q).xstate := by
  have hat0 := hf.at hpc0
  obtain ⟨r, hdead⟩ := (hf.shows q).isDead hz
  have hq : q ≠ initproc := by
    intro e
    subst e
    exact hf.init.ne_zombie hz
  have hr : r = p := by
    rcases hf.child q r hq (by rw [hdead]; rfl) with h | ⟨-, h⟩
    · rw [hpar] at h
      exact (Option.some.inj h).symm
    -- A process that gives its children away has wait_lock.
    · have hatr := hf.stand r
      have hlr : s.waitLock = some r := by
        cases hpcr : s.pc r <;> rw [hpcr] at h hatr <;> first | exact hatr.2.2.1 | exact h.elim
      rw [hat0.2] at hlr
      exact (Option.some.inj hlr).symm
  rw [hdead, hr]

-- wait frees a zombie.
theorem Family.reap (hpc0 : s.pc p = .waitScan addr i havekids) (hz : (s.proc q).state = .zombie)
    (hpar : (s.proc q).parent = some p) (hc : Changes s s' p q freeproc .user) :
    Lawful l (.reaped p q (s.proc q).pid (s.proc q).xstate) ∧
      Family (l.next (.reaped p q (s.proc q).pid (s.proc q).xstate)) s' := by
  obtain ⟨hp, hl⟩ := hf.at hpc0
  refine ⟨hf.zombie_child hpc0 hz hpar, ?_⟩
  refine hf.change hc (fun h => absurd hz h.ne_zombie) (fun r _ => hf.not_forking (by rw [hz]; nofun) r)
    (fun r hr h => other_lock hl r hr h) trivial nofun ?_ (fun r hr => ?_) (fun r r' hr hr' => ?_) nofun fun _ => rfl
  · rw [Lives.next, Function.update_self]
    exact .inl rfl
  · rw [Lives.next, update_of_ne hr]
    exact hf.shows r
  · have hrq : r ≠ q := by
      intro e
      rw [e, Lives.next, Function.update_self] at hr'
      cases hr'
    rw [Lives.next, update_of_ne hrq] at hr'
    rw [update_ne hc.proc hrq]
    refine hf.child_keep hc.others (fun q h => ?_) hr hr'
    rw [hpc0] at h
    exact h.elim

end Steps

section Run

variable {p : Slot}

-- A move shows nothing and changes nobody's life, or shows one lawful event.
def Refines (l : Lives) (r : State × List Event) : Prop :=
  (r.2 = [] ∧ Family l r.1) ∨ ∃ e, r.2 = [e] ∧ Lawful l e ∧ Family (l.next e) r.1

theorem update_pc (hpc : s'.pc = update s.pc p pc) : ∀ q, q ≠ p → s'.pc q = s.pc q := by
  intro q hq
  rw [hpc, update_of_ne hq]

theorem changes (hproc : s'.proc = update s.proc q x) (hpc : s'.pc = update s.pc p pc) :
    Changes s s' p q x pc :=
  ⟨hproc, update_pc hpc, by rw [hpc, Function.update_self]⟩

section

variable (hf : Family l s)

include hf

theorem Family.goto (pc : Pc) (hpass : ∀ q, Passed q (s.pc p) → Passed q pc)
    (hsame : ∀ q, Same (s.proc q) (s'.proc q)) (hlock : ∀ q, q ≠ p → s.waitLock = some q → s'.waitLock = some q)
    (hpc : s'.pc = update s.pc p pc) (hfork : forking pc = none) (hp : At s' p pc) : Family l s' := by
  have hpcp : s'.pc p = pc := by rw [hpc, Function.update_self]
  exact hf.quiet hsame (update_pc hpc) hlock (hpcp ▸ hp) (.inl (hpcp ▸ hfork)) (hpcp ▸ hpass)

theorem forkScan_refines (hpc : s.pc p = .forkScan i) (mem : Bool) :
    Refines l (forkScan s p mem i) := by
  have hp : Alive (s.proc p) := (hf.stand p).alive (by rw [hpc]; nofun)
  have hpass : ∀ q, ¬Passed q (s.pc p) := by
    intro q h
    rw [hpc] at h
    exact h
  have hmove : ∀ (s' : State) (pc : Pc), (∀ q, Same (s.proc q) (s'.proc q)) → s'.waitLock = s.waitLock →
      s'.pc = update s.pc p pc → forking pc = none → At s' p pc → Family l s' := by
    intro s' pc hsame hlock hpc' hfork hat
    exact hf.goto pc (fun q h => absurd h (hpass q)) hsame (fun q _ hl => hlock.trans hl) hpc' hfork hat
  unfold forkScan
  split
  · next hi =>
    dsimp only
    split
    · next hun =>
      cases mem with
      | true =>
        refine .inl ⟨rfl, hf.alloc hp hpass hun ⟨rfl, fun q hq => ?_, ?_⟩ rfl rfl rfl rfl⟩
        · by_cases hqn : q = ⟨i, hi⟩
          · subst hqn
            have hu : s.pc ⟨i, hi⟩ = .user := hf.user_of_not_alive fun h => h.ne_unused hun
            simp [hq, hu]
          · simp [hq, hqn]
        · simp [allocproc]
      | false =>
        have hsame : Same (s.proc ⟨i, hi⟩) freeproc :=
          ⟨by rw [hun]; rfl, (hf.unborn _ hun).symm, fun h => absurd hun h⟩
        exact .inr ⟨_, rfl, trivial, hmove _ .user (same_update hsame) rfl rfl rfl trivial⟩
    · exact .inl ⟨rfl, hmove _ (.forkScan (i + 1)) (fun _ => .refl _) rfl rfl rfl hp⟩
  · exact .inr ⟨_, rfl, trivial, hmove _ .user (fun _ => .refl _) rfl rfl rfl trivial⟩

theorem exitReparent_refines
    (hpc : s.pc p = .exitReparent status i) : Refines l (exitReparent s p status i) := by
  obtain ⟨hp, hne, hl, hgone⟩ := hf.at hpc
  unfold exitReparent
  split
  · next hi =>
    dsimp only
    split
    · next hchild =>
      -- The child is passed first, and then initproc is woken.
      have hmid : Family l ((s.setProc ⟨i, hi⟩ { s.proc ⟨i, hi⟩ with parent := some initproc }).goto p
          (.exitReparent status (i + 1))) :=
        hf.pass hpc rfl hchild (changes rfl rfl) rfl
      refine .inl ⟨rfl, hmid.quiet (p := p) (same_wakeup _ _ _) (fun _ _ => rfl) (fun _ _ => id) ?_
        (.inr rfl) fun _ => id⟩
      have hat' := hmid.stand p
      refine hat'.keep ⟨(same_wakeup _ _ _ _).alive.mpr, ?_, fun h => ⟨h, fun r hr => ?_⟩⟩
      · intro np hnp
        simp [forking] at hnp
      · exact (same_wakeup _ _ _ r).parent ▸ hr
    · next hchild =>
      refine .inl ⟨rfl, hf.goto (p := p) (.exitReparent status (i + 1)) ?_ (fun _ => .refl _)
        (fun _ _ => id) rfl rfl ⟨hp, hne, hl, fun q hq => ?_⟩⟩
      · intro q h
        rw [hpc] at h
        exact Nat.lt_succ_of_lt h
      · rcases Nat.lt_succ_iff_lt_or_eq.mp hq with hlt | heq
        · exact hgone q hlt
        · have hqi : q = ⟨i, hi⟩ := Fin.ext heq
          exact hqi ▸ hchild
  · next hi =>
    refine .inl ⟨rfl, hf.goto (p := p) (.exitWake status) (fun _ _ => trivial) (fun _ => .refl _)
      (fun _ _ => id) rfl rfl ⟨hp, hne, hl, fun q => hgone q ?_⟩⟩
    have hlt := q.isLt
    omega

theorem waitScan_refines
    (hpc : s.pc p = .waitScan addr i havekids) : Refines l (waitScan s p addr i havekids) := by
  obtain ⟨hp, hl⟩ := hf.at hpc
  have hpass : ∀ pc q, Passed q (s.pc p) → Passed q pc := by
    intro pc q h
    rw [hpc] at h
    exact h.elim
  have hown : ∀ x q, q ≠ p → s.waitLock = some q → x = some q := by
    intro x q hq h
    rw [hl] at h
    exact absurd (Option.some.inj h).symm hq
  unfold waitScan
  split
  · next hi =>
    dsimp only
    split
    · next hchild =>
      split
      · next hz =>
        split
        · refine .inr ⟨_, rfl, ⟨_, _, hf.zombie_child hpc hz hchild⟩, hf.goto (p := p) .user
            (hpass _) (fun _ => .refl _) (hown _) rfl rfl trivial⟩
        · exact .inr ⟨_, rfl, hf.reap hpc hz hchild (changes rfl rfl)⟩
      · exact .inl ⟨rfl, hf.goto (p := p) (.waitScan addr (i + 1) true) (hpass _) (fun _ => .refl _)
          (fun _ _ => id) rfl rfl ⟨hp, hl⟩⟩
    · exact .inl ⟨rfl, hf.goto (p := p) (.waitScan addr (i + 1) havekids) (hpass _) (fun _ => .refl _)
        (fun _ _ => id) rfl rfl ⟨hp, hl⟩⟩
  · split
    · exact .inr ⟨_, rfl, trivial, hf.goto (p := p) .user (hpass _) (fun _ => .refl _) (hown _) rfl rfl
        trivial⟩
    · have hsame : Same (s.proc p) { s.proc p with chan := some p, state := .sleeping } :=
        same_of_alive hp rfl rfl rfl rfl
      refine .inl ⟨rfl, hf.goto (p := p) (.waitSleep addr) (hpass _) (same_update hsame) (hown _) rfl rfl ?_⟩
      simp [At, Alive]

theorem killScan_refines {pid : Pid} (hpc : s.pc p = .killScan pid i) :
    Refines l (killScan s p pid i) := by
  have hp : Alive (s.proc p) := (hf.stand p).alive (by rw [hpc]; nofun)
  have hpass : ∀ pc q, Passed q (s.pc p) → Passed q pc := by
    intro pc q h
    rw [hpc] at h
    exact h.elim
  unfold killScan
  split
  · dsimp only
    split
    · exact .inr ⟨_, rfl, trivial, hf.goto (p := p) .user (hpass _) (same_update (same_setKilled _))
        (fun _ _ => id) rfl rfl trivial⟩
    · exact .inl ⟨rfl, hf.goto (p := p) (.killScan pid (i + 1)) (hpass _) (fun _ => .refl _)
        (fun _ _ => id) rfl rfl hp⟩
  · exact .inr ⟨_, rfl, trivial, hf.goto (p := p) .user (hpass _) (fun _ => .refl _) (fun _ _ => id) rfl rfl
      trivial⟩

variable {r : State × List Event}

theorem acquire_refines (hm : acquire s p pc = some r) (hpass : ∀ q, ¬Passed q (s.pc p))
    (hfork : forking pc = none) (hp : At ((s.setLock (some p)).goto p pc) p pc) : Refines l r := by
  unfold acquire at hm
  cases hl : s.waitLock with
  | some q => simp [hl] at hm
  | none =>
    rw [hl] at hm
    cases hm
    exact .inl ⟨rfl, hf.goto pc (fun q h => absurd h (hpass q)) (fun _ => .refl _) (by simp [hl]) rfl hfork hp⟩

theorem step_refines {mem : Bool} (hm : stepOf s p mem = some r) : Refines l r := by
  unfold stepOf at hm
  generalize hpc : s.pc p = pc at hm
  cases pc with
  | user => cases hm
  | forkScan i =>
    cases hm
    exact forkScan_refines hf hpc mem
  | exitReparent status i =>
    cases hm
    exact exitReparent_refines hf hpc
  | waitScan addr i havekids =>
    cases hm
    exact waitScan_refines hf hpc
  | killScan pid i =>
    cases hm
    exact killScan_refines hf hpc
  | forkParent np pid =>
    cases hl : s.waitLock with
    | some q => simp [hl] at hm
    | none =>
      rw [hl] at hm
      cases hm
      exact .inl ⟨rfl, hf.adopt hpc hl (changes rfl rfl)⟩
  | forkRun np pid =>
    cases hm
    exact .inr ⟨_, rfl, hf.born hpc (changes rfl rfl) rfl⟩
  | exitAcquire status =>
    have hat := hf.at hpc
    refine acquire_refines hf hm (by simp [hpc, Passed]) rfl ⟨hat.1, hat.2, rfl, fun q hq => ?_⟩
    omega
  | exitWake status =>
    cases hm
    refine .inl ⟨rfl, hf.goto (p := p) (.exitZombie status) (fun _ _ => trivial) (same_wakeup _ _ _)
      (fun _ _ => id) rfl rfl ?_⟩
    obtain ⟨hp, hne, hl, hgone⟩ := hf.at hpc
    exact ⟨(same_wakeup _ _ _ _).alive.mpr hp, hne, hl, fun q hq => hgone q ((same_wakeup _ _ _ q).parent ▸ hq)⟩
  | exitZombie status =>
    cases hm
    exact .inr ⟨_, rfl, hf.die hpc (changes rfl rfl)⟩
  | waitAcquire addr =>
    have hat := hf.at hpc
    exact acquire_refines hf hm (by simp [hpc, Passed]) rfl ⟨hat, rfl⟩
  | waitSleep addr =>
    cases hm
    have hp : Alive (s.proc p) := hf.at hpc
    have hsame : Same (s.proc p) { s.proc p with chan := none } := same_of_alive hp hp rfl rfl rfl
    refine .inl ⟨rfl, hf.goto (p := p) (.waitAcquire addr) (by simp [hpc, Passed]) (same_update hsame)
      (fun _ _ => id) rfl rfl ?_⟩
    exact (same_update hsame p).alive.mpr hp

theorem call_refines {c : Call} (hm : table (.call p c) s = some r) : Refines l r := by
  simp only [table] at hm
  split at hm
  · next hrun =>
    obtain ⟨hrun, hu⟩ := hrun
    have hp : Alive (s.proc p) := alive_of_running hrun
    have hgo : forking (start c) = none → At (s.goto p (start c)) p (start c) →
        Refines l (s.goto p (start c), []) := fun hfork hat =>
      .inl ⟨rfl, hf.goto _ (by simp [hu, Passed]) (fun _ => .refl _) (fun _ _ => id) rfl hfork hat⟩
    cases c with
    | exit status =>
      simp only at hm
      split at hm
      · cases hm
      · next hne =>
        cases hm
        exact hgo rfl ⟨hp, hne⟩
    | fork | wait addr | kill pid => cases hm; exact hgo rfl hp
  · cases hm

theorem schedule_refines {x : Proc} (hx : Alive x) (hp : Alive (s.proc p))
    (hsame : x.parent = (s.proc p).parent ∧ x.pid = (s.proc p).pid ∧ x.xstate = (s.proc p).xstate) :
    Refines l (s.setProc p x, []) := by
  have hall : ∀ q, Same (s.proc q) ((s.setProc p x).proc q) :=
    same_update (same_of_alive hp hx hsame.1 hsame.2.1 hsame.2.2)
  refine .inl ⟨rfl, hf.quiet (p := p) hall (fun _ _ => rfl) (fun _ _ => id) ?_ (.inr rfl) fun _ => id⟩
  refine (hf.stand p).keep ⟨(hall p).alive.mpr, fun np hnp => ?_, fun h => ⟨h, fun r hr => (hall r).parent ▸ hr⟩⟩
  have hused := (hf.stand p).used hnp
  exact ⟨(hall np).used.mpr hused, ((hall np).named (by rw [hused]; decide)).1, (hall np).parent⟩

theorem table_refines {m : Move} (hm : table m s = some r) : Refines l r := by
  cases m with
  | call p c => exact call_refines hf hm
  | step p mem =>
    simp only [table] at hm
    split at hm
    · exact step_refines hf hm
    · cases hm
  | dispatch p =>
    simp only [table] at hm
    split at hm
    · next h =>
      cases hm
      exact schedule_refines hf rfl (by rw [Alive, h]; rfl) ⟨rfl, rfl, rfl⟩
    · cases hm
  | yield p =>
    simp only [table] at hm
    split at hm
    · next h =>
      cases hm
      exact schedule_refines hf rfl (alive_of_running h.1) ⟨rfl, rfl, rfl⟩
    · cases hm

end

theorem family_boot : Family (lives []) boot := by
  have hstate : ∀ q, q ≠ initproc → boot.proc q = freeproc := fun q hq => if_neg hq
  have hpar : ∀ q, (boot.proc q).parent = none := by
    intro q
    by_cases hq : q = initproc
    · rw [hq]
      rfl
    · rw [hstate q hq]
      rfl
  refine ⟨fun q => ?_, fun _ => trivial, (fun _ _ _ h => nomatch h), fun q r hq hr => ?_, fun q r hr => ?_,
    fun q _ => hpar q, rfl⟩
  · by_cases hq : q = initproc
    · rw [hq]
      exact ⟨rfl, rfl⟩
    · rw [hstate q hq]
      simp [lives, Lives.init, hq, freeproc]
  · simp [lives, Lives.init, hq, Life.parent] at hr
  · rw [hpar] at hr
    cases hr

theorem lives_snoc (es : List Event) (e : Event) : lives (es ++ [e]) = (lives es).next e := by simp [lives]

end Run

-- The moves of a call that nobody delays.
def wholeCall (p : Slot) (c : Call) (n : Nat) : List Move := .call p c :: List.replicate n (.step p true)

end Table
