import Xv6.Sched

-- What a context knows while it works on the process table.

namespace Sched

open Prog

-- How far a scheduler has got with a process: it has made it RUNNING, has set
-- c->proc, has switched to it.
inductive Phase where
  | free
  | chosen (p : Slot)
  | loaded (p : Slot)
  | loaned (p : Slot)

-- How far a process has got in sleep. `set` says whether p->chan is set.
inductive Stage where
  | awake
  | called (chan : Chan) (lk : Lock)
  | released (chan : Chan) (lk : Lock) (set : Bool)
  | asleep (chan : Chan) (lk : Lock)
  | back (chan : Chan) (lk : Lock)

namespace Stage

-- The stages in which the process can be switched out, or interrupted.
def Calm : Stage → Prop
  | awake => True
  | asleep _ _ => True
  | _ => False

def Ready : Stage → Prop
  | released _ _ set => set = true
  | x => x.Calm

def switched : Stage → Stage
  | released chan lk _ => asleep chan lk
  | x => x

end Stage

-- `has` is the process whose lock the context holds, `dirty`: a process has given up its state
-- RUNNING, `child`: fork's child, `seen`: the state read under the lock, `waking`: those that
-- wakeup has looked at.
structure Th where
  has : Option Slot
  dirty : Bool
  phase : Phase
  child : Option Slot
  seen : Option ProcState
  stage : Stage
  waking : Option (Chan × List Slot)

namespace Th

def idle : Th := ⟨none, false, .free, none, none, .awake, none⟩

def locks (x : Th) (p : Slot) : Th := { x with has := some p }

def unlocks (x : Th) : Th := { x with has := none, seen := none }

def sees (x : Th) (state : ProcState) : Th := { x with seen := some state }

def blinks (x : Th) : Th := { x with seen := none }

def soils (x : Th) : Th := { x with dirty := true, seen := none }

def enters (x : Th) (phase : Phase) : Th := { x with phase := phase, seen := none }

def bears (x : Th) (child : Option Slot) : Th := { x with child := child, seen := none }

def reaches (x : Th) (stage : Stage) : Th := { x with stage := stage }

def wakes (x : Th) (waking : Option (Chan × List Slot)) : Th := { x with waking := waking, seen := none }

def switches (x : Th) : Th := { x with dirty := false, seen := none, stage := x.stage.switched }

structure Open (x : Th) : Prop where
  has : x.has = none
  clean : x.dirty = false
  phase : x.phase = .free
  seen : x.seen = none
  calm : x.stage.Calm

end Th

variable {κ : Type}

namespace Ctx

def me : Ctx κ → Option Slot
  | .sched _ => none
  | .proc p => some p

-- What is known of a context that has been set up and has not run.
def fresh : Ctx κ → Th
  | .sched _ => Th.idle
  | .proc p => Th.idle.locks p

end Ctx

def Lock.Plain (lk : Lock) : Prop := ∀ p, lk ≠ .proc p

inductive Rule : Ctx κ → Rules sig Th
  | acquire {t : Ctx κ} {x : Th} {lk : Lock} (hl : lk.Plain) (hp : x.phase = .free) (hw : x.waking = none)
    (hs : x.stage.Calm) :
    Rule t (.acquire lk) x fun _ x' => x' = x
  | release {t : Ctx κ} {x : Th} {lk : Lock} (hl : lk.Plain) (hp : x.phase = .free) (hw : x.waking = none)
    (hs : x.stage.Calm) :
    Rule t (.release lk) x fun _ x' => x' = x
  | lock {t : Ctx κ} {x : Th} (p : Slot) (hx : x.has = none) (hc : x.dirty = false) (hp : x.phase = .free)
    (hs : x.seen = none) : Rule t (.acquire (.proc p)) x fun _ x' => x' = x.locks p
  | unlock {t : Ctx κ} {x : Th} {p : Slot} (hx : x.has = some p) (hc : x.dirty = false) (hp : x.phase = .free)
    (hs : x.stage.Calm) : Rule t (.release (.proc p)) x fun _ x' => x' = x.unlocks
  | myproc {t : Ctx κ} {x : Th} (hp : x.phase = .free) : Rule t .myproc x fun (r : Option Slot) x' => r = t.me ∧ x' = x
  -- wakeup passes over its caller
  | pass {t : Ctx κ} {x : Th} {p : Slot} {chan : Chan} {ps : List Slot} (hp : x.phase = .free)
    (hw : x.waking = some (chan, ps)) (hx : x.has = none) (ht : t.me = some p) (hc : x.dirty = false) :
    Rule t .myproc x fun (r : Option Slot) x' => r = t.me ∧ x' = x.wakes (some (chan, p :: ps))
  | state {t : Ctx κ} {x : Th} {p : Slot} (hx : x.has = some p) (hc : x.dirty = false) (hp : x.phase = .free) :
    Rule t (.state p) x fun (r : ProcState) x' => x' = x.sees r
  | choose {c : κ} {x : Th} {p : Slot} (hx : x.has = some p) (hs : x.seen = some .runnable) (hp : x.phase = .free)
    (hw : x.waking = none) : Rule (.sched c) (.setState p .running) x fun _ x' => x' = x.enters (.chosen p)
  | alloc {t : Ctx κ} {x : Th} {p : Slot} (hx : x.has = some p) (hs : x.seen = some .unused) (hc : x.dirty = false)
    (hp : x.phase = .free) (hch : x.child = none) :
    Rule t (.setState p .used) x fun _ x' => x' = x.bears (some p)
  | ready {t : Ctx κ} {x : Th} {p : Slot} (hx : x.has = some p) (hc : x.dirty = false) (hp : x.phase = .free)
    (hch : x.child = some p) : Rule t (.setState p .runnable) x fun _ x' => x' = x.bears none
  | yields {p : Slot} {x : Th} (hx : x.has = some p) (hc : x.dirty = false) (hp : x.phase = .free)
    (hs : x.stage.Calm) : Rule (.proc p) (.setState p .runnable) x fun _ x' => x' = x.soils
  | sleeps {p : Slot} {x : Th} {chan : Chan} {lk : Lock} (hx : x.has = some p) (hc : x.dirty = false)
    (hp : x.phase = .free) (hs : x.stage = .released chan lk true) :
    Rule (.proc p) (.setState p .sleeping) x fun _ x' => x' = x.soils
  | dies {p : Slot} {x : Th} (hx : x.has = some p) (hc : x.dirty = false) (hp : x.phase = .free)
    (hs : x.stage = .awake) : Rule (.proc p) (.setState p .zombie) x fun _ x' => x' = x.soils
  | rouse {t : Ctx κ} {x : Th} {p : Slot} {chan : Chan} {ps : List Slot} (hx : x.has = some p) (hc : x.dirty = false)
    (hp : x.phase = .free) (hw : x.waking = some (chan, ps)) :
    Rule t (.rouse p chan) x fun _ x' => x' = x.wakes (some (chan, p :: ps))
  | strike {t : Ctx κ} {x : Th} {p : Slot} (pid : Pid) (hx : x.has = some p) (hc : x.dirty = false)
    (hp : x.phase = .free) : Rule t (.strike p pid) x fun _ x' => x' = x.blinks
  | reap {t : Ctx κ} {x : Th} {p : Slot} (hx : x.has = some p) (hc : x.dirty = false) (hp : x.phase = .free)
    (hs : x.seen = some .zombie) : Rule t (.freeproc p) x fun _ x' => x' = x.blinks
  | undo {t : Ctx κ} {x : Th} {p : Slot} (hx : x.has = some p) (hc : x.dirty = false) (hp : x.phase = .free)
    (hch : x.child = some p) : Rule t (.freeproc p) x fun _ x' => x' = x.bears none
  | context {t : Ctx κ} {x : Th} {p : Slot} (hx : x.has = some p) (hc : x.dirty = false) (hp : x.phase = .free)
    (hch : x.child = some p) : Rule t (.context p) x fun _ x' => x' = x
  | setChan {p : Slot} {x : Th} {chan : Chan} {lk : Lock} (hx : x.has = some p) (hc : x.dirty = false)
    (hp : x.phase = .free) (hs : x.stage = .released chan lk false) :
    Rule (.proc p) (.setChan p chan) x fun _ x' => x' = x.reaches (.released chan lk true)
  | tidy {p : Slot} {x : Th} (chan : Chan) (hx : x.has = some p) (hc : x.dirty = false) (hp : x.phase = .free)
    (hs : x.stage.Calm) :
    Rule (.proc p) (.setChan p chan) x fun _ x' => x' = x
  | load {c : κ} {x : Th} {p : Slot} (hp : x.phase = .chosen p) :
    Rule (.sched c) (.setProc (some p)) x fun _ x' => x' = x.enters (.loaded p)
  | clear {c : κ} {x : Th} {p : Slot} (hp : x.phase = .loaned p) :
    Rule (.sched c) (.setProc none) x fun _ x' => x' = (x.enters .free).locks p
  | swtch {c : κ} {x : Th} {p : Slot} (hp : x.phase = .loaded p) :
    Rule (.sched c) (.swtch p) x fun _ x' => x' = (x.enters (.loaned p)).unlocks
  | sched {p : Slot} {x : Th} (hx : x.has = some p) (hc : x.dirty = true) (hp : x.phase = .free)
    (hw : x.waking = none) (hs : x.stage.Ready) :
    Rule (.proc p) (.sched p) x fun _ x' => x' = x.switches
  | call {p : Slot} {x : Th} (hx : x.Open) (hw : x.waking = none) (hs : x.stage = .awake) (chan : Chan) (lk : Lock)
    (hl : lk.Plain) : Rule (.proc p) (.enter (.sleep chan lk)) x fun _ x' => x' = x.reaches (.called chan lk)
  | drop {p : Slot} {x : Th} {chan : Chan} {lk : Lock} (hx : x.has = some p) (hc : x.dirty = false)
    (hp : x.phase = .free) (hs : x.stage = .called chan lk) (hl : lk.Plain) (hw : x.waking = none) :
    Rule (.proc p) (.release lk) x fun _ x' => x' = x.reaches (.released chan lk false)
  | retake {p : Slot} {x : Th} {chan : Chan} {lk : Lock} (hx : x.has = none) (hp : x.phase = .free)
    (hs : x.stage = .asleep chan lk) (hl : lk.Plain) (hw : x.waking = none) :
    Rule (.proc p) (.acquire lk) x fun _ x' => x' = x.reaches (.back chan lk)
  | returns {p : Slot} {x : Th} {chan : Chan} {lk : Lock} (hx : x.has = none) (hp : x.phase = .free)
    (hs : x.stage = .back chan lk) :
    Rule (.proc p) (.leave (.sleep chan lk)) x fun _ x' => x' = x.reaches .awake
  | enter {t : Ctx κ} {x : Th} (hx : x.Open) (hw : x.waking = none) (chan : Chan) :
    Rule t (.enter (.wakeup chan)) x fun _ x' => x' = x.wakes (some (chan, []))
  | leave {t : Ctx κ} {x : Th} {chan : Chan} {ps : List Slot} (hx : x.has = none) (hp : x.phase = .free)
    (hw : x.waking = some (chan, ps)) (hall : ∀ p, p ∈ ps) : Rule t (.leave (.wakeup chan)) x fun _ x' => x' = x.wakes none
  | nextpid (t : Ctx κ) {x : Th} (hp : x.phase = .free) : Rule t .nextpid x fun _ x' => x' = x
  | setPid (t : Ctx κ) (p : Slot) (pid : Pid) {x : Th} (hp : x.phase = .free) :
    Rule t (.setPid p pid) x fun _ x' => x' = x
  | killed (t : Ctx κ) (p : Slot) {x : Th} (hp : x.phase = .free) : Rule t (.killed p) x fun _ x' => x' = x
  | parent (t : Ctx κ) (p : Slot) {x : Th} (hp : x.phase = .free) : Rule t (.parent p) x fun _ x' => x' = x
  | setParent (t : Ctx κ) (p : Slot) (q : Option Slot) {x : Th} (hp : x.phase = .free) :
    Rule t (.setParent p q) x fun _ x' => x' = x
  | setXstate (t : Ctx κ) (p : Slot) (status : Int) {x : Th} (hp : x.phase = .free) :
    Rule t (.setXstate p status) x fun _ x' => x' = x
  | never (t : Ctx κ) (x : Th) : Rule t .never x fun _ _ => False

namespace Th

variable {x : Th}

theorem Open.wakes (h : x.Open) (w : Option (Chan × List Slot)) : (x.wakes w).Open := ⟨h.has, h.clean, h.phase, rfl, h.calm⟩

theorem Open.bears (h : x.Open) (child : Option Slot) : (x.bears child).Open := ⟨h.has, h.clean, h.phase, rfl, h.calm⟩

theorem Open.unlocks (h : x.Open) (p : Slot) : (x.locks p).unlocks = x := by
  unfold locks Th.unlocks
  rw [← h.has, ← h.seen]

theorem Open.unlocks_sees (h : x.Open) (p : Slot) (state : ProcState) : ((x.locks p).sees state).unlocks = x := by
  unfold locks sees Th.unlocks
  rw [← h.has, ← h.seen]

theorem idle_open : idle.Open := ⟨rfl, rfl, rfl, rfl, trivial⟩

end Th

section Specs

variable {t : Ctx κ} {x : Th} {p : Slot}

-- The programs keep to the rules, whatever they panic with.
abbrev Keeps (t : Ctx κ) {α : Type} (m : Kern α) (Q : α → Th → Prop) (x : Th) : Prop :=
  awp (Rule t) (fun _ => True) m Q x

theorem act_spec {a : Act} {W : sig.Res a → Th → Prop} (h : Rule t a x W) : Keeps t (act a) W x := awp_lift h

theorem act_to {a : Act} {β : Type} {k : sig.Res a → Kern β} {Q : β → Th → Prop} {y : sig.Res a → Th}
    (h : Rule t a x fun r x' => x' = y r) (hk : ∀ r, Keeps t (k r) Q (y r)) : Keeps t (act a >>= k) Q x :=
  awp_to (act_spec h) hk

theorem myproc_to {β : Type} {k : Option Slot → Kern β} {Q : β → Th → Prop} (h : x.phase = .free) (hk : Keeps t (k t.me) Q x) :
    Keeps t (act .myproc >>= k) Q x := by
  refine awp_seq (act_spec (.myproc h)) fun (r : Option Slot) x1 hx1 => ?_
  obtain ⟨rfl, rfl⟩ := hx1
  exact hk

namespace Th.Open

variable (h : x.Open)

include h

theorem lock (p : Slot) : Rule t (.acquire (.proc p)) x fun _ x' => x' = x.locks p :=
  .lock p h.has h.clean h.phase h.seen

theorem unlock (p : Slot) : Rule t (.release (.proc p)) (x.locks p) fun _ x' => x' = x := by
  have hrule := Rule.unlock (t := t) (x := x.locks p) rfl h.clean h.phase h.calm
  rwa [h.unlocks] at hrule

theorem unlock_seen (p : Slot) (state : ProcState) :
    Rule t (.release (.proc p)) ((x.locks p).sees state) fun _ x' => x' = x := by
  have hrule := Rule.unlock (t := t) (x := (x.locks p).sees state) rfl h.clean h.phase h.calm
  rwa [h.unlocks_sees] at hrule

theorem state (p : Slot) : Rule t (.state p) (x.locks p) fun (r : ProcState) x' => x' = (x.locks p).sees r :=
  .state rfl h.clean h.phase

theorem acquire (hw : x.waking = none) {lk : Lock} (hl : lk.Plain) : Rule t (.acquire lk) x fun _ x' => x' = x :=
  .acquire hl h.phase hw h.calm

theorem release (hw : x.waking = none) {lk : Lock} (hl : lk.Plain) : Rule t (.release lk) x fun _ x' => x' = x :=
  .release hl h.phase hw h.calm

theorem blinks (p : Slot) : (x.locks p).blinks = x.locks p := by
  unfold Th.blinks locks
  rw [← h.seen]

end Th.Open

theorem wakeups_spec {chan : Chan} {ps done : List Slot} (h : x.Open) :
    Keeps t (wakeups chan ps) (fun _ x' => x' = x.wakes (some (chan, ps.reverse ++ done)))
      (x.wakes (some (chan, done))) := by
  induction ps generalizing done with
  | nil => rfl
  | cons p ps ih =>
    have ho := h.wakes (some (chan, done))
    have hnext : Keeps t (wakeups chan ps) (fun _ x' => x' = x.wakes (some (chan, (p :: ps).reverse ++ done)))
        (x.wakes (some (chan, p :: done))) := by
      rw [List.reverse_cons, List.append_assoc]
      exact ih
    by_cases hme : t.me = some p
    · refine awp_seq (act_spec (.pass ho.phase rfl ho.has hme ho.clean)) fun (r : Option Slot) x1 hx1 => ?_
      obtain ⟨rfl, rfl⟩ := hx1
      exact awp_ite (fun _ => hnext) fun hn => absurd hme hn
    · refine myproc_to ho.phase (awp_ite (fun hn => absurd hn hme) fun _ => ?_)
      refine act_to (ho.lock p) fun _ => act_to (.rouse rfl ho.clean ho.phase rfl) fun _ => ?_
      exact act_to ((h.wakes _).unlock p) fun _ => hnext

theorem wakeup_spec (h : x.Open) (hw : x.waking = none) (chan : Chan) :
    Keeps t (wakeup chan) (fun _ x' => x' = x) x := by
  refine act_to (.enter h hw chan) fun _ => awp_to (wakeups_spec h) fun _ => ?_
  refine awp_mono (act_spec (.leave h.has h.phase rfl fun p => ?_)) fun _ x3 hx3 => ?_
  · simp
  · rw [hx3]
    unfold Th.wakes
    rw [← h.seen, ← hw]

theorem sched_spec (hx : x.has = some p) (hp : x.phase = .free) (hc : x.dirty = true) (hw : x.waking = none)
    (hs : x.stage.Ready) : Keeps (.proc p : Ctx κ) sched (fun _ x' => x' = x.switches) x :=
  myproc_to hp (act_spec (.sched hx hc hp hw hs))

theorem Stage.Calm.ready {stage : Stage} (h : stage.Calm) : stage.Ready := by
  cases stage <;> first | exact h | cases h

theorem calm_switched {stage : Stage} (h : stage.Calm) : stage.switched = stage := by
  cases stage <;> first | rfl | cases h

theorem yield_spec (h : x.Open) (hw : x.waking = none) : Keeps t yield (fun _ x' => x' = x) x := by
  refine myproc_to h.phase ?_
  cases t with
  | sched c => trivial
  | proc p =>
    have hback : (x.locks p).soils.switches = x.locks p := by
      unfold Th.switches Th.soils Th.locks
      dsimp only
      rw [calm_switched h.calm, ← h.clean, ← h.seen]
    refine act_to (h.lock p) fun _ => act_to (.yields rfl h.clean h.phase h.calm) fun _ => ?_
    refine awp_to (sched_spec rfl h.phase rfl hw h.calm.ready) fun _ => ?_
    rw [hback]
    exact act_spec (h.unlock p)

theorem sleep_spec (h : x.Open) (hw : x.waking = none) (hs : x.stage = .awake) (chan : Chan) {lk : Lock}
    (hl : lk.Plain) : Keeps (.proc p : Ctx κ) (sleep chan lk) (fun _ x' => x' = x) x := by
  refine act_to (.call h hw hs chan lk hl) fun _ => myproc_to h.phase ?_
  refine act_to (.lock p h.has h.clean h.phase h.seen) fun _ => act_to (.drop rfl h.clean h.phase rfl hl hw) fun _ => ?_
  refine act_to (.setChan rfl h.clean h.phase rfl) fun _ => act_to (.sleeps rfl h.clean h.phase rfl) fun _ => ?_
  refine awp_seq (sched_spec rfl h.phase rfl hw rfl) fun _ x1 hx1 => ?_
  have hx1 : x1 = (x.reaches (.asleep chan lk)).locks p := by
    rw [hx1]
    unfold Th.switches Th.soils Th.locks Th.reaches
    rw [← h.clean, ← h.seen]
    rfl
  subst hx1
  have ho : (x.reaches (.asleep chan lk)).Open := ⟨h.has, h.clean, h.phase, h.seen, trivial⟩
  refine act_to (.tidy .null rfl h.clean h.phase trivial) fun _ => act_to (ho.unlock p) fun _ => ?_
  refine act_to (.retake h.has h.phase rfl hl hw) fun _ => ?_
  refine awp_mono (act_spec (.returns h.has h.phase rfl)) fun _ x2 hx2 => ?_
  rw [hx2]
  unfold Th.reaches
  rw [← hs]

theorem kills_spec (h : x.Open) (pid : Pid) (ps : List Slot) : Keeps t (kills pid ps) (fun _ x' => x' = x) x := by
  induction ps with
  | nil => rfl
  | cons p ps ih =>
    refine act_to (h.lock p) fun _ => act_to (.strike pid rfl h.clean h.phase) fun (found : Bool) => ?_
    rw [h.blinks]
    exact act_to (h.unlock p) fun _ => awp_ite (fun _ => rfl) fun _ => ih

theorem killed_spec (h : x.Open) (p : Slot) : Keeps t (killed p) (fun _ x' => x' = x) x :=
  act_to (h.lock p) fun _ => act_to (.killed t p h.phase) fun _ => act_to (h.unlock p) fun _ => rfl

def Alloc (x : Th) : Option Slot → Th → Prop
  | none, x' => x' = x
  | some p, x' => x' = (x.bears (some p)).locks p

theorem Th.Open.undone (h : x.Open) (hch : x.child = none) (p : Slot) :
    (((x.bears (some p)).locks p).bears none) = x.locks p := by
  unfold Th.bears Th.locks
  rw [← hch, ← h.seen]

section

variable (h : x.Open) (hw : x.waking = none)

include h hw

theorem allocprocs_spec (hch : x.child = none) (memory : Bool) (ps : List Slot) :
    Keeps t (allocprocs memory ps) (Alloc x) x := by
  induction ps with
  | nil => rfl
  | cons p ps ih =>
    refine act_to (h.lock p) fun _ => act_to (h.state p) fun (state : ProcState) => awp_ite (fun hst => ?_) fun _ => ?_
    · subst hst
      refine act_to (.acquire nofun h.phase hw h.calm) fun _ => act_to (.nextpid t h.phase) fun (pid : Pid) => ?_
      refine act_to (.release nofun h.phase hw h.calm) fun _ => act_to (.setPid t p pid h.phase) fun _ => ?_
      refine act_to (y := fun _ => (x.bears (some p)).locks p) (.alloc rfl rfl h.clean h.phase hch) fun _ => awp_ite (fun _ => ?_) fun _ => ?_
      · exact act_to (.context rfl h.clean h.phase rfl) fun _ => rfl
      · refine act_to (.undo rfl h.clean h.phase rfl) fun _ => ?_
        rw [h.undone hch]
        exact act_to (h.unlock p) fun _ => rfl
    · exact act_to (h.unlock_seen p state) fun _ => ih

theorem fork_spec (hch : x.child = none) (memory copied : Bool) :
    Keeps t (fork memory copied) (fun _ x' => x' = x) x := by
  refine myproc_to h.phase (awp_seq (allocprocs_spec h hw hch memory _) fun np x1 hx1 => ?_)
  cases np with
  | none => exact hx1
  | some np =>
    have hx1 : x1 = (x.bears (some np)).locks np := hx1
    subst hx1
    have ho := h.bears (some np)
    refine awp_ite (fun _ => ?_) fun _ => ?_
    · refine act_to (ho.unlock np) fun _ => act_to (ho.acquire hw nofun) fun _ => ?_
      refine act_to (.setParent t np _ h.phase) fun _ => act_to (ho.release hw nofun) fun _ => ?_
      refine act_to (ho.lock np) fun _ => act_to (.ready rfl h.clean h.phase rfl) fun _ => ?_
      rw [h.undone hch]
      exact act_spec (h.unlock np)
    · refine act_to (.undo rfl h.clean h.phase rfl) fun _ => ?_
      rw [h.undone hch]
      exact act_spec (h.unlock np)

theorem reparent_spec (p : Slot) (ps : List Slot) :
    Keeps t (reparent p ps) (fun _ x' => x' = x) x := by
  induction ps with
  | nil => rfl
  | cons pp ps ih =>
    refine act_to (.parent t pp h.phase) fun (parent : Option Slot) => awp_ite (fun _ => ?_) fun _ => ih
    exact act_to (.setParent t pp (some initproc) h.phase) fun _ => awp_to (wakeup_spec h hw _) fun _ => ih

theorem exit_spec (hs : x.stage = .awake) (status : Int) :
    Keeps t (exit status) (fun _ x' => x' = x) x := by
  refine myproc_to h.phase ?_
  cases t with
  | sched c => trivial
  | proc p =>
    refine awp_ite (fun _ => trivial) fun _ => act_to (h.acquire hw nofun) fun _ => ?_
    refine awp_to (reparent_spec h hw p _) fun _ => act_to (.parent _ p h.phase) fun (parent : Option Slot) => ?_
    refine awp_to (wakeup_spec h hw _) fun _ => act_to (h.lock p) fun _ => act_to (.setXstate _ p status h.phase) fun _ => ?_
    refine act_to (.dies rfl h.clean h.phase hs) fun _ => act_to (.release nofun h.phase hw h.calm) fun _ => ?_
    exact awp_seq (sched_spec rfl h.phase rfl hw h.calm.ready) fun _ _ _ => trivial

theorem waits_spec (p : Slot) (copied : Bool) (ps : List Slot) (havekids : Bool) :
    Keeps t (waits p copied ps havekids) (fun _ x' => x' = x) x := by
  induction ps generalizing havekids with
  | nil => rfl
  | cons pp ps ih =>
    refine act_to (.parent t pp h.phase) fun (parent : Option Slot) => awp_ite (fun _ => ?_) fun _ => ih havekids
    refine act_to (h.lock pp) fun _ => act_to (h.state pp) fun (state : ProcState) => awp_ite (fun hst => ?_) fun _ => ?_
    · subst hst
      refine awp_ite (fun _ => ?_) fun _ => ?_
      · refine act_to (y := fun _ => (x.locks pp).blinks) (.reap rfl h.clean h.phase rfl) fun _ => ?_
        rw [h.blinks]
        exact act_to (h.unlock pp) fun _ => act_to (h.release hw nofun) fun _ => rfl
      · exact act_to (h.unlock_seen pp _) fun _ => act_to (h.release hw nofun) fun _ => rfl
    · exact act_to (h.unlock_seen pp state) fun _ => ih true

theorem waitLoop_spec (hs : x.stage = .awake) (copied : Bool) (rounds : Nat) :
    Keeps (.proc p : Ctx κ) (waitLoop p copied rounds) (fun _ x' => x' = x) x := by
  induction rounds with
  | zero => exact awp_mono (act_spec (.never _ _)) fun _ _ hf => False.elim hf
  | succ rounds ih =>
    refine awp_to (waits_spec h hw p copied _ false) fun r => ?_
    match r with
    | none => exact rfl
    | some false => exact act_spec (h.release hw nofun)
    | some true =>
      refine awp_to (killed_spec h p) fun k => awp_ite (fun _ => act_spec (h.release hw nofun)) fun _ => ?_
      exact awp_to (sleep_spec h hw hs _ nofun) fun _ => ih

theorem wait_spec (hs : x.stage = .awake) (copied : Bool) (rounds : Nat) :
    Keeps t (wait copied rounds) (fun _ x' => x' = x) x := by
  refine myproc_to h.phase ?_
  cases t with
  | sched c => trivial
  | proc p => exact act_to (h.acquire hw nofun) fun _ => waitLoop_spec h hw hs copied rounds

end

theorem ops_spec (os : List Op) : Keeps (.proc p : Ctx κ) (ops os) (fun _ x' => x' = Th.idle) Th.idle := by
  induction os with
  | nil => rfl
  | cons o os ih =>
    have hbody : Keeps (.proc p : Ctx κ) o.body (fun _ x' => x' = Th.idle) Th.idle := by
      have h := Th.idle_open
      cases o with
      | acquire n => exact act_spec (h.acquire rfl nofun)
      | release n => exact act_spec (h.release rfl nofun)
      | sleep chan n => exact sleep_spec h rfl rfl chan nofun
      | wakeup chan => exact wakeup_spec h rfl chan
      | yield => exact yield_spec h rfl
      | kill pid => exact kills_spec h pid _
      | fork memory copied => exact fork_spec h rfl rfl memory copied
      | exit status => exact exit_spec h rfl rfl status
      | wait copied rounds => exact wait_spec h rfl rfl copied rounds
    exact awp_to hbody fun _ => ih

theorem scheduler_spec {c : κ} (ps : List Slot) :
    Keeps (.sched c) (scheduler ps) (fun _ x' => x' = Th.idle) Th.idle := by
  have h := Th.idle_open
  induction ps with
  | nil => rfl
  | cons p ps ih =>
    refine act_to (h.lock p) fun _ => act_to (h.state p) fun (state : ProcState) => awp_ite (fun hst => ?_) fun _ => ?_
    · subst hst
      refine act_to (.choose rfl rfl rfl rfl) fun _ => act_to (.load rfl) fun _ => act_to (.swtch rfl) fun _ => ?_
      exact act_to (.clear rfl) fun _ => act_to (.unlock rfl rfl rfl trivial) fun _ => ih
    · exact act_to (h.unlock_seen p state) fun _ => ih

theorem body_spec (t : Ctx κ) (os : List Op) : Keeps t (body t os) (fun _ x' => x' = Th.idle) Th.idle := by
  cases t with
  | sched c => exact scheduler_spec _
  | proc p => exact ops_spec os

theorem forkret_spec (p : Slot) : Keeps (.proc p : Ctx κ) forkret (fun _ x' => x' = Th.idle) (Th.idle.locks p) :=
  myproc_to rfl (act_spec (Th.idle_open.unlock p))

theorem intrOps_spec (h : x.Open) (hw : x.waking = none) (os : List IntrOp) :
    Keeps t (intrOps os) (fun _ x' => x' = x) x := by
  induction os with
  | nil => rfl
  | cons o os ih =>
    have hbody : Keeps t o.body (fun _ x' => x' = x) x := by
      cases o with
      | acquire n => exact act_spec (h.acquire hw nofun)
      | release n => exact act_spec (h.release hw nofun)
      | wakeup chan => exact wakeup_spec h hw chan
    exact awp_to hbody fun _ => ih

theorem trap_spec (h : x.Open) (hw : x.waking = none) (i : Intr) : Keeps t (trap i) (fun _ x' => x' = x) x := by
  refine awp_to (intrOps_spec h hw i.ops) fun _ => awp_ite (fun _ => ?_) fun _ => rfl
  exact myproc_to h.phase (awp_ite (fun _ => rfl) fun _ => yield_spec h hw)

end Specs

end Sched
