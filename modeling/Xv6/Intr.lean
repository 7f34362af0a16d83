import Xv6.Lts

-- push_off and pop_off of spinlock.c, with the switches of proc.c and interrupts. κ are the
-- processors and ι the processes.

namespace Intr

open Function

-- struct cpu, with SSTATUS_SIE; `run` is the process whose thread it executes, if not the
-- scheduler.
structure Cpu (ι : Type) where
  noff : Nat
  intena : Bool
  sie : Bool
  run : Option ι

-- Where a switched-out thread is: swtch returns to forkret, or to sched with its variable intena.
inductive Context where
  | running
  | forkret
  | sched (intena : Bool)
  deriving DecidableEq

-- A kernel thread: the calls of push_off that it has to undo, the variable old of push_off
-- up to intr_off(), and the same of what kerneltrap has interrupted.
structure Thread where
  depth : Nat
  old : Option Bool
  traps : List (Option Bool)
  context : Context

structure State (κ ι : Type) where
  cpu : κ → Cpu ι
  thread : κ ⊕ ι → Thread

inductive Act (ι : Type) where
  | intrOn
  | intrOff
  -- push_off, up to intr_get() and from there on
  | intrGet
  | pushOff
  | popOff
  | kerneltrap
  | sret
  | sched
  | swtch (p : ι)
  | allocproc (p : ι)
  deriving DecidableEq

structure Move (κ ι : Type) where
  c : κ
  act : Act ι

-- What a process's thread does to noff, with sie before it leaves 0 and after it is back.
inductive Event (ι : Type) where
  | started (p : ι)
  | opened (p : ι) (sie : Bool)
  | closed (p : ι) (sie : Bool)
  | panic
  deriving DecidableEq

variable {κ ι : Type} [DecidableEq κ] [DecidableEq ι]

namespace State

def current (s : State κ ι) (c : κ) : κ ⊕ ι :=
  match (s.cpu c).run with
  | some p => .inr p
  | none => .inl c

def setCpu (s : State κ ι) (c : κ) (x : Cpu ι) : State κ ι := { s with cpu := update s.cpu c x }

def set (s : State κ ι) (id : κ ⊕ ι) (t : Thread) : State κ ι := { s with thread := update s.thread id t }

-- The processor `c` and the thread in which it is.
def put (s : State κ ι) (c : κ) (x : Cpu ι) (t : Thread) : State κ ι := (s.setCpu c x).set (s.current c) t

end State

namespace Cpu

def pushOff (x : Cpu ι) (old : Bool) : Cpu ι :=
  { x with noff := x.noff + 1, intena := if x.noff = 0 then old else x.intena, sie := false }

-- none for the panics
def popOff (x : Cpu ι) : Option (Cpu ι) :=
  if x.sie ∨ x.noff < 1 then none
  else some { x with noff := x.noff - 1, sie := decide (x.noff - 1 = 0) && x.intena }

-- What a processor shows where its noff is 0.
def note (x : Cpu ι) (e : ι → Event ι) : List (Event ι) := if x.noff = 0 then x.run.toList.map e else []

end Cpu

-- The intena of a processor on which the thread goes on, from what the processor had.
def Context.resume : Context → Bool → Option Bool
  | running, _ => none
  | forkret, intena => some intena
  | sched intena, _ => some intena

def step (m : Move κ ι) (s : State κ ι) : Option (State κ ι × List (Event ι)) :=
  let x := s.cpu m.c
  let t := s.thread (s.current m.c)
  match m.act with
  | .intrOn => some (s.put m.c { x with sie := true } t, [])
  | .intrOff => some (s.put m.c { x with sie := false } t, [])
  | .intrGet => some (s.put m.c x { t with old := some x.sie }, [])
  | .pushOff => t.old.map fun old =>
    (s.put m.c (x.pushOff old) { t with depth := t.depth + 1, old := none }, x.note (.opened · x.sie))
  | .popOff =>
    match x.popOff with
    | none => some (s, [.panic])
    | some x => some (s.put m.c x { t with depth := t.depth - 1 }, x.note (.closed · x.sie))
  | .kerneltrap =>
    if x.sie then some (s.put m.c { x with sie := false } { t with old := none, traps := t.old :: t.traps }, []) else none
  | .sret =>
    match t.traps with
    | [] => none
    | old :: traps => some (s.put m.c { x with sie := true } { t with old := old, traps := traps }, [])
  | .sched =>
    match x.run with
    | none => none
    | some p =>
      -- the panics of sched
      if x.noff ≠ 1 ∨ x.sie then none
      else some ((s.setCpu m.c { x with run := none }).set (.inr p) { t with context := .sched x.intena }, [])
  | .swtch p =>
    match x.run, (s.thread (.inr p)).context.resume x.intena with
    | none, some intena =>
      some ((s.setCpu m.c { x with run := some p, intena := intena }).set (.inr p)
        { s.thread (.inr p) with context := .running }, [])
    | _, _ => none
  | .allocproc p =>
    if (s.thread (.inr p)).context = .running then none else some (s.set (.inr p) ⟨1, none, [], .forkret⟩, [.started p])

-- A thread undoes its own calls of push_off, enables and disables interrupts only outside of them,
-- and has the process's lock alone when the scheduler switches.
def Nested (_ : List (Event ι)) (s : State κ ι) (m : Move κ ι) : Prop :=
  let t := s.thread (s.current m.c)
  match m.act with
  | .intrOn | .intrOff | .sret => t.old = none ∧ t.depth = 0
  | .popOff => t.old = none ∧ 0 < t.depth
  | .intrGet | .sched => t.old = none
  | .swtch _ => t.old = none ∧ t.depth = 1
  | _ => True

-- Interrupts as the thread of `p` found them when it last took noff from 0 to 1.
def opening (p : ι) : List (Event ι) → Option Bool :=
  List.foldl (fun b e =>
    match e with
    | .started q => if q = p then none else b
    | .opened q sie => if q = p then some sie else b
    | _ => b) none

-- A processor with its thread. A process's thread finds in intena what pop_off is to restore.
structure Runs (es : List (Event ι)) (x : Cpu ι) (t : Thread) : Prop where
  noff : x.noff = t.depth
  off : 0 < x.noff → x.sie = false
  old : ∀ old ∈ t.old, old = x.sie
  traps : some false ∉ t.traps
  context : ∀ p ∈ x.run, t.context = .running
  intena : ∀ p ∈ x.run, ∀ b ∈ opening p es, 0 < x.noff → x.intena = b

-- A thread that has been switched out.
structure Waits (es : List (Event ι)) (id : κ ⊕ ι) (t : Thread) : Prop where
  depth : t.depth = 1
  old : t.old = none
  traps : some false ∉ t.traps
  context : ∀ p, id = .inr p → t.context ≠ .running ∧ ∀ b ∈ opening p es, t.context = .sched b

structure Inv (es : List (Event ι)) (s : State κ ι) : Prop where
  runs : ∀ c, Runs es (s.cpu c) (s.thread (s.current c))
  waits : ∀ id, (∀ c, s.current c ≠ id) → Waits es id (s.thread id)
  alone : Injective s.current

section

variable {s s' : State κ ι} {c : κ} {p : ι} {id : κ ⊕ ι} {es es' : List (Event ι)} {x : Cpu ι} {t : Thread}

section

omit [DecidableEq κ] [DecidableEq ι]

theorem State.current_eq (h : s'.cpu c = s.cpu c) : s'.current c = s.current c := by
  rw [State.current, State.current, h]

theorem State.mem_run (h : p ∈ (s.cpu c).run) : s.current c = .inr p := by
  rw [State.current, Option.mem_def.mp h]

theorem State.mem_run_of_eq (h : s.current c = .inr p) : p ∈ (s.cpu c).run := by
  unfold State.current at h
  split at h
  · rename_i hrun
    cases h
    exact hrun
  · cases h

theorem State.current_ne_inl (hp : (s.cpu c).run = some p) (c' : κ) : s.current c' ≠ .inl c := by
  unfold State.current
  split
  · simp
  · rename_i hnone
    rintro heq
    cases heq
    rw [hp] at hnone
    cases hnone

end

omit [DecidableEq κ] in
theorem Waits.keep (h : Waits es id t) (hopen : ∀ p, id = .inr p → opening p es' = opening p es) : Waits es' id t :=
  ⟨h.depth, h.old, h.traps, fun p hp => ⟨(h.context p hp).1, fun b hb => (h.context p hp).2 b (hopen p hp ▸ hb)⟩⟩

omit [DecidableEq κ] in
theorem Inv.idle (h : Inv es s) (hout : (s.thread (.inr p)).context ≠ .running) (c : κ) : s.current c ≠ .inr p :=
  fun heq => hout (heq ▸ (h.runs c).context p (State.mem_run_of_eq heq))

theorem Runs.keep (h : Runs es x t) (hopen : ∀ p ∈ x.run, opening p es' = opening p es) : Runs es' x t :=
  ⟨h.noff, h.off, h.old, h.traps, h.context, fun p hp b hb => h.intena p hp b (hopen p hp ▸ hb)⟩

theorem Inv.move (h : Inv es s) (c : κ) (hcpu : ∀ c', c' ≠ c → s'.cpu c' = s.cpu c')
    (hthread : ∀ id, id ≠ s.current c → id ≠ s'.current c → s'.thread id = s.thread id)
    (hnew : s'.current c = s.current c ∨ ∀ c', s.current c' ≠ s'.current c)
    (hopen : ∀ p, .inr p ≠ s.current c → opening p es' = opening p es)
    (hruns : Runs es' (s'.cpu c) (s'.thread (s'.current c)))
    (hwaits : s.current c ≠ s'.current c → Waits es' (s.current c) (s'.thread (s.current c))) : Inv es' s' := by
  have hsame : ∀ c', c' ≠ c → s'.current c' = s.current c' := fun c' hne => State.current_eq (hcpu c' hne)
  have hother : ∀ c', c' ≠ c → s.current c' ≠ s.current c := fun c' hne heq => hne (h.alone heq)
  have hfresh : ∀ c', c' ≠ c → s.current c' ≠ s'.current c := by
    intro c' hne heq
    rcases hnew with hnew | hnew
    · exact hother c' hne (heq.trans hnew)
    · exact hnew c' heq
  refine ⟨fun c' => ?_, fun id hid => ?_, fun c₁ c₂ heq => ?_⟩
  · by_cases hne : c' = c
    · rw [hne]
      exact hruns
    · rw [hsame c' hne, hcpu c' hne, hthread _ (hother c' hne) (hfresh c' hne)]
      exact (h.runs c').keep fun p hp => hopen p (State.mem_run hp ▸ hother c' hne)
  · by_cases hid0 : id = s.current c
    · rw [hid0] at hid ⊢
      exact hwaits fun heq => hid c heq.symm
    · rw [hthread id hid0 fun heq => hid c heq.symm]
      refine (h.waits id fun c' => ?_).keep fun p hp => hopen p (hp ▸ hid0)
      by_cases hne : c' = c
      · rw [hne]
        exact Ne.symm hid0
      · rw [← hsame c' hne]
        exact hid c'
  · by_cases h₁ : c₁ = c <;> by_cases h₂ : c₂ = c
    · rw [h₁, h₂]
    · rw [h₁, hsame c₂ h₂] at heq
      exact absurd heq.symm (hfresh c₂ h₂)
    · rw [h₂, hsame c₁ h₁] at heq
      exact absurd heq (hfresh c₁ h₁)
    · rw [hsame c₁ h₁, hsame c₂ h₂] at heq
      exact h.alone heq

theorem Inv.put (h : Inv es s) (hrun : x.run = (s.cpu c).run) (hruns : Runs es' x t)
    (hopen : ∀ p, p ∉ x.run → opening p es' = opening p es) : Inv es' (s.put c x t) := by
  have hcurrent : (s.put c x t).current c = s.current c := by
    simp [State.put, State.current, State.setCpu, State.set, hrun]
  apply h.move c
  · intro c' hne
    exact update_of_ne hne ..
  · intro id hid _
    exact update_of_ne hid ..
  · exact .inl hcurrent
  · intro p hp
    exact hopen p fun hmem => hp (State.mem_run (hrun ▸ hmem)).symm
  · rw [hcurrent]
    simpa [State.put, State.setCpu, State.set] using hruns
  · intro hne
    exact absurd hcurrent.symm hne

theorem opening_note {e : ι → Event ι} (hp : p ∈ x.run) :
    opening p (es ++ x.note e) = if x.noff = 0 then opening p (es ++ [e p]) else opening p es := by
  rw [Cpu.note, Option.mem_def.mp hp]
  split <;> simp

theorem opening_opened (sie : Bool) (hp : p ∉ x.run) : opening p (es ++ x.note (.opened · sie)) = opening p es := by
  rw [Cpu.note]
  cases hrun : x.run with
  | none => simp
  | some q =>
    have hne : q ≠ p := fun heq => hp (by rw [hrun, heq]; rfl)
    split <;> simp [opening, hne]

theorem opening_closed (sie : Bool) : opening p (es ++ x.note (.closed · sie)) = opening p es := by
  rw [Cpu.note]
  cases x.run <;> split <;> simp [opening]

section

variable (h : Inv es s)

include h

theorem Inv.pushOff {old : Bool} (hold : (s.thread (s.current c)).old = some old) :
    Inv (es ++ (s.cpu c).note (.opened · (s.cpu c).sie)) (s.put c ((s.cpu c).pushOff old)
      { s.thread (s.current c) with depth := (s.thread (s.current c)).depth + 1, old := none }) := by
  have hr := h.runs c
  refine h.put rfl ⟨congrArg (· + 1) hr.noff, fun _ => rfl, by simp, hr.traps, hr.context, fun p hp b hb _ => ?_⟩
    fun p hp => opening_opened _ hp
  rw [Option.mem_def, opening_note (show p ∈ (s.cpu c).run from hp)] at hb
  by_cases hzero : (s.cpu c).noff = 0
  · have hsie : (s.cpu c).sie = b := by simpa [hzero, opening] using hb
    exact (if_pos hzero).trans ((hr.old old hold).trans hsie)
  · rw [if_neg hzero] at hb
    exact (if_neg hzero).trans (hr.intena p hp b hb (Nat.pos_of_ne_zero hzero))

theorem Inv.popOff (hold : (s.thread (s.current c)).old = none) (hpop : (s.cpu c).popOff = some x) :
    Inv (es ++ x.note (.closed · x.sie))
      (s.put c x { s.thread (s.current c) with depth := (s.thread (s.current c)).depth - 1 }) := by
  have hr := h.runs c
  rw [Cpu.popOff, Option.ite_none_left_eq_some] at hpop
  obtain ⟨-, hx⟩ := hpop
  cases hx
  refine h.put rfl ⟨congrArg (· - 1) hr.noff, fun hpos => ?_, by simp [hold], hr.traps, hr.context,
    fun p hp b hb hpos => ?_⟩ fun p _ => opening_closed _
  · simp [Nat.ne_of_gt hpos]
  · rw [opening_closed] at hb
    exact hr.intena p hp b hb (Nat.lt_of_lt_of_le hpos (Nat.sub_le ..))

theorem Inv.switch (hid : s.current c = .inr p ∨ (s.setCpu c x).current c = .inr p)
    (hnew : ∀ c', s.current c' ≠ (s.setCpu c x).current c)
    (hruns : Runs es x (update s.thread (.inr p) t ((s.setCpu c x).current c)))
    (hwaits : Waits es (s.current c) (update s.thread (.inr p) t (s.current c))) :
    Inv es ((s.setCpu c x).set (.inr p) t) := by
  apply h.move c
  · intro c' hne
    exact update_of_ne hne ..
  · intro id hold hnew
    apply update_of_ne
    rcases hid with hid | hid
    · exact hid ▸ hold
    · exact hid ▸ hnew
  · exact .inr hnew
  · exact fun p _ => rfl
  · rw [show ((s.setCpu c x).set (.inr p) t).cpu c = x from update_self ..]
    exact hruns
  · exact fun _ => hwaits

theorem Inv.sched (hp : (s.cpu c).run = some p) (hnoff : (s.cpu c).noff = 1)
    (hold : (s.thread (s.current c)).old = none) : Inv es ((s.setCpu c { s.cpu c with run := none }).set (.inr p)
      { s.thread (s.current c) with context := .sched (s.cpu c).intena }) := by
  have hcur : s.current c = .inr p := State.mem_run hp
  have hr := h.runs c
  rw [hcur] at hr hold
  have hw := h.waits (.inl c) (State.current_ne_inl hp)
  have hnext : (s.setCpu c { s.cpu c with run := none }).current c = .inl c := by simp [State.current, State.setCpu]
  apply h.switch (.inl hcur)
  · rw [hnext]
    exact State.current_ne_inl hp
  · rw [hnext, update_of_ne (by simp)]
    exact ⟨hnoff.trans hw.depth.symm, hr.off, by simp [hw.old], hw.traps, by simp, by simp⟩
  · rw [hcur, update_self]
    refine ⟨hr.noff.symm.trans hnoff, hold, hr.traps, fun q hq => ⟨by simp, fun b hb => ?_⟩⟩
    cases hq
    rw [hr.intena p hp b hb (by omega)]

theorem Inv.swtch (hrun : (s.cpu c).run = none) (hold : (s.thread (.inl c)).old = none)
    (hdepth : (s.thread (.inl c)).depth = 1) {intena : Bool}
    (hout : (s.thread (.inr p)).context.resume (s.cpu c).intena = some intena) :
    Inv es ((s.setCpu c { s.cpu c with run := some p, intena := intena }).set (.inr p)
      { s.thread (.inr p) with context := .running }) := by
  have hcur : s.current c = .inl c := by rw [State.current, hrun]
  have hr := h.runs c
  rw [hcur] at hr
  have hidle : ∀ c', s.current c' ≠ .inr p := h.idle fun heq => by
    rw [heq] at hout
    cases hout
  have hw := h.waits (.inr p) hidle
  have hnext : (s.setCpu c { s.cpu c with run := some p, intena := intena }).current c = .inr p := by
    simp [State.current, State.setCpu]
  apply h.switch (.inr hnext)
  · rw [hnext]
    exact hidle
  · rw [hnext, update_self]
    refine ⟨hr.noff.trans (hdepth.trans hw.depth.symm), hr.off, by simp [hw.old], hw.traps, fun _ _ => rfl,
      fun q hq b hb _ => ?_⟩
    cases hq
    rw [(hw.context p rfl).2 b hb] at hout
    exact (Option.some.inj hout).symm
  · rw [hcur, update_of_ne (by simp)]
    exact ⟨hdepth, hold, hr.traps, by simp⟩

theorem Inv.allocproc (hout : (s.thread (.inr p)).context ≠ .running) :
    Inv (es ++ [.started p]) (s.set (.inr p) ⟨1, none, [], .forkret⟩) := by
  have hidle := h.idle hout
  have hopen : ∀ q, opening q (es ++ [.started p]) = if p = q then none else opening q es := fun q => by simp [opening]
  have hother : ∀ q, (.inr q : κ ⊕ ι) ≠ .inr p → opening q (es ++ [.started p]) = opening q es :=
    fun q hne => (hopen q).trans (if_neg fun heq => hne (by rw [heq]))
  refine ⟨fun c => ?_, fun id hid => ?_, h.alone⟩
  · change Runs _ (s.cpu c) (update s.thread (.inr p) _ (s.current c))
    rw [update_of_ne (hidle c)]
    exact (h.runs c).keep fun q hq => hother q (State.mem_run hq ▸ hidle c)
  · by_cases heq : id = .inr p
    · subst heq
      rw [show (s.set (.inr p) _).thread (.inr p) = _ from update_self ..]
      refine ⟨rfl, rfl, by simp, fun q hq => ⟨by simp, fun b hb => ?_⟩⟩
      cases hq
      rw [hopen, if_pos rfl] at hb
      cases hb
    · rw [show (s.set (.inr p) _).thread id = s.thread id from update_of_ne heq ..]
      exact (h.waits id hid).keep fun q hq => hother q (hq ▸ heq)

end

-- A closing restores what the thread found at its last opening, and pop_off does not panic.
def Restores (before : List (Event ι)) : Event ι → Prop
  | .closed p sie => ∀ b, opening p before = some b → sie = b
  | .panic => False
  | _ => True

theorem always_note {e : ι → Event ι} (h : ∀ p ∈ x.run, x.noff = 0 → Restores es (e p)) :
    Lts.Always (fun before e => Restores (es ++ before) e) (x.note e) := by
  unfold Cpu.note
  split
  · rename_i hzero
    cases hrun : x.run with
    | none => exact Lts.always_nil _
    | some p =>
      apply Lts.always_singleton
      rw [List.append_nil]
      exact h p hrun hzero
  · exact Lts.always_nil _

theorem Inv.step (h : Inv es s) {m : Move κ ι} (hok : Nested es s m) (hs : step m s = some (s', es')) :
    Inv (es ++ es') s' ∧ Lts.Always (fun before e => Restores (es ++ before) e) es' := by
  obtain ⟨c, act⟩ := m
  have hr := h.runs c
  have hquiet : Inv es s' → es' = [] →
      Inv (es ++ es') s' ∧ Lts.Always (fun before e => Restores (es ++ before) e) es' := by
    rintro h' rfl
    rw [List.append_nil]
    exact ⟨h', Lts.always_nil _⟩
  have hgo : ∀ {x t}, Runs es x t → x.run = (s.cpu c).run → Inv es (s.put c x t) :=
    fun hx hrun => h.put hrun hx fun _ _ => rfl
  cases act with
  | intrOn =>
    cases hs
    obtain ⟨hold, hdepth⟩ : (s.thread (s.current c)).old = none ∧ (s.thread (s.current c)).depth = 0 := hok
    refine hquiet (hgo ⟨hr.noff, fun hpos => ?_, by simp [hold], hr.traps, hr.context, hr.intena⟩ rfl) rfl
    exact absurd (hr.noff.trans hdepth) (Nat.ne_of_gt hpos)
  | intrOff =>
    cases hs
    have hold : (s.thread (s.current c)).old = none := hok.1
    exact hquiet (hgo ⟨hr.noff, fun _ => rfl, by simp [hold], hr.traps, hr.context, hr.intena⟩ rfl) rfl
  | intrGet =>
    cases hs
    exact hquiet (hgo ⟨hr.noff, hr.off, by simp, hr.traps, hr.context, hr.intena⟩ rfl) rfl
  | pushOff =>
    obtain ⟨old, hold, heq⟩ := Option.map_eq_some_iff.mp hs
    cases heq
    exact ⟨h.pushOff hold, always_note fun _ _ _ => trivial⟩
  | kerneltrap =>
    simp only [Intr.step, Option.ite_none_right_eq_some] at hs
    obtain ⟨hsie, hs⟩ := hs
    cases hs
    refine hquiet (hgo ⟨hr.noff, fun _ => rfl, by simp, fun hmem => ?_, hr.context, hr.intena⟩ rfl) rfl
    rcases List.mem_cons.mp hmem with hold | hmem
    · have := hr.old false hold.symm
      rw [hsie] at this
      cases this
    · exact hr.traps hmem
  | sret =>
    have hdepth : (s.thread (s.current c)).depth = 0 := hok.2
    have htraps := hr.traps
    simp only [Intr.step] at hs
    split at hs
    · cases hs
    · rename_i old traps heq
      cases hs
      rw [heq, List.mem_cons, not_or] at htraps
      refine hquiet (hgo ⟨hr.noff, fun hpos => ?_, fun b hb => ?_, htraps.2, hr.context, hr.intena⟩ rfl) rfl
      · exact absurd (hr.noff.trans hdepth) (Nat.ne_of_gt hpos)
      · cases b with
        | false => exact absurd hb.symm htraps.1
        | true => rfl
  | popOff =>
    obtain ⟨hold, hdepth⟩ : (s.thread (s.current c)).old = none ∧ 0 < (s.thread (s.current c)).depth := hok
    rw [← hr.noff] at hdepth
    have hpop : (s.cpu c).popOff = some _ := if_neg (by simp [hr.off hdepth, Nat.not_lt.mpr hdepth])
    simp only [Intr.step, hpop] at hs
    cases hs
    refine ⟨h.popOff hold hpop, always_note fun p hp hzero b hb => ?_⟩
    rw [← hr.intena p hp b hb hdepth]
    simp only at hzero
    simp [hzero]
  | sched =>
    simp only [Intr.step] at hs
    split at hs
    · cases hs
    · rename_i p hp
      rw [Option.ite_none_left_eq_some] at hs
      obtain ⟨hnot, hs⟩ := hs
      cases hs
      exact hquiet (h.sched hp (by omega) hok) rfl
  | swtch p =>
    obtain ⟨hold, hdepth⟩ : (s.thread (s.current c)).old = none ∧ (s.thread (s.current c)).depth = 1 := hok
    simp only [Intr.step] at hs
    split at hs
    · rename_i intena hrun hout
      cases hs
      rw [State.current, hrun] at hold hdepth
      exact hquiet (h.swtch hrun hold hdepth hout) rfl
    · cases hs
  | allocproc p =>
    simp only [Intr.step, Option.ite_none_left_eq_some] at hs
    obtain ⟨hout, hs⟩ := hs
    cases hs
    exact ⟨h.allocproc hout, Lts.always_singleton trivial⟩

end

-- Every processor is in its scheduler, with interrupts disabled.
def start : State κ ι where
  cpu _ := ⟨0, false, false, none⟩
  thread
    | .inl _ => ⟨0, none, [], .running⟩
    | .inr _ => ⟨1, none, [], .forkret⟩

attribute [local simp] start

omit [DecidableEq κ] in
theorem inv_start : Inv [] (start : State κ ι) := by
  refine ⟨fun c => ?_, fun id hid => ?_, fun c c' heq => Sum.inl.inj heq⟩
  · exact ⟨rfl, by simp, by simp [State.current], by simp [State.current], by simp,
      by simp⟩
  · cases id with
    | inl c => exact absurd rfl (hid c)
    | inr p => exact ⟨rfl, rfl, by simp, by simp [opening]⟩

theorem interrupts_nested {es : List (Event ι)} {s : State κ ι} (h : Lts.Run step Nested start es s) :
    (∀ c, 0 < (s.cpu c).noff → (s.cpu c).sie = false) ∧ Lts.Always Restores es := by
  have hinv : Inv es s ∧ Lts.Always Restores es := by
    refine h.inv (I := fun es s => Inv es s ∧ Lts.Always Restores es) ⟨inv_start, Lts.always_nil _⟩ ?_
    intro es t m t' es' ⟨hi, ha⟩ hok hm
    obtain ⟨hi', ha'⟩ := hi.step hok hm
    exact ⟨hi', Lts.always_append ha ha'⟩
  exact ⟨fun c => (hinv.1.runs c).off, hinv.2⟩

instance (es : List (Event ι)) (s : State κ ι) (m : Move κ ι) : Decidable (Nested es s m) := by
  unfold Nested
  cases m.act <;> infer_instance

-- Process 7 goes from a processor with interrupts disabled to one whose scheduler had them enabled.
def moves : List (Move Bool Nat) :=
  [⟨false, .intrOn⟩, ⟨false, .intrGet⟩, ⟨false, .pushOff⟩, ⟨false, .swtch 7⟩, ⟨false, .popOff⟩, ⟨false, .intrOff⟩,
    ⟨false, .intrGet⟩, ⟨false, .pushOff⟩, ⟨false, .sched⟩, ⟨true, .intrOn⟩, ⟨true, .kerneltrap⟩, ⟨true, .sret⟩,
    ⟨true, .intrGet⟩, ⟨true, .pushOff⟩, ⟨true, .swtch 7⟩, ⟨true, .popOff⟩]

theorem interrupts_nested_moves : ∃ es s, Lts.Run step Nested (start : State Bool Nat) es s ∧
    es = [.closed 7 true, .opened 7 false, .closed 7 false] ∧ Lts.Always Restores es := by
  have hexec : (Lts.exec step Nested moves [] (start : State Bool Nat)).map Prod.fst =
      some [.closed 7 true, .opened 7 false, .closed 7 false] := by decide +kernel
  obtain ⟨es, s, hrun, hes⟩ := Lts.run_of_map hexec
  exact ⟨es, s, hrun, hes, (interrupts_nested hrun).2⟩

end Intr
