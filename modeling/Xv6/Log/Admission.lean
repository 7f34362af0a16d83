import Xv6.Log

namespace Log

open List Function

-- mkfs.c: one of these blocks is the header.
def nlog : Nat := LOGSIZE

def mkfsLog : Log :=
  { start := 2, size := nlog, outstanding := 0, committing := false, lh := [] }

inductive Call where
  | beginOp (p : Nat)
  | logWrite (p b : Nat)
  | endOp (p : Nat)
  | commit
  deriving DecidableEq, Repr

-- The log with the processes inside an operation and the blocks each has logged in it.
structure Sched where
  log : Log
  active : List Nat
  wrote : Nat → Finset Nat

def boot : Sched := { log := mkfsLog, active := [], wrote := fun _ => ∅ }

-- The section of a call under log.lock; none where the caller sleeps, has no operation, or would
-- log over MAXOPBLOCKS blocks. The commit, without the lock, is a step of its own.
def Sched.step (s : Sched) : Call → Option (Except Panic Sched)
  | .beginOp p =>
    if p ∈ s.active then none
    else s.log.beginOp.map fun log =>
      .ok { s with log := log, active := p :: s.active, wrote := update s.wrote p ∅ }
  | .logWrite p b =>
    if p ∈ s.active ∧ (insert b (s.wrote p)).card ≤ MAXOPBLOCKS then
      some ((s.log.logWrite b).map fun log =>
        { s with log := log, wrote := update s.wrote p (insert b (s.wrote p)) })
    else none
  | .endOp p =>
    if p ∈ s.active then
      some (s.log.endOp.map fun (_, log) => { s with log := log, active := s.active.erase p })
    else none
  | .commit => if s.log.committing then some (.ok { s with log := s.log.endCommit }) else none

-- A panic ends the run.
def Sched.next (r : Option (Except Panic Sched)) (c : Call) : Option (Except Panic Sched) :=
  match r with
  | some (.ok s) => s.step c
  | _ => none

def Sched.run (calls : List Call) : Option (Except Panic Sched) :=
  calls.foldl Sched.next (some (.ok boot))

-- The distinct blocks passed to log_write since the last commit.
def group (calls : List Call) : Finset Nat :=
  calls.foldl (fun g c => match c with
    | .logWrite _ b => insert b g
    | .commit => ∅
    | _ => g) ∅

-- Each log_write finds a free slot in the log region that mkfs made.
def Fits (calls : List Call) : Prop :=
  ∀ i p b, calls[i]? = some (.logWrite p b) → (group (calls.take i)).card < nlog - 1

structure Slots (log : Log) (g : Finset Nat) : Prop where
  nodup : log.lh.Nodup
  slot : ∀ b ∈ g, b ∈ log.lh ∧ log.lh.idxOf b < LOGSIZE ∧ log.start + 1 + log.lh.idxOf b < log.start + log.size

structure Sched.Inv (s : Sched) (g : Finset Nat) : Prop where
  size : s.log.size = nlog
  nodup : s.log.lh.Nodup
  blocks : s.log.lh.toFinset = g
  active : s.active.Nodup
  outstanding : s.log.outstanding = s.active.length
  committing : s.log.committing = true → s.active = []
  short : s.log.lh.length < nlog

@[simp] theorem group_append (calls : List Call) (c : Call) : group (calls ++ [c]) = match c with
      | .logWrite _ b => insert b (group calls)
      | .commit => ∅
      | _ => group calls := by
  simp [group, foldl_append]

theorem Sched.run_append (calls : List Call) (c : Call) :
    Sched.run (calls ++ [c]) = Sched.next (Sched.run calls) c := by
  simp [Sched.run, foldl_append]

theorem fits_append (calls : List Call) (c : Call) : Fits (calls ++ [c]) ↔
      Fits calls ∧ ∀ p b, c = .logWrite p b → (group calls).card < nlog - 1 := by
  constructor
  · intro h
    refine ⟨fun i p b hi => ?_, fun p b hc => ?_⟩
    · have hlt : i < calls.length := (List.getElem?_eq_some_iff.mp hi).1
      have := h i p b (by rw [getElem?_append_left hlt, hi])
      rwa [take_append_of_le_length hlt.le] at this
    · have := h calls.length p b (by simp [hc])
      simpa using this
  · rintro ⟨h, hc⟩ i p b hi
    rcases Nat.lt_or_ge i calls.length with hlt | hge
    · rw [getElem?_append_left hlt] at hi
      rw [take_append_of_le_length hlt.le]
      exact h i p b hi
    have hi' : i = calls.length := by
      have := (List.getElem?_eq_some_iff.mp hi).1
      simp only [length_append, length_singleton] at this
      omega
    subst hi'
    simp only [getElem?_concat_length, Option.some.injEq] at hi
    simpa using hc p b hi

variable {s : Sched} {g : Finset Nat}

theorem Sched.Inv.card (h : s.Inv g) : s.log.lh.length = g.card := by
  rw [← h.blocks, toFinset_card_of_nodup h.nodup]

theorem Sched.Inv.slots (h : s.Inv g) : Slots s.log g := by
  refine ⟨h.nodup, fun b hb => ?_⟩
  have hmem : b ∈ s.log.lh := by simpa [← h.blocks] using hb
  have hidx := idxOf_lt_length_of_mem hmem
  have hshort := h.short
  have hsize := h.size
  simp only [nlog] at hshort hsize
  exact ⟨hmem, by omega, by omega⟩

theorem logWrite_iff {log : Log} (hsize : log.size = nlog) (hout : 1 ≤ log.outstanding) (b : Nat) :
    (∃ log', log.logWrite b = .ok log') ↔ log.lh.length < nlog - 1 := by
  have hn : nlog = 30 := rfl
  have hl : LOGSIZE = 30 := rfl
  unfold logWrite
  by_cases hfull : log.lh.length ≥ LOGSIZE ∨ log.lh.length + 1 ≥ log.size
  · rw [if_pos hfull]
    simp only [reduceCtorEq, exists_false, false_iff]
    omega
  rw [if_neg hfull, if_neg (by omega)]
  have hlt : log.lh.length < nlog - 1 := by omega
  simp only [hlt, iff_true]
  split
  · exact ⟨_, rfl⟩
  · exact ⟨_, rfl⟩

theorem Sched.boot_inv : boot.Inv ∅ :=
  ⟨rfl, nodup_nil, rfl, nodup_nil, rfl, by simp [boot, mkfsLog], by decide⟩

variable {r : Except Panic Sched}

theorem Sched.Inv.beginOp (h : s.Inv g) {p : Nat}
    (hr : s.step (.beginOp p) = some r) : ∃ s', r = .ok s' ∧ s'.Inv g := by
  simp only [Sched.step] at hr
  split at hr
  · cases hr
  rename_i hp
  unfold Log.beginOp at hr
  split at hr
  · rename_i hmay
    cases hr
    have hc : s.log.committing = false := by
      simp only [mayBegin, Bool.and_eq_true, Bool.not_eq_true'] at hmay
      exact hmay.1
    refine ⟨_, rfl, h.size, h.nodup, h.blocks, ?_, ?_, ?_, h.short⟩
    · exact nodup_cons.mpr ⟨hp, h.active⟩
    · simp [h.outstanding]
    · simp [hc]
  · cases hr

theorem Sched.Inv.endOp (h : s.Inv g) {p : Nat} (hr : s.step (.endOp p) = some r) : ∃ s', r = .ok s' ∧ s'.Inv g := by
  simp only [Sched.step] at hr
  split at hr
  · rename_i hp
    have hpos := length_pos_of_mem hp
    have hc : s.log.committing = false := by
      by_contra hcom
      rw [Bool.not_eq_false] at hcom
      rw [h.committing hcom] at hp
      simp at hp
    have hlen := length_erase_of_mem hp
    have hout := h.outstanding
    cases hr
    simp only [Log.endOp, hc]
    by_cases hzero : s.log.outstanding - 1 = 0
    · simp only [Bool.false_eq_true, if_false, hzero, if_true, Except.map]
      refine ⟨_, rfl, h.size, h.nodup, h.blocks, h.active.erase _, ?_, fun _ => ?_, h.short⟩
      · simp only [hlen]
        omega
      · apply length_eq_zero_iff.mp
        simp only [hlen]
        omega
    · simp only [Bool.false_eq_true, if_false, hzero, Except.map]
      refine ⟨_, rfl, h.size, h.nodup, h.blocks, h.active.erase _, ?_, by simp, h.short⟩
      simp only [hlen]
      omega
  · cases hr

theorem Sched.Inv.commit (h : s.Inv g) (hr : s.step .commit = some r) : ∃ s', r = .ok s' ∧ s'.Inv ∅ := by
  simp only [Sched.step] at hr
  split at hr
  · cases hr
    exact ⟨_, rfl, h.size, nodup_nil, rfl, h.active, h.outstanding, by simp [endCommit], by simp [endCommit, nlog]⟩
  · cases hr

theorem Sched.Inv.logWrite (h : s.Inv g) {p b : Nat} (hr : s.step (.logWrite p b) = some r) :
    ((∃ s', r = .ok s') ↔ g.card < nlog - 1) ∧ ∀ s', r = .ok s' → s'.Inv (insert b g) := by
  simp only [Sched.step] at hr
  split at hr
  · rename_i hp
    have hpos := length_pos_of_mem hp.1
    have hout : 1 ≤ s.log.outstanding := by
      rw [h.outstanding]
      omega
    cases hr
    refine ⟨?_, fun s' hs' => ?_⟩
    · rw [← h.card, ← logWrite_iff h.size hout b]
      cases s.log.logWrite b <;> simp [Except.map]
    cases hw : s.log.logWrite b with
    | error e => rw [hw] at hs'; cases hs'
    | ok log' =>
      rw [hw] at hs'
      cases hs'
      obtain ⟨rfl, -, hfits⟩ := logWrite_eq hw
      rw [h.size] at hfits
      have hblocks := h.blocks
      by_cases hmem : b ∈ s.log.lh
      · simp only [hmem, if_true]
        refine ⟨h.size, h.nodup, ?_, h.active, h.outstanding, h.committing, h.short⟩
        rw [hblocks, Finset.insert_eq_of_mem]
        simpa [← hblocks] using hmem
      · simp only [hmem, if_false]
        refine ⟨h.size, ?_, ?_, h.active, h.outstanding, h.committing, by simpa using hfits⟩
        · simpa [nodup_append, h.nodup] using fun a ha (he : a = b) => hmem (he ▸ ha)
        · simp only [toFinset_append, hblocks]
          ext x
          simp
  · cases hr

theorem Sched.run_inv (calls : List Call) (r : Except Panic Sched) (hr : Sched.run calls = some r) :
    ((∃ s, r = .ok s) ↔ Fits calls) ∧ ∀ s, r = .ok s → s.Inv (group calls) := by
  induction calls using List.reverseRecOn generalizing r with
  | nil =>
    cases hr
    exact ⟨⟨fun _ i p b hi => by simp at hi, fun _ => ⟨_, rfl⟩⟩, fun s hs => by cases hs; exact boot_inv⟩
  | append_singleton calls c ih =>
    rw [Sched.run_append] at hr
    cases hprev : Sched.run calls with
    | none => rw [hprev] at hr; cases hr
    | some prev =>
      obtain ⟨hiff, hinv⟩ := ih prev hprev
      cases prev with
      | error e => rw [hprev] at hr; cases hr
      | ok s =>
        have hs := hinv s rfl
        have hfits : Fits calls := hiff.mp ⟨s, rfl⟩
        rw [hprev] at hr
        change s.step c = some r at hr
        rw [fits_append, group_append]
        cases c with
        | beginOp p =>
          obtain ⟨s', rfl, hs'⟩ := hs.beginOp hr
          exact ⟨by simp [hfits], fun t ht => by cases ht; exact hs'⟩
        | endOp p =>
          obtain ⟨s', rfl, hs'⟩ := hs.endOp hr
          exact ⟨by simp [hfits], fun t ht => by cases ht; exact hs'⟩
        | commit =>
          obtain ⟨s', rfl, hs'⟩ := hs.commit hr
          exact ⟨by simp [hfits], fun t ht => by cases ht; exact hs'⟩
        | logWrite p b =>
          obtain ⟨hok, hs'⟩ := hs.logWrite hr
          refine ⟨hok.trans ⟨fun h => ⟨hfits, fun _ _ _ => h⟩, fun h => h.2 p b rfl⟩, hs'⟩

-- begin_op reserves LOGSIZE blocks, one more than the region of mkfs holds besides the header.
-- log_write panics exactly when it finds that region full.
theorem log_admission (calls : List Call) (r : Except Panic Sched) (hr : Sched.run calls = some r) :
    (∃ s, r = .ok s ∧ Slots s.log (group calls)) ↔ Fits calls := by
  obtain ⟨hiff, hinv⟩ := Sched.run_inv calls r hr
  rw [← hiff]
  constructor
  · rintro ⟨s, rfl, -⟩
    exact ⟨s, rfl⟩
  · rintro ⟨s, rfl⟩
    exact ⟨s, rfl, (hinv s rfl).slots⟩

def oneOp : List Call := [.beginOp 0, .logWrite 0 46, .endOp 0, .commit]

theorem log_admission_oneOp :
    ∃ r, Sched.run oneOp = some r ∧ ((∃ s, r = .ok s ∧ Slots s.log (group oneOp)) ↔ Fits oneOp) :=
  ⟨_, rfl, log_admission oneOp _ rfl⟩

-- Three operations admitted together, each with MAXOPBLOCKS blocks of its own.
def threeOps : List Call :=
  [.beginOp 0, .beginOp 1, .beginOp 2] ++ (List.range 30).map fun i => .logWrite (i / 10) (100 + i)

theorem not_log_admission : ¬∀ calls r, Sched.run calls = some r → ∃ s, r = .ok s ∧ Slots s.log (group calls) := by
  intro h
  have hp : (Sched.run threeOps).map (fun r => match r with | .ok _ => none | .error e => some e) =
      some (some Panic.tooBigTransaction) := by
    decide
  cases hrun : Sched.run threeOps with
  | none => simp [hrun] at hp
  | some r =>
    obtain ⟨s, rfl, -⟩ := h threeOps r hrun
    simp [hrun] at hp

end Log
