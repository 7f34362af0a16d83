import Xv6.Console

-- The characters that readers of the console get are those that were committed.

namespace Console

open Lts List Function

-- How the indices lie: the edited part behind what is ready, and nothing to edit in a full buffer.
structure Ordered (s : Cons) : Prop where
  ready_le : (s.w - s.r).toNat ≤ (s.e - s.r).toNat
  size : (s.e - s.r).toNat ≤ INPUT_BUF_SIZE
  full : (s.e - s.r).toNat = INPUT_BUF_SIZE → s.w = s.e

section Cons

variable {s : Cons}

theorem Ordered.edit_pos (h : Ordered s) (hne : s.e ≠ s.w) : (s.w - s.r).toNat < (s.e - s.r).toNat := by
  refine lt_of_le_of_ne h.ready_le fun he => hne ?_
  have hsub : s.w - s.r = s.e - s.r := BitVec.eq_of_toNat_eq he
  grind

theorem Ordered.erase (h : Ordered s) (hne : s.e ≠ s.w) : Ordered { s with e := s.e - 1 } := by
  have hlt := h.edit_pos hne
  have hsize := h.size
  have hpred : (s.e - 1 - s.r).toNat = (s.e - s.r).toNat - 1 := by
    have he : s.e - 1 - s.r = s.e - s.r - 1 := by grind
    rw [he, BitVec.toNat_sub_of_le]
    · rfl
    · show 1 ≤ (s.e - s.r).toNat
      omega
  constructor
  · show (s.w - s.r).toNat ≤ (s.e - 1 - s.r).toNat
    omega
  · show (s.e - 1 - s.r).toNat ≤ INPUT_BUF_SIZE
    omega
  · show (s.e - 1 - s.r).toNat = INPUT_BUF_SIZE → _
    omega

def Erased (s s' : Cons) : Prop := s'.buf = s.buf ∧ s'.r = s.r ∧ s'.w = s.w

theorem Erased.ready {s' : Cons} (h : Erased s s') : s'.ready = s.ready := by
  obtain ⟨hbuf, hr, hw⟩ := h
  rw [Cons.ready, hbuf, hr, hw, Cons.ready]

theorem killLine_spec (n : Nat) (h : Ordered s) : Ordered (killLine n s) ∧ Erased s (killLine n s) := by
  induction n generalizing s with
  | zero => exact ⟨h, rfl, rfl, rfl⟩
  | succ n ih =>
    rw [killLine]
    split
    · next hc => exact ih (h.erase hc.1)
    · exact ⟨h, rfl, rfl, rfl⟩

theorem store_whole (c : UInt8) (s : Cons) : (store c s).whole = s.whole.push c := rfl

theorem store_count (c : UInt8) (hlt : (s.e - s.r).toNat < INPUT_BUF_SIZE) :
    ((store c s).e - (store c s).r).toNat = (s.e - s.r).toNat + 1 := by
  have hcount : (s.whole.push c).count = s.whole.count + 1 := by
    refine RingBuffer.count_push ?_
    show (s.e - s.r).toNat + 1 < 2 ^ 32
    unfold INPUT_BUF_SIZE at hlt
    omega
  exact hcount

theorem store_spec (c : UInt8) (h : Ordered s) (hlt : (s.e - s.r).toNat < INPUT_BUF_SIZE) :
    (store c s).ready.contents = s.ready.contents ∧
      (store c s).whole.contents = s.ready.contents ++ (store c s).edited.contents := by
  have hcount := store_count c hlt
  have hle : ((store c s).w - (store c s).r).toNat ≤ ((store c s).e - (store c s).r).toNat := by
    rw [hcount]
    exact Nat.le_succ_of_le h.ready_le
  have hpush : (store c s).whole.contents = s.whole.contents ++ [c] := by
    rw [store_whole]
    exact RingBuffer.contents_push (by decide) (by decide) hlt
  have hready : (store c s).ready.contents = s.ready.contents := by
    have hlen : (s.w - s.r).toNat ≤ s.whole.contents.length := by
      rw [RingBuffer.contents_length]
      exact h.ready_le
    calc (store c s).ready.contents = (store c s).whole.contents.take (s.w - s.r).toNat :=
          RingBuffer.contents_take _ hle
      _ = s.whole.contents.take (s.w - s.r).toNat := by rw [hpush, take_append_of_le_length hlen]
      _ = s.ready.contents := (RingBuffer.contents_take _ h.ready_le).symm
  refine ⟨hready, ?_⟩
  rw [← hready]
  exact RingBuffer.contents_append _ hle

theorem consoleintr_spec (c : UInt8) (h : Ordered s) : Ordered (consoleintr c s).1 ∧ (consoleintr c s).1.r = s.r ∧
    (consoleintr c s).1.ready.contents = s.ready.contents ++ (consoleintr c s).2.getD [] := by
  have hsame : ∀ s' : Cons, Ordered s' ∧ Erased s s' → Ordered s' ∧ s'.r = s.r ∧
      s'.ready.contents = s.ready.contents ++ (none : Option (List UInt8)).getD [] := by
    intro s' hs'
    refine ⟨hs'.1, hs'.2.2.1, ?_⟩
    rw [hs'.2.ready]
    exact (append_nil _).symm
  have hself : Ordered s ∧ Erased s s := ⟨h, rfl, rfl, rfl⟩
  unfold consoleintr
  split
  · exact hsame s hself
  split
  · exact hsame _ (killLine_spec _ h)
  split
  · dsimp only
    split
    · next hne => exact hsame _ ⟨h.erase hne, rfl, rfl, rfl⟩
    · exact hsame s hself
  split
  · next hlt =>
    dsimp only
    generalize (if c = RETURN then NEWLINE else c) = c'
    have hcount := store_count c' hlt.2
    obtain ⟨hready, hwhole⟩ := store_spec c' h hlt.2
    have hle := h.ready_le
    have hr : (store c' s).r = s.r := rfl
    have hw : (store c' s).w = s.w := rfl
    split
    · refine ⟨⟨le_rfl, ?_, fun _ => rfl⟩, rfl, hwhole⟩
      show ((store c' s).e - (store c' s).r).toNat ≤ INPUT_BUF_SIZE
      omega
    · next hno =>
      refine ⟨⟨?_, ?_, fun hfull => absurd (.inr (.inr hfull)) hno⟩, rfl, ?_⟩
      · rw [hcount, hr, hw]
        omega
      · rw [hcount]
        omega
      · rw [hready]
        exact (append_nil _).symm
  · exact hsame s hself

theorem Ordered.take (h : Ordered s) (hne : s.r ≠ s.w) : Ordered { s with r := s.r + 1 } ∧
    s.ready.contents = s.buf (RingBuffer.slot s.r) :: ({ s with r := s.r + 1 } : Cons).ready.contents := by
  have hready : s.ready.count ≠ 0 := fun h0 => hne (RingBuffer.empty_iff.mpr h0)
  have hle := h.ready_le
  have hsize := h.size
  have hpop := RingBuffer.count_pop hready
  have hwhole : s.whole.count ≠ 0 := by
    have hw : s.whole.count = (s.e - s.r).toNat := rfl
    have hc : s.ready.count = (s.w - s.r).toNat := rfl
    omega
  have hpop' := RingBuffer.count_pop hwhole
  refine ⟨⟨?_, ?_, ?_⟩, RingBuffer.contents_pop hready⟩
  · show s.ready.pop.count ≤ s.whole.pop.count
    rw [hpop, hpop']
    exact Nat.sub_le_sub_right hle 1
  · show s.whole.pop.count ≤ INPUT_BUF_SIZE
    rw [hpop']
    exact le_trans (Nat.sub_le _ _) hsize
  · show s.whole.pop.count = INPUT_BUF_SIZE → _
    rw [hpop']
    have hw : s.whole.count = (s.e - s.r).toNat := rfl
    omega

end Cons

variable {ι : Type} {es : List (Event ι)}

section Ghost

def committed (es : List (Event ι)) : List UInt8 :=
  es.flatMap fun | .commit cs => cs | _ => []

-- What has been taken from the buffer, with the ends of file.
def consumed (es : List (Event ι)) : List UInt8 :=
  es.filterMap fun | .deliver _ c => some c | .eof _ => some (C 'D') | _ => none

structure Got where
  bytes : List UInt8
  eof : Bool

def Got.none : Got := ⟨[], false⟩

variable [DecidableEq ι]

def gotNext (p : ι) (g : Got) : Event ι → Got
  | .deliver q c => if q = p then { g with bytes := g.bytes ++ [c] } else g
  | .eof q => if q = p then { g with eof := true } else g
  | .ret q _ _ => if q = p then Got.none else g
  | .commit _ | .kill _ => g

def got (es : List (Event ι)) (p : ι) : Got := es.foldl (gotNext p) Got.none

theorem got_snoc (es : List (Event ι)) (e : Event ι) (p : ι) : got (es ++ [e]) p = gotNext p (got es p) e := by
  simp [got]

-- Why a read of `n` characters stops: it has them, a whole line, or an end-of-file. `next` is the
-- next character.
def Complete (g : Got) (n : Int) (next : Option UInt8) : Prop :=
  n ≤ g.bytes.length ∨ g.bytes.getLast? = some NEWLINE ∨ g.eof = true ∨ g.bytes ≠ [] ∧ next = some (C 'D')

-- What the events say to the readers, in a run from `start`.
def Honest (start : State ι) (before : List (Event ι)) : Event ι → Prop
  | .commit _ | .kill _ => True
  | .deliver p c => c ≠ C 'D' ∧ NEWLINE ∉ (got before p).bytes ∧ (got before p).eof = false
  | .eof p => got before p = Got.none
  | .ret p n r =>
    if r = -1 then start.killed p = true ∨ .kill p ∈ before
    else r = (got before p).bytes.length ∧ r ≤ max n 0 ∧ ((got before p).eof = true → r = 0) ∧
      Complete (got before p) n (start.cons.ready.contents ++ committed before)[(consumed before).length]?

end Ghost

attribute [local simp] committed consumed gotNext

def Mapped : {ι : Type} → Move ι → Prop
  | _, .call _ dst n => ∀ i : Nat, (i : Int) < n → dst i = true
  | _, .step _ | _, .intr _ | _, .kill _ => True

instance {ι : Type} : (m : Move ι) → Decidable (Mapped m)
  | .call _ dst n =>
    decidable_of_iff (∀ i, i < n.toNat → dst i = true)
      ⟨fun h i hi => h i (by omega), fun h i hi => h i (by omega)⟩
  | .step _ => isTrue trivial
  | .intr _ => isTrue trivial
  | .kill _ => isTrue trivial

section Invariant

-- A read that goes on has got `i` characters of one line.
structure Reading (g : Got) (dst : Nat → Bool) (n : Int) (i : Nat) : Prop where
  length : g.bytes.length = i
  line : NEWLINE ∉ g.bytes
  eof : g.eof = false
  mapped : ∀ j : Nat, (j : Int) < n → dst j = true
  le : (i : Int) ≤ max n 0

-- What a process can rely on where it stands, having got `g`.
def At (g : Got) (s : State ι) (p : ι) : Pc → Prop
  | .user => g = Got.none
  | .readAcquire dst n => Reading g dst n 0
  | .readTop dst n i => s.lock = some p ∧ Reading g dst n i
  | .readWait dst n i | .readSleep dst n i => s.lock = some p ∧ Reading g dst n i ∧ (i : Int) < n
  | .readWake dst n i => Reading g dst n i ∧ (i : Int) < n
  | .readChar dst n i => s.lock = some p ∧ Reading g dst n i ∧ (i : Int) < n ∧ s.cons.r ≠ s.cons.w
  | .readDone n i => s.lock = some p ∧ g.bytes.length = i ∧ (i : Int) ≤ max n 0 ∧ (g.eof = true → i = 0) ∧
    Complete g n s.cons.ready.contents.head?

variable [DecidableEq ι]

structure Flow (start : State ι) (es : List (Event ι)) (s : State ι) : Prop where
  ordered : Ordered s.cons
  stream : consumed es ++ s.cons.ready.contents = start.cons.ready.contents ++ committed es
  stand : ∀ p, At (got es p) s p (s.pc p)
  killed : ∀ p, s.killed p = true → start.killed p = true ∨ .kill p ∈ es
  honest : Always (Honest start) es

end Invariant

section Steps

variable {g : Got} {s s' : State ι} {p q : ι} {pc : Pc}

def Others (p : ι) (s s' : State ι) : Prop :=
  ∀ q, q ≠ p → s'.pc q = s.pc q ∧ (s.lock = some q → s'.lock = some q ∧ s'.cons = s.cons)

theorem At.keep (h : At g s q pc) (hk : s.lock = some q → s'.lock = some q ∧ s'.cons = s.cons) : At g s' q pc := by
  cases pc with
  | user | readAcquire | readWake => exact h
  | readTop | readWait | readSleep => exact ⟨(hk h.1).1, h.2⟩
  | readChar | readDone =>
    obtain ⟨hl, hc⟩ := hk h.1
    simp only [At, hc]
    exact ⟨hl, h.2⟩

variable [DecidableEq ι]

theorem others_of_same (hl : s'.lock = s.lock) (hc : s'.cons = s.cons) (hpc : s'.pc = update s.pc p pc) :
    Others p s s' := by
  intro q hq
  rw [hpc, hl]
  exact ⟨update_of_ne hq .., fun h => ⟨h, hc⟩⟩

theorem others_of_lock (hl : s.lock = some p ∨ s.lock = none) (hpc : s'.pc = update s.pc p pc) : Others p s s' := by
  intro q hq
  rw [hpc]
  refine ⟨update_of_ne hq .., fun h => ?_⟩
  rcases hl with hl | hl <;> rw [h] at hl
  · cases hl
    exact absurd rfl hq
  · cases hl

variable {start : State ι}

variable (hf : Flow start es s)

include hf

theorem Flow.silent (ho : Others p s s') (hcons : s'.cons = s.cons)
    (hkilled : s'.killed = s.killed) (hp : At (got es p) s' p (s'.pc p)) : Flow start es s' := by
  refine ⟨hcons ▸ hf.ordered, hcons ▸ hf.stream, fun q => ?_, hkilled ▸ hf.killed, hf.honest⟩
  by_cases hq : q = p
  · rw [hq]
    exact hp
  · rw [(ho q hq).1]
    exact (hf.stand q).keep (ho q hq).2

theorem Flow.event (ho : Others p s s') {e : Event ι}
    (he : ∀ q, q ≠ p → gotNext q (got es q) e = got es q) (hh : Honest start es e) (hordered : Ordered s'.cons)
    (hstream : consumed [e] ++ s'.cons.ready.contents = s.cons.ready.contents ++ committed [e])
    (hkilled : s'.killed = s.killed) (hp : At (gotNext p (got es p) e) s' p (s'.pc p)) :
    Flow start (es ++ [e]) s' := by
  refine ⟨hordered, ?_, fun q => ?_, fun q hq => ?_, always_snoc hf.honest hh⟩
  · calc consumed (es ++ [e]) ++ s'.cons.ready.contents = consumed es ++ (consumed [e] ++ s'.cons.ready.contents) := by
          simp
      _ = (consumed es ++ s.cons.ready.contents) ++ committed [e] := by rw [hstream, append_assoc]
      _ = start.cons.ready.contents ++ (committed es ++ committed [e]) := by rw [hf.stream, append_assoc]
      _ = start.cons.ready.contents ++ committed (es ++ [e]) := by simp
  · rw [got_snoc]
    by_cases hq : q = p
    · rw [hq]
      exact hp
    · rw [(ho q hq).1, he q hq]
      exact (hf.stand q).keep (ho q hq).2
  · rw [hkilled] at hq
    exact (hf.killed q hq).imp_right (mem_append_left _)

theorem Flow.next :
    (start.cons.ready.contents ++ committed es)[(consumed es).length]? = s.cons.ready.contents.head? := by
  rw [← hf.stream, getElem?_append_right (le_refl _), Nat.sub_self, head?_eq_getElem?]

theorem Flow.leave (hl : s.lock = some p) {n r : Int} (hh : Honest start es (.ret p n r)) :
    Flow start (es ++ [.ret p n r]) ((s.setLock none).goto p .user) := by
  refine hf.event (others_of_lock (.inl hl) rfl) ?_ hh hf.ordered ?_ rfl ?_
  · intro q hq
    simp [hq.symm]
  · simp
  · simp [At]

variable {r : State ι × List (Event ι)}

theorem Flow.acquire (hm : acquire s p pc = some r)
    (hp : At (got es p) ((s.setLock (some p)).goto p pc) p pc) : Flow start (es ++ r.2) r.1 := by
  unfold Console.acquire at hm
  cases hl : s.lock with
  | some q => simp [hl] at hm
  | none =>
    simp only [hl] at hm
    cases hm
    rw [append_nil]
    refine hf.silent (others_of_lock (.inr hl) rfl) rfl rfl ?_
    simpa using hp

theorem Flow.readChar {dst : Nat → Bool} {n : Int} {i : Nat} (hpc : s.pc p = .readChar dst n i) :
    Flow start (es ++ (readChar s p dst n i).2) (readChar s p dst n i).1 := by
  have hat := hf.stand p
  rw [hpc] at hat
  obtain ⟨hl, hg, hin, hne⟩ := hat
  obtain ⟨hordered, hready⟩ := hf.ordered.take hne
  have hothers : ∀ (cons : Cons) (pc : Pc), Others p s ((s.setCons cons).goto p pc) := fun _ _ =>
    others_of_lock (.inl hl) rfl
  have hdeliver : ∀ pc, s.cons.buf (RingBuffer.slot s.cons.r) ≠ C 'D' →
      At ⟨(got es p).bytes ++ [s.cons.buf (RingBuffer.slot s.cons.r)], false⟩
        ((s.setCons { s.cons with r := s.cons.r + 1 }).goto p pc) p pc →
      Flow start (es ++ [.deliver p (s.cons.buf (RingBuffer.slot s.cons.r))])
        ((s.setCons { s.cons with r := s.cons.r + 1 }).goto p pc) := by
    intro pc hc hp
    refine hf.event (hothers _ _) ?_ ⟨hc, hg.line, hg.eof⟩ hordered ?_ rfl ?_
    · intro q hq
      simp [hq.symm]
    · simpa using hready.symm
    · simpa [hg.eof] using hp
  unfold Console.readChar
  dsimp only
  split
  · next hc =>
    split
    · -- the end-of-file stays
      next hi =>
        rw [append_nil]
        have hback : s.cons.r + 1 - 1 = s.cons.r := by grind
        refine hf.silent (hothers _ _) ?_ rfl ?_
        · show ({ s.cons with r := s.cons.r + 1 - 1 } : Cons) = s.cons
          rw [hback]
        simp only [State.goto, State.setCons, update_self, At, hback]
        refine ⟨hl, hg.length, hg.le, fun he => ?_, .inr (.inr (.inr ⟨?_, ?_⟩))⟩
        · rw [hg.eof] at he
          cases he
        · rw [← length_pos_iff, hg.length]
          exact hi
        · rw [hready, head?_cons, hc]
    · next hi =>
      have hzero : (got es p).bytes = [] := by
        rw [← length_eq_zero_iff, hg.length]
        omega
      have hnone : got es p = Got.none := by
        cases hgot : got es p with
        | mk bytes eof =>
          rw [hgot] at hzero hg
          rw [show bytes = [] from hzero, show eof = false from hg.eof]
          rfl
      refine hf.event (hothers _ _) ?_ hnone hordered ?_ rfl ?_
      · intro q hq
        simp [hq.symm]
      · rw [hc] at hready
        simpa using hready.symm
      · have hle := hg.le
        simp only [State.goto, State.setCons, update_self, At, gotNext, if_true, Complete]
        exact ⟨hl, hg.length, hle, fun _ => by omega, .inr (.inr (.inl trivial))⟩
  · next hc =>
    rw [if_pos (hg.mapped i hin)]
    have hlen : ((got es p).bytes ++ [s.cons.buf (RingBuffer.slot s.cons.r)]).length = i + 1 := by
      rw [length_append, hg.length, length_singleton]
    split
    · next hnl =>
      refine hdeliver _ hc ⟨by simpa using hl, hlen, by omega, (fun h => by cases h), .inr (.inl ?_)⟩
      rw [getLast?_concat, hnl]
    · next hnl =>
      refine hdeliver _ hc ⟨by simpa using hl, ⟨hlen, fun hmem => ?_, rfl, hg.mapped, by omega⟩⟩
      rcases mem_append.mp hmem with h | h
      · exact hg.line h
      · exact hnl (mem_singleton.mp h).symm

theorem Flow.step (hm : console (.step p) s = some r) : Flow start (es ++ r.2) r.1 := by
  have hat := hf.stand p
  have hgo : ∀ pc, some (s.goto p pc, []) = some r → At (got es p) (s.goto p pc) p pc → Flow start (es ++ r.2) r.1 := by
    intro pc heq hp
    cases heq
    rw [append_nil]
    refine hf.silent (others_of_same rfl rfl rfl) rfl rfl ?_
    simpa using hp
  simp only [console] at hm
  generalize hpc : s.pc p = pc at hat hm
  cases pc with
  | user => cases hm
  | readAcquire dst n =>
    exact hf.acquire hm ⟨rfl, hat⟩
  | readTop dst n i =>
    obtain ⟨hl, hg⟩ := hat
    simp only at hm
    split at hm
    · next hin => exact hgo _ hm ⟨hl, hg, hin⟩
    · next hin =>
      refine hgo _ hm ⟨hl, hg.length, hg.le, fun he => ?_, .inl ?_⟩
      · rw [hg.eof] at he
        cases he
      · rw [hg.length]
        omega
  | readWait dst n i =>
    obtain ⟨hl, hg, hin⟩ := hat
    simp only at hm
    split at hm
    · split at hm
      · next hk =>
        cases hm
        exact hf.leave hl (by simpa [Honest] using hf.killed p hk)
      · exact hgo _ hm ⟨hl, hg, hin⟩
    · next hne => exact hgo _ hm ⟨hl, hg, hin, hne⟩
  | readSleep dst n i =>
    obtain ⟨hl, hg, hin⟩ := hat
    cases hm
    rw [append_nil]
    refine hf.silent (others_of_lock (.inl hl) rfl) rfl rfl ?_
    simpa [At] using ⟨hg, hin⟩
  | readWake dst n i =>
    simp only at hm
    split at hm
    · cases hm
    · exact hf.acquire hm ⟨rfl, hat⟩
  | readChar dst n i =>
    cases hm
    exact hf.readChar hpc
  | readDone n i =>
    obtain ⟨hl, hlen, hle, heof, hcomplete⟩ := hat
    cases hm
    refine hf.leave hl ?_
    have hr : (i : Int) ≠ -1 := by omega
    rw [Honest, if_neg hr, hf.next, hlen]
    exact ⟨rfl, hle, fun he => by rw [heof he]; rfl, hcomplete⟩

theorem Flow.intr {c : UInt8} (hm : console (.intr c) s = some r) : Flow start (es ++ r.2) r.1 := by
  obtain ⟨hordered, -, hready⟩ := consoleintr_spec c hf.ordered
  cases hl : s.lock with
  | some q => simp [console, hl] at hm
  | none =>
    have hstand : ∀ t : State ι, t.pc = s.pc → ∀ q, At (got es q) t q (t.pc q) := by
      intro t ht q
      rw [ht]
      refine (hf.stand q).keep fun h => ?_
      rw [hl] at h
      cases h
    simp only [console, hl] at hm
    cases hi : consoleintr c s.cons with
    | mk cons o =>
      rw [hi] at hordered hready hm
      cases o with
      | none =>
        cases hm
        rw [append_nil]
        rw [Option.getD_none, append_nil] at hready
        refine ⟨hordered, ?_, hstand _ rfl, hf.killed, hf.honest⟩
        rw [← hf.stream]
        exact congrArg (consumed es ++ ·) hready
      | some cs =>
        cases hm
        refine ⟨hordered, ?_, fun q => ?_, fun q hq => ?_, always_snoc hf.honest trivial⟩
        · calc consumed (es ++ [.commit cs]) ++ cons.ready.contents
              = consumed es ++ s.cons.ready.contents ++ cs := by
                rw [show cons.ready.contents = _ from hready]
                simp
            _ = start.cons.ready.contents ++ committed (es ++ [.commit cs]) := by
                rw [hf.stream]
                simp
        · rw [got_snoc]
          exact hstand ((s.setCons cons).wakeup) rfl q
        · exact (hf.killed q hq).imp_right (mem_append_left _)

theorem Flow.move {m : Move ι} {es' : List (Event ι)} (hmap : Mapped m)
    (hm : console m s = some (s', es')) : Flow start (es ++ es') s' := by
  cases m with
  | step p => exact hf.step hm
  | intr c => exact hf.intr hm
  | kill p =>
    cases hm
    refine ⟨hf.ordered, ?_, fun q => ?_, fun q hq => ?_, always_snoc hf.honest trivial⟩
    · simpa using hf.stream
    · rw [got_snoc]
      exact (hf.stand q).keep fun h => ⟨h, rfl⟩
    · by_cases hqp : q = p
      · rw [hqp]
        exact .inr (mem_append_right _ mem_cons_self)
      · simp only [State.kill, update_of_ne hqp] at hq
        exact (hf.killed q hq).imp_right (mem_append_left _)
  | call p dst n =>
    simp only [console] at hm
    split at hm
    · next hu =>
      cases hm
      rw [append_nil]
      have hat := hf.stand p
      rw [hu] at hat
      refine hf.silent (others_of_same rfl rfl rfl) rfl rfl ?_
      simp only [State.goto, update_self, At, show got es p = Got.none from hat]
      exact ⟨rfl, not_mem_nil, rfl, hmap, by omega⟩
    · cases hm

end Steps

section Main

variable [DecidableEq ι] {s t : State ι}

end Main

def wrapping : State Bool := ⟨⟨fun _ => 0, -1, -1, -1⟩, none, fun _ => false, fun _ => false, fun _ => .user⟩

end Console
