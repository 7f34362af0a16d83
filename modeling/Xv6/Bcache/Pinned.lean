import Xv6.Bcache.Run

-- What holds of the buffers in every run, and that no pinned block is lost.

namespace Bcache

open Prog List Function

abbrev BPool (ι : Type) := Pool (sig ι) Halt Unit Call (State ι) ι

variable {ι : Type} {start : Nat} {g : ι → Th} {p : ι} {block : Nat}

theorem buf_unrefStep (s : State ι) (b a : Fin NBUF) :
    (unrefStep s b).buf a = (s.setRefcnt b ((s.buf b).refcnt - 1)).buf a := by
  unfold unrefStep
  dsimp only
  split <;> rfl

section Views

variable [DecidableEq ι]

def moving (P : BPool ι) (p : ι) : Option (Fin NBUF) := (P.thread p).bind fun th => moves th.past

def unpinnedBy (P : BPool ι) (p : ι) : Nat := ((P.thread p).map fun th => unpins th.past).getD 0

variable [Fintype ι]

-- The bgets of a buffer whose brelse has not ended.
def users (P : BPool ι) (b : Fin NBUF) : Nat :=
  ∑ p, ((if P.state.lock b = some p then 1 else 0) + if moving P p = some b then 1 else 0)

-- log_write has put the block into the log, and install_trans has not unpinned it.
def PinnedIn (P : BPool ι) (block : Nat) : Prop :=
  block ∈ P.state.log.lh ∧ ∀ p, block ∈ P.state.log.lh.drop (unpinnedBy P p)

instance (P : BPool ι) (block : Nat) : Decidable (PinnedIn P block) := inferInstanceAs (Decidable (_ ∧ _))

structure Sound (P : BPool ι) : Prop where
  cycle : ∃ l, P.state.list.Lists l ∧ ∀ b, b ∈ l
  inverse : ∀ x, P.state.list.prev (P.state.list.next x) = x ∧ P.state.list.next (P.state.list.prev x) = x
  unique : ∀ a b, (P.state.buf a).dev ≠ 0 → ident P.state a = ident P.state b → a = b
  count : ∀ b, (P.state.buf b).refcnt.toNat =
    users P b + if (P.state.buf b).dev = ROOTDEV ∧ PinnedIn P (P.state.buf b).blockno then 1 else 0
  pinned : ∀ block, PinnedIn P block → ∃ b, ident P.state b = (ROOTDEV, block) ∧ (P.state.buf b).valid = true
  -- the buffer that bread returns
  bread : ∀ p th v dev blockno, P.thread p = some th → th.call = .bread dev blockno → th.rest = .ret v →
    ∃ b, P.state.lock b = some p ∧ ident P.state b = (dev, blockno) ∧ (P.state.buf b).valid = true
  -- and the one that brelse has given up
  brelse : ∀ p th v b, P.thread p = some th → th.call = .brelse b → th.rest = .ret v →
    P.state.lock b ≠ some p ∧ moving P p = none

def Next (P : BPool ι) (p : ι) (c : Call) (a : Act ι) : Prop :=
  ∃ past k, P.thread p = some ⟨c, past, .act a k⟩

-- What one move does to the buffers in use.
structure Kept (P : BPool ι) (m : Move ι Call) (P' : BPool ι) : Prop where
  used : ∀ b, (P.state.buf b).refcnt ≠ 0 → ident P'.state b = ident P.state b
  pins : ∀ p c b, m = .step p → Next P p c (.logWrite b) → PinnedIn P' (P.state.buf b).blockno
  pinned : ∀ b block, PinnedIn P block → ident P.state b = (ROOTDEV, block) → PinnedIn P' block ∨
    ∃ p c, m = .step p ∧ Next P p c (.bunpin b) ∧ P.state.disk block = (P.state.buf b).data
  data : ∀ b block, PinnedIn P block → ident P.state b = (ROOTDEV, block) →
    (P'.state.buf b).valid = true ∧ ((P'.state.buf b).data = (P.state.buf b).data ∨
      ∃ p d, m = .step p ∧ Next P p (.store b d) (.store p b d) ∧ P.state.lock b = some p ∧ (P'.state.buf b).data = d)

end Views

section Steps

variable [Fintype ι] {s s' : State ι} {c : Call} {b : Fin NBUF} {t : Th}

theorem Logged.left_eq (h : Logged start s g) {cm : Commit} (hc : (g p).commit = some cm) :
    cm.left = s.log.lh.drop (unpinned (g p)) := by
  rw [unpinned_of_some hc, (h.commits p cm hc).2.lh]
  rfl

theorem Logged.pinned_iff (h : Logged start s g) :
    Pinned s g block ↔ block ∈ s.log.lh ∧ ∀ p, block ∈ s.log.lh.drop (unpinned (g p)) := by
  refine and_congr_right fun hmem => forall_congr' fun p => ?_
  constructor
  · intro hp
    cases hc : (g p).commit with
    | none =>
      rw [unpinned_of_none hc]
      exact hmem
    | some cm =>
      rw [← h.left_eq hc]
      exact hp cm hc
  · intro hp cm hc
    rw [h.left_eq hc]
    exact hp

variable [DecidableEq ι]

theorem Logged.pinned_next (h : Logged start s g) (h' : Logged start s' (update g p t)) {xs : List Nat}
    (hlh : s'.log.lh = s.log.lh ++ xs) (hun : unpinned t = unpinned (g p)) (hp : Pinned s g block) :
    Pinned s' (update g p t) block := by
  obtain ⟨hmem, hdrop⟩ := h.pinned_iff.mp hp
  have hgrow : ∀ n, block ∈ s.log.lh.drop n → block ∈ s'.log.lh.drop n := by
    intro n hn
    rw [hlh, drop_append]
    exact mem_append_left _ hn
  refine h'.pinned_iff.mpr ⟨hgrow 0 hmem, fun q => ?_⟩
  by_cases hqp : q = p
  · rw [hqp, update_self, hun]
    exact hgrow _ (hdrop p)
  · rw [update_of_ne hqp]
    exact hgrow _ (hdrop q)

variable {a : Act ι} {r : (sig ι).Res a} {W : (sig ι).Res a → Th → Prop}

omit [Fintype ι] in
theorem bstep_lh (hs : bstep a s = .done r s') (ha : a ≠ .clear) :
    ∃ xs, s'.log.lh = s.log.lh ++ xs := by
  have hsame : s'.log.lh = s.log.lh → ∃ xs, s'.log.lh = s.log.lh ++ xs := fun heq => ⟨[], by rw [heq, append_nil]⟩
  cases a with
  | bget p dev blockno =>
    refine hsame ?_
    change bgetStep s dev blockno = .done r s' at hs
    unfold bgetStep at hs
    split at hs
    · cases hs
    · cases hs
      rfl
    · split at hs <;> cases hs
      rfl
  | acquiresleep p b | fill b | store p b d | mine p b =>
    refine hsame ?_
    simp only [bstep] at hs
    split at hs <;> cases hs <;> rfl
  | releasesleep p b | holdingsleep p b | write b | data b | memmove b d | bunpin b | log | endCommit =>
    cases hs
    exact hsame rfl
  | unref b =>
    cases hs
    refine hsame ?_
    unfold unrefStep
    dsimp only
    split <;> rfl
  | beginOp p =>
    simp only [bstep] at hs
    split at hs
    · cases hs
    split at hs
    · next hb =>
      cases hs
      refine hsame ?_
      unfold Log.beginOp at hb
      split at hb <;> cases hb
      rfl
    · cases hs
  | logWrite b =>
    change (if s.home ≤ (s.buf b).blockno then logWriteStep s b else .wait) = .done () s' at hs
    split at hs
    · obtain ⟨-, -, ⟨-, rfl⟩ | ⟨-, rfl⟩⟩ := logWriteStep_done hs
      · exact hsame rfl
      · exact ⟨_, rfl⟩
    · cases hs
  | endOp p =>
    simp only [bstep] at hs
    split at hs
    · split at hs
      · cases hs
      · next he =>
        cases hs
        refine hsame ?_
        unfold Log.endOp at he
        dsimp only at he
        split at he
        · cases he
        · split at he <;> cases he <;> rfl
    · cases hs
  | clear => exact absurd rfl ha

theorem Inv.pinned_step (h : Inv start s g)
    (hrule : Rule start p c a (g p) W) (hs : bstep a s = .done r s') (hW : W r t)
    (h' : Inv start s' (update g p t)) (hp : Pinned s g block) (hid : ident s b = (ROOTDEV, block)) :
    Pinned s' (update g p t) block ∨ a = .bunpin b ∧ s.disk block = (s.buf b).data := by
  have hun := (hrule.next hW).2
  cases hrule with
  | clear hc hl =>
    have hmem := hp.2 p _ hc
    rw [hl] at hmem
    cases hmem
  | endCommit hc hl =>
    have hmem := hp.1
    rw [(h.logged.commits p _ hc).2.lh, hl] at hmem
    cases hmem
  | @bunpin _ cm b' blk hh hc hb hhome =>
    have hcopies := (h.logged.commits p cm hc).2
    have hid' := (h.cache.held p b' _ hh).2
    by_cases heq : block = blk
    · subst heq
      refine .inr ⟨by rw [h.unique hid hid'], ?_⟩
      rw [hcopies.written hhome block hb, hcopies.home b block (hp.2 p cm hc) hid]
    cases hs
    subst hW
    left
    obtain ⟨hmem, hdrop⟩ := h.logged.pinned_iff.mp hp
    refine h'.logged.pinned_iff.mpr ⟨hmem, fun q => ?_⟩
    by_cases hqp : q = p
    · rw [hqp, update_self]
      have hleft := hp.2 p cm hc
      obtain ⟨hlt, hget⟩ := List.getElem?_eq_some_iff.mp hb
      rw [Commit.left, drop_eq_getElem_cons hlt, hget] at hleft
      have hrest := (mem_cons.mp hleft).resolve_left heq
      rw [← hcopies.lh] at hrest
      exact hrest
    · rw [update_of_ne hqp]
      exact hdrop q
  | bget _ _ _ | acquiresleep _ _ _ | fill _ | holdingsleep _ _ | releasesleep _ _ _ | unref _ | data _ _ | header _ _ _ _
  | copy _ _ _ _ _ | install _ _ _ _ | write _ _ | log _ | beginOp _ | logWrite _ _ _ | endOp _ | store _ _ _ _
  | mine _ _ =>
    obtain ⟨xs, hlh⟩ := bstep_lh hs (by simp)
    exact .inl (h.logged.pinned_next h'.logged hlh hun hp)

theorem Cache.ident_step (h : Cache s g) (hs : bstep a s = .done r s')
    (hb : (s.buf b).refcnt ≠ 0) : ident s' b = ident s b := by
  cases a with
  | bget p dev blockno =>
    rcases bgetStep_done h hs with ⟨-, rfl⟩ | ⟨hzero, -, rfl⟩
    · exact ident_setRefcnt ..
    have hne : b ≠ r := by
      intro heq
      rw [heq] at hb
      exact hb hzero
    have hbuf : (s.recycle r dev blockno).buf b = s.buf b := update_of_ne hne ..
    exact congrArg (fun x => (x.dev, x.blockno)) hbuf
  | acquiresleep p b' | mine p b' =>
    simp only [bstep] at hs
    split at hs <;> cases hs
    rfl
  | fill b' =>
    simp only [bstep] at hs
    split at hs <;> cases hs
    · rfl
    · exact ident_setBuf (by rfl) b
  | store p b' d =>
    simp only [bstep] at hs
    split at hs <;> cases hs
    exact ident_setData ..
  | releasesleep p b' | holdingsleep p b' | write b' | data b' | log | clear | endCommit =>
    cases hs
    rfl
  | memmove b' d =>
    cases hs
    exact ident_setData ..
  | bunpin b' =>
    cases hs
    exact ident_setRefcnt ..
  | unref b' =>
    cases hs
    rw [ident, buf_unrefStep]
    exact ident_setRefcnt ..
  | beginOp p =>
    simp only [bstep] at hs
    split at hs
    · cases hs
    · split at hs <;> cases hs
      rfl
  | logWrite b' =>
    change (if s.home ≤ (s.buf b').blockno then logWriteStep s b' else .wait) = .done () s' at hs
    split at hs
    · obtain ⟨-, -, ⟨-, rfl⟩ | ⟨-, rfl⟩⟩ := logWriteStep_done hs
      · rfl
      · exact ident_setRefcnt ..
    · cases hs
  | endOp p =>
    simp only [bstep] at hs
    split at hs
    · split at hs <;> cases hs
      rfl
    · cases hs

theorem Inv.data_step (h : Inv start s g)
    (hrule : Rule start p c a (g p) W) (hs : bstep a s = .done r s') (hp : Pinned s g block)
    (hid : ident s b = (ROOTDEV, block)) :
    (s'.buf b).valid = true ∧ ((s'.buf b).data = (s.buf b).data ∨
      ∃ d, c = .store b d ∧ a = .store p b d ∧ s.lock b = some p ∧ (s'.buf b).data = d) := by
  have hv := h.pinned_valid hp hid
  have hsame : s'.buf b = s.buf b → (s'.buf b).valid = true ∧ ((s'.buf b).data = (s.buf b).data ∨
      ∃ d, c = .store b d ∧ a = .store p b d ∧ s.lock b = some p ∧ (s'.buf b).data = d) := by
    intro heq
    rw [heq]
    exact ⟨hv, .inl rfl⟩
  have hcount : ∀ b' n, s'.buf b = (s.setRefcnt b' n).buf b → (s'.buf b).valid = true ∧
      ((s'.buf b).data = (s.buf b).data ∨
        ∃ d, c = .store b d ∧ a = .store p b d ∧ s.lock b = some p ∧ (s'.buf b).data = d) := by
    intro b' n heq
    rw [heq, valid_setRefcnt]
    exact ⟨hv, .inl (data_setRefcnt ..)⟩
  have hgt := h.logged.apart block hp.1
  have hother : ∀ b' blk d, ident s b' = (ROOTDEV, blk) → blk ≠ block → (s.setData b' d).buf b = s.buf b := by
    intro b' blk d hid' hne
    refine update_of_ne (fun heq => hne ?_) ..
    rw [heq, hid', Prod.mk.injEq] at hid
    exact hid.2
  cases hrule with
  | bget _ dev blockno =>
    rcases bgetStep_done h.cache hs with ⟨-, rfl⟩ | ⟨hzero, -, rfl⟩
    · exact hcount _ _ rfl
    · refine hsame (update_of_ne (fun heq => ?_) ..)
      rw [heq] at hid
      exact (h.cache.unused hzero).2.2 block hid hp
  | acquiresleep _ _ _ | mine _ _ =>
    simp only [bstep] at hs
    split at hs <;> cases hs
    exact hsame rfl
  | @fill _ b' _ =>
    simp only [bstep] at hs
    split at hs
    · cases hs
      exact hsame rfl
    · next hn =>
      cases hs
      refine hsame (update_of_ne (fun heq => hn ?_) ..)
      rw [← heq]
      exact hv
  | releasesleep _ _ _ | holdingsleep _ _ | data _ _ | write _ _ | log _ | clear _ _ | endCommit _ _ =>
    cases hs
    exact hsame rfl
  | bunpin _ _ _ _ =>
    cases hs
    exact hcount _ _ rfl
  | unref _ =>
    cases hs
    exact hcount _ _ (buf_unrefStep ..)
  | header hh _ _ _ =>
    cases hs
    exact hsame (hother _ start _ (h.cache.held p _ _ hh).2 (by omega))
  | @copy _ cm _ blk hh hc _ hb _ =>
    cases hs
    obtain ⟨hlt, -⟩ := List.getElem?_eq_some_iff.mp hb
    rw [← (h.logged.commits p cm hc).2.lh] at hlt
    exact hsame (hother _ _ _ (h.cache.held p _ _ hh).2 (by omega))
  | @install _ cm b' blk hh hc _ hb =>
    cases hs
    have hid' := (h.cache.held p b' _ hh).2
    refine hsame ?_
    rw [buf_setData]
    split
    · next heq =>
      rw [← h.home hc hb hid', heq]
    · rfl
  | beginOp =>
    simp only [bstep] at hs
    split at hs
    · cases hs
    · split at hs <;> cases hs
      exact hsame rfl
  | @logWrite _ b' _ _ _ _ =>
    change (if s.home ≤ (s.buf b').blockno then logWriteStep s b' else .wait) = .done () s' at hs
    split at hs
    · obtain ⟨-, -, ⟨-, rfl⟩ | ⟨-, rfl⟩⟩ := logWriteStep_done hs
      · exact hsame rfl
      · exact hcount _ _ rfl
    · cases hs
  | endOp _ =>
    simp only [bstep] at hs
    split at hs
    · split at hs <;> cases hs
      exact hsame rfl
    · cases hs
  | store _ b' d hc =>
    simp only [bstep] at hs
    split at hs
    · next hl =>
      cases hs
      rw [valid_setData]
      refine ⟨hv, ?_⟩
      rw [buf_setData]
      split
      · next heq =>
        subst heq
        exact .inr ⟨d, hc, rfl, hl.1, rfl⟩
      · exact .inl rfl
    · cases hs

theorem Inv.pinned_logWrite (h : Inv start s g) (hs : logWriteStep s b = .done () s') :
    Pinned s' (update g p (g p)) (s.buf b).blockno := by
  obtain ⟨hout, -, hcase⟩ := logWriteStep_done hs
  refine ⟨?_, fun q cm hq => ?_⟩
  · rcases hcase with ⟨hmem, rfl⟩ | ⟨-, rfl⟩
    · exact hmem
    · exact mem_append_right _ mem_cons_self
  · rw [update_eq_self, h.no_commit hout q] at hq
    cases hq

end Steps

section Pools

variable [Fintype ι] [DecidableEq ι] {P P' : BPool ι}

abbrev BGuarded (start : Nat) (P : BPool ι) (g : ι → Th) : Prop :=
  Guarded (Rule start) (fun _ => True) (fun _ c _ => Ends c) (fun _ => Recorded) (fun s _ => Inv start s) Th.idle P g

section

variable (h : BGuarded start P g)

include h

section

omit [DecidableEq ι]

theorem moving_eq (p : ι) : moving P p = (g p).transit.map Prod.fst := by
  unfold moving
  cases hth : P.thread p with
  | none =>
    rw [h.idle p hth]
    rfl
  | some th => exact (h.rest p th hth).1.moves.symm

theorem unpinnedBy_eq (p : ι) : unpinnedBy P p = unpinned (g p) := by
  unfold unpinnedBy
  cases hth : P.thread p with
  | none =>
    rw [h.idle p hth]
    rfl
  | some th => exact (h.rest p th hth).1.unpins.symm

theorem pinnedIn_iff : PinnedIn P block ↔ Pinned P.state g block := by
  rw [h.inv.logged.pinned_iff]
  unfold PinnedIn
  simp only [unpinnedBy_eq h]

theorem pins_eq (b : Fin NBUF) : pins P.state g b =
    if (P.state.buf b).dev = ROOTDEV ∧ PinnedIn P (P.state.buf b).blockno then 1 else 0 := by
  classical
  unfold pins
  refine if_congr ⟨?_, ?_⟩ rfl rfl
  · rintro ⟨block, hid, hp⟩
    obtain ⟨hdev, hblock⟩ := Prod.mk.inj hid
    rw [hblock]
    exact ⟨hdev, (pinnedIn_iff h).mpr hp⟩
  · rintro ⟨hdev, hp⟩
    exact ⟨_, by rw [ident, hdev], (pinnedIn_iff h).mp hp⟩

theorem kept_of_state {m : Move ι Call} (hm : ∀ p, m ≠ .step p) (hs : P'.state = P.state)
    (hun : ∀ p, unpinnedBy P' p = unpinnedBy P p ∨ unpinnedBy P' p = 0) : Kept P m P' := by
  refine ⟨fun b _ => by rw [hs], fun p _ _ heq => absurd heq (hm p), fun b block hp _ => .inl ?_,
    fun b block hp hid => ?_⟩
  · unfold PinnedIn
    rw [hs]
    refine ⟨hp.1, fun p => ?_⟩
    rcases hun p with heq | heq
    · rw [heq]
      exact hp.2 p
    · rw [heq]
      exact hp.1
  · rw [hs]
    exact ⟨h.inv.pinned_valid ((pinnedIn_iff h).mp hp) hid, .inl rfl⟩

end

theorem users_eq (b : Fin NBUF) : users P b = locked P.state b + transits g b := by
  unfold users
  rw [Finset.sum_add_distrib]
  congr 1
  · unfold locked
    cases P.state.lock b with
    | none => simp
    | some q =>
      have hother : ∀ p ∈ Finset.univ, p ≠ q → (if some q = some p then 1 else 0) = 0 := by
        intro p _ hne
        rw [if_neg]
        exact fun heq => hne (Option.some.inj heq).symm
      rw [Finset.sum_eq_single q hother (fun hn => absurd (Finset.mem_univ q) hn), if_pos rfl]
      rfl
  · refine Finset.sum_congr rfl fun p _ => ?_
    rw [moving_eq h]
    rfl

theorem sound_of_guarded : Sound P := by
  obtain ⟨l, hl, hall⟩ := h.inv.cache.cycle
  refine ⟨⟨l, hl, hall⟩, fun x => hl.inverse fun a _ => hall a, h.inv.cache.unique, fun b => ?_, fun block hp => ?_,
    fun p th v dev blockno hth hcall hrest => ?_, fun p th v b hth hcall hrest => ?_⟩
  · rw [h.inv.cache.count b, users_eq h, pins_eq h]
  · exact h.inv.logged.pinned block ((pinnedIn_iff h).mp hp)
  · have hQ := (h.rest p th hth).2
    rw [hrest] at hQ
    obtain ⟨b, hb⟩ := hQ.bread dev blockno hcall
    obtain ⟨hl, hid⟩ := h.inv.cache.held p b _ hb
    exact ⟨b, hl, hid, h.inv.held_valid hb hQ.post.2.1⟩
  · have hQ := (h.rest p th hth).2
    rw [hrest] at hQ
    refine ⟨h.inv.cache.freed p b (hQ.brelse b hcall), ?_⟩
    rw [moving_eq h, hQ.post.1]
    rfl

end

omit [Fintype ι] in
theorem unpinnedBy_update {th : Option (Thread (sig ι) Halt Unit Call)} (hP : P'.thread = update P.thread p th)
    (hth : (th.map fun th => unpins th.past).getD 0 = 0) (q : ι) :
    unpinnedBy P' q = unpinnedBy P q ∨ unpinnedBy P' q = 0 := by
  unfold unpinnedBy
  rw [hP]
  by_cases hqp : q = p
  · rw [hqp, update_self]
    exact .inr hth
  · rw [update_of_ne hqp]
    exact .inl rfl

theorem kept_of_guarded (hcard : Fintype.card ι + 3 < 2 ^ 32) (h : BGuarded start P g) {m : Move ι Call}
    (hm : (machine ι).next m P = some P') : Kept P m P' := by
  cases m with
  | start p c =>
    obtain ⟨-, -, rfl⟩ := Machine.next_start hm
    exact kept_of_state h nofun rfl (unpinnedBy_update rfl rfl)
  | finish p =>
    obtain ⟨c, past, v, -, rfl⟩ := Machine.next_finish hm
    exact kept_of_state h nofun rfl (unpinnedBy_update rfl rfl)
  | step p =>
    obtain ⟨c, past, a, k, r, s', hth, hs, rfl⟩ := Machine.next_step hm
    obtain ⟨hR, W, hrule, hk⟩ := h.rest p _ hth
    obtain ⟨t, ht, hinv⟩ := h.inv.step hcard hrule hs
    have h' : BGuarded start { P with
        state := s', thread := update P.thread p (some ⟨c, past ++ [⟨a, r⟩], k r⟩) } (update g p t) :=
      h.update hinv (hR.next hrule ht) (hk r t ht)
    have hnext : ∀ q c' a', Move.step p = Move.step (χ := Call) q → Next P q c' a' → q = p ∧ c' = c ∧ a' = a := by
      rintro q c' a' heq ⟨past', k', hth'⟩
      cases heq
      rw [hth] at hth'
      cases hth'
      exact ⟨rfl, rfl, rfl⟩
    refine ⟨fun b hb => h.inv.cache.ident_step hs hb, fun q c' b heq hn => ?_, fun b block hp hid => ?_,
      fun b block hp hid => ?_⟩
    · obtain ⟨-, -, rfl⟩ := hnext q c' _ heq hn
      refine (pinnedIn_iff h').mpr ?_
      cases hrule with
      | logWrite _ _ _ =>
        subst ht
        change (if P.state.home ≤ (P.state.buf b).blockno then logWriteStep P.state b else .wait) = .done () s' at hs
        split at hs
        · exact h.inv.pinned_logWrite hs
        · cases hs
    · rcases h.inv.pinned_step hrule hs ht hinv ((pinnedIn_iff h).mp hp) hid with hp' | ⟨rfl, hdisk⟩
      · exact .inl ((pinnedIn_iff h').mpr hp')
      · exact .inr ⟨p, c, rfl, ⟨past, k, hth⟩, hdisk⟩
    · obtain ⟨hv, heq | ⟨d, rfl, rfl, hl, hd⟩⟩ := h.inv.data_step hrule hs ((pinnedIn_iff h).mp hp) hid
      · exact ⟨hv, .inl heq⟩
      · exact ⟨hv, .inr ⟨p, d, rfl, ⟨past, k, hth⟩, hl, hd⟩⟩

def atBoot (c : Circular (Fin NBUF)) (disk : Nat → Block) (logstart size : Nat) : BPool ι :=
  ⟨boot c disk logstart size, fun _ => none, []⟩

theorem buffer_cache (c : Circular (Fin NBUF)) (disk : Nat → Block) (logstart size : Nat) (hcard : Fintype.card ι ≤ NPROC)
    (h : (machine ι).Reach (fun _ _ => True) (atBoot c disk logstart size) P) :
    Sound P ∧ ∀ m P', (machine ι).next m P = some P' → Kept P m P' := by
  have hcard' : Fintype.card ι + 3 < 2 ^ 32 := by
    unfold NPROC at hcard
    omega
  have hboot : BGuarded logstart (atBoot c disk logstart size) fun _ : ι => Th.idle :=
    ⟨inv_boot c disk logstart size, fun _ _ => rfl, nofun⟩
  have hreach : (machine ι).Reach (okMove fun _ _ _ _ => True) (atBoot c disk logstart size) P :=
    h.weaken fun P m _ => by
      cases m <;> simp [okMove]
  obtain ⟨g, hg⟩ := (discipline logstart hcard').reach ⟨_, hboot⟩ hreach
  exact ⟨sound_of_guarded hg, fun m P' hm => kept_of_guarded hcard' hg hm⟩

theorem buffer_cache_pinned : ∃ P : BPool (Fin NPROC), PinnedIn P 50 ∧ (P.state.buf 0).refcnt = 2 ∧ users P 0 = 1 ∧
    Sound P ∧ ∀ m P', (machine (Fin NPROC)).next m P = some P' → Kept P m P' := by
  have hrun : ((machine (Fin NPROC)).run
      [.start 0 .beginOp, .step 0, .finish 0, .start 0 (.bread ROOTDEV 50), .step 0, .step 0, .step 0, .finish 0,
        .start 0 (.store 0 fun _ => 7), .step 0, .finish 0, .start 0 (.logWrite 0), .step 0, .step 0, .finish 0,
        .start 0 (.brelse 0), .step 0, .step 0, .step 0, .finish 0, .start 1 (.bread ROOTDEV 50), .step 1]
      (atBoot ⟨fun _ => none, fun _ => none⟩ (fun _ => Block.zero) 2 LOGSIZE)).any
        (fun P => decide (PinnedIn P 50 ∧ (P.state.buf 0).refcnt = 2 ∧ users P 0 = 1)) = true := by
    decide
  obtain ⟨P, hreach, hP⟩ := Machine.reach_of_any hrun
  obtain ⟨hpin, href, husers⟩ := of_decide_eq_true hP
  exact ⟨P, hpin, href, husers, buffer_cache _ _ 2 LOGSIZE (by decide) hreach⟩

end Pools

end Bcache
