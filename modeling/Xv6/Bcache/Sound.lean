import Xv6.Bcache.Inv

-- Every step that the rules allow keeps the counts and the data.

namespace Bcache

open Prog List Function

structure Inv {ι : Type} [Fintype ι] (start : Nat) (s : State ι) (g : ι → Th) : Prop where
  cache : Cache s g
  logged : Logged start s g

variable {ι : Type} {start block blk : Nat} {s s' : State ι} {g : ι → Th} {p q : ι} {t t' : Th} {b : Fin NBUF}
  {x : Nat × Nat} {cm : Commit} {d : Block} {y : Buf}

theorem Copies.keep (h : Copies start s t cm) (hlh : s'.log.lh = s.log.lh) (hdisk : s'.disk = s.disk)
    (hid : ∀ b, ident s' b = ident s b) (hvalid : ∀ b, (s'.buf b).valid = (s.buf b).valid)
    (hdata : ∀ b, (s'.buf b).data = (s.buf b).data)
    (hheld : ∀ b, cm.dirty = some b → t'.held b = t.held b) : Copies start s' t' cm := by
  refine ⟨hlh.trans h.lh, fun i block hi hb => ?_, fun b block hb hx => ?_, fun b hb => ?_, fun hh block hb => ?_⟩
  · obtain ⟨hd, hbuf⟩ := h.log i block hi hb
    rw [hdisk]
    refine ⟨hd, fun a ha hv => ?_⟩
    rw [hid] at ha
    rw [hvalid] at hv
    rw [hdata]
    exact hbuf a ha hv
  · rw [hid] at hx
    rw [hdata]
    exact h.home b block hb hx
  · obtain ⟨hl, hv, hd⟩ := h.dirty b hb
    rw [hheld b hb, hvalid, hdata]
    exact ⟨hl, hv, hd⟩
  · rw [hdisk]
    exact h.written hh block hb

theorem data_setRefcnt (s : State ι) (b a : Fin NBUF) (n : BitVec 32) :
    ((s.setRefcnt b n).buf a).data = (s.buf a).data := field_setBuf Buf.data (by rfl) a

theorem Copies.setBuf (hc : Copies start s t cm)
    (hlog : ∀ i block, i < cm.copied → cm.lh[i]? = some block → (y.dev, y.blockno) = (ROOTDEV, start + i + 1) →
      y.valid = true → y.data = cm.copy block)
    (hhome : ∀ block, block ∈ cm.left → (y.dev, y.blockno) = (ROOTDEV, block) → y.data = cm.copy block)
    (hdirty : cm.dirty ≠ some b) : Copies start (s.setBuf b y) t cm := by
  have hself : (s.setBuf b y).buf b = y := update_self ..
  have hother : ∀ a, a ≠ b → (s.setBuf b y).buf a = s.buf a := fun a hab => update_of_ne hab ..
  refine ⟨hc.lh, fun i block hi hbl => ⟨(hc.log i block hi hbl).1, fun a ha hv => ?_⟩, fun a block hbl ha => ?_,
    fun a ha => ?_, hc.written⟩
  · rw [ident] at ha
    by_cases hab : a = b
    · rw [hab, hself] at ha hv ⊢
      exact hlog i block hi hbl ha hv
    · rw [hother a hab] at ha hv ⊢
      exact (hc.log i block hi hbl).2 a ha hv
  · rw [ident] at ha
    by_cases hab : a = b
    · rw [hab, hself] at ha ⊢
      exact hhome block hbl ha
    · rw [hother a hab] at ha ⊢
      exact hc.home a block hbl ha
  · rw [hother a fun hab => hdirty (hab ▸ ha)]
    exact hc.dirty a ha

theorem buf_setData (s : State ι) (b a : Fin NBUF) (d : Block) :
    (s.setData b d).buf a = if a = b then { s.buf b with data := d } else s.buf a := buf_setBuf ..

theorem ident_setData (s : State ι) (b a : Fin NBUF) (d : Block) : ident (s.setData b d) a = ident s a :=
  ident_setBuf (by rfl) a

theorem valid_setData (s : State ι) (b a : Fin NBUF) (d : Block) :
    ((s.setData b d).buf a).valid = (s.buf a).valid := field_setBuf Buf.valid (by rfl) a

theorem Copies.setData (hc : Copies start s t cm) (hid : ident s b = (ROOTDEV, blk))
    (hlog : ∀ i block, i < cm.copied → cm.lh[i]? = some block → start + i + 1 ≠ blk) (hhome : blk ∉ cm.left)
    (hdirty : cm.dirty = none) : Copies start (s.setData b d) t cm := by
  refine hc.setBuf (fun i block hi hbl heq _ => ?_) (fun block hbl heq => ?_) (by rw [hdirty]; nofun)
  · exact absurd (congrArg Prod.snd (heq.symm.trans hid)) (hlog i block hi hbl)
  · rw [show block = blk from congrArg Prod.snd (heq.symm.trans hid)] at hbl
    exact absurd hbl hhome

theorem Copies.write (hc : Copies start s t cm) (hid : ident s b = (ROOTDEV, blk))
    (hv : (s.buf b).valid = true) :
    Copies start { s with disk := update s.disk (s.buf b).blockno (s.buf b).data } t cm := by
  have hblk : (s.buf b).blockno = blk := congrArg Prod.snd hid
  rw [hblk]
  refine ⟨hc.lh, fun i block hi hbl => ⟨?_, (hc.log i block hi hbl).2⟩, hc.home, hc.dirty, fun hh block hbl => ?_⟩
  · by_cases heq : start + i + 1 = blk
    · have hdata := (hc.log i block hi hbl).2 b (by rw [heq]; exact hid) hv
      rw [heq]
      exact (update_self ..).trans hdata
    · exact (update_of_ne heq ..).trans (hc.log i block hi hbl).1
  · by_cases heq : block = blk
    · rw [heq] at hbl ⊢
      have hleft : blk ∈ cm.left := by
        rw [Commit.left]
        exact mem_of_mem_head? (by rw [head?_drop]; exact hbl)
      exact (update_self ..).trans (hc.home b blk hleft hid)
    · exact (update_of_ne heq ..).trans (hc.written hh block hbl)

theorem logWriteStep_done (hs : logWriteStep s b = .done () s') :
    1 ≤ s.log.outstanding ∧ s.log.lh.length + 1 < s.log.size ∧ ((s.buf b).blockno ∈ s.log.lh ∧ s' = s ∨
        (s.buf b).blockno ∉ s.log.lh ∧ s' = (s.setLog { s.log with lh := s.log.lh ++ [(s.buf b).blockno] }).setRefcnt b
          ((s.buf b).refcnt + 1)) := by
  unfold logWriteStep at hs
  dsimp only at hs
  cases hlog : s.log.logWrite (s.buf b).blockno with
  | error e =>
    rw [hlog] at hs
    cases hs
  | ok log =>
    rw [hlog] at hs
    dsimp only at hs
    obtain ⟨rfl, -, hsize⟩ := Log.logWrite_eq hlog
    have hout : 1 ≤ s.log.outstanding := by
      by_contra hn
      unfold Log.logWrite at hlog
      split at hlog
      · cases hlog
      · rw [if_pos (by omega)] at hlog
        cases hlog
    refine ⟨hout, hsize, ?_⟩
    by_cases hmem : (s.buf b).blockno ∈ s.log.lh
    · simp only [hmem, if_true] at hs
      cases hs
      exact .inl ⟨hmem, rfl⟩
    · simp only [hmem, if_false] at hs
      cases hs
      exact .inr ⟨hmem, rfl⟩

section

variable [DecidableEq ι]

theorem commit_update (hother : ∀ q cm, q ≠ p → (g q).commit ≠ some cm) (h : (update g p t q).commit = some cm) :
    q = p ∧ t.commit = some cm := by
  by_cases hqp : q = p
  · rw [hqp, update_self] at h
    exact ⟨hqp, h⟩
  · rw [update_of_ne hqp] at h
    exact absurd h (hother q cm hqp)

end

variable [Fintype ι]

section

variable (h : Logged start s g)

include h

theorem Logged.no_commit (hno : s.log.committing = false) (q : ι) (cm : Commit) :
    (g q).commit ≠ some cm := by
  intro hq
  have hc := (h.commits q cm hq).1
  rw [hno] at hc
  cases hc

theorem Logged.not_committing (hp : s.inOp p = true) : s.log.committing = false := by
  cases hcm : s.log.committing with
  | false => rfl
  | true =>
    have hq := h.quiet hcm p
    rw [hp] at hq
    cases hq

theorem Logged.pinned_of_left (hc : (g p).commit = some cm) (hb : block ∈ cm.left) :
    Pinned s g block := by
  have hlh := (h.commits p cm hc).2.lh
  refine ⟨?_, fun q cm' hq => ?_⟩
  · rw [hlh]
    exact mem_of_mem_drop hb
  · rw [h.only q p cm' cm hq hc, hc] at hq
    cases hq
    exact hb

theorem Logged.apart : Apart start s.log.lh := by
  intro block hb
  have hhome := h.home block hb
  rcases h.room with hnil | hlt
  · rw [hnil] at hb
    cases hb
  · rw [State.home, h.layout] at hhome
    omega

end

theorem Inv.pinned_valid (h : Inv start s g) (hp : Pinned s g block)
    (hid : ident s b = (ROOTDEV, block)) : (s.buf b).valid = true := by
  obtain ⟨a, ha, hv⟩ := h.logged.pinned block hp
  have hdev : (s.buf a).dev ≠ 0 := by
    rw [show (s.buf a).dev = ROOTDEV from congrArg Prod.fst ha]
    decide
  rwa [← h.cache.unique a b hdev (ha.trans hid.symm)]

theorem Inv.unique (h : Inv start s g) {a : Fin NBUF} (ha : ident s a = (ROOTDEV, block))
    (hb : ident s b = (ROOTDEV, block)) : a = b := by
  refine h.cache.unique a b ?_ (ha.trans hb.symm)
  rw [show (s.buf a).dev = ROOTDEV from congrArg Prod.fst ha]
  decide

theorem Inv.held_valid (h : Inv start s g) (hh : (g p).held b = some x) (hf : (g p).filling = none) :
    (s.buf b).valid = true := by
  refine (h.cache.filled p b (h.cache.held p b x hh).1).resolve_left ?_
  rw [hf]
  nofun

theorem Inv.home (h : Inv start s g) (hc : (g p).commit = some cm) (hb : block ∈ cm.left)
    (hid : ident s b = (ROOTDEV, block)) : (s.buf b).data = cm.copy block :=
  (h.logged.commits p cm hc).2.home b block hb hid

def opCount (inOp : ι → Bool) : Int := ∑ p, if inOp p then 1 else 0

theorem opCount_zero {inOp : ι → Bool} (h : opCount inOp = 0) (p : ι) : inOp p = false := by
  have hle : (if inOp p then (1 : Int) else 0) ≤ opCount inOp :=
    Finset.single_le_sum (f := fun p => if inOp p then (1 : Int) else 0) (fun _ _ => by split <;> decide)
      (Finset.mem_univ p)
  cases hp : inOp p with
  | false => rfl
  | true =>
    rw [hp, if_pos rfl, h] at hle
    omega

theorem Inv.no_commit (h : Inv start s g) (hout : 1 ≤ s.log.outstanding) (q : ι) : (g q).commit = none := by
  cases hq : (g q).commit with
  | none => rfl
  | some cm =>
    have hquiet := h.logged.quiet (h.logged.commits q cm hq).1
    have hzero : ∑ p, (if s.inOp p then (1 : Int) else 0) = 0 := by simp [hquiet]
    have hops := h.logged.ops
    omega

theorem Inv.left_gt (h : Inv start s g) (hc : (g p).commit = some cm) (hb : block ∈ cm.left) :
    start + cm.lh.length < block := by
  have hlh := (h.logged.commits p cm hc).2.lh
  rw [← hlh]
  refine h.logged.apart block ?_
  rw [hlh]
  exact mem_of_mem_drop hb

theorem Inv.known (h : Inv start s g) (hh : (g p).held b = some x) (hf : (g p).filling = none)
    (hc : (g p).commit = some cm) : Known start cm x (s.buf b).data := by
  have hid := (h.cache.held p b x hh).2
  have hcopies := (h.logged.commits p cm hc).2
  refine ⟨fun i block hi hb heq => ?_, fun block hb heq => ?_⟩
  · rw [heq] at hid
    exact (hcopies.log i block hi hb).2 b hid (h.held_valid hh hf)
  · rw [heq] at hid
    exact hcopies.home b block hb hid

open Classical in
noncomputable def contents (s : State ι) (block : Nat) : Block :=
  if h : ∃ b, ident s b = (ROOTDEV, block) then (s.buf h.choose).data else Block.zero

theorem Inv.data_eq (h : Inv start s g) (hid : ident s b = (ROOTDEV, block)) : (s.buf b).data = contents s block := by
  have hex : ∃ b, ident s b = (ROOTDEV, block) := ⟨b, hid⟩
  rw [contents, dif_pos hex, h.unique hid hex.choose_spec]

variable [DecidableEq ι]

theorem Logged.keep (h : Logged start s g) (hlog : s'.log = s.log) (hop : s'.inOp = s.inOp)
    (hc : t.commit ≠ none → (g p).commit ≠ none)
    (hpin : ∀ block, Pinned s' (update g p t) block → Pinned s g block)
    (hpinned : ∀ b block, Pinned s g block → ident s b = (ROOTDEV, block) → (s.buf b).valid = true →
      ident s' b = ident s b ∧ (s'.buf b).valid = true)
    (hself : ∀ cm, t.commit = some cm → Copies start s' t cm)
    (hother : ∀ q cm, q ≠ p → (g q).commit = some cm → Copies start s' (g q) cm) :
    Logged start s' (update g p t) := by
  have hcommit : ∀ q cm, (update g p t q).commit = some cm → ∃ cm', (g q).commit = some cm' := by
    intro q cm hq
    by_cases hqp : q = p
    · rw [hqp, update_self] at hq
      rw [hqp]
      exact Option.ne_none_iff_exists'.mp (hc (by rw [hq]; nofun))
    · rw [update_of_ne hqp] at hq
      exact ⟨cm, hq⟩
  refine ⟨hlog ▸ h.layout, hlog ▸ h.room, hlog ▸ h.nodup, ?_, fun block hp => ?_, ?_, ?_, fun q cm hq => ?_, ?_⟩
  · rw [State.home, hlog]
    exact h.home
  · have hp := hpin block hp
    obtain ⟨a, ha, hv⟩ := h.pinned block hp
    obtain ⟨ha', hv'⟩ := hpinned a block hp ha hv
    exact ⟨a, ha'.trans ha, hv'⟩
  · rw [hlog, hop]
    exact h.ops
  · rw [hlog, hop]
    exact h.quiet
  · obtain ⟨cm', hq'⟩ := hcommit q cm hq
    rw [hlog]
    refine ⟨(h.commits q cm' hq').1, ?_⟩
    by_cases hqp : q = p
    · rw [hqp, update_self] at hq ⊢
      exact hself cm hq
    · rw [update_of_ne hqp] at hq ⊢
      exact hother q cm hqp hq
  · intro q q' cm cm' hq hq'
    obtain ⟨c, hq⟩ := hcommit q cm hq
    obtain ⟨c', hq'⟩ := hcommit q' cm' hq'
    exact h.only q q' c c' hq hq'

theorem Logged.still (h : Logged start s g) (hlog : s'.log = s.log) (hop : s'.inOp = s.inOp) (hdisk : s'.disk = s.disk)
    (hid : ∀ b, ident s' b = ident s b) (hvalid : ∀ b, (s'.buf b).valid = (s.buf b).valid)
    (hdata : ∀ b, (s'.buf b).data = (s.buf b).data) (hc : t.commit = (g p).commit)
    (hheld : ∀ cm b, t.commit = some cm → cm.dirty = some b → t.held b = (g p).held b) :
    Logged start s' (update g p t) := by
  have hlh : s'.log.lh = s.log.lh := by rw [hlog]
  refine h.keep hlog hop (fun hn => hc ▸ hn) (fun block hp => (pinned_same hlh hc block).mp hp)
    (fun b block _ _ hv => ⟨hid b, (hvalid b).trans hv⟩) (fun cm hcm => ?_) fun q cm _ hq => ?_
  · exact (h.commits p cm (hc ▸ hcm)).2.keep hlh hdisk hid hvalid hdata (hheld cm · hcm)
  · exact (h.commits q cm hq).2.keep hlh hdisk hid hvalid hdata fun _ _ => rfl

theorem opCount_update (inOp : ι → Bool) (p : ι) (v : Bool) :
    opCount (update inOp p v) + (if inOp p then 1 else 0) = opCount inOp + if v then 1 else 0 :=
  sum_update_add (fun v : Bool => if v then (1 : Int) else 0) inOp (Finset.mem_univ p) v

section

variable (h : Inv start s g)

include h

theorem Inv.bget (hcard : Fintype.card ι + 3 < 2 ^ 32) {dev blockno : Nat}
    (ht : (g p).transit = none) (hs : bgetStep s dev blockno = .done b s') :
    Inv start s' (update g p ((g p).moving (some (b, dev, blockno)))) := by
  rcases bgetStep_done h.cache hs with ⟨hid, rfl⟩ | ⟨hb, hnone, rfl⟩
  · refine ⟨h.cache.hit hcard hid ht, ?_⟩
    exact h.logged.still rfl rfl rfl (fun a => ident_setRefcnt s b a _) (fun a => valid_setRefcnt s b a _)
      (fun a => data_setRefcnt s b a _) rfl fun _ _ _ _ => rfl
  have hcached : ∀ block, Pinned s g block → ∃ a, ident s a = (ROOTDEV, block) := by
    intro block hp
    obtain ⟨a, ha, -⟩ := h.logged.pinned block hp
    exact ⟨a, ha⟩
  obtain ⟨hl, -, hnp⟩ := h.cache.unused hb
  have hother : ∀ a, a ≠ b → (s.recycle b dev blockno).buf a = s.buf a := fun a hab => update_of_ne hab ..
  have hid : ∀ a, a ≠ b → ident (s.recycle b dev blockno) a = ident s a := by
    intro a hab
    rw [ident, hother a hab, ident]
  refine ⟨h.cache.recycle hb hnone ht hcached, ?_⟩
  have hcopies : ∀ q cm, (g q).commit = some cm → Copies start (s.recycle b dev blockno) (g q) cm := by
    intro q cm hq
    have hc := (h.logged.commits q cm hq).2
    refine hc.setBuf (fun _ _ _ _ _ hv => by cases hv) (fun block hbl heq => ?_) fun hd => ?_
    · obtain ⟨c, hcid⟩ := hcached block (h.logged.pinned_of_left hq hbl)
      exact absurd (hcid.trans heq.symm) (hnone c)
    · have hlk := (h.cache.held q b _ (hc.dirty b hd).1).1
      rw [hl] at hlk
      cases hlk
  refine h.logged.keep rfl rfl id (fun block hp => (pinned_same (by rfl) (by rfl) block).mp hp)
    (fun a block hp ha hv => ?_) (fun cm hcm => ?_) fun q cm _ hq => hcopies q cm hq
  · have hab : a ≠ b := by
      intro hab
      rw [hab] at ha
      exact hnp block ha hp
    rw [hid a hab, hother a hab]
    exact ⟨rfl, hv⟩
  · exact (hcopies p cm hcm).keep rfl rfl (fun _ => rfl) (fun _ => rfl) (fun _ => rfl) fun _ _ => rfl

theorem Inv.acquire (hl : s.lock b = none) (ht : (g p).transit = some (b, x))
    (hf : (g p).filling = none) (hheld : (g p).held b = none) (hu : (g p).freed = none) :
    Inv start { s with lock := update s.lock b (some p) }
      (update g p ((((g p).hold b x).moving none).fills (some b))) := by
  refine ⟨h.cache.acquire hl ht hf hu, ?_⟩
  refine h.logged.still rfl rfl rfl (fun _ => rfl) (fun _ => rfl) (fun _ => rfl) rfl fun cm a hcm hd => ?_
  refine update_of_ne (fun hab => ?_) ..
  rw [hab] at hd
  have hdirty := ((h.logged.commits p cm hcm).2.dirty b hd).1
  rw [hheld] at hdirty
  cases hdirty

theorem Inv.release (hh : (g p).held b = some x) (hr : (g p).Ready) {u : Option (Fin NBUF)}
    (hu : ∀ a, u = some a → a = b) : Inv start { s with lock := update s.lock b none }
      (update g p ((((g p).drop b).moving (some (b, x))).frees u)) := by
  refine ⟨h.cache.release hh hr.transit hr.filling hu, ?_⟩
  refine h.logged.still rfl rfl rfl (fun _ => rfl) (fun _ => rfl) (fun _ => rfl) rfl fun cm a hcm hd => ?_
  rw [hr.clean cm hcm] at hd
  cases hd

theorem Inv.unref (ht : (g p).transit = some (b, x)) :
    Inv start (unrefStep s b) (update g p ((g p).moving none)) := by
  have hstep : ∃ list, unrefStep s b = { s.setRefcnt b ((s.buf b).refcnt - 1) with list := list } := by
    unfold unrefStep
    dsimp only
    split
    · exact ⟨_, rfl⟩
    · exact ⟨s.list, rfl⟩
  refine ⟨h.cache.unref ht, ?_⟩
  obtain ⟨list, hstep⟩ := hstep
  rw [hstep]
  exact h.logged.still rfl rfl rfl (fun a => ident_setRefcnt s b a _) (fun a => valid_setRefcnt s b a _)
    (fun a => data_setRefcnt s b a _) rfl fun _ _ _ _ => rfl

theorem Inv.learn (htr : t.transit = (g p).transit) (hf : t.filling = (g p).filling)
    (hc : t.commit = (g p).commit) (hu : t.freed = (g p).freed) (hheld : ∀ a y, t.held a = some y → s.lock a = some p ∧ ident s a = y)
    (hmore : ∀ a, (g p).held a ≠ none → t.held a = (g p).held a) : Inv start s (update g p t) := by
  constructor
  · refine h.cache.keep rfl (fun _ => rfl) (fun _ => rfl) rfl (fun _ => id) htr hheld (fun a ha => .inl (hf ▸ ha))
      (fun a ha => ?_) (fun a ha => hu ▸ ha) fun block => pinned_same rfl hc block
    rw [hf] at ha
    have hn := h.cache.filling p a ha
    rw [hmore a hn]
    exact hn
  · refine h.logged.still rfl rfl rfl (fun _ => rfl) (fun _ => rfl) (fun _ => rfl) hc fun cm a hcm hd => hmore a ?_
    rw [hc] at hcm
    rw [((h.logged.commits p cm hcm).2.dirty a hd).1]
    nofun

theorem Inv.forget (htr : (g p).transit = none) (hf : (g p).filling = none)
    (hc : (g p).commit = none) : Inv start s (update g p Th.idle) := by
  constructor
  · refine h.cache.keep rfl (fun _ => rfl) (fun _ => rfl) rfl (fun _ => id) htr.symm nofun (fun a ha => ?_) nofun nofun
      fun block => pinned_same rfl hc.symm block
    rw [hf] at ha
    cases ha
  · exact h.logged.still rfl rfl rfl (fun _ => rfl) (fun _ => rfl) (fun _ => rfl) hc.symm nofun

theorem Inv.same (p : ι) : Inv start s (update g p (g p)) := by
  rw [update_eq_self]
  exact h

theorem Inv.hold (hl : s.lock b = some p) (hn : (g p).held b = none) :
    Inv start s (update g p ((g p).hold b (ident s b))) := by
  refine h.learn rfl rfl rfl rfl (fun a y ha => ?_) fun a ha => ?_
  · change update (g p).held b (some (ident s b)) a = some y at ha
    by_cases hab : a = b
    · rw [hab, update_self] at ha
      cases ha
      rw [hab]
      exact ⟨hl, rfl⟩
    · rw [update_of_ne hab] at ha
      exact h.cache.held p a y ha
  · refine update_of_ne (fun hab => ?_) ..
    rw [hab] at ha
    exact ha hn

theorem Inv.full (hf : (g p).filling = some b) (hv : (s.buf b).valid = true) :
    Inv start s (update g p ((g p).fills none)) := by
  constructor
  · refine h.cache.keep rfl (fun _ => rfl) (fun _ => rfl) rfl (fun _ => id) rfl (h.cache.held p) (fun a ha => .inr ?_)
      nofun (fun _ => id) fun block => pinned_same (by rfl) (by rfl) block
    rw [hf] at ha
    cases ha
    exact hv
  · exact h.logged.still rfl rfl rfl (fun _ => rfl) (fun _ => rfl) (fun _ => rfl) rfl fun _ _ _ _ => rfl

theorem Inv.fill (hf : (g p).filling = some b) (hv : (s.buf b).valid = false)
    (hy : y = { s.buf b with valid := true, data := s.disk (s.buf b).blockno }) :
    Inv start (s.setBuf b y) (update g p ((g p).fills none)) := by
  have hself : (s.setBuf b y).buf b = y := update_self ..
  have hid : ∀ a, ident (s.setBuf b y) a = ident s a := ident_setBuf (by rw [hy]; rfl)
  have hmono : ∀ a, (s.buf a).valid = true → ((s.setBuf b y).buf a).valid = true := by
    intro a ha
    rw [buf_setBuf]
    split
    · rw [hy]
    · exact ha
  have hcopies : ∀ q cm, (g q).commit = some cm → Copies start (s.setBuf b y) (g q) cm := by
    intro q cm hq
    have hc := (h.logged.commits q cm hq).2
    subst hy
    refine hc.setBuf (fun i block hi hbl heq _ => ?_) (fun block hbl heq => ?_) fun hd => ?_
    · show s.disk (s.buf b).blockno = _
      rw [show (s.buf b).blockno = start + i + 1 from congrArg Prod.snd heq]
      exact (hc.log i block hi hbl).1
    · rw [h.pinned_valid (h.logged.pinned_of_left hq hbl) heq] at hv
      cases hv
    · rw [(hc.dirty b hd).2.1] at hv
      cases hv
  constructor
  · refine h.cache.keep rfl hid (field_setBuf Buf.refcnt (by rw [hy])) rfl hmono rfl (h.cache.held p)
      (fun a ha => .inr ?_) nofun (fun _ => id) fun block => pinned_same (by rfl) (by rfl) block
    rw [hf] at ha
    cases ha
    rw [hself, hy]
  · refine h.logged.keep rfl rfl id (fun block hp => (pinned_same (by rfl) (by rfl) block).mp hp)
      (fun a block _ _ hva => ⟨hid a, hmono a hva⟩) (fun cm hcm => ?_) fun q cm _ hq => hcopies q cm hq
    exact (hcopies p cm hcm).keep rfl rfl (fun _ => rfl) (fun _ => rfl) (fun _ => rfl) fun _ _ => rfl

theorem Inv.setData (htr : t.transit = (g p).transit) (hf : t.filling = (g p).filling)
    (hheld : t.held = (g p).held) (hu : t.freed = (g p).freed) (hc : t.commit ≠ none → (g p).commit ≠ none)
    (hpin : ∀ block, Pinned (s.setData b d) (update g p t) block ↔ Pinned s g block)
    (hself : ∀ cm, t.commit = some cm → Copies start (s.setData b d) t cm)
    (hother : ∀ q cm, q ≠ p → (g q).commit = some cm → Copies start (s.setData b d) (g q) cm) :
    Inv start (s.setData b d) (update g p t) := by
  constructor
  · refine h.cache.keep rfl (fun a => ident_setData s b a d) (field_setBuf Buf.refcnt rfl) rfl
      (fun a ha => (valid_setData s b a d).trans ha) htr (hheld ▸ h.cache.held p)
      (fun a ha => .inl (hf ▸ ha)) (fun a ha => ?_) (fun a ha => hu ▸ ha) hpin
    rw [hf] at ha
    rw [hheld]
    exact h.cache.filling p a ha
  · exact h.logged.keep rfl rfl hc (fun block hp => (hpin block).mp hp)
      (fun a block _ _ hv => ⟨ident_setData s b a d, (valid_setData s b a d).trans hv⟩) hself hother

theorem Inv.store (hop : s.inOp p = true) : Inv start (s.setData b d) (update g p (g p)) := by
  have hno := h.logged.no_commit (h.logged.not_committing hop)
  exact h.setData rfl rfl rfl rfl id (fun block => pinned_same rfl rfl block) (fun cm hcm => absurd hcm (hno p cm))
    fun q cm _ hq => absurd hq (hno q cm)

theorem Inv.header (hh : (g p).held b = some (ROOTDEV, start)) (hc : (g p).commit = some cm)
    (hd : cm.dirty = none) : Inv start (s.setData b d) (update g p (g p)) := by
  have hid := (h.cache.held p b _ hh).2
  have hcopies := (h.logged.commits p cm hc).2
  refine h.setData rfl rfl rfl rfl id (fun block => pinned_same rfl rfl block) (fun cm' hcm => ?_) fun q cm' hqp hq => ?_
  · rw [hc] at hcm
    cases hcm
    refine hcopies.setData hid (fun i block _ _ heq => by omega) (fun hmem => ?_) hd
    have hgt := h.left_gt hc hmem
    omega
  · exact absurd (h.logged.only q p cm' cm hq hc) hqp

theorem Inv.copy (hh : (g p).held b = some (ROOTDEV, start + cm.copied + 1))
    (hc : (g p).commit = some cm) (hd : cm.dirty = none) (hb : cm.lh[cm.copied]? = some block)
    (hf : (g p).filling = none) :
    Inv start (s.setData b (cm.copy block)) (update g p ((g p).commits { cm with dirty := some b })) := by
  have hid := (h.cache.held p b _ hh).2
  obtain ⟨hlt, -⟩ := List.getElem?_eq_some_iff.mp hb
  have hcopies := (h.logged.commits p cm hc).2
  have hset : Copies start (s.setData b (cm.copy block)) (g p) cm := by
    refine hcopies.setData hid (fun i block hi _ heq => by omega) (fun hmem => ?_) hd
    have hgt := h.left_gt hc hmem
    omega
  refine h.setData rfl rfl rfl rfl (fun _ => by rw [hc]; nofun) (fun block => ?_) (fun cm' hcm => ?_) fun q cm' hqp hq => ?_
  · exact pinned_commit (by rfl) hc (by rfl) (by rfl) block
  · cases hcm
    refine ⟨hset.lh, hset.log, hset.home, fun a ha => ?_, hset.written⟩
    cases ha
    refine ⟨hh, (valid_setData s b b _).trans (h.held_valid hh hf), fun block' hb' => ?_⟩
    rw [hb] at hb'
    cases hb'
    rw [buf_setData, if_pos rfl]
  · exact absurd (h.logged.only q p cm' cm hq hc) hqp

theorem Inv.install (hh : (g p).held b = some (ROOTDEV, block)) (hc : (g p).commit = some cm)
    (hb : block ∈ cm.left) : Inv start (s.setData b (cm.copy block)) (update g p (g p)) := by
  have hid := (h.cache.held p b _ hh).2
  have hsame : s.setData b (cm.copy block) = s := by
    rw [← h.home hc hb hid]
    show { s with buf := update s.buf b (s.buf b) } = s
    rw [update_eq_self]
  rw [hsame]
  exact h.same p

theorem Inv.write (hh : (g p).held b = some (ROOTDEV, blk)) (hf : (g p).filling = none) :
    Inv start { s with disk := update s.disk (s.buf b).blockno (s.buf b).data }
      (update g p { g p with commit := (g p).commit.map fun cm => cm.wrote b blk }) := by
  have hid := (h.cache.held p b _ hh).2
  have hblk : (s.buf b).blockno = blk := congrArg Prod.snd hid
  have hv := h.held_valid hh hf
  have hleft : ∀ cm : Commit, (cm.wrote b blk).left = cm.left := by
    intro cm
    unfold Commit.wrote
    split
    · rfl
    · split <;> rfl
  have hpin : ∀ block, Pinned { s with disk := update s.disk (s.buf b).blockno (s.buf b).data }
      (update g p { g p with commit := (g p).commit.map fun cm => cm.wrote b blk }) block ↔ Pinned s g block := by
    intro block
    cases hc : (g p).commit with
    | none => exact pinned_same (by rfl) hc.symm block
    | some cm => exact pinned_commit (by rfl) hc (by rfl) (hleft cm) block
  refine ⟨h.cache.keep rfl (fun _ => rfl) (fun _ => rfl) rfl (fun _ => id) rfl (h.cache.held p)
    (fun _ => .inl) (h.cache.filling p) (fun _ => id) hpin, ?_⟩
  refine h.logged.keep rfl rfl (fun hn hc => hn (by rw [hc]; rfl)) (fun block hp => (hpin block).mp hp)
    (fun _ _ _ _ hva => ⟨rfl, hva⟩) (fun cm' hcm => ?_) fun q cm hqp hq => (h.logged.commits q cm hq).2.write hid hv
  obtain ⟨cm, hc, rfl⟩ := Option.map_eq_some_iff.mp hcm
  have hcopies := (h.logged.commits p cm hc).2
  have hw := hcopies.write hid hv
  unfold Commit.wrote
  split
  · next hd =>
    obtain ⟨hheld, -, hdata⟩ := hcopies.dirty b hd
    rw [hh] at hheld
    have hcp : blk = start + cm.copied + 1 := congrArg Prod.snd (Option.some.inj hheld)
    refine ⟨hw.lh, fun i block hi hbl => ?_, hw.home, nofun, hw.written⟩
    by_cases hic : i = cm.copied
    · subst hic
      have hcopy := hdata block hbl
      refine ⟨?_, fun a ha _ => ?_⟩
      · show update s.disk (s.buf b).blockno (s.buf b).data (start + cm.copied + 1) = _
        rw [hblk, hcp, update_self]
        exact hcopy
      · have hab : a = b := h.unique ha (hcp ▸ hid)
        rw [hab]
        exact hcopy
    · exact hw.log i block (by have : i < cm.copied + 1 := hi; omega) hbl
  · split
    · next hget =>
      refine ⟨hw.lh, hw.log, hw.home, hw.dirty, fun _ block hbl => ?_⟩
      rw [hget] at hbl
      cases hbl
      have hmem : blk ∈ cm.left := by
        rw [Commit.left]
        exact mem_of_mem_head? (by rw [head?_drop]; exact hget)
      show update s.disk (s.buf b).blockno (s.buf b).data blk = _
      rw [hblk, update_self]
      exact hcopies.home b blk hmem hid
    · exact ⟨hw.lh, hw.log, hw.home, hw.dirty, hw.written⟩

theorem Inv.bunpin (hh : (g p).held b = some (ROOTDEV, block)) (hc : (g p).commit = some cm)
    (hb : cm.lh[cm.unpinned]? = some block) : Inv start (s.setRefcnt b ((s.buf b).refcnt - 1))
      (update g p ((g p).commits { cm with unpinned := cm.unpinned + 1, home := false })) := by
  have hid := (h.cache.held p b _ hh).2
  have hcopies := (h.logged.commits p cm hc).2
  have hleft : cm.left = block :: cm.lh.drop (cm.unpinned + 1) := by
    obtain ⟨hlt, hget⟩ := List.getElem?_eq_some_iff.mp hb
    rw [Commit.left, drop_eq_getElem_cons hlt, hget]
  have hnd : block ∉ cm.lh.drop (cm.unpinned + 1) := by
    have hnd : cm.left.Nodup := by
      rw [Commit.left, ← hcopies.lh]
      exact h.logged.nodup.sublist (drop_sublist _ _)
    rw [hleft] at hnd
    exact (nodup_cons.mp hnd).1
  -- the block leaves those that are pinned
  have hpin : ∀ block', Pinned (s.setRefcnt b ((s.buf b).refcnt - 1))
      (update g p ((g p).commits { cm with unpinned := cm.unpinned + 1, home := false })) block' ↔
        block' ≠ block ∧ Pinned s g block' := by
    intro block'
    constructor
    · intro hp
      have hmem := hp.2 p
      rw [update_self] at hmem
      have hmem : block' ∈ cm.lh.drop (cm.unpinned + 1) := hmem _ rfl
      refine ⟨fun heq => hnd (heq ▸ hmem), h.logged.pinned_of_left hc ?_⟩
      rw [hleft]
      exact mem_cons_of_mem _ hmem
    · rintro ⟨hne, hp⟩
      refine ⟨hp.1, fun q cm' hq => ?_⟩
      by_cases hqp : q = p
      · rw [hqp, update_self] at hq
        cases hq
        have hmem := hp.2 p cm hc
        rw [hleft] at hmem
        exact (mem_cons.mp hmem).resolve_left hne
      · rw [update_of_ne hqp] at hq
        exact hp.2 q cm' hq
  have hpinned : Pinned s g block := h.logged.pinned_of_left hc (by rw [hleft]; exact mem_cons_self)
  have hcount := h.cache.count b
  have hone := pins_of_pinned hid hpinned
  constructor
  · refine h.cache.recount s.log h.cache.cycle (h.cache.transit p) rfl rfl rfl ?_ (fun _ _ => rfl) fun a hab => ?_
    · have hzero : pins (s.setRefcnt b ((s.buf b).refcnt - 1))
          (update g p ((g p).commits { cm with unpinned := cm.unpinned + 1, home := false })) b = 0 := by
        refine pins_of_not ((ident_setRefcnt s b b _).trans hid) fun hp => ?_
        exact ((hpin block).mp hp).1 rfl
      have hsame := transits_same (g := g) (p := p)
        (t := (g p).commits { cm with unpinned := cm.unpinned + 1, home := false }) rfl b
      rw [toNat_pred (by omega)]
      show (s.buf b).refcnt.toNat - 1 = _ + _ + pins (s.setRefcnt b _) _ b
      omega
    · refine pins_congr (ident_setRefcnt s b a _) fun block' hblock' => ?_
      refine (hpin block').trans ⟨And.right, fun hp => ⟨fun heq => hab ?_, hp⟩⟩
      rw [heq] at hblock'
      exact h.unique hblock' hid
  · refine h.logged.keep rfl rfl (fun _ => by rw [hc]; simp) (fun block' hp => ((hpin block').mp hp).2)
      (fun a block' _ _ hv => ⟨ident_setRefcnt s b a _, (valid_setRefcnt s b a _).trans hv⟩) (fun cm' hcm => ?_)
      fun q cm' hqp hq => absurd (h.logged.only q p cm' cm hq hc) hqp
    cases hcm
    have hkeep : Copies start (s.setRefcnt b ((s.buf b).refcnt - 1)) (g p) cm :=
      hcopies.keep rfl rfl (fun a => ident_setRefcnt s b a _) (fun a => valid_setRefcnt s b a _)
        (fun a => data_setRefcnt s b a _) fun _ _ => rfl
    refine ⟨hkeep.lh, hkeep.log, fun a block' hb' ha => hkeep.home a block' ?_ ha, hkeep.dirty, fun h => by cases h⟩
    rw [hleft]
    exact mem_cons_of_mem _ hb'

theorem Inv.logWrite (hcard : Fintype.card ι + 3 < 2 ^ 32) (hh : (g p).held b = some (ROOTDEV, blk))
    (hf : (g p).filling = none) (hhome : s.home ≤ (s.buf b).blockno)
    (hs : logWriteStep s b = .done () s') : Inv start s' (update g p (g p)) := by
  have hid := (h.cache.held p b _ hh).2
  have hblk : (s.buf b).blockno = blk := congrArg Prod.snd hid
  rw [hblk] at hhome
  obtain ⟨hout, hsize, ⟨-, rfl⟩ | ⟨hmem, rfl⟩⟩ := logWriteStep_done hs
  · exact h.same p
  rw [hblk] at hmem ⊢
  have hnone := h.no_commit hout
  have hpin : ∀ block, Pinned ((s.setLog { s.log with lh := s.log.lh ++ [blk] }).setRefcnt b
      ((s.buf b).refcnt + 1)) (update g p (g p)) block ↔ block = blk ∨ Pinned s g block := by
    intro block
    rw [update_eq_self]
    constructor
    · intro hp
      rcases mem_append.mp hp.1 with hl | hl
      · exact .inr ⟨hl, hp.2⟩
      · exact .inl (mem_singleton.mp hl)
    · rintro (rfl | hp)
      · refine ⟨mem_append_right _ mem_cons_self, fun q cm hq => ?_⟩
        rw [hnone q] at hq
        cases hq
      · exact ⟨mem_append_left _ hp.1, hp.2⟩
  have hcount := h.cache.count b
  have hzero : pins s g b = 0 := pins_of_not hid fun hp => hmem hp.1
  constructor
  · refine h.cache.recount { s.log with lh := s.log.lh ++ [blk] } h.cache.cycle (h.cache.transit p)
      rfl rfl rfl ?_ (fun _ _ => rfl) fun a hab => ?_
    · have hone : pins ((s.setLog { s.log with lh := s.log.lh ++ [blk] }).setRefcnt b ((s.buf b).refcnt + 1))
          (update g p (g p)) b = 1 :=
        pins_of_pinned ((ident_setRefcnt s b b _).trans hid) ((hpin blk).mpr (.inl rfl))
      have hsame := transits_same (g := g) (p := p) (t := g p) rfl b
      rw [toNat_succ (h.cache.refcnt_lt hcard b)]
      show _ = locked s b + _ + pins ((s.setLog { s.log with lh := s.log.lh ++ [blk] }).setRefcnt b _) _ b
      omega
    · refine pins_congr (ident_setRefcnt s b a _) fun block hblock => ?_
      refine (hpin block).trans ⟨fun hp => hp.resolve_left fun heq => hab ?_, .inr⟩
      rw [heq] at hblock
      exact h.unique hblock hid
  · refine ⟨h.logged.layout, .inr ?_, ?_, fun block hb => ?_, fun block hp => ?_, h.logged.ops, h.logged.quiet,
      fun q cm hq => ?_, fun q q' cm cm' hq => ?_⟩
    · show (s.log.lh ++ [blk]).length < s.log.size
      rw [length_append, length_singleton]
      omega
    · show (s.log.lh ++ [blk]).Nodup
      rw [nodup_append_comm]
      exact nodup_cons.mpr ⟨hmem, h.logged.nodup⟩
    · rcases mem_append.mp hb with hl | hl
      · exact h.logged.home block hl
      · rw [mem_singleton.mp hl]
        exact hhome
    · rcases (hpin block).mp hp with rfl | hp
      · exact ⟨b, (ident_setRefcnt s b b _).trans hid, (valid_setRefcnt s b b _).trans (h.held_valid hh hf)⟩
      · obtain ⟨a, ha, hv⟩ := h.logged.pinned block hp
        exact ⟨a, (ident_setRefcnt s b a _).trans ha, (valid_setRefcnt s b a _).trans hv⟩
    · rw [update_eq_self, hnone q] at hq
      cases hq
    · rw [update_eq_self, hnone q] at hq
      cases hq

theorem Inv.setLog (log : Log) (inOp : ι → Bool)
    (ht : t.transit = (g p).transit ∧ t.filling = (g p).filling ∧ t.held = (g p).held ∧ t.freed = (g p).freed)
    (hpin : ∀ block, Pinned { s with log := log, inOp := inOp } (update g p t) block ↔ Pinned s g block)
    (hl : Logged start { s with log := log, inOp := inOp } (update g p t)) :
    Inv start { s with log := log, inOp := inOp } (update g p t) := by
  obtain ⟨htr, hf, hheld, hu⟩ := ht
  refine ⟨h.cache.keep rfl (fun _ => rfl) (fun _ => rfl) rfl (fun _ => id) htr (hheld ▸ h.cache.held p)
    (fun a ha => .inl (hf ▸ ha)) (fun a ha => ?_) (fun a ha => hu ▸ ha) hpin, hl⟩
  rw [hf] at ha
  rw [hheld]
  exact h.cache.filling p a ha

theorem Inv.beginOp {log : Log} (hp : s.inOp p = false) (hb : s.log.beginOp = some log) :
    Inv start { s with log := log, inOp := update s.inOp p true } (update g p (g p)) := by
  unfold Log.beginOp at hb
  split at hb
  · next hmay =>
    cases hb
    have hno : s.log.committing = false := by
      unfold Log.mayBegin at hmay
      simp only [Bool.and_eq_true, Bool.not_eq_true'] at hmay
      exact hmay.1
    have hnone := h.logged.no_commit hno
    have hops := h.logged.ops
    refine h.setLog _ _ ⟨rfl, rfl, rfl, rfl⟩ (fun block => pinned_same rfl rfl block) ⟨h.logged.layout, h.logged.room,
      h.logged.nodup, h.logged.home, fun block hpb => h.logged.pinned block ((pinned_same rfl rfl block).mp hpb), ?_,
      fun hc => ?_, fun q cm hq => ?_, fun q q' cm cm' hq => ?_⟩
    · have hu := opCount_update s.inOp p true
      rw [hp] at hu
      simp only [Bool.false_eq_true, if_false, if_true] at hu
      show s.log.outstanding + 1 = opCount (update s.inOp p true)
      rw [hops]
      show opCount s.inOp + 1 = _
      omega
    · change s.log.committing = true at hc
      rw [hno] at hc
      cases hc
    · rw [update_eq_self] at hq
      exact absurd hq (hnone q cm)
    · rw [update_eq_self] at hq
      exact absurd hq (hnone q cm)
  · cases hb

theorem Inv.endOp {log : Log} {r : Bool} (hp : s.inOp p = true) (he : s.log.endOp = .ok (r, log)) :
    Inv start { s with log := log, inOp := update s.inOp p false } (update g p
      (if r then (g p).commits (Commit.start s.log.lh (contents s)) else g p)) := by
  have hno := h.logged.not_committing hp
  have hnone := h.logged.no_commit hno
  have hother : ∀ q cm, q ≠ p → (g q).commit ≠ some cm := fun q cm _ => hnone q cm
  have hops : s.log.outstanding = opCount s.inOp := h.logged.ops
  have hu := opCount_update s.inOp p false
  rw [hp] at hu
  simp only [Bool.false_eq_true, if_false, if_true] at hu
  have hpin : ∀ block, Pinned s g block ↔ block ∈ s.log.lh := by
    intro block
    exact ⟨And.left, fun hb => ⟨hb, fun q cm hq => absurd hq (hnone q cm)⟩⟩
  unfold Log.endOp at he
  simp only [hno, Bool.false_eq_true, if_false] at he
  split at he
  · next hzero =>
    cases he
    rw [if_pos rfl]
    have hpin' : ∀ block, Pinned { s with
        log := { s.log with outstanding := s.log.outstanding - 1, committing := true }
        inOp := update s.inOp p false }
        (update g p ((g p).commits (Commit.start s.log.lh (contents s)))) block ↔ Pinned s g block := by
      intro block
      refine Iff.trans ⟨And.left, fun hb => ⟨hb, fun q cm hq => ?_⟩⟩ (hpin block).symm
      cases (commit_update hother hq).2
      exact hb
    refine h.setLog _ _ ⟨rfl, rfl, rfl, rfl⟩ hpin' ⟨h.logged.layout, h.logged.room, h.logged.nodup, h.logged.home,
      fun block hpb => h.logged.pinned block ((hpin' block).mp hpb), ?_, fun _ => ?_, fun q cm hq => ?_,
      fun q q' cm cm' hq hq' => ?_⟩
    · show s.log.outstanding - 1 = opCount (update s.inOp p false)
      omega
    · have hz : opCount (update s.inOp p false) = 0 := by omega
      exact opCount_zero hz
    · cases (commit_update hother hq).2
      exact ⟨rfl, rfl, nofun, fun b block _ hid => h.data_eq hid, nofun, nofun⟩
    · rw [(commit_update hother hq).1, (commit_update hother hq').1]
  · next hzero =>
    cases he
    rw [if_neg (by simp)]
    refine h.setLog _ _ ⟨rfl, rfl, rfl, rfl⟩ (fun block => pinned_same rfl rfl block) ⟨h.logged.layout, h.logged.room,
      h.logged.nodup, h.logged.home, fun block hpb => h.logged.pinned block ((pinned_same rfl rfl block).mp hpb), ?_,
      nofun, fun q cm hq => ?_, fun q q' cm cm' hq => ?_⟩
    · show s.log.outstanding - 1 = opCount (update s.inOp p false)
      omega
    · rw [update_eq_self] at hq
      exact absurd hq (hnone q cm)
    · rw [update_eq_self] at hq
      exact absurd hq (hnone q cm)

theorem Inv.clear (hc : (g p).commit = some cm) (hl : cm.left = []) :
    Inv start (s.setLog { s.log with lh := [] }) (update g p ((g p).commits (Commit.start [] cm.copy))) := by
  have hno : ∀ block, ¬Pinned s g block := by
    intro block hp
    have hmem := hp.2 p cm hc
    rw [hl] at hmem
    cases hmem
  have hother : ∀ q cm', q ≠ p → (g q).commit ≠ some cm' := fun q cm' hqp hq => hqp (h.logged.only q p cm' cm hq hc)
  refine h.setLog { s.log with lh := [] } s.inOp ⟨rfl, rfl, rfl, rfl⟩
    (fun block => ⟨fun hp => absurd hp.1 not_mem_nil, fun hp => absurd hp (hno block)⟩)
    ⟨h.logged.layout, .inl rfl, nodup_nil, nofun, fun block hp => absurd hp.1 not_mem_nil, h.logged.ops,
      h.logged.quiet, fun q cm' hq => ?_, fun q q' c c' hq hq' => ?_⟩
  · cases (commit_update hother hq).2
    exact ⟨(h.logged.commits p cm hc).1, rfl, nofun, nofun, nofun, nofun⟩
  · rw [(commit_update hother hq).1, (commit_update hother hq').1]

theorem Inv.endCommit (hc : (g p).commit = some cm) (hl : cm.lh = []) :
    Inv start (s.setLog { s.log with committing := false }) (update g p { g p with commit := none }) := by
  have hnil : s.log.lh = [] := (h.logged.commits p cm hc).2.lh.trans hl
  have hno : ∀ q cm', (update g p { g p with commit := none } q).commit ≠ some cm' := by
    intro q cm' hq
    cases (commit_update (fun q cm' hqp hq => hqp (h.logged.only q p cm' cm hq hc)) hq).2
  have hpin : ∀ (s' : State ι) (g' : ι → Th) block, s'.log.lh = [] → ¬Pinned s' g' block := by
    intro s' g' block hlh hp
    have hmem := hp.1
    rw [hlh] at hmem
    cases hmem
  exact h.setLog { s.log with committing := false } s.inOp ⟨rfl, rfl, rfl, rfl⟩
    (fun block => ⟨fun hp => absurd hp (hpin _ _ block hnil), fun hp => absurd hp (hpin _ _ block hnil)⟩)
    ⟨h.logged.layout, h.logged.room, h.logged.nodup, h.logged.home, fun block hp => absurd hp (hpin _ _ block hnil),
      h.logged.ops, nofun, fun q cm' hq => absurd hq (hno q cm'), fun q q' cm' _ hq => absurd hq (hno q cm')⟩

end

end Bcache
