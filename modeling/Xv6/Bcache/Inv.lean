import Xv6.Bcache.Rules

-- The counts of the buffers, and what their data are, whatever the processes do.

namespace Bcache

open Prog Function

variable {ι : Type} {s s' : State ι} {g : ι → Th} {t : Th} {b : Fin NBUF} {p q : ι} {x : Nat × Nat}
  {n : BitVec 32} {y : Buf} {block : Nat}

def ident (s : State ι) (b : Fin NBUF) : Nat × Nat := ((s.buf b).dev, (s.buf b).blockno)

-- The blocks in the log whose buffers have not been unpinned.
def Pinned (s : State ι) (g : ι → Th) (block : Nat) : Prop :=
  block ∈ s.log.lh ∧ ∀ p cm, (g p).commit = some cm → block ∈ cm.left

open Classical in
noncomputable def pins (s : State ι) (g : ι → Th) (b : Fin NBUF) : Nat :=
  if ∃ block, ident s b = (ROOTDEV, block) ∧ Pinned s g block then 1 else 0

def Th.at (t : Th) (b : Fin NBUF) : Nat := if t.transit.map Prod.fst = some b then 1 else 0

def locked (s : State ι) (b : Fin NBUF) : Nat := if (s.lock b).isSome then 1 else 0

attribute [local simp] locked

theorem locked_le (s : State ι) (b : Fin NBUF) : locked s b ≤ 1 := by
  unfold locked
  split <;> omega

theorem pins_le (s : State ι) (g : ι → Th) (b : Fin NBUF) : pins s g b ≤ 1 := by
  unfold pins
  split <;> omega

theorem pins_congr {g' : ι → Th} (hid : ident s' b = ident s b)
    (h : ∀ block, ident s b = (ROOTDEV, block) → (Pinned s' g' block ↔ Pinned s g block)) :
    pins s' g' b = pins s g b := by
  unfold pins
  rw [hid]
  have hiff : (∃ block, ident s b = (ROOTDEV, block) ∧ Pinned s' g' block) ↔
      ∃ block, ident s b = (ROOTDEV, block) ∧ Pinned s g block := by
    constructor
    · rintro ⟨block, hb, hp⟩
      exact ⟨block, hb, (h block hb).mp hp⟩
    · rintro ⟨block, hb, hp⟩
      exact ⟨block, hb, (h block hb).mpr hp⟩
  classical
  exact if_congr hiff rfl rfl

theorem pins_of_pinned (hid : ident s b = (ROOTDEV, block)) (h : Pinned s g block) : pins s g b = 1 := by
  unfold pins
  rw [if_pos ⟨block, hid, h⟩]

theorem pins_of_not (hid : ident s b = (ROOTDEV, block)) (h : ¬Pinned s g block) : pins s g b = 0 := by
  unfold pins
  rw [if_neg]
  rintro ⟨block', hid', hp⟩
  rw [hid, Prod.mk.injEq] at hid'
  rw [← hid'.2] at hp
  exact h hp

theorem at_none (h : t.transit = none) (b : Fin NBUF) : t.at b = 0 := by simp [Th.at, h]

theorem at_some (h : t.transit = some (b, x)) (a : Fin NBUF) : t.at a = if a = b then 1 else 0 := by
  by_cases hab : a = b
  · simp [Th.at, h, hab]
  · simp [Th.at, h, hab, Ne.symm hab]

theorem buf_setBuf (s : State ι) (b a : Fin NBUF) (y : Buf) : (s.setBuf b y).buf a = if a = b then y else s.buf a :=
  Function.update_apply ..

theorem field_setBuf {β : Type} (f : Buf → β) (hy : f y = f (s.buf b)) (a : Fin NBUF) :
    f ((s.setBuf b y).buf a) = f (s.buf a) := by
  rw [buf_setBuf]
  split
  · next hab => rw [hab, hy]
  · rfl

theorem ident_setBuf (hy : (y.dev, y.blockno) = ident s b) (a : Fin NBUF) :
    ident (s.setBuf b y) a = ident s a := field_setBuf (fun x => (x.dev, x.blockno)) hy a

theorem ident_setRefcnt (s : State ι) (b a : Fin NBUF) (n : BitVec 32) : ident (s.setRefcnt b n) a = ident s a :=
  ident_setBuf (by rfl) a

theorem valid_setRefcnt (s : State ι) (b a : Fin NBUF) (n : BitVec 32) :
    ((s.setRefcnt b n).buf a).valid = (s.buf a).valid := field_setBuf Buf.valid (by rfl) a

section

variable [DecidableEq ι]

theorem pinned_keep (hlh : s'.log.lh = s.log.lh)
    (hleft : ∀ block ∈ s.log.lh, ((∀ cm, t.commit = some cm → block ∈ cm.left) ↔
      ∀ cm, (g p).commit = some cm → block ∈ cm.left)) (block : Nat) :
    Pinned s' (update g p t) block ↔ Pinned s g block := by
  unfold Pinned
  rw [hlh]
  refine and_congr_right fun hmem => ?_
  constructor
  · intro h q
    by_cases hqp : q = p
    · have hp := h p
      rw [update_self] at hp
      rw [hqp]
      exact (hleft block hmem).mp hp
    · have hq := h q
      rwa [update_of_ne hqp] at hq
  · intro h q
    by_cases hqp : q = p
    · rw [hqp, update_self]
      exact (hleft block hmem).mpr (h p)
    · rw [update_of_ne hqp]
      exact h q

theorem pinned_commit {cm cm' : Commit} (hlh : s'.log.lh = s.log.lh) (hc : (g p).commit = some cm)
    (ht : t.commit = some cm') (hl : cm'.left = cm.left) (block : Nat) :
    Pinned s' (update g p t) block ↔ Pinned s g block := by
  refine pinned_keep hlh (fun block _ => ?_) block
  rw [hc, ht]
  constructor
  · intro h c heq
    cases heq
    rw [← hl]
    exact h cm' rfl
  · intro h c heq
    cases heq
    rw [hl]
    exact h cm rfl

theorem pinned_same (hlh : s'.log.lh = s.log.lh) (hcommit : t.commit = (g p).commit) (block : Nat) :
    Pinned s' (update g p t) block ↔ Pinned s g block :=
  pinned_keep hlh (fun _ _ => by rw [hcommit]) block

end

variable [Fintype ι]

def transits (g : ι → Th) (b : Fin NBUF) : Nat := ∑ p, (g p).at b

structure Cache (s : State ι) (g : ι → Th) : Prop where
  cycle : ∃ l, s.list.Lists l ∧ ∀ b, b ∈ l
  unique : ∀ a b, (s.buf a).dev ≠ 0 → ident s a = ident s b → a = b
  count : ∀ b, (s.buf b).refcnt.toNat = locked s b + transits g b + pins s g b
  transit : ∀ p b x, (g p).transit = some (b, x) → ident s b = x
  held : ∀ p b x, (g p).held b = some x → s.lock b = some p ∧ ident s b = x
  filled : ∀ p b, s.lock b = some p → (g p).filling = some b ∨ (s.buf b).valid = true
  filling : ∀ p b, (g p).filling = some b → (g p).held b ≠ none
  freed : ∀ p b, (g p).freed = some b → s.lock b ≠ some p

-- What a commit has done so far. Nobody else changes what it needs.
structure Copies {ι : Type} (start : Nat) (s : State ι) (t : Th) (cm : Commit) : Prop where
  lh : s.log.lh = cm.lh
  log : ∀ i block, i < cm.copied → cm.lh[i]? = some block → s.disk (start + i + 1) = cm.copy block ∧
    ∀ b, ident s b = (ROOTDEV, start + i + 1) → (s.buf b).valid = true → (s.buf b).data = cm.copy block
  home : ∀ b block, block ∈ cm.left → ident s b = (ROOTDEV, block) → (s.buf b).data = cm.copy block
  dirty : ∀ b, cm.dirty = some b → t.held b = some (ROOTDEV, start + cm.copied + 1) ∧ (s.buf b).valid = true ∧
    ∀ block, cm.lh[cm.copied]? = some block → (s.buf b).data = cm.copy block
  written : cm.home = true → ∀ block, cm.lh[cm.unpinned]? = some block → s.disk block = cm.copy block

structure Logged {ι : Type} [Fintype ι] (start : Nat) (s : State ι) (g : ι → Th) : Prop where
  layout : s.log.start = start
  room : s.log.lh = [] ∨ s.log.lh.length < s.log.size
  nodup : s.log.lh.Nodup
  home : ∀ block ∈ s.log.lh, s.home ≤ block
  pinned : ∀ block, Pinned s g block → ∃ b, ident s b = (ROOTDEV, block) ∧ (s.buf b).valid = true
  ops : s.log.outstanding = ∑ p, if s.inOp p then 1 else 0
  quiet : s.log.committing = true → ∀ p, s.inOp p = false
  commits : ∀ p cm, (g p).commit = some cm → s.log.committing = true ∧ Copies start s (g p) cm
  only : ∀ p q cm cm', (g p).commit = some cm → (g q).commit = some cm' → p = q

theorem transits_le (g : ι → Th) (b : Fin NBUF) : transits g b ≤ Fintype.card ι := by
  have h : ∀ p ∈ Finset.univ, (g p).at b ≤ 1 := by
    intro p _
    unfold Th.at
    split <;> omega
  simpa [transits] using Finset.sum_le_card_nsmul _ _ 1 h

theorem transits_pos (h : (g p).transit = some (b, x)) : 0 < transits g b := by
  have hp : (g p).at b = 1 := by simp [Th.at, h]
  have hle : (g p).at b ≤ transits g b :=
    Finset.single_le_sum (f := fun p => (g p).at b) (fun _ _ => Nat.zero_le _) (Finset.mem_univ p)
  omega

theorem Cache.refcnt_lt (h : Cache s g) (hcard : Fintype.card ι + 3 < 2 ^ 32) (b : Fin NBUF) :
    (s.buf b).refcnt.toNat + 1 < 2 ^ 32 := by
  have hc := h.count b
  have h1 := locked_le s b
  have h2 := transits_le g b
  have h3 := pins_le s g b
  omega

theorem bgetStep_done (h : Cache s g) {dev blockno : Nat} (hs : bgetStep s dev blockno = .done b s') :
    (ident s b = (dev, blockno) ∧ s' = s.setRefcnt b ((s.buf b).refcnt + 1)) ∨
      ((s.buf b).refcnt = 0 ∧ (∀ a, ident s a ≠ (dev, blockno)) ∧ s' = s.recycle b dev blockno) := by
  obtain ⟨l, hl, hall⟩ := h.cycle
  have hlen : l.length < NBUF + 1 := by
    have hle := hl.nodup.length_le_card
    rw [Fintype.card_fin] at hle
    omega
  unfold bgetStep at hs
  rw [hl.find_next hlen, hl.find_prev hlen] at hs
  cases hfind : l.find? (cached s dev blockno) with
  | some a =>
    rw [hfind] at hs
    cases hs
    have hcached := List.find?_some hfind
    simp only [cached, decide_eq_true_eq] at hcached
    exact .inl ⟨Prod.ext hcached.1 hcached.2, rfl⟩
  | none =>
    rw [hfind] at hs
    have hnone : ∀ a, ident s a ≠ (dev, blockno) := by
      intro a ha
      have hno := List.find?_eq_none.mp hfind a (hall a)
      refine hno ?_
      simp only [cached, decide_eq_true_eq]
      exact ⟨congrArg Prod.fst ha, congrArg Prod.snd ha⟩
    cases hfree : l.reverse.find? (unused s) with
    | some a =>
      rw [hfree] at hs
      cases hs
      have hunused := List.find?_some hfree
      simp only [Bcache.unused, decide_eq_true_eq] at hunused
      exact .inr ⟨hunused, hnone, rfl⟩
    | none =>
      rw [hfree] at hs
      cases hs

theorem Cache.unused (h : Cache s g) (hb : (s.buf b).refcnt = 0) :
    s.lock b = none ∧ (∀ p x, (g p).transit ≠ some (b, x)) ∧
      ∀ block, ident s b = (ROOTDEV, block) → ¬Pinned s g block := by
  have hc := h.count b
  rw [hb] at hc
  have hzero : (0 : BitVec 32).toNat = 0 := rfl
  refine ⟨?_, fun p x ht => ?_, fun block hid hp => ?_⟩
  · cases hl : s.lock b with
    | none => rfl
    | some p =>
      have hone : locked s b = 1 := by simp [hl]
      omega
  · have hpos := transits_pos ht
    omega
  · have hone := pins_of_pinned hid hp
    omega

variable [DecidableEq ι]

theorem transits_update (g : ι → Th) (p : ι) (t : Th) (b : Fin NBUF) :
    transits (update g p t) b + (g p).at b = transits g b + t.at b :=
  sum_update_add (Th.at · b) g (Finset.mem_univ p) t

theorem transits_same (h : t.transit = (g p).transit) (b : Fin NBUF) : transits (update g p t) b = transits g b := by
  have hu := transits_update g p t b
  have ha : t.at b = (g p).at b := by rw [Th.at, h, Th.at]
  omega

theorem Cache.step (h : Cache s g) (hcycle : ∃ l, s'.list.Lists l ∧ ∀ b, b ∈ l)
    (hunique : ∀ a b, (s'.buf a).dev ≠ 0 → ident s' a = ident s' b → a = b)
    (hcount : ∀ b, (s'.buf b).refcnt.toNat = locked s' b + transits (update g p t) b +
      pins s' (update g p t) b)
    (hid : ∀ b, (s.buf b).refcnt ≠ 0 → ident s' b = ident s b)
    (hlock : ∀ b q, q ≠ p → (s'.lock b = some q ↔ s.lock b = some q))
    (hvalid : ∀ b, (s.buf b).refcnt ≠ 0 → (s.buf b).valid = true → (s'.buf b).valid = true)
    (htransit : ∀ b x, t.transit = some (b, x) → ident s' b = x)
    (hheld : ∀ b x, t.held b = some x → s'.lock b = some p ∧ ident s' b = x)
    (hfilled : ∀ b, s'.lock b = some p → t.filling = some b ∨ (s'.buf b).valid = true)
    (hfilling : ∀ b, t.filling = some b → t.held b ≠ none)
    (hfreed : ∀ b, t.freed = some b → s'.lock b ≠ some p) : Cache s' (update g p t) := by
  have hused : ∀ q b, s.lock b = some q → (s.buf b).refcnt ≠ 0 := by
    intro q b hq h0
    rw [(h.unused h0).1] at hq
    cases hq
  refine ⟨hcycle, hunique, hcount, fun q b x hq => ?_, fun q b x hq => ?_, fun q b hq => ?_, fun q b hq => ?_,
    fun q b hq => ?_⟩
  · by_cases hqp : q = p
    · rw [hqp, update_self] at hq
      exact htransit b x hq
    · rw [update_of_ne hqp] at hq
      rw [hid b fun h0 => (h.unused h0).2.1 q x hq]
      exact h.transit q b x hq
  · by_cases hqp : q = p
    · rw [hqp, update_self] at hq
      rw [hqp]
      exact hheld b x hq
    · rw [update_of_ne hqp] at hq
      obtain ⟨hl, hx⟩ := h.held q b x hq
      rw [hid b (hused q b hl)]
      exact ⟨(hlock b q hqp).mpr hl, hx⟩
  · by_cases hqp : q = p
    · rw [hqp] at hq
      rw [hqp, update_self]
      exact hfilled b hq
    · rw [update_of_ne hqp]
      have hl := (hlock b q hqp).mp hq
      exact (h.filled q b hl).imp_right (hvalid b (hused q b hl))
  · by_cases hqp : q = p
    · rw [hqp, update_self] at hq ⊢
      exact hfilling b hq
    · rw [update_of_ne hqp] at hq ⊢
      exact h.filling q b hq
  · by_cases hqp : q = p
    · rw [hqp, update_self] at hq
      rw [hqp]
      exact hfreed b hq
    · rw [update_of_ne hqp] at hq
      exact fun hl => h.freed q b hq ((hlock b q hqp).mp hl)

theorem Cache.keep (h : Cache s g) (hlist : s'.list = s.list) (hid : ∀ b, ident s' b = ident s b)
    (href : ∀ b, (s'.buf b).refcnt = (s.buf b).refcnt) (hlock : s'.lock = s.lock)
    (hvalid : ∀ b, (s.buf b).valid = true → (s'.buf b).valid = true) (htransit : t.transit = (g p).transit)
    (hheld : ∀ b x, t.held b = some x → s.lock b = some p ∧ ident s b = x)
    (hfill : ∀ b, (g p).filling = some b → t.filling = some b ∨ (s'.buf b).valid = true)
    (hfilling : ∀ b, t.filling = some b → t.held b ≠ none) (hfreed : ∀ b, t.freed = some b → (g p).freed = some b)
    (hpin : ∀ block, Pinned s' (update g p t) block ↔ Pinned s g block) :
    Cache s' (update g p t) := by
  refine h.step (hlist ▸ h.cycle) (fun a b ha hab => ?_) (fun b => ?_) (fun b _ => hid b) (fun b q _ => by rw [hlock])
    (fun b _ => hvalid b) (fun b x ht => ?_) (fun b x ht => ?_) (fun b hb => ?_) hfilling
    fun b hb => hlock ▸ h.freed p b (hfreed b hb)
  · have hdev : (s'.buf a).dev = (s.buf a).dev := congrArg Prod.fst (hid a)
    rw [hid, hid] at hab
    rw [hdev] at ha
    exact h.unique a b ha hab
  · have hl : locked s' b = locked s b := by rw [locked, hlock, locked]
    rw [href, h.count b, transits_same htransit, pins_congr (hid b) fun block _ => hpin block, hl]
  · rw [hid]
    exact h.transit p b x (htransit ▸ ht)
  · rw [hid, hlock]
    exact hheld b x ht
  · rw [hlock] at hb
    rcases h.filled p b hb with hf | hv
    · exact hfill b hf
    · exact .inr (hvalid b hv)

theorem transits_begin (h : (g p).transit = none) (ht : t.transit = some (b, x)) (a : Fin NBUF) :
    transits (update g p t) a = transits g a + if a = b then 1 else 0 := by
  have hu := transits_update g p t a
  rwa [at_none h, at_some ht] at hu

theorem transits_end (h : (g p).transit = some (b, x)) (ht : t.transit = none) (a : Fin NBUF) :
    transits (update g p t) a + (if a = b then 1 else 0) = transits g a := by
  have hu := transits_update g p t a
  rwa [at_some h, at_none ht] at hu

theorem Cache.acquire (h : Cache s g) (hl : s.lock b = none) (ht : (g p).transit = some (b, x))
    (hf : (g p).filling = none) (hu : (g p).freed = none) :
    Cache { s with lock := update s.lock b (some p) }
      (update g p ((((g p).hold b x).moving none).fills (some b))) := by
  have hends := transits_end (t := (((g p).hold b x).moving none).fills (some b)) ht rfl
  refine h.step h.cycle h.unique (fun a => ?_) (fun _ _ => rfl) (fun a q hq => ?_) (fun _ _ => id) nofun
    (fun a y ha => ?_) (fun a ha => ?_) (fun a ha => ?_) fun a ha => absurd (hu.symm.trans ha) nofun
  · have hc := h.count a
    have hua := hends a
    have hp : pins { s with lock := update s.lock b (some p) }
        (update g p ((((g p).hold b x).moving none).fills (some b))) a = pins s g a :=
      pins_congr rfl fun block _ => pinned_same (by rfl) (by rfl) block
    rw [hc, hp]
    by_cases hab : a = b
    · subst hab
      have h0 : locked s a = 0 := by simp [hl]
      have h1 : locked { s with lock := update s.lock a (some p) } a = 1 := by simp
      rw [if_pos rfl] at hua
      omega
    · have h0 : locked { s with lock := update s.lock b (some p) } a = locked s a := by simp [hab]
      rw [if_neg hab] at hua
      omega
  · by_cases hab : a = b
    · subst hab
      simp [hl, Ne.symm hq]
    · simp [update_of_ne hab]
  · change update (g p).held b (some x) a = some y at ha
    by_cases hab : a = b
    · subst hab
      rw [update_self] at ha
      cases ha
      exact ⟨update_self .., h.transit p a x ht⟩
    · rw [update_of_ne hab] at ha
      obtain ⟨hl', hx⟩ := h.held p a y ha
      exact ⟨(update_of_ne hab ..).trans hl', hx⟩
  · change update s.lock b (some p) a = some p at ha
    by_cases hab : a = b
    · rw [hab]
      exact .inl rfl
    · rw [update_of_ne hab] at ha
      refine .inr ((h.filled p a ha).resolve_left ?_)
      rw [hf]
      nofun
  · cases ha
    rw [show Th.held _ b = some x from update_self ..]
    nofun

theorem Cache.release (h : Cache s g) (hh : (g p).held b = some x) (ht : (g p).transit = none)
    (hf : (g p).filling = none) {u : Option (Fin NBUF)} (hu : ∀ a, u = some a → a = b) :
    Cache { s with lock := update s.lock b none }
      (update g p ((((g p).drop b).moving (some (b, x))).frees u)) := by
  obtain ⟨hl, hx⟩ := h.held p b x hh
  have hbegins := transits_begin (t := (((g p).drop b).moving (some (b, x))).frees u) ht rfl
  refine h.step h.cycle h.unique (fun a => ?_) (fun _ _ => rfl) (fun a q hq => ?_) (fun _ _ => id)
    (fun a y ha => ?_) (fun a y ha => ?_) (fun a ha => ?_) (fun a ha => ?_) fun a ha => ?_
  · have hc := h.count a
    have hua := hbegins a
    have hp : pins { s with lock := update s.lock b none }
        (update g p ((((g p).drop b).moving (some (b, x))).frees u)) a = pins s g a :=
      pins_congr rfl fun block _ => pinned_same (by rfl) (by rfl) block
    rw [hc, hp]
    by_cases hab : a = b
    · subst hab
      have h1 : locked s a = 1 := by simp [hl]
      have h0 : locked { s with lock := update s.lock a none } a = 0 := by simp
      rw [if_pos rfl] at hua
      omega
    · have h0 : locked { s with lock := update s.lock b none } a = locked s a := by simp [hab]
      rw [if_neg hab] at hua
      omega
  · by_cases hab : a = b
    · subst hab
      simp [hl, Ne.symm hq]
    · simp [update_of_ne hab]
  · cases ha
    exact hx
  · change update (g p).held b none a = some y at ha
    by_cases hab : a = b
    · rw [hab, update_self] at ha
      cases ha
    · rw [update_of_ne hab] at ha
      obtain ⟨hl', hy⟩ := h.held p a y ha
      exact ⟨(update_of_ne hab ..).trans hl', hy⟩
  · change update s.lock b none a = some p at ha
    by_cases hab : a = b
    · rw [hab, update_self] at ha
      cases ha
    · rw [update_of_ne hab] at ha
      exact h.filled p a ha
  · change (g p).filling = some a at ha
    rw [hf] at ha
    cases ha
  · show update s.lock b none a ≠ some p
    rw [hu a ha, update_self]
    nofun

theorem Cache.recount (h : Cache s g) {list : Circular (Fin NBUF)} (log : Log)
    (hcycle : ∃ l, list.Lists l ∧ ∀ b, b ∈ l) (htransit : ∀ a z, t.transit = some (a, z) → ident s a = z)
    (hheld : t.held = (g p).held) (hfilling : t.filling = (g p).filling) (hfreed : t.freed = (g p).freed)
    (hcount : n.toNat = locked s b + transits (update g p t) b +
      pins { s.setRefcnt b n with list := list, log := log } (update g p t) b)
    (hother : ∀ a, a ≠ b → t.at a = (g p).at a)
    (hpins : ∀ a, a ≠ b → pins { s.setRefcnt b n with list := list, log := log } (update g p t) a = pins s g a) :
    Cache { s.setRefcnt b n with list := list, log := log } (update g p t) := by
  have hid : ∀ a, ident { s.setRefcnt b n with list := list, log := log } a = ident s a := fun a => ident_setRefcnt s b a n
  have hdev : ∀ a, ((s.setRefcnt b n).buf a).dev = (s.buf a).dev := fun a => congrArg Prod.fst (hid a)
  have hvalid := fun a => valid_setRefcnt s b a n
  refine h.step hcycle (fun a c ha hac => ?_) (fun a => ?_) (fun a _ => hid a) (fun _ _ _ => Iff.rfl)
    (fun a _ hva => (hvalid a).trans hva) (fun a z hz => (hid a).trans (htransit a z hz)) (fun a z hz => ?_)
    (fun a ha => ?_) (fun a ha => ?_) fun a ha => h.freed p a (hfreed ▸ ha)
  · rw [hid, hid] at hac
    exact h.unique a c (by rw [← hdev a]; exact ha) hac
  · show ((s.setRefcnt b n).buf a).refcnt.toNat = locked s a + _ + _
    have hbuf : (s.setRefcnt b n).buf a = if a = b then { s.buf b with refcnt := n } else s.buf a := buf_setBuf ..
    rw [hbuf]
    by_cases hab : a = b
    · rw [hab, if_pos rfl]
      exact hcount
    have hu := transits_update g p t a
    rw [hother a hab] at hu
    have hc := h.count a
    rw [if_neg hab, hpins a hab]
    omega
  · rw [hheld] at hz
    rw [hid]
    exact h.held p a z hz
  · rw [hfilling]
    exact (h.filled p a ha).imp_right (hvalid a).trans
  · rw [hfilling] at ha
    rw [hheld]
    exact h.filling p a ha

theorem toNat_succ {r : BitVec 32} (h : r.toNat + 1 < 2 ^ 32) : (r + 1).toNat = r.toNat + 1 := by
  rw [BitVec.toNat_add]
  exact Nat.mod_eq_of_lt h

theorem toNat_pred {r : BitVec 32} (h : r.toNat ≠ 0) : (r - 1).toNat = r.toNat - 1 := by
  rw [BitVec.toNat_sub_of_le]
  · rfl
  · show 1 ≤ r.toNat
    omega

theorem Cache.hit (h : Cache s g) (hcard : Fintype.card ι + 3 < 2 ^ 32) (hid : ident s b = x)
    (ht : (g p).transit = none) : Cache (s.setRefcnt b ((s.buf b).refcnt + 1))
      (update g p ((g p).moving (some (b, x)))) := by
  have hu := transits_begin (t := (g p).moving (some (b, x))) ht rfl b
  rw [if_pos rfl] at hu
  have hpins : ∀ a, pins (s.setRefcnt b ((s.buf b).refcnt + 1))
      (update g p ((g p).moving (some (b, x)))) a = pins s g a := fun a =>
    pins_congr (ident_setRefcnt s b a _) fun block _ => pinned_same (by rfl) (by rfl) block
  refine h.recount s.log h.cycle (fun a z hz => ?_) rfl rfl rfl ?_ (fun a hab => ?_) fun a _ => hpins a
  · cases hz
    exact hid
  · have hc := h.count b
    rw [toNat_succ (h.refcnt_lt hcard b)]
    have hp := hpins b
    show (s.buf b).refcnt.toNat + 1 = _ + _ + pins (s.setRefcnt b _) _ b
    omega
  · rw [at_none ht, at_some (t := (g p).moving (some (b, x))) rfl, if_neg hab]

theorem Cache.recycle (h : Cache s g) (hb : (s.buf b).refcnt = 0) {dev blockno : Nat}
    (hnone : ∀ a, ident s a ≠ (dev, blockno)) (ht : (g p).transit = none)
    (hpinned : ∀ block, Pinned s g block → ∃ a, ident s a = (ROOTDEV, block)) :
    Cache (s.recycle b dev blockno)
      (update g p ((g p).moving (some (b, (dev, blockno))))) := by
  obtain ⟨hl, htr, hnp⟩ := h.unused hb
  have hself : ident (s.recycle b dev blockno) b = (dev, blockno) := by simp [ident, State.recycle]
  have hother : ∀ a, a ≠ b → (s.recycle b dev blockno).buf a = s.buf a := fun a hab => update_of_ne hab ..
  have hid : ∀ a, a ≠ b → ident (s.recycle b dev blockno) a = ident s a := by
    intro a hab
    rw [ident, hother a hab, ident]
  have hne : ∀ a, (s.buf a).refcnt ≠ 0 → a ≠ b := by
    intro a ha hab
    rw [hab] at ha
    exact ha hb
  have hu := transits_begin (t := (g p).moving (some (b, (dev, blockno)))) ht rfl
  refine h.step (by exact h.cycle) (fun a c ha hac => ?_) (fun a => ?_) (fun a ha => hid a (hne a ha))
    (fun _ _ _ => Iff.rfl) (fun a ha hv => by rw [hother a (hne a ha)]; exact hv) (fun a y hy => ?_) (fun a y hy => ?_) (fun a ha => ?_)
    (by exact h.filling p) (by exact h.freed p)
  · by_cases hab : a = b
    · rw [hab, hself] at hac
      by_cases hcb : c = b
      · rw [hab, hcb]
      · rw [hid c hcb] at hac
        exact absurd hac.symm (hnone c)
    · rw [hid a hab] at hac
      by_cases hcb : c = b
      · rw [hcb, hself] at hac
        exact absurd hac (hnone a)
      · rw [hid c hcb] at hac
        rw [hother a hab] at ha
        exact h.unique a c ha hac
  · have hua := hu a
    have hc := h.count a
    by_cases hab : a = b
    · subst hab
      have hzero : pins (s.recycle a dev blockno)
          (update g p ((g p).moving (some (a, (dev, blockno))))) a = 0 := by
        unfold pins
        rw [if_neg]
        rintro ⟨block, hblock, hp⟩
        rw [hself] at hblock
        obtain ⟨c, hcid⟩ := hpinned block ((pinned_same (by rfl) (by rfl) block).mp hp)
        exact hnone c (hcid.trans hblock.symm)
      rw [hb] at hc
      have h0 : (0 : BitVec 32).toNat = 0 := rfl
      have h1 : ((s.recycle a dev blockno).buf a).refcnt = 1 := by simp [State.recycle]
      rw [h1, hzero]
      rw [if_pos rfl] at hua
      show (1 : BitVec 32).toNat = locked s a + _ + 0
      have h2 : (1 : BitVec 32).toNat = 1 := rfl
      omega
    · rw [if_neg hab] at hua
      rw [hother a hab, pins_congr (hid a hab) fun block _ => pinned_same (by rfl) (by rfl) block]
      show (s.buf a).refcnt.toNat = locked s a + _ + _
      omega
  · cases hy
    exact hself
  · obtain ⟨hl', hy'⟩ := h.held p a y hy
    have hab : a ≠ b := by
      intro hab
      rw [hab, hl] at hl'
      cases hl'
    rw [hid a hab]
    exact ⟨hl', hy'⟩
  · have hab : a ≠ b := by
      intro hab
      rw [hab] at ha
      change s.lock b = some p at ha
      rw [hl] at ha
      cases ha
    rw [hother a hab]
    exact h.filled p a ha

theorem Cache.unref (h : Cache s g) (ht : (g p).transit = some (b, x)) :
    Cache (unrefStep s b) (update g p ((g p).moving none)) := by
  have hpos := transits_pos ht
  have hc := h.count b
  have hu := transits_end (t := (g p).moving none) ht rfl b
  rw [if_pos rfl] at hu
  have hmain : ∀ list, (∃ l, list.Lists l ∧ ∀ b, b ∈ l) →
      Cache { s.setRefcnt b ((s.buf b).refcnt - 1) with list := list }
        (update g p ((g p).moving none)) := by
    intro list hcycle
    have hpins : ∀ a, pins { s.setRefcnt b ((s.buf b).refcnt - 1) with list := list }
        (update g p ((g p).moving none)) a = pins s g a := fun a =>
      pins_congr (ident_setRefcnt s b a _) fun block _ => pinned_same (by rfl) (by rfl) block
    refine h.recount s.log hcycle nofun rfl rfl rfl ?_ (fun a hab => ?_) fun a _ => hpins a
    · rw [toNat_pred (by omega)]
      have hp := hpins b
      show (s.buf b).refcnt.toNat - 1 = _ + _ + pins { s.setRefcnt b _ with list := list } _ b
      omega
    · rw [at_none (t := (g p).moving none) rfl, at_some ht, if_neg hab]
  unfold unrefStep
  dsimp only
  split
  · obtain ⟨l, hl, hall⟩ := h.cycle
    obtain ⟨l1, l2, rfl⟩ := List.append_of_mem (hall b)
    refine hmain _ ⟨b :: (l1 ++ l2), ?_, fun a => ?_⟩
    · refine hl.unlink.pushFront ?_
      exact (List.nodup_cons.mp (List.nodup_middle.mp hl.nodup)).1
    · have hmem := hall a
      simp only [List.mem_append, List.mem_cons] at hmem ⊢
      tauto
  · exact hmain _ h.cycle

end Bcache
