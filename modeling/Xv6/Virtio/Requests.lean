import Xv6.Virtio.Chains

-- The requests to the disk, from virtio_disk_rw over the device to the handler and back.

namespace Virtio

open Lts List Function

attribute [local simp] Virtio.submit lifeNext Idx.toList

variable {ι β : Type} {es : List (Event ι β)}

section Steps

variable {s s' : State ι β} {p q : ι} {pc : Pc β} {r : State ι β × List (Event ι β)} {j j' : Job β} {x x' : Idx}

theorem Idx.head_mem (x : Idx) : x.head ∈ x.toList := mem_cons_self

theorem Formatted.keep {d d' : Disk β} (h : Formatted d j x) (hdesc : ∀ i ∈ x.toList, d'.desc i = d.desc i)
    (hop : d'.ops x.head = d.ops x.head) (hbuf : (d'.info x.head).b = (d.info x.head).b) : Formatted d' j x := by
  refine ⟨⟨?_, ?_, ?_⟩, hop.trans h.op, hbuf.trans h.buf⟩
  · rw [hdesc _ (by simp), h.head]
  · rw [hdesc _ (by simp), h.data]
  · rw [hdesc _ (by simp), h.status]

-- What the requests on their way rest on is as it was.
structure Still (s s' : State ι β) : Prop where
  desc : ∀ i, s.disk.free i = false → s'.disk.desc i = s.disk.desc i
  ops : s'.disk.ops = s.disk.ops
  info : s'.disk.info = s.disk.info
  early : s'.early = s.early
  late : s'.late = s.late
  busy : s'.busy = s.busy
  holder : s'.holder = s.holder

theorem Touches.still {is : List (Fin NUM)} (ht : Touches is s s') (hfree : ∀ i ∈ is, s.disk.free i = true) :
    Still s s' := by
  have hdesc : ∀ i, s.disk.free i = false → s'.disk.desc i = s.disk.desc i := by
    intro i hi
    refine ht.desc i fun hmem => ?_
    rw [hfree i hmem] at hi
    cases hi
  refine ⟨hdesc, ?_, ?_, ?_, ?_, ?_, ?_⟩ <;> rw [ht.rest] <;> rfl

-- A move of the device or of the handler, which leaves to the processes what is theirs.
structure Aside (s s' : State ι β) : Prop where
  pc : s'.pc = s.pc
  holder : s'.holder = s.holder
  lock : s'.lock = s.lock
  free : s'.disk.free = s.disk.free
  desc : s'.disk.desc = s.disk.desc
  ops : s'.disk.ops = s.disk.ops
  buf : ∀ i, (s'.disk.info i).b = (s.disk.info i).b

theorem Aside.format (ha : Aside s s') (h : Formatted s.disk j x) : Formatted s'.disk j x :=
  h.keep (fun i _ => congrFun ha.desc i) (congrFun ha.ops _) (ha.buf _)

section

variable [DecidableEq ι]

section

variable (h : Owns s.disk.free fun p => (s.pc p).held)

include h

theorem Owns.same (hfree : s'.disk.free = s.disk.free)
    (hpc : s'.pc = update s.pc p pc) (hheld : pc.held = (s.pc p).held) :
    Owns s'.disk.free fun p => (s'.pc p).held := by
  have heq : (fun q => (s'.pc q).held) = fun q => (s.pc q).held := by
    rw [hpc]
    exact funext (field_update Pc.held hheld)
  rw [hfree, heq]
  exact h

theorem Owns.alloc (hheld : (s.pc p).held = [])
    (hnd : x.toList.Nodup) (hx : ∀ i ∈ x.toList, s.disk.free i = true ∧ s'.disk.free i = false)
    (ht : Touches x.toList s s') (hpc : pc.held = x.toList) :
    Owns s'.disk.free fun q => (update s.pc p pc q).held := by
  have hnot : ∀ q i, i ∈ (s.pc q).held → i ∉ x.toList := by
    intro q i hi hmem
    have hfalse := (h.free i).mpr ⟨q, hi⟩
    rw [(hx i hmem).1] at hfalse
    cases hfalse
  have hother : ∀ q i, i ∈ (update s.pc p pc q).held ↔ (q = p ∧ i ∈ x.toList) ∨ i ∈ (s.pc q).held := by
    intro q i
    by_cases hq : q = p
    · rw [hq, update_self, hpc, hheld]
      simp
    · rw [update_of_ne hq]
      simp [hq]
  constructor
  · intro q
    by_cases hq : q = p
    · rw [hq, update_self, hpc]
      exact hnd
    · rw [update_of_ne hq]
      exact h.distinct q
  · intro q q' i hi hi'
    rcases (hother q i).mp hi with ⟨hq, hmem⟩ | hi
    · rcases (hother q' i).mp hi' with ⟨hq', _⟩ | hi'
      · rw [hq, hq']
      · exact absurd hmem (hnot q' i hi')
    · rcases (hother q' i).mp hi' with ⟨_, hmem⟩ | hi'
      · exact absurd hmem (hnot q i hi)
      · exact h.apart q q' i hi hi'
  · intro i
    by_cases hmem : i ∈ x.toList
    · exact ⟨fun _ => ⟨p, (hother p i).mpr (.inl ⟨rfl, hmem⟩)⟩, fun _ => (hx i hmem).2⟩
    rw [ht.free i hmem, h.free i]
    constructor
    · rintro ⟨q, hq⟩
      exact ⟨q, (hother q i).mpr (.inr hq)⟩
    · rintro ⟨q, hq⟩
      rcases (hother q i).mp hq with ⟨_, h⟩ | hq
      · exact absurd h hmem
      · exact ⟨q, hq⟩

theorem Owns.dealloc (hheld : (s.pc p).held = x.toList)
    (hx : ∀ i ∈ x.toList, s'.disk.free i = true) (ht : ∀ i, i ∉ x.toList → s'.disk.free i = s.disk.free i)
    (hpc : pc.held = []) : Owns s'.disk.free fun q => (update s.pc p pc q).held := by
  have hother : ∀ q i, i ∈ (update s.pc p pc q).held ↔ q ≠ p ∧ i ∈ (s.pc q).held := by
    intro q i
    by_cases hq : q = p
    · rw [hq, update_self, hpc]
      simp
    · rw [update_of_ne hq]
      simp [hq]
  constructor
  · intro q
    by_cases hq : q = p
    · rw [hq, update_self, hpc]
      exact nodup_nil
    · rw [update_of_ne hq]
      exact h.distinct q
  · intro q q' i hi hi'
    exact h.apart q q' i ((hother q i).mp hi).2 ((hother q' i).mp hi').2
  · intro i
    by_cases hmem : i ∈ x.toList
    · rw [hx i hmem]
      refine ⟨nofun, fun ⟨q, hq⟩ => ?_⟩
      obtain ⟨hne, hq⟩ := (hother q i).mp hq
      exact absurd (h.apart q p i hq (by rw [hheld]; exact hmem)) hne
    rw [ht i hmem, h.free i]
    constructor
    · rintro ⟨q, hq⟩
      refine ⟨q, (hother q i).mpr ⟨fun heq => hmem ?_, hq⟩⟩
      rw [← hheld, ← heq]
      exact hq
    · rintro ⟨q, hq⟩
      exact ⟨q, ((hother q i).mp hq).2⟩

end

end

variable [DecidableEq β]

theorem formatted_submit (hnd : x.toList.Nodup) : Formatted (submit s j x).disk j x := by
  simp only [Idx.toList, nodup_cons, mem_cons, not_mem_nil, or_false, not_or] at hnd
  obtain ⟨⟨hhd, hhs⟩, hds, -⟩ := hnd
  refine ⟨⟨?_, ?_, ?_⟩, ?_, ?_⟩
  · simp [hhd, hhs]
  · simp [hds]
  · simp
  · simp
  · simp

theorem Formatted.other (h : Formatted s.disk j' x') (hx : ∀ i ∈ x'.toList, i ∉ x.toList) :
    Formatted (submit s j x).disk j' x' := by
  have hhead : x'.head ≠ x.head := fun heq => hx _ x'.head_mem (heq ▸ x.head_mem)
  refine h.keep (fun i hi => ?_) (by simp [hhead]) (by simp [hhead])
  have hne := hx i hi
  simp only [Idx.toList, mem_cons, not_mem_nil, or_false, not_or] at hne
  simp [hne]

theorem life_submit (es : List (Event ι β)) (p : ι) (i : Nat) (j : Job β) (b : β) :
    life (es ++ [.submit p i j.transfer]) b = if j.b = b then .submitted p i j.transfer else life es b := by
  rw [life_snoc]
  rfl

theorem life_ret (es : List (Event ι β)) (p : ι) (b b' : β) :
    life (es ++ [.ret p b]) b' = if b = b' then .idle else life es b' := by
  rw [life_snoc]
  rfl

theorem Flow.same_buf (hf : Flow es s) (hp : (s.pc p).job = some j) (hq : (s.pc q).job = some j') (hb : j'.b = j.b) :
    q = p := by
  have hp := hf.holder p j hp
  have hq := hf.holder q j' hq
  rw [hb, hp] at hq
  exact (Option.some.inj hq).symm

section

variable (hf : Flow es s) (hp : (s.pc p).held = x.toList)

include hf hp

theorem Flow.same_head (hq : (s.pc q).flight = some (j', x')) (hx : x'.head ∈ x.toList) : q = p := by
  refine hf.owns.apart q p x'.head ?_ (hp ▸ hx)
  show x'.head ∈ (s.pc q).held
  rw [Pc.held_of_flight hq]
  exact x'.head_mem

theorem Flow.apart (hne : q ≠ p) (hq : (s.pc q).flight = some (j', x')) : ∀ i ∈ x'.toList, i ∉ x.toList := by
  intro i hi hmem
  refine hne (hf.owns.apart q p i ?_ (hp ▸ hmem))
  show i ∈ (s.pc q).held
  rwa [Pc.held_of_flight hq]

theorem Flow.head_ne (hne : q ≠ p) (hq : (s.pc q).flight = some (j', x')) : x'.head ≠ x.head := by
  intro heq
  refine hf.apart hp hne hq x'.head x'.head_mem ?_
  rw [heq]
  exact x.head_mem

end

theorem Flow.lt_NUM (hf : Flow es s) : ∀ i ∈ s.early ++ s.late, i < NUM := by
  intro i hi
  obtain ⟨_, _, x, _, rfl, _⟩ := hf.owner i hi
  exact x.head.isLt

theorem length_le_NUM {l : List Nat} (hnd : l.Nodup) (hlt : ∀ i ∈ l, i < NUM) : l.length ≤ NUM := by
  have hsub : l ⊆ List.range NUM := fun i hi => mem_range.mpr (hlt i hi)
  have hle := (subperm_of_subset hnd hsub).length_le
  rwa [length_range] at hle

theorem Flow.request (hf : Flow es s) {i : Nat} (hi : i ∈ s.early ++ s.late) :
    ∃ p j x, (s.pc p).flight = some (j, x) ∧ x.head.val = i ∧ Formatted s.disk j x ∧ s.busy j.b = true ∧
      (i ∈ s.early → life es j.b = .submitted p x.head j.transfer) ∧
      (i ∈ s.late → life es j.b = .transferred p x.head ∧ (s.disk.info x.head).status = 0) := by
  obtain ⟨p, j, x, hfl, rfl, hbusy⟩ := hf.owner i hi
  have hdis := disjoint_of_nodup_append hf.queue
  refine ⟨p, j, x, hfl, rfl, hf.format p j x hfl, hbusy, fun he => ?_, fun hl => ?_⟩
  · cases hf.stage p j x hfl with
    | submitted hlife _ _ => exact hlife
    | transferred _ _ hmem _ => exact absurd hmem (hdis he)
    | completed _ hidle => rw [hbusy] at hidle; cases hidle
  · cases hf.stage p j x hfl with
    | submitted _ _ hmem => exact absurd hl (hdis hmem)
    | transferred hlife _ _ hstatus => exact ⟨hlife, hstatus⟩
    | completed _ hidle => rw [hbusy] at hidle; cases hidle

variable {es' : List (Event ι β)}

theorem Stage.keep (h : Stage es s p j x) (hlife : life es' j.b = life es j.b) (hbusy : s'.busy j.b = s.busy j.b)
    (he : x.head.val ∈ s.early → x.head.val ∈ s'.early) (hl : x.head.val ∈ s.late → x.head.val ∈ s'.late)
    (hstatus : (s'.disk.info x.head).status = (s.disk.info x.head).status) : Stage es' s' p j x := by
  cases h with
  | submitted h hb hm => exact .submitted (hlife.trans h) (hbusy.trans hb) (he hm)
  | transferred h hb hm hst => exact .transferred (hlife.trans h) (hbusy.trans hb) (hl hm) (hstatus.trans hst)
  | completed h hb => exact .completed (hlife.trans h) (hbusy.trans hb)

-- What Flow says of a process that is at `pc`.
structure At (es : List (Event ι β)) (s : State ι β) (p : ι) (pc : Pc β) : Prop where
  holder : ∀ j, pc.job = some j → s.holder j.b = some p
  locked : pc.Locked → s.lock = some (.proc p)
  flight : ∀ j x, pc.flight = some (j, x) → Formatted s.disk j x ∧ Stage es s p j x
  done : ∀ j x, pc = .free j x → s.busy j.b = false

theorem Flow.of_at (howns : Owns s.disk.free fun p => (s.pc p).held) (hat : ∀ p, At es s p (s.pc p))
    (hqueue : (s.early ++ s.late).Nodup)
    (howner : ∀ i ∈ s.early ++ s.late, ∃ p j x, (s.pc p).flight = some (j, x) ∧ x.head.val = i ∧ s.busy j.b = true)
    (hidle : ∀ b, life es b ≠ .idle → ∃ p j x, (s.pc p).flight = some (j, x) ∧ j.b = b) (hlawful : Always Lawful es) :
    Flow es s :=
  ⟨howns, fun p => (hat p).holder, fun p => (hat p).locked, fun p j x h => ((hat p).flight j x h).1,
    fun p j x h => ((hat p).flight j x h).2, fun p => (hat p).done, hqueue, howner, hidle, hlawful⟩

section Process

variable [DecidableEq ι]

theorem at_update (hpc : s'.pc = update s.pc p pc) (hp : At es s' p pc) (hother : ∀ q, q ≠ p → At es s' q (s.pc q))
    (q : ι) : At es s' q (s'.pc q) := by
  rw [hpc]
  by_cases hq : q = p
  · rw [hq, update_self]
    exact hp
  · rw [update_of_ne hq]
    exact hother q hq

section

variable (hf : Flow es s)

include hf

theorem Flow.go (hs : Still s s') (hpc : s'.pc = update s.pc p pc)
    (hlock : s.lock = some (.proc p) ∨ s.lock = none ∨ s'.lock = s.lock)
    (hl : pc.Locked → s'.lock = some (.proc p)) (hjob : ∀ j, pc.job = some j → s.holder j.b = some p)
    (hflight : pc.flight = (s.pc p).flight) (hdone : ∀ j x, pc = .free j x → s.busy j.b = false)
    (howns : Owns s'.disk.free fun p => (s'.pc p).held) : Flow es s' := by
  have hfl : ∀ q, (s'.pc q).flight = (s.pc q).flight := by
    rw [hpc]
    exact field_update Pc.flight hflight
  have hway : ∀ q j x, (s.pc q).flight = some (j, x) → Formatted s'.disk j x ∧ Stage es s' q j x := by
    intro q j x hq
    refine ⟨(hf.format q j x hq).keep (fun i hi => hs.desc i ((hf.owns.free i).mpr ⟨q, ?_⟩)) (by rw [hs.ops])
      (by rw [hs.info]), (hf.stage q j x hq).keep rfl (by rw [hs.busy]) (hs.early ▸ id) (hs.late ▸ id) (by rw [hs.info])⟩
    show i ∈ (s.pc q).held
    rwa [Pc.held_of_flight hq]
  refine .of_at howns (at_update hpc ⟨?_, hl, ?_, ?_⟩ fun q hq => ⟨?_, fun hlq => ?_, hway q, ?_⟩) ?_ ?_ ?_ hf.lawful
  · rw [hs.holder]
    exact hjob
  · rw [hflight]
    exact hway p
  · rw [hs.busy]
    exact hdone
  · rw [hs.holder]
    exact hf.holder q
  · have hlq := hf.locked q hlq
    rcases hlock with h | h | h
    · rw [hlq] at h
      cases h
      exact absurd rfl hq
    · rw [hlq] at h
      cases h
    · rw [h]
      exact hlq
  · rw [hs.busy]
    exact hf.done q
  · rw [hs.early, hs.late]
    exact hf.queue
  · rw [hs.early, hs.late, hs.busy]
    simp only [hfl]
    exact hf.owner
  · simp only [hfl]
    exact hf.idle

theorem Flow.acquire (hm : acquire s p pc = some r) (hjob : pc.job = (s.pc p).job)
    (hheld : pc.held = (s.pc p).held) (hflight : pc.flight = (s.pc p).flight)
    (hdone : ∀ j x, pc ≠ .free j x) : Flow (es ++ r.2) r.1 := by
  unfold Virtio.acquire at hm
  cases hl : s.lock with
  | some o => simp [hl] at hm
  | none =>
    simp only [hl] at hm
    cases hm
    rw [append_nil]
    refine hf.go ⟨fun _ _ => rfl, rfl, rfl, rfl, rfl, rfl, rfl⟩ rfl (.inr (.inl hl)) (fun _ => rfl) ?_ hflight
      (fun j x h => absurd h (hdone j x)) (hf.owns.same rfl rfl hheld)
    intro j hj
    exact hf.holder p j (hjob ▸ hj)

theorem Flow.alloc (hpc : s.pc p = .alloc j)
    (hm : virtioDiskRw s p = some r) : Flow (es ++ r.2) r.1 := by
  have hl := hf.locked p (by rw [hpc]; trivial)
  have hholder : s.holder j.b = some p := hf.holder p j (by rw [hpc]; rfl)
  have hjob : ∀ j', some j = some j' → s.holder j'.b = some p := by
    intro j' heq
    cases heq
    exact hholder
  obtain ⟨o, s', hok, hspec⟩ := alloc3Desc_spec s
  simp only [virtioDiskRw, hpc, hok] at hm
  cases o with
  | none =>
    obtain ⟨is, hfree, ht⟩ := hspec
    cases hm
    rw [append_nil]
    have hstill := ht.still fun i hi => (hfree i hi).1
    have hsame : s'.disk.free = s.disk.free := by
      funext i
      by_cases hi : i ∈ is
      · rw [(hfree i hi).1, (hfree i hi).2]
      · exact ht.free i hi
    have hpcs : ((s'.sleep p .free).goto p (.allocWake j)).pc = update s.pc p (.allocWake j) := by
      rw [ht.rest]
      rfl
    have hnone : (Pc.allocWake j).flight = (s.pc p).flight := by rw [hpc]; rfl
    have hnil : (Pc.allocWake j).held = (s.pc p).held := by rw [hpc]; rfl
    exact hf.go ⟨hstill.desc, hstill.ops, hstill.info, hstill.early, hstill.late, hstill.busy, hstill.holder⟩
      hpcs (.inl hl) False.elim hjob hnone nofun (hf.owns.same hsame hpcs hnil)
  | some x =>
    obtain ⟨hnd, hfree, ht⟩ := hspec
    cases hm
    rw [append_nil]
    have hstill := ht.still fun i hi => (hfree i hi).1
    have hpcs : (s'.goto p (.submit j x)).pc = update s.pc p (.submit j x) := by
      rw [ht.rest]
      rfl
    have hlock : s'.lock = s.lock := by rw [ht.rest]
    have hnone : (Pc.submit j x).flight = (s.pc p).flight := by rw [hpc]; rfl
    refine hf.go ⟨hstill.desc, hstill.ops, hstill.info, hstill.early, hstill.late, hstill.busy, hstill.holder⟩
      hpcs (.inl hl) (fun _ => hlock.trans hl) hjob hnone nofun ?_
    rw [hpcs]
    show Owns s'.disk.free _
    exact hf.owns.alloc (by rw [hpc]; rfl) hnd hfree ht rfl

theorem Flow.submitted (hpc : s.pc p = .submit j x) :
    Flow (es ++ [.submit p x.head j.transfer]) ((submit s j x).goto p (.wait j x)) := by
  have hjob : (s.pc p).job = some j := by rw [hpc]; rfl
  have hheld : (s.pc p).held = x.toList := by rw [hpc]; rfl
  have hflight : (s.pc p).flight = none := by rw [hpc]; rfl
  have hnd : x.toList.Nodup := by
    rw [← hheld]
    exact hf.owns.distinct p
  have hne : ∀ {q j' x'}, (s.pc q).flight = some (j', x') → q ≠ p := by
    intro q j' x' hq heq
    rw [heq, hflight] at hq
    cases hq
  have hbuf : ∀ {q j' x'}, (s.pc q).flight = some (j', x') → j'.b ≠ j.b := by
    intro q j' x' hq hb
    exact hne hq (hf.same_buf hjob (Pc.job_of_flight hq) hb)
  have hidle : life es j.b = .idle := by
    by_contra hlife
    obtain ⟨q, j', x', hq, hb⟩ := hf.idle j.b hlife
    exact hbuf hq hb
  have hfresh : x.head.val ∉ s.early ++ s.late := by
    intro hmem
    obtain ⟨q, j', x', hq, hx, -⟩ := hf.owner _ hmem
    exact hne hq (hf.same_head hheld hq (Fin.ext hx ▸ x.head_mem))
  have hroom : s.disk.avail.count < NUM := by
    have hlen : (x.head.val :: (s.early ++ s.late)).length ≤ NUM := by
      refine length_le_NUM (nodup_cons.mpr ⟨hfresh, hf.queue⟩) fun i hi => ?_
      rcases mem_cons.mp hi with hi | hi
      · rw [hi]
        exact x.head.isLt
      · exact hf.lt_NUM i hi
    simp only [State.early, length_cons, length_append, RingBuffer.contents_length] at hlen
    omega
  have hearly : ((submit s j x).goto p (.wait j x)).early = s.disk.avail.contents ++ [x.head.val] ++ s.taken := by
    show (s.disk.avail.push x.head.val).contents ++ s.taken = _
    rw [RingBuffer.contents_push (by decide) (by decide) hroom]
  have hlate : ((submit s j x).goto p (.wait j x)).late = s.late := rfl
  have hmem : ∀ i, i ∈ ((submit s j x).goto p (.wait j x)).early ↔ i = x.head.val ∨ i ∈ s.early := by
    intro i
    rw [hearly]
    simp only [State.early, mem_append, mem_singleton]
    tauto
  have hself : ((submit s j x).goto p (.wait j x)).pc p = .wait j x := update_self ..
  have hother : ∀ q, q ≠ p → ((submit s j x).goto p (.wait j x)).pc q = s.pc q := fun q hq => update_of_ne hq ..
  have hbusy : ∀ b, b ≠ j.b → ((submit s j x).goto p (.wait j x)).busy b = s.busy b := fun b hb =>
    update_of_ne hb ..
  refine .of_at (hf.owns.same rfl rfl hheld.symm) (at_update (s := s) rfl ⟨fun j' heq => hf.holder p j' (hjob.trans heq), fun _ => ?_,
    fun j' x' heq => ?_, nofun⟩ fun q hqp => ⟨hf.holder q, hf.locked q, fun j' x' hq => ?_, fun j' x' hq => ?_⟩) ?_ ?_ ?_
    (always_snoc hf.lawful hidle)
  · exact hf.locked p (by rw [hpc]; trivial)
  · cases heq
    refine ⟨formatted_submit hnd, .submitted ?_ (update_self ..) ((hmem _).mpr (.inl rfl))⟩
    rw [life_submit, if_pos rfl]
  · have hb := hbuf hq
    have hlife : life (es ++ [.submit p x.head j.transfer]) j'.b = life es j'.b := by
      rw [life_submit, if_neg (Ne.symm hb)]
    refine ⟨(hf.format q j' x' hq).other (hf.apart hheld hqp hq),
      (hf.stage q j' x' hq).keep hlife (hbusy _ hb) (fun hm => (hmem _).mpr (.inr hm)) id ?_⟩
    simp [hf.head_ne hheld hqp hq]
  · exact (hbusy _ (hbuf (by rw [hq]; rfl))).trans (hf.done q j' x' hq)
  · rw [hlate, hearly]
    have hperm : List.Perm (s.disk.avail.contents ++ [x.head.val] ++ s.taken ++ s.late)
        (x.head.val :: (s.early ++ s.late)) := by
      simp only [State.early, append_assoc, singleton_append]
      exact perm_middle
    rw [hperm.nodup_iff]
    exact nodup_cons.mpr ⟨hfresh, hf.queue⟩
  · intro i hi
    rw [mem_append, hmem, hlate, or_assoc, ← mem_append] at hi
    rcases hi with rfl | hi
    · exact ⟨p, j, x, by rw [hself]; rfl, rfl, update_self ..⟩
    · obtain ⟨q, j', x', hq, hx, hbu⟩ := hf.owner i hi
      exact ⟨q, j', x', by rw [hother q (hne hq)]; exact hq, hx, (hbusy _ (hbuf hq)).trans hbu⟩
  · intro b hb
    rw [life_submit] at hb
    by_cases hjb : j.b = b
    · exact ⟨p, j, x, by rw [hself]; rfl, hjb⟩
    · rw [if_neg hjb] at hb
      obtain ⟨q, j', x', hq, hx⟩ := hf.idle b hb
      exact ⟨q, j', x', by rw [hother q (hne hq)]; exact hq, hx⟩

-- info[idx[0]].b = 0
def clearInfo (s : State ι β) (i : Fin NUM) : State ι β :=
  s.setDisk { s.disk with info := update s.disk.info i { s.disk.info i with b := none } }

theorem Flow.freed (hpc : s.pc p = .free j x) (hm : virtioDiskRw s p = some r) :
    Flow (es ++ r.2) r.1 ∧ r.2 = [.ret p j.b] ∧ ∀ i ∈ x.toList, r.1.disk.free i = true := by
  have hheld : (s.pc p).held = x.toList := by rw [hpc]; rfl
  have hflight : (s.pc p).flight = some (j, x) := by rw [hpc]; rfl
  have hbusy := hf.done p j x hpc
  have hlock := hf.locked p (by rw [hpc]; trivial)
  have hnd : x.toList.Nodup := by
    rw [← hheld]
    exact hf.owns.distinct p
  have hlife : life es j.b = .completed p x.head := by
    cases hf.stage p j x hflight with
    | submitted _ h _ | transferred _ h _ _ => rw [hbusy] at h; cases h
    | completed h _ => exact h
  have hfmt := hf.format p j x hflight
  have hused : ∀ i ∈ x.toList, s.disk.free i = false := by
    intro i hi
    refine (hf.owns.free i).mpr ⟨p, ?_⟩
    show i ∈ (s.pc p).held
    rwa [hheld]
  obtain ⟨s', hok, hfree, ht⟩ : ∃ s', freeChain (NUM + 1) x.head (clearInfo s x.head) = .ok s' ∧
      (∀ i ∈ x.toList, s'.disk.free i = true) ∧ Touches x.toList (clearInfo s x.head) s' := by
    exact freeChain_spec (s := clearInfo s x.head) (j := j) ⟨hfmt.head, hfmt.data, hfmt.status⟩ hnd hused 6
  have hm' : some ((s'.setLock none).goto p .user, [.ret p j.b]) = some r := by
    rw [← hm]
    unfold clearInfo at hok
    simp only [virtioDiskRw, hpc, hok]
  cases hm'
  refine ⟨?_, rfl, hfree⟩
  have hpcs : ((s'.setLock none).goto p .user).pc = update s.pc p .user := by
    rw [ht.rest]
    rfl
  have hearly : ((s'.setLock none).goto p .user).early = s.early := by
    rw [ht.rest]
    rfl
  have hlate : ((s'.setLock none).goto p .user).late = s.late := by
    rw [ht.rest]
    rfl
  have hbusys : s'.busy = s.busy := by rw [ht.rest]; rfl
  have hholder : s'.holder = s.holder := by rw [ht.rest]; rfl
  have hops : s'.disk.ops = s.disk.ops := by rw [ht.rest]; rfl
  have hinfo : ∀ i, i ≠ x.head → s'.disk.info i = s.disk.info i := by
    intro i hi
    rw [ht.rest]
    exact update_of_ne hi ..
  have hother : ∀ q, q ≠ p → ((s'.setLock none).goto p .user).pc q = s.pc q := by
    intro q hq
    rw [hpcs, update_of_ne hq]
  have hout : At (es ++ [.ret p j.b]) ((s'.setLock none).goto p .user) p .user :=
    ⟨(fun _ h => by cases h), False.elim, (fun _ _ h => by cases h), fun _ _ h => by cases h⟩
  refine .of_at ?_ (at_update hpcs hout fun q hqp => ⟨?_, fun hl => ?_, fun j' x' hq => ?_,
    fun j' x' hq => (congrFun hbusys _).trans (hf.done q j' x' hq)⟩) ?_ ?_ ?_ (always_snoc hf.lawful ⟨_, hlife⟩)
  · rw [hpcs]
    exact hf.owns.dealloc hheld hfree ht.free rfl
  · change ∀ j' : Job β, _ → s'.holder j'.b = some q
    rw [hholder]
    exact hf.holder q
  · have hl := hf.locked q hl
    rw [hlock] at hl
    cases hl
    exact absurd rfl hqp
  · have hapart := hf.apart hheld hqp hq
    have hinfo' := hinfo _ (hf.head_ne hheld hqp hq)
    have hbuf : j.b ≠ j'.b := fun hb => hqp (hf.same_buf (Pc.job_of_flight hflight) (Pc.job_of_flight hq) hb.symm)
    have hlife' : life (es ++ [.ret p j.b]) j'.b = life es j'.b := by rw [life_ret, if_neg hbuf]
    exact ⟨(hf.format q j' x' hq).keep (fun i hi => ht.desc i (hapart i hi)) (congrFun hops _) (congrArg Info.b hinfo'),
      (hf.stage q j' x' hq).keep hlife' (congrFun hbusys _) (hearly ▸ id) (hlate ▸ id) (congrArg Info.status hinfo')⟩
  · rw [hearly, hlate]
    exact hf.queue
  · intro i hi
    rw [hearly, hlate] at hi
    obtain ⟨q, j', x', hq, hx, hbu⟩ := hf.owner i hi
    have hqp : q ≠ p := by
      intro heq
      rw [heq, hflight] at hq
      cases hq
      rw [hbusy] at hbu
      cases hbu
    exact ⟨q, j', x', by rw [hother q hqp]; exact hq, hx, (congrFun hbusys _).trans hbu⟩
  · intro b hb
    rw [life_ret] at hb
    by_cases hjb : j.b = b
    · rw [if_pos hjb] at hb
      exact absurd rfl hb
    rw [if_neg hjb] at hb
    obtain ⟨q, j', x', hq, hx⟩ := hf.idle b hb
    have hqp : q ≠ p := by
      intro heq
      rw [heq, hflight] at hq
      cases hq
      exact hjb hx
    exact ⟨q, j', x', by rw [hother q hqp]; exact hq, hx⟩

theorem Flow.rw (hm : virtioDiskRw s p = some r) : Flow (es ++ r.2) r.1 := by
  have hstill : ∀ s' : State ι β, s'.disk = s.disk → s'.taken = s.taken → s'.finished = s.finished →
      s'.busy = s.busy → s'.holder = s.holder → Still s s' := by
    intro s' hd ht hfin hb hh
    refine ⟨fun _ _ => by rw [hd], by rw [hd], by rw [hd], ?_, ?_, hb, hh⟩
    · rw [State.early, hd, ht, State.early]
    · rw [State.late, hd, hfin, State.late]
  cases hpc : s.pc p with
  | user => simp [virtioDiskRw, hpc] at hm
  | acquire j =>
    simp only [virtioDiskRw, hpc] at hm
    exact hf.acquire hm (by rw [hpc]; rfl) (by rw [hpc]; rfl) (by rw [hpc]; rfl) nofun
  | alloc j => exact hf.alloc hpc hm
  | allocWake j | wake j x =>
    simp only [virtioDiskRw, hpc] at hm
    split at hm
    · cases hm
    · exact hf.acquire hm (by rw [hpc]; rfl) (by rw [hpc]; rfl) (by rw [hpc]; rfl) nofun
  | submit j x =>
    simp only [virtioDiskRw, hpc] at hm
    cases hm
    exact hf.submitted hpc
  | wait j x =>
    have hlock := hf.locked p (by rw [hpc]; trivial)
    have hjob : ∀ j', some j = some j' → s.holder j'.b = some p := by
      intro j' heq
      exact hf.holder p j' (by rw [hpc]; exact heq)
    simp only [virtioDiskRw, hpc] at hm
    split at hm
    · cases hm
      rw [append_nil]
      have hfl : (Pc.wake j x).flight = (s.pc p).flight := by rw [hpc]; rfl
      have hheld : (Pc.wake j x).held = (s.pc p).held := by rw [hpc]; rfl
      exact hf.go (hstill _ rfl rfl rfl rfl rfl) rfl (.inl hlock) False.elim hjob hfl nofun
        (hf.owns.same rfl rfl hheld)
    · next hbusy =>
      cases hm
      rw [append_nil]
      have hfl : (Pc.free j x).flight = (s.pc p).flight := by rw [hpc]; rfl
      have hheld : (Pc.free j x).held = (s.pc p).held := by rw [hpc]; rfl
      refine hf.go (hstill _ rfl rfl rfl rfl rfl) rfl (.inl hlock) (fun _ => hlock) hjob hfl ?_
        (hf.owns.same rfl rfl hheld)
      intro j' x' heq
      cases heq
      exact Bool.not_eq_true _ ▸ hbusy
  | free j x => exact (hf.freed hpc hm).1

end

end Process

theorem Flow.shift (hf : Flow es s) (ha : Aside s s') (hinfo : s'.disk.info = s.disk.info) (hbusy : s'.busy = s.busy)
    (he : s'.early.Perm s.early) (hl : s'.late.Perm s.late) : Flow es s' := by
  have hq := he.append hl
  constructor
  · rw [ha.free, ha.pc]
    exact hf.owns
  · rw [ha.pc, ha.holder]
    exact hf.holder
  · rw [ha.pc, ha.lock]
    exact hf.locked
  · intro q j x hp
    rw [ha.pc] at hp
    exact ha.format (hf.format q j x hp)
  · intro q j x hp
    rw [ha.pc] at hp
    exact (hf.stage q j x hp).keep rfl (by rw [hbusy]) he.mem_iff.mpr hl.mem_iff.mpr (by rw [hinfo])
  · rw [ha.pc, hbusy]
    exact hf.done
  · exact hq.nodup_iff.mpr hf.queue
  · intro i hi
    rw [ha.pc, hbusy]
    exact hf.owner i (hq.mem_iff.mp hi)
  · rw [ha.pc]
    exact hf.idle
  · exact hf.lawful

theorem Flow.advance (hf : Flow es s) (hp : (s.pc p).flight = some (j, x)) (ha : Aside s s')
    (hstatus : ∀ i, i ≠ x.head → (s'.disk.info i).status = (s.disk.info i).status)
    (hbusy : ∀ b, b ≠ j.b → s'.busy b = s.busy b) (hdone : s.busy j.b = false → s'.busy j.b = false)
    (he : ∀ i, i ≠ x.head.val → (i ∈ s'.early ↔ i ∈ s.early)) (hl : ∀ i, i ≠ x.head.val → (i ∈ s'.late ↔ i ∈ s.late))
    (hq : (s'.early ++ s'.late).Nodup) (hmem : x.head.val ∈ s'.early ++ s'.late → s'.busy j.b = true)
    (hlife : ∀ b, b ≠ j.b → life es' b = life es b) (hstage : Stage es' s' p j x) (hlawful : Always Lawful es') :
    Flow es' s' := by
  have hheld := Pc.held_of_flight hp
  have hne : ∀ {q j' x'}, q ≠ p → (s.pc q).flight = some (j', x') → j'.b ≠ j.b := by
    intro q j' x' hqp hq hb
    exact hqp (hf.same_buf (Pc.job_of_flight hp) (Pc.job_of_flight hq) hb)
  constructor
  · rw [ha.free, ha.pc]
    exact hf.owns
  · rw [ha.pc, ha.holder]
    exact hf.holder
  · rw [ha.pc, ha.lock]
    exact hf.locked
  · intro q j x hp
    rw [ha.pc] at hp
    exact ha.format (hf.format q j x hp)
  · intro q j' x' hq
    rw [ha.pc] at hq
    by_cases hqp : q = p
    · rw [hqp, hp] at hq
      cases hq
      rw [hqp]
      exact hstage
    · have hb := hne hqp hq
      have hx := hf.head_ne hheld hqp hq
      have hv : x'.head.val ≠ x.head.val := fun h => hx (Fin.ext h)
      exact (hf.stage q j' x' hq).keep (hlife _ hb) (hbusy _ hb) (he _ hv).mpr (hl _ hv).mpr (hstatus _ hx)
  · intro q j' x' hq
    rw [ha.pc] at hq
    have hbu := hf.done q j' x' hq
    by_cases hb : j'.b = j.b
    · rw [hb] at hbu ⊢
      exact hdone hbu
    · exact (hbusy _ hb).trans hbu
  · exact hq
  · intro i hi
    rw [ha.pc]
    by_cases hix : i = x.head.val
    · rw [hix] at hi ⊢
      exact ⟨p, j, x, hp, rfl, hmem hi⟩
    rw [mem_append, he i hix, hl i hix, ← mem_append] at hi
    obtain ⟨q, j', x', hq, hx, hbu⟩ := hf.owner i hi
    have hqp : q ≠ p := by
      intro heq
      rw [heq, hp] at hq
      cases hq
      exact hix hx.symm
    exact ⟨q, j', x', hq, hx, (hbusy _ (hne hqp hq)).trans hbu⟩
  · intro b hb
    rw [ha.pc]
    by_cases hjb : b = j.b
    · exact ⟨p, j, x, hp, hjb.symm⟩
    · rw [hlife b hjb] at hb
      exact hf.idle b hb
  · exact hlawful

theorem life_transfer {r : Transfer β} {i i' : Nat} {r' : Transfer β} (h : life es r.b = .submitted p i' r') (b : β) :
    life (es ++ [.transfer i r]) b = if b = r.b then .transferred p i else life es b := by
  rw [life_snoc]
  by_cases hb : b = r.b
  · rw [hb, h]
    simp
  · simp [hb, Ne.symm hb]

theorem life_complete {b : β} {i i' : Nat} (h : life es b = .transferred p i') (b' : β) :
    life (es ++ [.complete i b]) b' = if b' = b then .completed p i else life es b' := by
  rw [life_snoc]
  by_cases hb : b' = b
  · rw [hb, h]
    simp
  · simp [hb, Ne.symm hb]

section

variable (hf : Flow es s)

include hf

theorem Flow.transfer {i : Nat} (hm : deviceTransfer s i = some r) : Flow (es ++ r.2) r.1 := by
  unfold deviceTransfer at hm
  split at hm
  · next hi =>
    have hearly : i ∈ s.early := mem_append_right _ hi
    obtain ⟨p, j, x, hp, rfl, hfmt, hbusy, hlife, -⟩ := hf.request (mem_append_left _ hearly)
    have hlife := hlife hearly
    simp only [hfmt.chain] at hm
    cases hm
    have hperm : List.Perm ((s.disk.avail.contents ++ s.taken.erase x.head.val) ++
        ((s.finished ++ [x.head.val]) ++ s.disk.used.contents)) (s.early ++ s.late) := by
      rw [perm_iff_count]
      intro k
      have hpos := count_pos_iff.mpr hi
      simp only [State.early, State.late, count_append, count_erase, count_singleton]
      by_cases hk : x.head.val = k
      · rw [hk] at hpos ⊢
        simp only [beq_self_eq_true, if_true]
        omega
      · simp only [beq_iff_eq, hk, if_false]
        omega
    refine hf.advance hp ⟨rfl, rfl, rfl, rfl, rfl, rfl, fun k => ?_⟩ (fun k hk => ?_) (fun _ _ => rfl) id
      (fun k hk => ?_) (fun k hk => ?_) (hperm.nodup_iff.mpr hf.queue) (fun _ => hbusy) (fun b hb => ?_) ?_
      (always_snoc hf.lawful ⟨p, hlife⟩)
    · show (update s.disk.info x.head { s.disk.info x.head with status := 0 } k).b = _
      exact field_update Info.b (by rfl) k
    · show (update s.disk.info x.head { s.disk.info x.head with status := 0 } k).status = _
      rw [update_of_ne hk]
    · simp only [State.early, mem_append, mem_erase_of_ne hk]
    · simp [State.late, hk]
    · rw [life_transfer hlife]
      exact if_neg hb
    · refine .transferred ?_ hbusy (by simp [State.late]) ?_
      · rw [life_transfer hlife]
        exact if_pos rfl
      · show (update s.disk.info x.head { s.disk.info x.head with status := 0 } x.head).status = 0
        rw [update_self]
  · cases hm

theorem Flow.take (hne : s.disk.avail.nread ≠ s.disk.avail.nwrite) : Flow es { s with
      disk := { s.disk with avail := s.disk.avail.pop }
      taken := s.taken ++ [s.disk.avail.head] } := by
  have hpop := RingBuffer.contents_pop fun h0 => hne (RingBuffer.empty_iff.mpr h0)
  refine hf.shift ⟨rfl, rfl, rfl, rfl, rfl, rfl, fun _ => rfl⟩ rfl rfl ?_ (List.Perm.refl _)
  show List.Perm (s.disk.avail.pop.contents ++ (s.taken ++ [s.disk.avail.head])) (s.disk.avail.contents ++ s.taken)
  rw [hpop, ← append_assoc, cons_append]
  exact perm_append_singleton _ _

theorem Flow.post {i : Nat} (hi : i ∈ s.finished) : Flow es { s with
      disk := { s.disk with used := s.disk.used.push i }
      finished := s.finished.erase i } := by
  have hroom : s.disk.used.count < NUM := by
    have hlen := length_le_NUM hf.queue hf.lt_NUM
    have hpos := length_pos_of_mem hi
    simp only [State.early, State.late, length_append, RingBuffer.contents_length] at hlen
    omega
  refine hf.shift ⟨rfl, rfl, rfl, rfl, rfl, rfl, fun _ => rfl⟩ rfl rfl (List.Perm.refl _) ?_
  show List.Perm (s.finished.erase i ++ (s.disk.used.push i).contents) (s.finished ++ s.disk.used.contents)
  rw [RingBuffer.contents_push (by decide) (by decide) hroom, ← append_assoc]
  calc List.Perm (s.finished.erase i ++ s.disk.used.contents ++ [i])
        (i :: (s.finished.erase i ++ s.disk.used.contents)) := perm_append_singleton _ _
    List.Perm _ (s.finished ++ s.disk.used.contents) :=
        ((perm_cons_erase hi).append_right s.disk.used.contents).symm

theorem Flow.outer {lock : Option (Owner ι)} {holder : β → Option ι} {chan : ι → Option (Chan β)}
    (hlock : ∀ p, (s.pc p).Locked → lock = some (.proc p))
    (hholder : ∀ p j, (s.pc p).job = some j → holder j.b = some p) :
    Flow es { s with lock := lock, holder := holder, chan := chan } := by
  refine ⟨hf.owns, hholder, hlock, hf.format, fun q j x hq => ?_, hf.done, hf.queue, hf.owner, hf.idle, hf.lawful⟩
  exact (hf.stage q j x hq).keep rfl rfl id id rfl

theorem Flow.intr (hlock : s.lock = some .intr)
    (hm : virtioDiskIntr s = some r) : Flow (es ++ r.2) r.1 := by
  have hfree : ∀ q, ¬ (s.pc q).Locked := by
    intro q hq
    have h := hf.locked q hq
    rw [hlock] at h
    cases h
  unfold virtioDiskIntr at hm
  split at hm
  · cases hm
    rw [append_nil]
    exact hf.outer (fun q hq => absurd hq (hfree q)) hf.holder
  · next hne =>
    have hpop := RingBuffer.contents_pop fun h0 => hne (RingBuffer.empty_iff.mpr h0)
    have hlate : s.disk.used.head ∈ s.late := by
      rw [State.late, hpop]
      exact mem_append_right _ mem_cons_self
    obtain ⟨p, j, x, hp, hx, hfmt, hbusy, -, htr⟩ := hf.request (mem_append_right _ hlate)
    obtain ⟨hlife, hstatus⟩ := htr hlate
    have hid : (⟨s.disk.used.head, hx ▸ x.head.isLt⟩ : Fin NUM) = x.head := Fin.ext hx.symm
    have hperm : List.Perm (s.early ++ s.late) (x.head.val :: (s.early ++ (s.finished ++ s.disk.used.pop.contents))) := by
      rw [State.late, hpop, ← hx, ← append_assoc, ← append_assoc]
      exact perm_middle
    have hnd := hperm.nodup_iff.mp hf.queue
    obtain ⟨hgone, hnd⟩ := nodup_cons.mp hnd
    dsimp only at hm
    rw [dif_pos (hx ▸ x.head.isLt), hid, hstatus, if_neg (by simp), hfmt.buf] at hm
    dsimp only at hm
    cases hm
    refine hf.advance hp ⟨rfl, rfl, rfl, rfl, rfl, rfl, fun _ => rfl⟩ (fun _ _ => rfl)
      (fun b hb => update_of_ne hb ..) (fun _ => update_self ..) (fun _ _ => Iff.rfl)
      (fun k hk => ?_) hnd (fun hmem => absurd hmem hgone) (fun b hb => ?_) ?_
      (always_snoc hf.lawful ⟨p, by rw [hlife, hx]⟩)
    · show k ∈ s.finished ++ s.disk.used.pop.contents ↔ k ∈ s.finished ++ s.disk.used.contents
      rw [hpop, ← hx]
      simp [hk]
    · rw [life_complete hlife, if_neg hb]
    · refine .completed ?_ (update_self ..)
      rw [life_complete hlife, if_pos rfl, hx]

end

end Steps

section Main

variable [DecidableEq ι] [DecidableEq β] {s t : State ι β}

omit [DecidableEq ι] in
theorem flow_idle (h : Idle s) : Flow ([] : List (Event ι β)) s := by
  have hpc := h.pc
  have hearly : s.early = [] := by
    rw [State.early, h.taken, append_nil, ← length_eq_zero_iff, RingBuffer.contents_length]
    exact RingBuffer.empty_iff.mp h.avail
  have hlate : s.late = [] := by
    rw [State.late, h.finished, nil_append, ← length_eq_zero_iff, RingBuffer.contents_length]
    exact RingBuffer.empty_iff.mp h.used
  refine .of_at ⟨fun p => ?_, fun p q i hp => ?_, fun i => ?_⟩ (fun p => ?_) ?_ (fun i hi => ?_)
    (fun b hb => absurd rfl hb) (always_nil _)
  · rw [hpc p]
    exact nodup_nil
  · rw [hpc p] at hp
    cases hp
  · rw [h.free i]
    refine ⟨nofun, fun ⟨p, hp⟩ => ?_⟩
    rw [hpc p] at hp
    cases hp
  · rw [hpc p]
    exact ⟨nofun, False.elim, nofun, nofun⟩
  · rw [hearly, hlate]
    exact nodup_nil
  · rw [hearly, hlate] at hi
    cases hi

theorem Flow.move (hf : Flow es s) {m : Move ι β} (hm : virtio m s = some r) : Flow (es ++ r.2) r.1 := by
  have houter : ∀ {t : State ι β}, Flow es t → some (t, []) = some r → Flow (es ++ r.2) r.1 := by
    intro t ht heq
    cases heq
    rw [append_nil]
    exact ht
  cases m with
  | acquiresleep p b =>
    simp only [virtio] at hm
    split at hm
    · next hnone hu =>
      refine houter (hf.outer hf.locked fun q j hq => ?_) hm
      have hq := hf.holder q j hq
      refine (update_of_ne (fun heq => ?_) ..).trans hq
      rw [heq, hnone] at hq
      cases hq
    · cases hm
  | releasesleep p b =>
    simp only [virtio] at hm
    split at hm
    · next hu =>
      split at hm
      · next hb =>
        refine houter (hf.outer hf.locked fun q j hq => ?_) hm
        have hh := hf.holder q j hq
        refine (update_of_ne (fun heq => ?_) ..).trans hh
        rw [heq, hb] at hh
        cases hh
        rw [hu] at hq
        cases hq
      · cases hm
    · cases hm
  | call p j =>
    simp only [virtio] at hm
    split at hm
    · next hu =>
      split at hm
      · next hb =>
        have hfl : (Pc.acquire j).flight = (s.pc p).flight := by rw [hu]; rfl
        have hheld : (Pc.acquire j).held = (s.pc p).held := by rw [hu]; rfl
        have ht : Flow es (s.goto p (.acquire j)) := by
          refine hf.go ⟨fun _ _ => rfl, rfl, rfl, rfl, rfl, rfl, rfl⟩ rfl (.inr (.inr rfl)) False.elim
            (fun j' heq => ?_) hfl nofun (hf.owns.same rfl rfl hheld)
          cases heq
          exact hb
        exact houter ht hm
      · cases hm
    · cases hm
  | step p => exact hf.rw hm
  | kill p => exact houter (hf.outer hf.locked hf.holder) hm
  | intr =>
    simp only [virtio] at hm
    split at hm
    · next hl =>
      refine houter (hf.outer (fun q hq => ?_) hf.holder) hm
      have hq := hf.locked q hq
      rw [hl] at hq
      cases hq
    · cases hm
  | intrStep =>
    simp only [virtio] at hm
    split at hm
    · next hl => exact hf.intr hl hm
    · cases hm
  | take =>
    simp only [virtio] at hm
    split at hm
    · cases hm
    · next hne => exact houter (hf.take hne) hm
  | transfer i => exact hf.transfer hm
  | post i =>
    simp only [virtio] at hm
    split at hm
    · next hi => exact houter (hf.post hi) hm
    · cases hm

-- Wherever the indices stand: a descriptor is free or belongs to one process, with a chain of
-- three, and requests go through their phases.
theorem virtio_disk_requests (hidle : Idle s) (hr : Run virtio (fun _ _ _ => True) s es t) :
    (∀ i, t.disk.free i = true ∧ (∀ p, i ∉ (t.pc p).held) ∨ t.disk.free i = false ∧ ∃! p, i ∈ (t.pc p).held) ∧
      (∀ p, (t.pc p).held = [] ∨ ∃ x : Idx, (t.pc p).held = x.toList ∧ x.toList.Nodup) ∧
      (∀ p j x, (t.pc p).flight = some (j, x) →
        Linked t.disk j x ∧ (t.busy j.b = false ↔ life es j.b = .completed p x.head)) ∧
      (∀ p j x r, t.pc p = .free j x → virtio (.step p) t = some r →
        r.2 = [.ret p j.b] ∧ ∀ i ∈ x.toList, r.1.disk.free i = true) ∧
      Always Lawful es := by
  have hf : Flow es t := by
    refine hr.inv (flow_idle hidle) ?_
    intro es t m t' es' hf _ hm
    exact hf.move hm
  refine ⟨fun i => ?_, fun p => ?_, fun p j x hp => ⟨(hf.format p j x hp).toLinked, ?_⟩, fun p j x r hpc hm =>
    (hf.freed hpc hm).2, hf.lawful⟩
  · cases hfree : t.disk.free i with
    | true =>
      refine .inl ⟨rfl, fun p hp => ?_⟩
      have hfalse := (hf.owns.free i).mpr ⟨p, hp⟩
      rw [hfree] at hfalse
      cases hfalse
    | false =>
      obtain ⟨p, hp⟩ := (hf.owns.free i).mp hfree
      exact .inr ⟨rfl, p, hp, fun q hq => hf.owns.apart q p i hq hp⟩
  · have hnd := hf.owns.distinct p
    cases hpc : t.pc p with
    | user | acquire | alloc | allocWake => exact .inl rfl
    | submit j x | wait j x | wake j x | free j x =>
      rw [hpc] at hnd
      exact .inr ⟨x, rfl, hnd⟩
  · cases hf.stage p j x hp with
    | submitted h hb _ | transferred h hb _ _ | completed h hb =>
      rw [h, hb]
      simp

end Main

def wrapping : State Bool Bool where
  disk := ⟨fun _ => Desc.zero, ⟨fun _ => 0, -1, -1⟩, ⟨fun _ => 0, -1, -1⟩, fun _ => true, fun _ => ⟨none, 0⟩, fun _ => ⟨0, 0, 0⟩⟩
  taken := []
  finished := []
  busy := fun _ => false
  lock := none
  holder := fun _ => none
  chan := fun _ => none
  pc := fun _ => .user

def begin (p : Bool) (blockno : BitVec 32) (write : Bool) : List (Move Bool Bool) :=
  [.acquiresleep p p, .call p ⟨p, blockno, write⟩, .step p, .step p, .step p, .step p]

def crossing : List (Move Bool Bool) :=
  begin true 7 true ++ begin false 9 false ++
    [.take, .take, .transfer 3, .post 3, .transfer 0, .post 0, .intr, .intrStep, .intrStep, .intrStep,
      .step false, .step false, .step false, .step true, .step true, .step true]

theorem virtio_disk_requests_wrapping : ∃ es t, Run virtio (fun _ _ _ => True) wrapping es t ∧ es.length = 8 ∧
    t.disk.avail.nwrite = 1 ∧ Always Lawful es := by
  have hrun : (exec virtio (fun _ _ _ => True) crossing [] wrapping).map
      (fun r => (r.1.length, r.2.disk.avail.nwrite)) = some (8, 1) := by
    decide
  obtain ⟨es, t, hr, heq⟩ := run_of_map hrun
  have hmain := virtio_disk_requests ⟨rfl, rfl, fun _ => rfl, rfl, rfl, rfl, fun _ => rfl⟩ hr
  simp only [Prod.mk.injEq] at heq
  exact ⟨es, t, hr, heq.1, heq.2, hmain.2.2.2.2⟩

end Virtio
