import Xv6.Virtio

-- The descriptors and the requests that they carry.

namespace Virtio

open Lts List Function

attribute [local simp] Idx.toList

variable {ι β : Type}

section Ghost

-- What has become of the request on a buffer, of process `p` on the chain from `i`.
inductive Phase (ι β : Type) where
  | idle
  | submitted (p : ι) (i : Nat) (r : Transfer β)
  | transferred (p : ι) (i : Nat)
  | completed (p : ι) (i : Nat)

variable [DecidableEq β]

def lifeNext (b : β) (f : Phase ι β) : Event ι β → Phase ι β
  | .submit p i r => if r.b = b then .submitted p i r else f
  | .transfer i r =>
    if r.b = b then
      match f with
      | .submitted p _ _ => .transferred p i
      | f => f
    else f
  | .complete i b' =>
    if b' = b then
      match f with
      | .transferred p _ => .completed p i
      | f => f
    else f
  | .ret _ b' => if b' = b then .idle else f
  | .halt _ => f

def life (es : List (Event ι β)) (b : β) : Phase ι β := es.foldl (lifeNext b) .idle

theorem life_snoc (es : List (Event ι β)) (e : Event ι β) (b : β) : life (es ++ [e]) b = lifeNext b (life es b) e := by
  simp [life]

-- A request goes through its phases one after the other, on one chain, and nothing panics.
def Lawful (before : List (Event ι β)) : Event ι β → Prop
  | .submit _ _ r => life before r.b = .idle
  | .transfer i r => ∃ p, life before r.b = .submitted p i r
  | .complete i b => ∃ p, life before b = .transferred p i
  | .ret p b => ∃ i, life before b = .completed p i
  | .halt _ => False

end Ghost

section Views

namespace Pc

def job : Pc β → Option (Job β)
  | .user => none
  | .acquire j | .alloc j | .allocWake j | .submit j _ | .wait j _ | .wake j _ | .free j _ => some j

def held : Pc β → List (Fin NUM)
  | .user | .acquire _ | .alloc _ | .allocWake _ => []
  | .submit _ x | .wait _ x | .wake _ x | .free _ x => x.toList

def flight : Pc β → Option (Job β × Idx)
  | .user | .acquire _ | .alloc _ | .allocWake _ | .submit _ _ => none
  | .wait j x | .wake j x | .free j x => some (j, x)

def Locked : Pc β → Prop
  | .user | .acquire _ | .allocWake _ | .wake _ _ => False
  | .alloc _ | .submit _ _ | .wait _ _ | .free _ _ => True

theorem held_of_flight {pc : Pc β} {j : Job β} {x : Idx} (h : pc.flight = some (j, x)) : pc.held = x.toList := by
  cases pc <;> cases h <;> rfl

theorem job_of_flight {pc : Pc β} {j : Job β} {x : Idx} (h : pc.flight = some (j, x)) : pc.job = some j := by
  cases pc <;> cases h <;> rfl

end Pc

namespace State

-- The chains that the device has not finished, and those that it has.
def early (s : State ι β) : List Nat := s.disk.avail.contents ++ s.taken

def late (s : State ι β) : List Nat := s.finished ++ s.disk.used.contents

end State

-- Each descriptor that is not free belongs to one process, which has three.
structure Owns (free : Fin NUM → Bool) (held : ι → List (Fin NUM)) : Prop where
  distinct : ∀ p, (held p).Nodup
  apart : ∀ p q i, i ∈ held p → i ∈ held q → p = q
  free : ∀ i, free i = false ↔ ∃ p, i ∈ held p

structure Linked (d : Disk β) (j : Job β) (x : Idx) : Prop where
  head : d.desc x.head = headDesc x
  data : d.desc x.data = dataDesc j x
  status : d.desc x.status = statusDesc x

structure Formatted (d : Disk β) (j : Job β) (x : Idx) : Prop extends Linked d j x where
  op : d.ops x.head = j.request
  buf : (d.info x.head).b = some j.b

variable [DecidableEq β]

-- How far the request of `p` on a chain has come.
inductive Stage (es : List (Event ι β)) (s : State ι β) (p : ι) (j : Job β) (x : Idx) : Prop where
  | submitted (life : life es j.b = .submitted p x.head j.transfer) (busy : s.busy j.b = true)
    (mem : x.head.val ∈ s.early)
  | transferred (life : life es j.b = .transferred p x.head) (busy : s.busy j.b = true)
    (mem : x.head.val ∈ s.late) (status : (s.disk.info x.head).status = 0)
  | completed (life : life es j.b = .completed p x.head) (busy : s.busy j.b = false)

structure Flow (es : List (Event ι β)) (s : State ι β) : Prop where
  owns : Owns s.disk.free fun p => (s.pc p).held
  holder : ∀ p j, (s.pc p).job = some j → s.holder j.b = some p
  locked : ∀ p, (s.pc p).Locked → s.lock = some (.proc p)
  format : ∀ p j x, (s.pc p).flight = some (j, x) → Formatted s.disk j x
  stage : ∀ p j x, (s.pc p).flight = some (j, x) → Stage es s p j x
  done : ∀ p j x, s.pc p = .free j x → s.busy j.b = false
  queue : (s.early ++ s.late).Nodup
  owner : ∀ i ∈ s.early ++ s.late, ∃ p j x, (s.pc p).flight = some (j, x) ∧ x.head.val = i ∧ s.busy j.b = true
  idle : ∀ b, life es b ≠ .idle → ∃ p j x, (s.pc p).flight = some (j, x) ∧ j.b = b
  lawful : Always Lawful es

end Views

section Functions

variable {s s' s'' : State ι β} {is js : List (Fin NUM)} {i : Fin NUM} {j : Job β} {x : Idx}

-- Only the descriptors of `is` are written, and their marks in the table of the free ones.
structure Touches (is : List (Fin NUM)) (s s' : State ι β) : Prop where
  desc : ∀ i, i ∉ is → s'.disk.desc i = s.disk.desc i
  free : ∀ i, i ∉ is → s'.disk.free i = s.disk.free i
  rest : s' = { s with
    disk := { s.disk with desc := s'.disk.desc, free := s'.disk.free }
    chan := s'.chan }

theorem Touches.refl (s : State ι β) : Touches [] s s := ⟨fun _ _ => rfl, fun _ _ => rfl, rfl⟩

theorem Touches.trans (h : Touches is s s') (h' : Touches js s' s'') : Touches (is ++ js) s s'' := by
  constructor
  · intro i hi
    rw [mem_append, not_or] at hi
    rw [h'.desc i hi.2, h.desc i hi.1]
  · intro i hi
    rw [mem_append, not_or] at hi
    rw [h'.free i hi.2, h.free i hi.1]
  · rw [h'.rest, h.rest]

theorem allocDesc_spec (h : allocDesc s = some (i, s')) :
    s.disk.free i = true ∧ s'.disk.free i = false ∧ Touches [i] s s' := by
  obtain ⟨i', hi', heq⟩ := Option.map_eq_some_iff.mp h
  cases heq
  refine ⟨find?_some hi', update_self .., fun _ _ => rfl, fun k hk => ?_, rfl⟩
  exact update_of_ne (fun heq => hk (mem_singleton.mpr heq)) ..

theorem descAt_val (d : Disk β) (i : Fin NUM) : d.descAt i = d.desc i := by simp [Disk.descAt]

theorem dataFlags_next (j : Job β) : j.dataFlags &&& VRING_DESC_F_NEXT ≠ 0 := by
  unfold Job.dataFlags
  cases j.write <;> decide

theorem Formatted.chain {d : Disk β} (hf : Formatted d j x) : d.chain x.head = some (x.head, j.transfer) := by
  have h0 : d.descAt x.head = headDesc x := by rw [descAt_val, hf.head]
  have h1 : d.descAt x.data = dataDesc j x := by rw [descAt_val, hf.data]
  have h2 : d.descAt x.status = statusDesc x := by rw [descAt_val, hf.status]
  have hwrite : decide ((d.ops x.head).type = VIRTIO_BLK_T_OUT) = j.write := by
    rw [hf.op, Job.request]
    cases j.write <;> rfl
  have hsector : (d.ops x.head).sector = j.sector := by rw [hf.op, Job.request]
  unfold Disk.chain
  simp only [h0, headDesc, h1, dataDesc, h2, statusDesc, hwrite, hsector, Job.transfer, true_and, and_true]
  rw [if_pos]
  unfold Job.dataFlags
  cases j.write <;> rfl

variable [DecidableEq β]

theorem freeDesc_spec (h : s.disk.free i = false) :
    ∃ s', freeDesc i.val s = .ok s' ∧ s'.disk.free i = true ∧ Touches [i] s s' := by
  refine ⟨_, by rw [freeDesc, dif_pos i.isLt, if_neg (by simp [h])], update_self .., ?_, ?_, rfl⟩
  · intro k hk
    exact update_of_ne (fun heq => hk (mem_singleton.mpr heq)) ..
  · intro k hk
    exact update_of_ne (fun heq => hk (mem_singleton.mpr heq)) ..

theorem alloc3Desc_spec (s : State ι β) : ∃ o s', alloc3Desc s = .ok (o, s') ∧ match o with
    | some x => x.toList.Nodup ∧ (∀ i ∈ x.toList, s.disk.free i = true ∧ s'.disk.free i = false) ∧ Touches x.toList s s'
    | none => ∃ is, (∀ i ∈ is, s.disk.free i = true ∧ s'.disk.free i = true) ∧ Touches is s s' := by
  unfold alloc3Desc
  cases h1 : allocDesc s with
  | none => exact ⟨none, s, rfl, [], by simp, Touches.refl s⟩
  | some r =>
    obtain ⟨i, s1⟩ := r
    obtain ⟨hi, hi1, ht1⟩ := allocDesc_spec h1
    dsimp only
    cases h2 : allocDesc s1 with
    | none =>
      obtain ⟨s2, hok, hi2, ht2⟩ := freeDesc_spec hi1
      refine ⟨none, s2, by simp [hok, bind, Except.bind], [i] ++ [i], ?_, ht1.trans ht2⟩
      intro k hk
      have hk : k = i := by simpa using hk
      rw [hk]
      exact ⟨hi, hi2⟩
    | some r =>
      obtain ⟨j, s2⟩ := r
      obtain ⟨hj1, hj2, ht2⟩ := allocDesc_spec h2
      have hij : j ≠ i := by
        intro heq
        rw [heq, hi1] at hj1
        cases hj1
      have hi2 : s2.disk.free i = false := by rw [ht2.free i (by simpa using hij.symm), hi1]
      have hj : s.disk.free j = true := by rw [← ht1.free j (by simpa using hij), hj1]
      dsimp only
      cases h3 : allocDesc s2 with
      | none =>
        obtain ⟨s3, hok3, hi3, ht3⟩ := freeDesc_spec hi2
        have hj3 : s3.disk.free j = false := by rw [ht3.free j (by simpa using hij), hj2]
        obtain ⟨s4, hok4, hj4, ht4⟩ := freeDesc_spec hj3
        refine ⟨none, s4, by simp [hok3, hok4, bind, Except.bind], _, ?_, (ht1.trans ht2).trans (ht3.trans ht4)⟩
        intro k hk
        have hk : k = i ∨ k = j := by
          simp only [mem_append, mem_singleton] at hk
          tauto
        rcases hk with hk | hk <;> rw [hk]
        · exact ⟨hi, by rw [ht4.free i (by simpa using hij.symm), hi3]⟩
        · exact ⟨hj, hj4⟩
      | some r =>
        obtain ⟨k, s3⟩ := r
        obtain ⟨hk2, hk3, ht3⟩ := allocDesc_spec h3
        have hki : k ≠ i := by
          intro heq
          rw [heq, hi2] at hk2
          cases hk2
        have hkj : k ≠ j := by
          intro heq
          rw [heq, hj2] at hk2
          cases hk2
        have hk : s.disk.free k = true := by
          rw [← ht1.free k (by simpa using hki), ← ht2.free k (by simpa using hkj), hk2]
        refine ⟨some ⟨i, j, k⟩, s3, rfl, ?_, ?_, (ht1.trans ht2).trans ht3⟩
        · simp [hij.symm, hki.symm, hkj.symm]
        intro l hl
        have hl : l = i ∨ l = j ∨ l = k := by simpa using hl
        rcases hl with hl | hl | hl <;> rw [hl]
        · exact ⟨hi, by rw [ht3.free i (by simpa using hki.symm), hi2]⟩
        · exact ⟨hj, by rw [ht3.free j (by simpa using hkj.symm), hj2]⟩
        · exact ⟨hk, hk3⟩

theorem freeChain_step (n : Nat) (h : s.disk.free i = false) :
    ∃ s', freeChain (n + 1) i s = (if (s.disk.desc i).flags &&& VRING_DESC_F_NEXT ≠ 0
      then freeChain n (s.disk.desc i).next s' else .ok s') ∧ s'.disk.free i = true ∧ Touches [i] s s' := by
  obtain ⟨s', hok, hfree, ht⟩ := freeDesc_spec h
  refine ⟨s', ?_, hfree, ht⟩
  rw [freeChain, descAt_val, hok]
  rfl

theorem freeChain_spec (hf : Linked s.disk j x) (hnd : x.toList.Nodup)
    (hfree : ∀ i ∈ x.toList, s.disk.free i = false) (n : Nat) :
    ∃ s', freeChain (n + 3) x.head s = .ok s' ∧ (∀ i ∈ x.toList, s'.disk.free i = true) ∧ Touches x.toList s s' := by
  simp only [Idx.toList, nodup_cons, mem_cons, not_mem_nil, or_false, not_or] at hnd
  obtain ⟨⟨hhd, hhs⟩, hds, -⟩ := hnd
  have hfree1 := hfree x.head (by simp)
  have hfree2 := hfree x.data (by simp)
  have hfree3 := hfree x.status (by simp)
  obtain ⟨s1, h1, hf1, ht1⟩ := freeChain_step (n + 2) hfree1
  replace h1 := h1.trans (if_pos (by rw [hf.head]; exact (by decide : VRING_DESC_F_NEXT &&& VRING_DESC_F_NEXT ≠ 0)))
  have hdata : s1.disk.desc x.data = dataDesc j x := by rw [ht1.desc _ (by simpa using Ne.symm hhd), hf.data]
  have hstatus : s1.disk.desc x.status = statusDesc x := by rw [ht1.desc _ (by simpa using Ne.symm hhs), hf.status]
  obtain ⟨s2, h2, hf2, ht2⟩ := freeChain_step (n + 1) (s := s1) (i := x.data)
    (by rw [ht1.free _ (by simpa using Ne.symm hhd), hfree2])
  replace h2 := h2.trans (if_pos (by rw [hdata]; exact dataFlags_next j))
  have hstatus2 : s2.disk.desc x.status = statusDesc x := by rw [ht2.desc _ (by simpa using Ne.symm hds), hstatus]
  obtain ⟨s3, h3, hf3, ht3⟩ := freeChain_step n (s := s2) (i := x.status)
    (by rw [ht2.free _ (by simpa using Ne.symm hds), ht1.free _ (by simpa using Ne.symm hhs), hfree3])
  replace h3 := h3.trans (if_neg (by rw [hstatus2]; exact (by decide : ¬VRING_DESC_F_WRITE &&& VRING_DESC_F_NEXT ≠ 0)))
  rw [hf.head] at h1
  rw [hdata] at h2
  refine ⟨s3, h1.trans (h2.trans h3), fun i hi => ?_, (ht1.trans ht2).trans ht3⟩
  have hi : i = x.head ∨ i = x.data ∨ i = x.status := by simpa using hi
  rcases hi with hi | hi | hi <;> rw [hi]
  · rw [ht3.free _ (by simpa using hhs), ht2.free _ (by simpa using hhd), hf1]
  · rw [ht3.free _ (by simpa using hds), hf2]
  · exact hf3

end Functions

end Virtio
