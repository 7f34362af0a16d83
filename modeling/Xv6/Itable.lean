import Xv6.Lts
import Xv6.Param

-- The inode table of kernel/fs.c. Its lock protects the reference counts; what an
-- entry caches belongs to the holder of the entry's sleep-lock.

namespace Itable

open Function List

-- A number stands for a device and an inode number.
structure Inode where
  inum : Nat
  ref : Nat
  valid : Bool
  nlink : Nat
  lock : Option Nat
  deriving DecidableEq, Repr

structure Dinode where
  type : Nat
  nlink : Nat
  deriving DecidableEq, Repr

inductive Phase where
  | idle
  | test (k : Nat)
  | acquiresleep (k : Nat)
  | itrunc (k : Nat)
  | releasesleep (k : Nat)
  | acquire (k : Nat)
  | drop (k : Nat)
  deriving DecidableEq, Repr

-- `refs` lists the processes that hold the references to an entry, one place for each.
structure State where
  inode : Nat → Inode
  lock : Option Nat
  dinode : Nat → Dinode
  refs : Nat → List Nat
  phase : Nat → Phase

inductive Act where
  | iget (inum : Nat)
  | idup (k : Nat)
  | give (k q : Nat)
  | ilock (k : Nat)
  | iunlock (k : Nat)
  | iupdate (k nlink : Nat)
  | ialloc (inum type : Nat)
  | iput (k : Nat)
  | next
  deriving DecidableEq, Repr

structure Move where
  p : Nat
  act : Act
  deriving DecidableEq, Repr

def State.set (s : State) (k : Nat) (i : Inode) (r : List Nat) : State :=
  { s with inode := update s.inode k i, refs := update s.refs k r }

attribute [local simp] State.set

def State.goto (s : State) (p : Nat) (ph : Phase) (lock : Option Nat) : State :=
  { s with phase := update s.phase p ph, lock := lock }

attribute [local simp] State.goto

def State.iget (s : State) (p inum : Nat) : Option State :=
  match (List.range NINODE).find? fun k => 0 < (s.inode k).ref ∧ (s.inode k).inum = inum with
  | some k => some (s.set k { s.inode k with ref := (s.inode k).ref + 1 } (p :: s.refs k))
  | none =>
    -- panic("iget: no inodes") where there is no empty entry
    ((List.range NINODE).find? fun k => (s.inode k).ref = 0).map fun k =>
      s.set k { s.inode k with inum := inum, ref := 1, valid := false } (p :: s.refs k)

-- There is no result where acquiresleep waits, or in a panic.
def State.ilock (s : State) (p k : Nat) : Option State :=
  let i := s.inode k
  if i.ref < 1 ∨ i.lock ≠ none then none
  else if i.valid then some (s.set k { i with lock := some p } (s.refs k))
  else if (s.dinode i.inum).type = 0 then none
  else some (s.set k { i with lock := some p, valid := true, nlink := (s.dinode i.inum).nlink } (s.refs k))

def State.next (s : State) (p : Nat) : Phase → Option State
  | .idle => none
  | .test k =>
    let i := s.inode k
    some (s.goto p (if i.ref = 1 ∧ i.valid ∧ i.nlink = 0 then .acquiresleep k else .drop k) s.lock)
  | .acquiresleep k =>
    if (s.inode k).lock = none then
      some ((s.set k { s.inode k with lock := some p } (s.refs k)).goto p (.itrunc k) none)
    else none
  | .itrunc k =>
    let i := s.inode k
    some ({ s with dinode := update s.dinode i.inum ⟨0, i.nlink⟩ }.set k { i with valid := false } (s.refs k)
      |>.goto p (.releasesleep k) s.lock)
  | .releasesleep k => some ((s.set k { s.inode k with lock := none } (s.refs k)).goto p (.acquire k) s.lock)
  | .acquire k => if s.lock = none then some (s.goto p (.drop k) (some p)) else none
  | .drop k =>
    let i := s.inode k
    some ((s.set k { i with ref := i.ref - 1 } ((s.refs k).erase p)).goto p .idle none)

-- The sections under the lock of the table are one step each, but for iput.
def step (m : Move) (s : State) : Option State :=
  if m.act = .next then s.next m.p (s.phase m.p)
  else if s.phase m.p ≠ .idle then none
  else
    match m.act with
    | .iget inum => if s.lock = none then s.iget m.p inum else none
    | .idup k =>
      if s.lock = none then some (s.set k { s.inode k with ref := (s.inode k).ref + 1 } (m.p :: s.refs k)) else none
    | .give k q => some (s.set k (s.inode k) (q :: (s.refs k).erase m.p))
    | .ilock k => s.ilock m.p k
    | .iunlock k =>
      if (s.inode k).lock = some m.p then some (s.set k { s.inode k with lock := none } (s.refs k)) else none
    | .iupdate k nlink =>
      if (s.inode k).lock = some m.p then
        some ({ s with dinode := update s.dinode (s.inode k).inum { s.dinode (s.inode k).inum with nlink := nlink } }.set k
          { s.inode k with nlink := nlink } (s.refs k))
      else none
    | .ialloc inum type =>
      if (s.dinode inum).type = 0 then some { s with dinode := update s.dinode inum ⟨type, 0⟩ } else none
    | .iput k => if s.lock = none then some (s.goto m.p (.test k) (some m.p)) else none
    | .next => none

def machine : Lts.Machine Move State Empty := fun m s => (step m s).map fun t => (t, [])

-- A reference of the process beside the one through which it has locked the entry.
def Spare (s : State) (p k : Nat) : Prop :=
  p ∈ s.refs k ∧ ((s.inode k).lock = some p → 2 ≤ (s.refs k).count p)

instance (s : State) (p k : Nat) : Decidable (Spare s p k) := inferInstanceAs (Decidable (_ ∧ (_ → _)))

-- A process locks an inode through a reference that it keeps while it has the lock.
def Through (_ : List Empty) (s : State) (m : Move) : Prop :=
  match m.act with
  | .idup k | .ilock k => m.p ∈ s.refs k
  | .give k _ | .iput k => Spare s m.p k
  | _ => True

instance (es : List Empty) (s : State) (m : Move) : Decidable (Through es s m) :=
  match m with
  | ⟨p, .idup k⟩ | ⟨p, .ilock k⟩ => inferInstanceAs (Decidable (p ∈ s.refs k))
  | ⟨p, .give k _⟩ | ⟨p, .iput k⟩ => inferInstanceAs (Decidable (Spare s p k))
  | ⟨_, .iget _⟩ | ⟨_, .iunlock _⟩ | ⟨_, .iupdate _ _⟩ | ⟨_, .ialloc _ _⟩ | ⟨_, .next⟩ => inferInstanceAs (Decidable True)

def At (s : State) (p : Nat) : Phase → Prop
  | .idle => s.lock ≠ some p
  | .test k | .drop k => s.lock = some p ∧ Spare s p k
  | .acquiresleep k => s.lock = some p ∧ s.refs k = [p] ∧ (s.inode k).valid ∧ (s.inode k).nlink = 0 ∧ (s.inode k).lock = none
  | .itrunc k | .releasesleep k => s.lock ≠ some p ∧ (s.inode k).lock = some p
  | .acquire k => s.lock ≠ some p ∧ p ∈ s.refs k ∧ (s.inode k).lock ≠ some p

structure Inv (s : State) : Prop where
  count : ∀ k, (s.inode k).ref = (s.refs k).length
  owner : ∀ k p, (s.inode k).lock = some p → p ∈ s.refs k
  at' : ∀ p, At s p (s.phase p)

-- A move of `p` that changes the entry `k` and takes nothing from others. An entry whose only
-- reference the holder of the table's lock has is not changed.
structure Keeps (s : State) (p k : Nat) (i : Inode) (r : List Nat) (l : Option Nat) : Prop where
  last : s.lock = none ∨ s.lock = some p ∨ p ∈ s.refs k
  table : ∀ q ≠ p, l = some q ↔ s.lock = some q
  lock : ∀ q ≠ p, i.lock = some q ↔ (s.inode k).lock = some q
  held : ∀ q ≠ p, (s.refs k).count q ≤ r.count q
  count : i.ref = r.length
  owner : ∀ q, i.lock = some q → q ∈ r

variable {s t : State} {p q k : Nat} {i : Inode} {r : List Nat} {l : Option Nat} {ph : Phase}

section

variable (h : Keeps s p k i r l) (hq : q ≠ p)

include h hq

theorem Keeps.ne {j : Nat} (hlock : s.lock = some q) (hrefs : s.refs j = [q]) : j ≠ k := by
  rintro rfl
  rcases h.last with hnone | hmine | hmem
  · rw [hnone] at hlock
    cases hlock
  · rw [hmine] at hlock
    exact hq (Option.some.inj hlock).symm
  · rw [hrefs] at hmem
    exact hq (mem_singleton.mp hmem).symm

theorem Keeps.lock_iff (j : Nat) : (update s.inode k i j).lock = some q ↔ (s.inode j).lock = some q :=
  rel_update (r := fun a b : Inode => b.lock = some q ↔ a.lock = some q) (fun _ => .rfl) (h.lock q hq) j

theorem Keeps.count_le (j : Nat) : (s.refs j).count q ≤ (update s.refs k r j).count q :=
  rel_update (r := fun a b : List Nat => a.count q ≤ b.count q) (fun _ => le_rfl) (h.held q hq) j

theorem Keeps.mem {j : Nat} (hmem : q ∈ s.refs j) : q ∈ update s.refs k r j :=
  count_pos_iff.mp (Nat.lt_of_lt_of_le (count_pos_iff.mpr hmem) (h.count_le hq j))

theorem Keeps.other {ph' : Phase} (hat : At s q ph') : At ((s.set k i r).goto p ph l) q ph' := by
  have htable := h.table q hq
  have hspare : ∀ j, Spare s q j → Spare ((s.set k i r).goto p ph l) q j := fun j hs =>
    ⟨h.mem hq hs.1, fun hlock => Nat.le_trans (hs.2 ((h.lock_iff hq j).mp hlock)) (h.count_le hq j)⟩
  cases ph' with
  | idle => exact fun hlock => hat (htable.mp hlock)
  | test j | drop j => exact ⟨htable.mpr hat.1, hspare j hat.2⟩
  | acquiresleep j =>
    have hj := h.ne hq hat.1 hat.2.1
    simpa [At, hj, htable] using hat
  | itrunc j | releasesleep j => exact ⟨fun hlock => hat.1 (htable.mp hlock), (h.lock_iff hq j).mpr hat.2⟩
  | acquire j =>
    exact ⟨fun hlock => hat.1 (htable.mp hlock), h.mem hq hat.2.1, fun hlock => hat.2.2 ((h.lock_iff hq j).mp hlock)⟩

end

theorem Inv.move (h : Inv s) (hk : Keeps s p k i r l) (hat : At ((s.set k i r).goto p ph l) p ph) :
    Inv ((s.set k i r).goto p ph l) := by
  refine ⟨fun j => ?_, fun j q => ?_, fun q => ?_⟩
  · by_cases hj : j = k
    · simpa [hj] using hk.count
    · simpa [hj] using h.count j
  · by_cases hj : j = k
    · simpa [hj] using hk.owner q
    · simpa [hj] using h.owner j q
  · by_cases hq : q = p
    · simpa [hq] using hat
    · have hother : At ((s.set k i r).goto p ph l) q (s.phase q) := hk.other hq (h.at' q)
      simpa [hq] using hother

theorem Inv.set (h : Inv s) (hidle : s.phase p = .idle) (hlast : s.lock = none ∨ p ∈ s.refs k)
    (hlock : ∀ q ≠ p, i.lock = some q ↔ (s.inode k).lock = some q) (hheld : ∀ q ≠ p, (s.refs k).count q ≤ r.count q)
    (hcount : i.ref = r.length) (howner : ∀ q, i.lock = some q → q ∈ r) : Inv (s.set k i r) := by
  have hat := h.at' p
  rw [hidle] at hat
  have hself : (s.set k i r).goto p .idle s.lock = s.set k i r := by
    simp [← hidle]
  rw [← hself]
  exact h.move ⟨hlast.imp_right .inr, fun _ _ => Iff.rfl, hlock, hheld, hcount, howner⟩ hat

theorem Inv.goto (h : Inv s) (k : Nat) (hlast : s.lock = none ∨ s.lock = some p)
    (htable : ∀ q ≠ p, l = some q ↔ s.lock = some q) (hat : At (s.goto p ph l) p ph) : Inv (s.goto p ph l) := by
  have hself : s.set k (s.inode k) (s.refs k) = s := by simp
  have hinv : Inv ((s.set k (s.inode k) (s.refs k)).goto p ph l) :=
    h.move ⟨hlast.imp_right .inl, htable, fun _ _ => Iff.rfl, fun _ _ => Nat.le_refl _, h.count k, h.owner k⟩ (by rwa [hself])
  rwa [hself] at hinv

section

variable (h : Inv s) (hidle : s.phase p = .idle)

include h hidle

theorem Inv.take (hfree : s.lock = none)
    (hlock : i.lock = (s.inode k).lock) (hcount : i.ref = (s.refs k).length + 1) : Inv (s.set k i (p :: s.refs k)) := by
  refine h.set hidle (.inl hfree) (fun q _ => by rw [hlock]) (fun q _ => ?_) hcount (fun q hq => ?_)
  · exact (sublist_cons_self p _).count_le q
  · rw [hlock] at hq
    exact mem_cons_of_mem p (h.owner k q hq)

theorem Inv.iget (hfree : s.lock = none) {inum : Nat} (ht : s.iget p inum = some t) : Inv t := by
  unfold State.iget at ht
  split at ht
  · cases ht
    exact h.take hidle hfree rfl (congrArg (· + 1) (h.count _))
  · obtain ⟨k, hk, rfl⟩ := Option.map_eq_some_iff.mp ht
    have hzero := find?_some hk
    rw [decide_eq_true_eq, h.count] at hzero
    exact h.take hidle hfree rfl (by rw [hzero])

theorem Inv.locked (hmem : p ∈ s.refs k)
    (hlock : ∀ q ≠ p, i.lock = some q ↔ (s.inode k).lock = some q) (href : i.ref = (s.inode k).ref) :
    Inv (s.set k i (s.refs k)) := by
  refine h.set hidle (.inr hmem) hlock (fun _ _ => Nat.le_refl _) (href.trans (h.count k)) (fun q hq => ?_)
  by_cases hqp : q = p
  · rwa [hqp]
  · exact h.owner k q ((hlock q hqp).mp hq)

theorem Inv.ilock (hmem : p ∈ s.refs k) (ht : s.ilock p k = some t) : Inv t := by
  obtain ⟨hfree, ht⟩ := Option.ite_none_left_eq_some.mp ht
  have hnone : (s.inode k).lock = none := by
    by_contra hne
    exact hfree (.inr hne)
  have hother : ∀ q ≠ p, some p = some q ↔ (s.inode k).lock = some q := by
    intro q hq
    simp [hnone, Ne.symm hq]
  split at ht
  · cases ht
    exact h.locked hidle hmem hother rfl
  · obtain ⟨-, ht⟩ := Option.ite_none_left_eq_some.mp ht
    cases ht
    exact h.locked hidle hmem hother rfl

end

theorem Spare.mem_erase (hs : Spare s p k) (hmem : q ∈ s.refs k) (hlock : (s.inode k).lock = some q) :
    q ∈ (s.refs k).erase p := by
  by_cases hq : q = p
  · subst hq
    have htwo := hs.2 hlock
    rw [← count_pos_iff, count_erase_self]
    omega
  · exact (mem_erase_of_ne hq).mpr hmem

theorem Inv.give (h : Inv s) (hidle : s.phase p = .idle) (hs : Spare s p k) (q : Nat) :
    Inv (s.set k (s.inode k) (q :: (s.refs k).erase p)) := by
  refine h.set hidle (.inr hs.1) (fun _ _ => Iff.rfl) (fun q' hq' => ?_) ?_ (fun q' hq' => ?_)
  · have herase : ((s.refs k).erase p).count q' = (s.refs k).count q' := count_erase_of_ne hq'
    rw [← herase]
    exact (sublist_cons_self q _).count_le q'
  · rw [h.count, length_cons, length_erase_of_mem hs.1]
    have := length_pos_of_mem hs.1
    omega
  · apply mem_cons_of_mem
    exact hs.mem_erase (h.owner k q' hq') hq'

theorem Inv.last (h : Inv s) (hs : Spare s p k) (href : (s.inode k).ref = 1) :
    s.refs k = [p] ∧ (s.inode k).lock = none := by
  rw [h.count] at href
  obtain ⟨x, hx⟩ := length_eq_one_iff.mp href
  have hp : p = x := by simpa [hx] using hs.1
  rw [← hp] at hx
  refine ⟨hx, Option.eq_none_iff_forall_ne_some.mpr fun q hq => ?_⟩
  have hqp : q = p := by simpa [hx] using h.owner k q hq
  have htwo := hs.2 (hqp ▸ hq)
  simp [hx] at htwo

theorem Inv.disk (h : Inv s) (dinode : Nat → Dinode) : Inv { s with dinode := dinode } := ⟨h.count, h.owner, h.at'⟩

theorem Inv.next (h : Inv s) (ht : s.next p (s.phase p) = some t) : Inv t := by
  have hat := h.at' p
  have hmine : s.lock = some p → ∀ q ≠ p, none = some q ↔ s.lock = some q := by
    intro hlock q hq
    simp [hlock, Ne.symm hq]
  generalize s.phase p = ph at ht hat
  cases ph with
  | idle => cases ht
  | test k =>
    cases ht
    obtain ⟨hlock, hs⟩ := hat
    refine h.goto k (.inr hlock) (fun _ _ => Iff.rfl) ?_
    split
    · rename_i hcond
      obtain ⟨hrefs, hnone⟩ := h.last hs hcond.1
      exact ⟨hlock, hrefs, hcond.2.1, hcond.2.2, hnone⟩
    · exact ⟨hlock, hs⟩
  | acquiresleep k =>
    obtain ⟨hlock, hrefs, -, -, hnone⟩ := hat
    rw [State.next, if_pos hnone] at ht
    cases ht
    refine h.move ⟨.inr (.inl hlock), hmine hlock, fun q hq => ?_, fun _ _ => Nat.le_refl _, h.count k, ?_⟩ ?_
    · simp [hnone, Ne.symm hq]
    · simp [hrefs]
    · simp [At]
  | itrunc k =>
    cases ht
    have hmem := h.owner k p hat.2
    refine (h.disk _).move ⟨.inr (.inr hmem), fun _ _ => Iff.rfl, fun _ _ => Iff.rfl, fun _ _ => Nat.le_refl _,
      h.count k, h.owner k⟩ ?_
    simpa [At] using hat
  | releasesleep k =>
    cases ht
    have hmem := h.owner k p hat.2
    refine h.move ⟨.inr (.inr hmem), fun _ _ => Iff.rfl, fun q hq => ?_, fun _ _ => Nat.le_refl _, h.count k, ?_⟩ ?_
    · simp [hat.2, Ne.symm hq]
    · simp
    · simpa [At] using ⟨hat.1, hmem⟩
  | acquire k =>
    obtain ⟨hfree, ht⟩ := Option.ite_none_right_eq_some.mp ht
    cases ht
    refine h.goto k (.inl hfree) (fun q hq => ?_) ⟨rfl, hat.2.1, fun hlock => absurd hlock hat.2.2⟩
    simp [hfree, Ne.symm hq]
  | drop k =>
    cases ht
    obtain ⟨hlock, hs⟩ := hat
    refine h.move ⟨.inr (.inl hlock), hmine hlock, fun _ _ => Iff.rfl, fun q hq => ?_, ?_, fun q hq => ?_⟩ ?_
    · exact Nat.le_of_eq (count_erase_of_ne hq).symm
    · simp only [h.count, length_erase_of_mem hs.1]
    · exact hs.mem_erase (h.owner k q hq) hq
    · simp [At]

theorem Inv.step {m : Move} (h : Inv s) (hok : Through [] s m) (ht : step m s = some t) : Inv t := by
  obtain ⟨p, a⟩ := m
  unfold Itable.step at ht
  by_cases hnext : a = .next
  · rw [if_pos hnext] at ht
    exact h.next ht
  rw [if_neg hnext] at ht
  by_cases hidle : s.phase p = .idle
  · rw [if_neg (not_not.mpr hidle)] at ht
    cases a with
    | iget inum =>
      obtain ⟨hfree, ht⟩ := Option.ite_none_right_eq_some.mp ht
      exact h.iget hidle hfree ht
    | idup k =>
      obtain ⟨hfree, ht⟩ := Option.ite_none_right_eq_some.mp ht
      cases ht
      exact h.take hidle hfree rfl (congrArg (· + 1) (h.count k))
    | give k q =>
      cases ht
      exact h.give hidle hok q
    | ilock k => exact h.ilock hidle hok ht
    | iunlock k =>
      obtain ⟨hlock, ht⟩ := Option.ite_none_right_eq_some.mp ht
      cases ht
      refine h.locked hidle (h.owner k p hlock) (fun q hq => ?_) rfl
      simp [hlock, Ne.symm hq]
    | iupdate k nlink =>
      obtain ⟨hlock, ht⟩ := Option.ite_none_right_eq_some.mp ht
      cases ht
      exact (h.disk _).locked (p := p) (i := { s.inode k with nlink := nlink }) hidle (h.owner k p hlock)
        (fun _ _ => Iff.rfl) rfl
    | ialloc inum type =>
      obtain ⟨-, ht⟩ := Option.ite_none_right_eq_some.mp ht
      cases ht
      exact h.disk _
    | iput k =>
      obtain ⟨hfree, ht⟩ := Option.ite_none_right_eq_some.mp ht
      cases ht
      refine h.goto k (.inl hfree) (fun q hq => ?_) ⟨rfl, hok⟩
      simp [hfree, Ne.symm hq]
    | next => exact absurd rfl hnext
  · rw [if_pos hidle] at ht
    cases ht

-- iinit, on any disk.
def boot (dinode : Nat → Dinode) : State :=
  ⟨fun _ => ⟨0, 0, false, 0, none⟩, none, dinode, fun _ => [], fun _ => .idle⟩

def Reached (dinode : Nat → Dinode) (s : State) : Prop := ∃ es, Lts.Run machine Through (boot dinode) es s

theorem Reached.inv {dinode : Nat → Dinode} (hr : Reached dinode s) : Inv s := by
  obtain ⟨es, hr⟩ := hr
  refine hr.inv (I := fun _ => Inv) ⟨fun _ => rfl, fun _ _ h => (nomatch h), fun _ h => (nomatch h)⟩ ?_
  rintro es s m t es' h hok hm
  obtain ⟨t', ht, heq⟩ := Option.map_eq_some_iff.mp hm
  cases heq
  exact h.step hok ht

def Uses (s : State) (q k : Nat) : Prop := (s.inode k).lock = some q

-- From the acquiresleep to the releasesleep of iput.
def Phase.Freeing (k : Nat) (ph : Phase) : Prop := ph = .itrunc k ∨ ph = .releasesleep k

-- The holder of the table's lock is not held up; where iput takes the inode's lock it is free, and
-- nobody else uses the inode until iput releases it.
theorem iput_not_blocked (dinode : Nat → Dinode) (s : State) (hr : Reached dinode s) (p : Nat) :
    (s.lock = some p → ∃ t, step ⟨p, .next⟩ s = some t) ∧
      ∀ k, (s.phase p = .acquiresleep k → s.lock = some p ∧ (s.inode k).ref = 1 ∧ (s.inode k).valid ∧ (s.inode k).nlink = 0 ∧
          (s.inode k).lock = none ∧ ∃ t, step ⟨p, .next⟩ s = some t ∧ t.phase p = .itrunc k ∧ Uses t p k) ∧
        ((s.phase p).Freeing k → ∀ q, Uses s q k → q = p) := by
  have h := hr.inv
  have hat := h.at' p
  have hstep : step ⟨p, .next⟩ s = s.next p (s.phase p) := rfl
  rw [hstep]
  generalize s.phase p = ph at hat
  refine ⟨fun hlock => ?_, fun k => ⟨?_, ?_⟩⟩
  · cases ph with
    | idle => exact absurd hlock hat
    | acquiresleep k => exact ⟨_, if_pos hat.2.2.2.2⟩
    | acquire k => exact absurd hlock hat.1
    | _ => exact ⟨_, rfl⟩
  · rintro rfl
    obtain ⟨hlock, hrefs, hvalid, hnlink, hnone⟩ := hat
    refine ⟨hlock, by rw [h.count, hrefs]; rfl, hvalid, hnlink, hnone, _, if_pos hnone, ?_, ?_⟩
    · simp
    · simp [Uses]
  · rintro (rfl | rfl) q hq
    · exact Option.some.inj (hq.symm.trans hat.2)
    · exact Option.some.inj (hq.symm.trans hat.2)

def moves : List Move :=
  [⟨1, .ialloc 5 2⟩, ⟨1, .iget 5⟩, ⟨2, .iget 5⟩, ⟨1, .ilock 0⟩, ⟨1, .iunlock 0⟩, ⟨2, .ilock 0⟩, ⟨2, .iunlock 0⟩,
    ⟨2, .iput 0⟩, ⟨2, .next⟩, ⟨2, .next⟩, ⟨1, .iput 0⟩, ⟨1, .next⟩]

def after (ms : List Move) : Option State :=
  (Lts.exec machine Through ms [] (boot fun _ => ⟨0, 0⟩)).map Prod.snd

theorem reached_after {ms : List Move} (h : after ms = some s) : Reached (fun _ => ⟨0, 0⟩) s := by
  obtain ⟨⟨es, t⟩, hexec, rfl⟩ := Option.map_eq_some_iff.mp h
  exact ⟨es, Lts.run_of_exec .nil hexec⟩

theorem iput_not_blocked_moves : ∃ s, Reached (fun _ => ⟨0, 0⟩) s ∧ s.phase 1 = .acquiresleep 0 ∧ (s.inode 0).lock = none := by
  have hsome : (after moves).isSome := by decide
  have hphase : ∀ s, after moves = some s → s.phase 1 = .acquiresleep 0 := by
    intro s hs
    have : (after moves).map (·.phase 1) = some (.acquiresleep 0) := by decide
    rw [hs] at this
    exact Option.some.inj this
  obtain ⟨s, hs⟩ := Option.isSome_iff_exists.mp hsome
  have hr := reached_after hs
  obtain ⟨-, -, -, -, hnone, -⟩ := ((iput_not_blocked _ s hr 1).2 0).1 (hphase s hs)
  exact ⟨s, hr, hphase s hs, hnone⟩

-- Process 2 allocates the freed inode and has it locked before process 1 drops its reference.
theorem not_iput_alone : ∃ s, Reached (fun _ => ⟨0, 0⟩) s ∧ s.phase 1 = .acquire 0 ∧ (s.inode 0).ref = 2 ∧ Uses s 2 0 := by
  have hsome : (after (moves ++ [⟨1, .next⟩, ⟨1, .next⟩, ⟨2, .ialloc 5 2⟩, ⟨2, .iget 5⟩, ⟨1, .next⟩, ⟨2, .ilock 0⟩])).map
      (fun s => (s.phase 1, (s.inode 0).ref, (s.inode 0).lock)) = some (.acquire 0, 2, some 2) := by decide
  obtain ⟨s, hs, heq⟩ := Option.map_eq_some_iff.mp hsome
  simp only [Prod.mk.injEq] at heq
  exact ⟨s, reached_after hs, heq⟩

end Itable
