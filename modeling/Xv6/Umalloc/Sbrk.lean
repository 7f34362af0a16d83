import Xv6.Riscv
import Xv6.Umalloc.Theorems

-- malloc on the sbrk of the kernel, which takes an int.

namespace Umalloc

open Extent Vm

-- PHYSTOP - KERNBASE
def MEMORY : Nat := 128 * 1024 * 1024

-- What sys_sbrk returns, none for -1, and the size after it. `ok` is whether uvmalloc finds the
-- pages. sz + n wraps when n takes away more than there is, and uvmdealloc leaves such a size
-- alone.
def sbrk (sz : Nat) (n : Int) (ok : Bool) : Option Nat × Nat :=
  if 0 < n then
    if ok ∧ sz + n.toNat ≤ MEMORY then (some sz, sz + n.toNat) else (none, sz)
  else if -n ≤ sz then (some sz, sz - (-n).toNat)
  else (some sz, sz)

-- The int that morecore passes: nu * sizeof(Header).
def increment (nbytes : UInt32) : Int := (UInt32.ofNat (request nbytes)).toInt32.toInt

-- The heap of a process, its size before the first call and its size.
structure Memory extends State where
  lo : Nat
  sz : Nat

inductive Outcome where
  | killed
  | returned (p : Nat) (m : Memory)

-- What the sbrk of morecore returns, and the new size.
abbrev grant (m : Memory) (nbytes : UInt32) (ok : Bool) : Option Nat × Nat := sbrk m.sz (increment nbytes) ok

-- morecore stores to the field size of the new header, in bytes 8 to 11 of it.
def Faults (m : Memory) (nbytes : UInt32) (ok : Bool) : Prop :=
  PGROUNDUP (grant m nbytes ok).2 < m.sz + 12

instance (m : Memory) (nbytes : UInt32) (ok : Bool) : Decidable (Faults m nbytes ok) :=
  inferInstanceAs (Decidable (_ < _))

def blocks (used : List Extent) (h : Heap) (p : Nat) : List Extent :=
  if p = 0 then used else ⟨p - HEADER, HEADER * (h.size (p - HEADER)).toNat⟩ :: used

def alloc (base n : Nat) (m : Memory) (nbytes : UInt32) (ok : Bool) : Option Outcome := do
  let (r, sz) := grant m nbytes ok
  let (p, h, rest) ← malloc base n m.heap nbytes [r]
  if rest ≠ [] then some (.returned p ⟨⟨h, blocks m.used h p⟩, m.lo, m.sz⟩)
  else if r ≠ none ∧ Faults m nbytes ok then some .killed
  else some (.returned p ⟨⟨h, blocks m.used h p⟩, m.lo, sz⟩)

def Comes (base : Nat) (m : Memory) (nbytes : UInt32) (ok : Bool) (o : Outcome) : Prop :=
  ∃ N, ∀ n ≥ N, alloc base n m nbytes ok = some o

-- The process after calls that meet P. It stores to its blocks only, and may call sbrk itself.
inductive Runs (base : Nat) (P : Memory → UInt32 → Bool → Prop) : Memory → Prop where
  | init {h : Heap} {lo : Nat} (hfreep : h.freep = 0) (hcore : h.core = []) (hlo : base + HEADER ≤ lo)
    (hmem : lo ≤ MEMORY) : Runs base P ⟨⟨h, []⟩, lo, lo⟩
  | malloc {m m' : Memory} {nbytes : UInt32} {ok : Bool} {p : Nat} (hm : Runs base P m) (hp : P m nbytes ok)
    (h : Comes base m nbytes ok (.returned p m')) : Runs base P m'
  | free {m : Memory} {s : State} {ap p : Nat} (hm : Runs base P m) (hap : ∃ e ∈ m.used, e.start + HEADER = ap)
    (h : Returns base m.toState (.free ap) p s) : Runs base P ⟨s, m.lo, m.sz⟩
  | store {m : Memory} {hdr : Nat → Header} (hm : Runs base P m) (h : Stores m.toState hdr) :
    Runs base P ⟨⟨{ m.heap with hdr := hdr }, m.used⟩, m.lo, m.sz⟩
  | sbrk {m : Memory} {n : Int} {ok : Bool} (hm : Runs base P m) (hn : 0 ≤ n) :
    Runs base P ⟨m.toState, m.lo, (sbrk m.sz n ok).2⟩

-- A block lies in the memory that sbrk has added, and apart from the live ones.
def Sound (m : Memory) (nbytes : UInt32) : Outcome → Prop
  | .killed => True
  | .returned p m' => p ≠ 0 → m.lo ≤ p ∧ p + nbytes.toNat ≤ m'.sz ∧ ∀ e ∈ m.used, Apart ⟨p, nbytes.toNat⟩ e

-- The request is an int; or sbrk fails, or the process does not survive it.
def Fits (m : Memory) (nbytes : UInt32) (ok : Bool) : Prop :=
  request nbytes < 2 ^ 31 ∨ (grant m nbytes ok).1 = none ∨ Faults m nbytes ok

structure Backed (base : Nat) (m : Memory) : Prop where
  inv : Inv base m.toState
  lo : base + HEADER ≤ m.lo
  total : total m.heap.core + m.lo ≤ m.sz
  inside : ∀ c ∈ m.heap.core, m.lo ≤ c.start ∧ c.stop ≤ m.sz
  memory : m.sz ≤ MEMORY

variable {base : Nat} {m m' : Memory} {nbytes : UInt32} {ok : Bool} {o : Outcome}

variable {sz : Nat} {n : Int}

theorem sbrk_some {a : Nat} (h : (sbrk sz n ok).1 = some a) : a = sz := by
  simp only [sbrk] at h
  split at h
  · split at h
    · simpa using h.symm
    · simp at h
  · split at h <;> simpa using h.symm

theorem sbrk_none (h : (sbrk sz n ok).1 = none) : (sbrk sz n ok).2 = sz := by
  simp only [sbrk] at h ⊢
  split at h
  · split at h
    · simp at h
    · simp [*]
  · split at h <;> simp at h

theorem sbrk_pos (hn : 0 < n) (h : (sbrk sz n ok).1 ≠ none) : (sbrk sz n ok).2 = sz + n.toNat := by
  simp only [sbrk, if_pos hn] at h ⊢
  split at h
  · rename_i hok
    rw [if_pos hok]
  · simp at h

theorem sbrk_le (n : Int) (ok : Bool) (hsz : sz ≤ MEMORY) : (sbrk sz n ok).2 ≤ MEMORY := by
  simp only [sbrk]
  split
  · split
    · rename_i hok
      exact hok.2
    · exact hsz
  · split
    · simp only
      omega
    · exact hsz

theorem le_sbrk (sz : Nat) (ok : Bool) (hn : 0 ≤ n) : sz ≤ (sbrk sz n ok).2 := by
  simp only [sbrk]
  split
  · split <;> simp
  · have hzero : n = 0 := by omega
    simp [hzero]

theorem increment_bmod (nbytes : UInt32) :
    increment nbytes = (request nbytes : Int).bmod (2 ^ 32) :=
  BitVec.toInt_ofNat' (request nbytes)

theorem request_le (nbytes : UInt32) : request nbytes ≤ 2 ^ 32 + 16 := by
  have := nbytes.toNat_lt
  simp only [request, units, HEADER]
  omega

theorem increment_eq (h : request nbytes < 2 ^ 31) : increment nbytes = request nbytes := by
  rw [increment_bmod, Int.bmod_def]
  omega

theorem units_le_request (nbytes : UInt32) :
    nbytes.toNat + HEADER ≤ HEADER * units nbytes ∧ 65536 ≤ request nbytes := by
  simp only [request, units, HEADER]
  omega

theorem alloc_comes (hbase : 0 < base) (hm : Backed base m) (nbytes : UInt32) (ok : Bool) :
    ∃ p s new, Served base m.used (units nbytes).toUInt32 p s.heap s.used new m.heap.core ∧
      ((p ≠ 0 ∧ new = [] ∧ Comes base m nbytes ok (.returned p ⟨s, m.lo, m.sz⟩)) ∨
        ((p = 0 ↔ (grant m nbytes ok).1 = none) ∧
          new = (grant m nbytes ok).1.toList.map (fun a => ⟨a, request nbytes⟩) ∧
          Comes base m nbytes ok (if (grant m nbytes ok).1 ≠ none ∧ Faults m nbytes ok then .killed
            else .returned p ⟨s, m.lo, (grant m nbytes ok).2⟩))) := by
  have hfresh : ∀ a, (grant m nbytes ok).1 = some a →
      Fresh base m.heap a ∧ total m.heap.core + request nbytes < LIMIT := by
    intro a ha
    have hsz := sbrk_some ha
    have hreq := request_le nbytes
    have htotal := hm.total
    have hmem := hm.memory
    simp only [MEMORY] at hmem
    simp only [LIMIT, HEADER]
    refine ⟨⟨Nat.le_trans hm.lo (by omega), fun c hc => ?_⟩, by omega⟩
    rw [hsz]
    exact (hm.inside c hc).2
  obtain ⟨N, p, h, rest, used, new, hmalloc, hserved, hnew⟩ := malloc_served hbase hm.inv nbytes [] hfresh
  have hblocks : blocks m.used h p = used := by
    rcases hserved.out with ⟨rfl, rfl, -⟩ | ⟨e, rfl, rfl, -⟩
    · rfl
    · obtain ⟨free, hg⟩ := hserved.good
      have hheaded : e.len = HEADER * (h.size e.start).toNat := hg.headed e (by simp)
      rw [blocks, if_neg (by simp [HEADER]), Nat.add_sub_cancel, ← hheaded]
  have halloc : ∀ n ≥ N, alloc base n m nbytes ok = if rest ≠ [] then some (.returned p ⟨⟨h, used⟩, m.lo, m.sz⟩)
      else if (grant m nbytes ok).1 ≠ none ∧ Faults m nbytes ok then some .killed
      else some (.returned p ⟨⟨h, used⟩, m.lo, (grant m nbytes ok).2⟩) := by
    intro n hn
    simp only [alloc, hmalloc n hn, ← hblocks]
    rfl
  refine ⟨p, ⟨h, used⟩, new, hserved, hnew.imp ?_ ?_⟩
  · rintro ⟨hrest, hp, hnil⟩
    refine ⟨hp, hnil, N, fun n hn => ?_⟩
    rw [halloc n hn, if_pos (by simp [hrest])]
  · rintro ⟨rfl, hp, hnew⟩
    refine ⟨hp, hnew, N, fun n hn => ?_⟩
    rw [halloc n hn, if_neg (by simp)]
    split <;> rfl

variable {new : List Extent}

variable {k : UInt32} {p : Nat} {s : State}

theorem Served.inside {lo hi : Nat} {h : Heap} {used used' core : List Extent}
    (hs : Served base used k p h used' new core) (hp : p ≠ 0) (hin : ∀ c ∈ h.core, lo ≤ c.start ∧ c.stop ≤ hi) :
    lo + HEADER ≤ p ∧ p + HEADER * k.toNat ≤ hi + HEADER ∧ HEADER * k.toNat ≤ total h.core ∧
      ∀ f ∈ used, Apart ⟨p - HEADER, HEADER * k.toNat⟩ f := by
  obtain ⟨e, rfl, rfl, hlen⟩ := hs.out.resolve_left fun h => hp h.1
  obtain ⟨free, hg⟩ := hs.good
  have he : e ∈ free ++ e :: used := by simp
  have hin := hg.tiles.inside hin he
  have htotal := (len_le_total he).trans_eq hg.tiles.total_eq
  rw [← hlen, Nat.add_sub_cancel]
  simp only [stop] at hin
  refine ⟨by omega, by omega, htotal, fun f hf => ?_⟩
  exact (List.pairwise_cons.mp (List.pairwise_append.mp hg.tiles.apart).2.1).1 f hf

theorem Backed.grow (hm : Backed base m) (hn : 0 ≤ n) :
    Backed base ⟨m.toState, m.lo, (sbrk m.sz n ok).2⟩ := by
  have hle := le_sbrk m.sz ok hn
  refine ⟨hm.inv, hm.lo, Nat.le_trans hm.total hle, fun c hc => ?_, sbrk_le n ok hm.memory⟩
  exact ⟨(hm.inside c hc).1, Nat.le_trans (hm.inside c hc).2 hle⟩

theorem Served.backed (hm : Backed base m)
    (hs : Served base m.used k p s.heap s.used new m.heap.core) (hsz : sz ≤ MEMORY)
    (htotal : m.sz + total new ≤ sz) (hnew : ∀ c ∈ new, m.sz ≤ c.start ∧ c.stop ≤ sz) :
    Backed base ⟨s, m.lo, sz⟩ := by
  have hle := hm.total
  refine ⟨⟨hs.limit, .inr hs.good⟩, hm.lo, ?_, fun c hc => ?_, hsz⟩
  · simp only [hs.core, total_append]
    omega
  simp only [hs.core, List.mem_append] at hc
  rcases hc with hc | hc
  · have := hnew c hc
    simp only
    omega
  · have := hm.inside c hc
    simp only
    omega

section

variable (hs : Served base m.used (units nbytes).toUInt32 p s.heap s.used new m.heap.core)

include hs

theorem Served.sound
    (hb : Backed base ⟨s, m.lo, sz⟩) : Sound m nbytes (.returned p ⟨s, m.lo, sz⟩) := by
  intro hp
  obtain ⟨hlo, hhi, -, hapart⟩ := hs.inside hp hb.inside
  rw [(units_toNat nbytes).1] at hhi hapart
  have hlen := (units_le_request nbytes).1
  simp only [HEADER] at hlo hhi hapart hlen ⊢
  refine ⟨by omega, by omega, fun f hf => ?_⟩
  have := hapart f hf
  simp only [Apart, stop] at this ⊢
  omega

theorem Served.small (hp : p ≠ 0) (hb : Backed base ⟨s, m.lo, sz⟩) : request nbytes < 2 ^ 31 := by
  obtain ⟨-, -, hlen, -⟩ := hs.inside hp hb.inside
  have htotal := hb.total
  have hmem := hb.memory
  rw [(units_toNat nbytes).1] at hlen
  simp only [MEMORY, request, HEADER] at *
  omega

end

theorem grown_backed (m : Memory) (ok : Bool) (h : request nbytes < 2 ^ 31) :
    (∀ c ∈ (grant m nbytes ok).1.toList.map fun a => (⟨a, request nbytes⟩ : Extent),
        m.sz ≤ c.start ∧ c.stop ≤ (grant m nbytes ok).2) ∧
      m.sz + total ((grant m nbytes ok).1.toList.map fun a => ⟨a, request nbytes⟩) ≤
        (grant m nbytes ok).2 := by
  cases hsome : (grant m nbytes ok).1 with
  | none => simp [sbrk_none hsome]
  | some a =>
    have ha := sbrk_some hsome
    have hlarge := (units_le_request nbytes).2
    have hpos : 0 < increment nbytes := by
      rw [increment_eq h]
      omega
    have hsz := sbrk_pos hpos (hsome.trans_ne (by simp))
    rw [hsz, increment_eq h]
    simp [ha, stop]

theorem alloc_keeps (hbase : 0 < base) (hm : Backed base m) (hfits : Fits m nbytes ok) :
    ∃ o, Comes base m nbytes ok o ∧ Sound m nbytes o ∧ ∀ p m', o = .returned p m' → Backed base m' := by
  obtain ⟨p, s, new, hs, ⟨-, rfl, hc⟩ | ⟨-, rfl, hc⟩⟩ := alloc_comes hbase hm nbytes ok
  · have hb : Backed base ⟨s, m.lo, m.sz⟩ := hs.backed hm hm.memory (by simp) (by simp)
    refine ⟨_, hc, hs.sound hb, ?_⟩
    rintro p m' heq
    cases heq
    exact hb
  by_cases hkilled : (grant m nbytes ok).1 ≠ none ∧ Faults m nbytes ok
  · rw [if_pos hkilled] at hc
    exact ⟨_, hc, trivial, fun p m' heq => nomatch heq⟩
  rw [if_neg hkilled] at hc
  have hb : Backed base ⟨s, m.lo, (grant m nbytes ok).2⟩ := by
    by_cases hnone : (grant m nbytes ok).1 = none
    · apply hs.backed hm (sbrk_le _ _ hm.memory) <;> simp [hnone, sbrk_none hnone]
    have hint : request nbytes < 2 ^ 31 := by
      rcases hfits with h | h | h
      · exact h
      · exact absurd h hnone
      · exact absurd ⟨hnone, h⟩ hkilled
    obtain ⟨hnew, htotal⟩ := grown_backed m ok hint
    exact hs.backed hm (sbrk_le _ _ hm.memory) htotal hnew
  refine ⟨_, hc, hs.sound hb, ?_⟩
  rintro p m' heq
  cases heq
  exact hb

theorem alloc_overruns (hbase : 0 < base) (hm : Backed base m) (hfits : ¬ Fits m nbytes ok) :
    ∃ o, Comes base m nbytes ok o ∧ ¬ Sound m nbytes o := by
  simp only [Fits, not_or, Nat.not_lt] at hfits
  obtain ⟨hreq, hnone, hfaults⟩ := hfits
  obtain ⟨p, s, new, hs, ⟨hp, rfl, hc⟩ | ⟨hp, rfl, hc⟩⟩ := alloc_comes hbase hm nbytes ok
  · -- The heap has no such block,
    have hsmall := hs.small hp (hs.backed hm hm.memory (by simp) (by simp))
    omega
  -- and sbrk does not add that much.
  rw [if_neg fun h => hfaults h.2] at hc
  refine ⟨_, hc, fun hsound => ?_⟩
  obtain ⟨-, hhi, -⟩ := hsound fun h => hnone (hp.mp h)
  have hle : (grant m nbytes ok).2 ≤ MEMORY := sbrk_le _ _ hm.memory
  simp only [MEMORY, request, units, HEADER] at *
  omega

theorem Comes.unique {o' : Outcome} (h : Comes base m nbytes ok o) (h' : Comes base m nbytes ok o') : o = o' := by
  obtain ⟨N, hN⟩ := h
  obtain ⟨M, hM⟩ := h'
  have heq := (hN (max N M) (le_max_left _ _)).symm.trans (hM (max N M) (le_max_right _ _))
  simpa using heq

theorem backed_of_runs (hbase : 0 < base) (hm : Runs base Fits m) : Backed base m := by
  induction hm with
  | init hfreep hcore hlo hmem =>
    exact ⟨⟨by simp [hcore, LIMIT, HEADER], .inl ⟨hfreep, hcore, rfl⟩⟩, hlo, by simp [hcore], by simp [hcore], hmem⟩
  | malloc _ hfits h ih =>
    obtain ⟨o, hc, -, hbacked⟩ := alloc_keeps hbase ih hfits
    exact hbacked _ _ (hc.unique h)
  | free _ hap h ih =>
    obtain ⟨p, s', hreturns, hwell, -, hcore⟩ := free_returns ih.inv hap
    obtain ⟨-, rfl⟩ := h.unique hreturns
    refine ⟨⟨?_, .inr hwell⟩, ih.lo, ?_, ?_, ih.memory⟩
    · rw [hcore]
      exact ih.inv.limit
    · rw [hcore]
      exact ih.total
    · rw [hcore]
      exact ih.inside
  | store _ h ih => exact ⟨ih.inv.store h, ih.lo, ih.total, ih.inside, ih.memory⟩
  | sbrk _ hn ih => exact ih.grow hn

-- malloc hands out memory that sbrk has added, if and only if the request is an int.
theorem malloc_backed (base : Nat) (hbase : 0 < base) (m : Memory) (hm : Runs base Fits m)
    (nbytes : UInt32) (ok : Bool) :
    ∃ o, Comes base m nbytes ok o ∧ (Sound m nbytes o ↔ Fits m nbytes ok) := by
  have hb := backed_of_runs hbase hm
  by_cases hfits : Fits m nbytes ok
  · obtain ⟨o, hc, hsound, -⟩ := alloc_keeps hbase hb hfits
    exact ⟨o, hc, iff_of_true hsound hfits⟩
  · obtain ⟨o, hc, hsound⟩ := alloc_overruns hbase hb hfits
    exact ⟨o, hc, iff_of_false hsound hfits⟩

def onePage : Memory := ⟨empty, 4096, 4096⟩

theorem runs_onePage : Runs 16 Fits onePage := .init rfl rfl (by decide) (by decide)

theorem alloc_mono {n k : Nat} (h : alloc base n m nbytes ok = some o) (hk : n ≤ k) :
    alloc base k m nbytes ok = some o := by
  simp only [alloc] at h ⊢
  cases hmalloc : malloc base n m.heap nbytes [(grant m nbytes ok).1] with
  | none => simp [hmalloc] at h
  | some out =>
    have hmalloc' : malloc base k m.heap nbytes [(grant m nbytes ok).1] = some out :=
      search_mono hmalloc hk
    rw [hmalloc] at h
    rw [hmalloc']
    exact h

-- A block is freed and merges with the rest of what sbrk has added.
def merged : Option (Memory × State) := do
  let .returned _ m ← alloc 16 4 onePage 100 true | none
  let (_, s) ← perform 16 4 m.toState (.free 69520)
  some (m, s)

theorem malloc_backed_merged : ∃ m, Runs 16 Fits m ∧ m.used = [] ∧ m.heap.next 16 = 4096 ∧ m.heap.next 4096 = 16 ∧
    ∃ o, Comes 16 m 200 true o ∧ (Sound m 200 o ↔ Fits m 200 true) := by
  have hany : merged.any (fun x => decide (x.1.used = [⟨69504, 128⟩] ∧ x.2.used = [] ∧ x.2.heap.next 16 = 4096 ∧
      x.2.heap.next 4096 = 16)) = true := by
    decide +kernel
  obtain ⟨⟨m, s⟩, hmerged, hx⟩ := (Option.any_eq_true _ _).mp hany
  obtain ⟨hlive, hused, hnext, hlast⟩ := of_decide_eq_true hx
  rw [merged] at hmerged
  obtain ⟨o, ho, h⟩ := Option.bind_eq_some_iff.mp hmerged
  cases o with
  | killed => cases h
  | returned p m' =>
    obtain ⟨⟨q, s'⟩, hs, h⟩ := Option.bind_eq_some_iff.mp h
    cases h
    have hcomes : Comes 16 onePage 100 true (.returned p m) := ⟨4, fun n hn => alloc_mono ho hn⟩
    have hreturns : Returns 16 m.toState (.free 69520) q s := ⟨4, fun n hn => perform_mono hs hn⟩
    have hap : ∃ e ∈ m.used, e.start + HEADER = 69520 := by simp [show m.used = _ from hlive, HEADER]
    have hr := (runs_onePage.malloc (.inl (by decide)) hcomes).free hap hreturns
    exact ⟨_, hr, hused, hnext, hlast, malloc_backed 16 (by decide) _ hr 200 true⟩

-- For 2^32 - 1 bytes morecore asks for 16, and the block starts where the process ends.
theorem not_malloc_backed : Runs 16 Fits onePage ∧
    ∃ m, Comes 16 onePage 4294967295 true (.returned 4112 m) ∧ m.sz = 4112 ∧
      ¬ Sound onePage 4294967295 (.returned 4112 m) := by
  obtain ⟨m, hm, hsz⟩ : ∃ m, alloc 16 4 onePage 4294967295 true = some (.returned 4112 m) ∧ m.sz = 4112 :=
    ⟨_, rfl, rfl⟩
  refine ⟨runs_onePage, m, ⟨4, fun n hn => alloc_mono hm hn⟩, hsz, fun hsound => ?_⟩
  obtain ⟨-, hhi, -⟩ := hsound (by decide)
  rw [hsz] at hhi
  exact absurd hhi (by decide)

end Umalloc
