import Xv6.Umalloc.Heap

-- Sequences of calls.

namespace Umalloc

open Links Extent List

variable {base n m : Nat} {h : Heap} {free used : List Extent} {k : UInt32} {ans : Answers}

variable {ap a : Nat} {ns : List Nat} {r : Option Nat} {s' : State} {hdr : Nat → Header}

theorem free_mono {h' : Heap} (hfree : Umalloc.free n h ap = some h') (hm : n ≤ m) :
    Umalloc.free m h ap = some h' := by
  simp only [Umalloc.free] at hfree ⊢
  cases hfind : find h.next (h.place (ap - HEADER)) n h.freep with
  | none =>
    rw [hfind] at hfree
    cases hfree
  | some p =>
    rw [find_mono hfind hm]
    rw [hfind] at hfree
    exact hfree

variable {out : Nat × Heap × Answers}

theorem morecore_mono (hmore : morecore n h k ans = some out) (hm : n ≤ m) :
    morecore m h k ans = some out := by
  cases ans with
  | nil => cases hmore
  | cons r ans =>
    cases r with
    | none => exact hmore
    | some a =>
      simp only [morecore] at hmore ⊢
      cases hfree : Umalloc.free n (({ h with core := ⟨a, (if k < 4096 then 4096 else k).toNat * HEADER⟩ :: h.core } :
          Heap).setSize a (if k < 4096 then 4096 else k)) (a + HEADER) with
      | none =>
        rw [hfree] at hmore
        cases hmore
      | some h' =>
        rw [free_mono hfree hm]
        rw [hfree] at hmore
        exact hmore

variable {p prevp : Nat}

theorem search_mono (hsearch : search n h k prevp p ans = some out)
    (hm : n ≤ m) : search m h k prevp p ans = some out := by
  induction n generalizing m h prevp p ans with
  | zero => cases hsearch
  | succ n ih =>
    obtain ⟨m, rfl⟩ : ∃ m', m = m' + 1 := ⟨m - 1, by omega⟩
    rw [search] at hsearch ⊢
    by_cases hfit : h.size p ≥ k
    · rw [if_pos hfit] at hsearch ⊢
      exact hsearch
    rw [if_neg hfit] at hsearch ⊢
    by_cases hp : p = h.freep
    · rw [if_pos hp] at hsearch ⊢
      cases hmore : morecore n h k ans with
      | none =>
        rw [hmore] at hsearch
        cases hsearch
      | some out' =>
        obtain ⟨q, h', ans'⟩ := out'
        rw [morecore_mono hmore (by omega : n ≤ m)]
        rw [hmore] at hsearch
        replace hsearch : (if q = 0 then some (0, h', ans') else search n h' k q (h'.next q) ans') = some out :=
          hsearch
        change (if q = 0 then some (0, h', ans') else search m h' k q (h'.next q) ans') = some out
        by_cases hq : q = 0
        · rw [if_pos hq] at hsearch ⊢
          exact hsearch
        · rw [if_neg hq] at hsearch ⊢
          exact ih hsearch (by omega)
    · rw [if_neg hp] at hsearch ⊢
      exact ih hsearch (by omega)

variable {s : State} {c : Call}

theorem perform_mono {out : Nat × State} (h : perform base n s c = some out) (hm : n ≤ m) :
    perform base m s c = some out := by
  cases c with
  | malloc nbytes ans =>
    simp only [perform] at h ⊢
    cases hmalloc : malloc base n s.heap nbytes ans with
    | none =>
      rw [hmalloc] at h
      cases h
    | some out' =>
      have hmalloc' : malloc base m s.heap nbytes ans = some out' := search_mono hmalloc hm
      rw [hmalloc']
      rw [hmalloc] at h
      exact h
  | free ap =>
    simp only [perform] at h ⊢
    cases hfree : Umalloc.free n s.heap ap with
    | none =>
      rw [hfree] at h
      cases h
    | some h' =>
      rw [free_mono hfree hm]
      rw [hfree] at h
      exact h

theorem search_fit (ans : Answers) (hpath : Path h.next (prevp :: ns ++ [h.freep]))
    (hfreep : h.freep ∉ ns) (hfit : ∃ p ∈ ns ++ [h.freep], k ≤ h.size p) (hn : ns.length < n) :
    ∃ q ∈ prevp :: ns, k ≤ h.size (h.next q) ∧ search n h k prevp (h.next prevp) ans =
      some ((take h q (h.next q) k).1, (take h q (h.next q) k).2, ans) := by
  induction ns generalizing prevp n with
  | nil =>
    obtain _ | n := n
    · omega
    have hnext : h.next prevp = h.freep := (path_cons_cons.mp hpath).1
    obtain ⟨p, hp, hfit⟩ := hfit
    simp only [nil_append, mem_singleton] at hp
    subst hp
    have hfit' : k ≤ h.size (h.next prevp) := by rwa [hnext]
    exact ⟨prevp, by simp, hfit', by rw [search, if_pos hfit']⟩
  | cons p ns ih =>
    obtain _ | n := n
    · omega
    obtain ⟨hnext, hrest⟩ := path_cons_cons.mp hpath
    by_cases hp : k ≤ h.size (h.next prevp)
    · exact ⟨prevp, by simp, hp, by rw [search, if_pos hp]⟩
    simp only [mem_cons, not_or] at hfreep
    simp only [length_cons] at hn
    have hfit' : ∃ p ∈ ns ++ [h.freep], k ≤ h.size p := by
      obtain ⟨p', hp', hfit⟩ := hfit
      rcases mem_cons.mp hp' with rfl | hp'
      · exact absurd (hnext ▸ hfit) hp
      · exact ⟨p', hp', hfit⟩
    obtain ⟨q, hq, hfitq, hsearch⟩ := ih (n := n) hrest hfreep.2 hfit' (by omega)
    refine ⟨q, mem_cons_of_mem _ hq, hfitq, ?_⟩
    rw [search, if_neg hp, if_neg (by rw [hnext]; exact Ne.symm hfreep.1), hnext]
    exact hsearch

theorem search_full (hpath : Path h.next (prevp :: ns ++ [h.freep])) (hfreep : h.freep ∉ ns)
    (hfit : ∀ p ∈ ns ++ [h.freep], ¬ k ≤ h.size p) :
    search (n + ns.length + 1) h k prevp (h.next prevp) ans = (do
      let (p, h, ans) ← morecore n h k ans
      if p = 0 then some (0, h, ans) else search n h k p (h.next p) ans) := by
  induction ns generalizing prevp with
  | nil =>
    have hnext : h.next prevp = h.freep := (path_cons_cons.mp hpath).1
    have hp : ¬ h.size (h.next prevp) ≥ k := by
      rw [hnext]
      exact hfit h.freep (by simp)
    rw [search, if_neg hp, if_pos hnext]
    rfl
  | cons p ns ih =>
    obtain ⟨hnext, hrest⟩ := path_cons_cons.mp hpath
    simp only [mem_cons, not_or] at hfreep
    have hp : ¬ h.size (h.next prevp) ≥ k := by
      rw [hnext]
      exact hfit p (by simp)
    have hlen : n + (p :: ns).length + 1 = (n + ns.length + 1) + 1 := by
      simp only [length_cons]
      omega
    rw [hlen, search, if_neg hp, if_neg (by rw [hnext]; exact Ne.symm hfreep.1), hnext]
    exact ih hrest hfreep.2 fun p' hp' => hfit p' (mem_cons_of_mem p hp')

theorem Good.round (hg : Good base h free used) :
    ∃ ns, Path h.next (h.freep :: ns ++ [h.freep]) ∧ h.freep ∉ ns ∧ ns.length = free.length ∧
      ∀ p, p ∈ ns ++ [h.freep] ↔ p ∈ base :: free.map start := by
  obtain ⟨ns, hpath, hperm⟩ := hg.cycle.rotate hg.freep
  have hnodup := hperm.nodup_iff.mpr hg.nodup
  refine ⟨ns, hpath, (nodup_cons.mp hnodup).1, ?_, fun p => ?_⟩
  · have hlen := hperm.length_eq
    simpa using hlen
  · rw [← hperm.mem_iff]
    simp only [mem_append, mem_cons, not_mem_nil, or_false]
    tauto

-- What malloc comes to; `new` are the regions that it got from sbrk.
structure Served (base : Nat) (used : List Extent) (k : UInt32) (p : Nat) (h : Heap) (used' new core : List Extent) : Prop where
  good : ∃ free, Good base h free used'
  limit : total h.core < LIMIT
  out : (p = 0 ∧ used' = used ∧ new = []) ∨ ∃ e, used' = e :: used ∧ p = e.start + HEADER ∧ e.len = HEADER * k.toNat
  core : h.core = new ++ core

theorem search_served (ans : Answers) (hg : Good base h free used) (hlim : total h.core < LIMIT) (hk : 0 < k)
    (hfit : ∃ p ∈ base :: free.map start, k ≤ h.size p) (hn : free.length < n) :
    ∃ p h' used', search n h k h.freep (h.next h.freep) ans = some (p, h', ans) ∧ p ≠ 0 ∧
      Served base used k p h' used' [] h.core := by
  obtain ⟨ns, hpath, hfreep, hlen, hmem⟩ := hg.round
  obtain ⟨p, hp, hfit⟩ := hfit
  obtain ⟨q, hq, hfitq, hsearch⟩ :=
    search_fit (n := n) ans hpath hfreep ⟨p, (hmem p).mpr hp, hfit⟩ (by omega)
  have hq' : q ∈ base :: free.map start := by
    rw [← hmem q]
    simp only [mem_append, mem_cons, not_mem_nil, or_false] at hq ⊢
    tauto
  obtain ⟨free', e, hgood, hptr, hlen', hcore⟩ := take_good hg hq' hk hfitq
  refine ⟨_, _, e :: used, hsearch, ?_, ⟨free', hgood⟩, by rwa [hcore], .inr ⟨e, rfl, hptr, hlen'⟩, hcore⟩
  rw [hptr]
  simp [HEADER]

-- The address that sbrk returns is above base and above what it has returned before.
def Fresh (base : Nat) (h : Heap) (a : Nat) : Prop := base + HEADER ≤ a ∧ ∀ e ∈ h.core, e.stop ≤ a

def grown (k : UInt32) : UInt32 := if k < 4096 then 4096 else k

theorem le_grown (k : UInt32) : k.toNat ≤ (grown k).toNat ∧ 0 < (grown k).toNat := by
  unfold grown
  split
  · rename_i hlt
    have := UInt32.lt_iff_toNat_lt.mp hlt
    have h4096 : (4096 : UInt32).toNat = 4096 := rfl
    omega
  · rename_i hge
    have := UInt32.le_iff_toNat_le.mp (UInt32.not_lt.mp hge)
    have h4096 : (4096 : UInt32).toNat = 4096 := rfl
    omega

theorem Good.below (hg : Good base h free used) (hfresh : Fresh base h a) {e : Extent}
    (he : e ∈ free ++ used) : e.start < a := by
  have hpos := hg.tiles.pos e he
  obtain ⟨c, hc, hcov⟩ := (hg.tiles.cover e.start).mp ⟨e, he, Nat.le_refl _, by simp only [stop]; omega⟩
  have := hfresh.2 c hc
  simp only [Covers] at hcov
  omega

theorem Good.grow (hg : Good base h free used) (hfresh : Fresh base h a) (hk : 0 < k.toNat) :
    Good base (({ h with core := ⟨a, k.toNat * HEADER⟩ :: h.core } : Heap).setSize a k) free
      (⟨a, k.toNat * HEADER⟩ :: used) := by
  have hbase : base < a := Nat.lt_of_lt_of_le (by simp [HEADER]) hfresh.1
  have hcases : ∀ e ∈ free ++ ⟨a, k.toNat * HEADER⟩ :: used, e = ⟨a, k.toNat * HEADER⟩ ∨ e ∈ free ++ used := by
    intro e he
    simp only [mem_append, mem_cons] at he ⊢
    tauto
  refine ⟨?_, hg.freep, ?_, ?_, hg.ascending, ?_, ?_⟩
  · rw [next_setSize]
    exact hg.cycle
  · simp only [size_setSize, if_neg hbase.ne]
    exact hg.base_size
  · intro e he
    rcases hcases e he with rfl | he
    · simp [Headed, Nat.mul_comm]
    · rw [Headed, size_setSize, if_neg (hg.below hfresh he).ne]
      exact hg.headed e he
  · intro e he
    rcases hcases e he with rfl | he
    · exact hbase
    · exact hg.above e he
  · apply (hg.tiles.grow (e := ⟨a, k.toNat * HEADER⟩) (by simp only [HEADER]; omega) hfresh.2).perm
    exact perm_middle.symm

theorem morecore_good (ans : Answers) (hg : Good base h free used) (hfresh : Fresh base h a)
    (hlim : total h.core + HEADER * (grown k).toNat < LIMIT) (hn : free.length < n) :
    ∃ h' free', morecore n h k (some a :: ans) = some (h'.freep, h', ans) ∧ Good base h' free' used ∧
      h'.core = ⟨a, (grown k).toNat * HEADER⟩ :: h.core ∧ total h'.core < LIMIT ∧ free'.length ≤ free.length + 1 ∧
      ∃ p ∈ base :: free'.map start, k ≤ h'.size p := by
  have hgrow := hg.grow hfresh (le_grown k).2
  have hlim' : total (({ h with core := ⟨a, (grown k).toNat * HEADER⟩ :: h.core } : Heap).setSize a (grown k)).core < LIMIT := by
    simp only [core_setSize, total_cons]
    rw [Nat.mul_comm]
    omega
  obtain ⟨h', free', hfree, hgood, hcore, hlen, f, hf, hstart, hstop⟩ := free_good hgrow hlim' hn
  refine ⟨h', free', ?_, hgood, hcore, by rwa [hcore], hlen, f.start, mem_cons_of_mem base (mem_map_of_mem hf), ?_⟩
  · simp only [grown] at hfree
    simp only [morecore, hfree]
    rfl
  -- The region is part of one free block now.
  have hheaded := hgood.headed f (by simp [hf])
  have hk := (le_grown k).1
  apply UInt32.le_iff_toNat_le.mpr
  simp only [Headed, stop, HEADER] at *
  omega

theorem Good.freep_ne_zero (hg : Good base h free used) (hbase : 0 < base) : h.freep ≠ 0 := by
  rcases mem_cons.mp hg.freep with hp | hp
  · omega
  · obtain ⟨e, he, heq⟩ := mem_map.mp hp
    have := hg.above e (by simp [he])
    omega

theorem search_total (ans : Answers) (hbase : 0 < base) (hg : Good base h free used) (hlim : total h.core < LIMIT) (hk : 0 < k)
    (hfresh : ∀ a, r = some a → Fresh base h a ∧ total h.core + HEADER * (grown k).toNat < LIMIT)
    (hn : 2 * free.length + 4 ≤ n) :
    ∃ p h' ans' used' new, search n h k h.freep (h.next h.freep) (r :: ans) = some (p, h', ans') ∧
      Served base used k p h' used' new h.core ∧
      ((ans' = r :: ans ∧ p ≠ 0 ∧ new = []) ∨
        (ans' = ans ∧ (p = 0 ↔ r = none) ∧ new = r.toList.map fun a => ⟨a, (grown k).toNat * HEADER⟩)) := by
  by_cases hfit : ∃ p ∈ base :: free.map start, k ≤ h.size p
  · obtain ⟨p, h', used', hsearch, hp, hserved⟩ := search_served (r :: ans) hg hlim hk hfit (n := n) (by omega)
    exact ⟨p, h', _, used', [], hsearch, hserved, .inl ⟨rfl, hp, rfl⟩⟩
  obtain ⟨ns, hpath, hfreep, hlen, hmem⟩ := hg.round
  have hnone : ∀ p ∈ ns ++ [h.freep], ¬ k ≤ h.size p := fun p hp hle => hfit ⟨p, (hmem p).mp hp, hle⟩
  obtain ⟨m, rfl⟩ : ∃ m, n = m + ns.length + 1 := ⟨n - ns.length - 1, by omega⟩
  rw [search_full hpath hfreep hnone]
  cases r with
  | none => exact ⟨0, h, ans, used, [], rfl, ⟨⟨free, hg⟩, hlim, .inl ⟨rfl, rfl, rfl⟩, rfl⟩, .inr ⟨rfl, by simp, rfl⟩⟩
  | some a =>
    obtain ⟨hfr, hgrow⟩ := hfresh a rfl
    obtain ⟨h', free', hmore, hgood, hcore, hlim', hlen', hfit'⟩ :=
      morecore_good ans hg hfr hgrow (n := m) (by omega)
    obtain ⟨p, h'', used', hsearch, hp, hserved⟩ :=
      search_served ans hgood hlim' hk hfit' (n := m) (by omega)
    refine ⟨p, h'', ans, used', [⟨a, (grown k).toNat * HEADER⟩], ?_, ⟨hserved.good, hserved.limit, ?_, ?_⟩, .inr ⟨rfl, by simp [hp], rfl⟩⟩
    · rw [hmore]
      exact (if_neg (hgood.freep_ne_zero hbase)).trans hsearch
    · exact .inr (hserved.out.resolve_left fun h => hp h.1)
    · exact hserved.core.trans hcore

-- The first call links base to itself.
theorem good_init (h : Heap) (hcore : h.core = []) :
    Good base (((h.setFreep base).setPtr base base).setSize base 0) [] [] := by
  refine ⟨?_, by simp, by simp, by simp, .nil, by simp, ?_⟩
  · exact path_cons_cons.mpr ⟨by simp, path_singleton base⟩
  · simp only [core_setSize, core_setPtr, core_setFreep, hcore]
    exact .nil

def WellFormed (base : Nat) (s : State) : Prop := ∃ free, Good base s.heap free s.used

structure Inv (base : Nat) (s : State) : Prop where
  limit : total s.heap.core < LIMIT
  shape : (s.heap.freep = 0 ∧ s.heap.core = [] ∧ s.used = []) ∨ WellFormed base s

def request (nbytes : UInt32) : Nat := HEADER * max (units nbytes) 4096

def Allowed (base : Nat) (s : State) : Call → Prop
  | .malloc nbytes ans => request nbytes < 2 ^ 31 ∧ ans ≠ [] ∧ ∀ a, ans.head? = some (some a) → Fresh base s.heap a
  | .free ap => ∃ e ∈ s.used, e.start + HEADER = ap

def Bounded (s : State) : Call → Prop
  | .malloc nbytes ans => ∀ a, ans.head? = some (some a) → total s.heap.core + request nbytes < LIMIT
  | .free _ => True

def Returns (base : Nat) (s : State) (c : Call) (p : Nat) (s' : State) : Prop :=
  ∃ N, ∀ n ≥ N, perform base n s c = some (p, s')

def Stores (s : State) (hdr : Nat → Header) : Prop :=
  ∀ a, hdr a ≠ s.heap.hdr a → ∃ e ∈ s.used, e.start < a ∧ a < e.stop

inductive Reached (base : Nat) (P : State → Call → Prop) : State → Prop where
  | init {h : Heap} (hfreep : h.freep = 0) (hcore : h.core = []) : Reached base P ⟨h, []⟩
  | call {s s' : State} {c : Call} {p : Nat} (hs : Reached base P s) (hc : P s c) (h : Returns base s c p s') :
    Reached base P s'
  | store {s : State} {hdr : Nat → Header} (hs : Reached base P s) (h : Stores s hdr) :
    Reached base P { s with heap := { s.heap with hdr := hdr } }

def Result (s : State) (c : Call) (p : Nat) (s' : State) : Prop :=
  match c with
  | .malloc nbytes _ => (p = 0 ∧ s'.used = s.used) ∨
    ∃ e, s'.used = e :: s.used ∧ p = e.start + HEADER ∧ nbytes.toNat ≤ e.len - HEADER
  | .free ap => ∃ e, s.used.Perm (e :: s'.used) ∧ e.start + HEADER = ap

theorem units_toNat (nbytes : UInt32) : (units nbytes).toUInt32.toNat = units nbytes ∧ 0 < (units nbytes).toUInt32 ∧
      HEADER * (grown (units nbytes).toUInt32).toNat = request nbytes := by
  have hlt : units nbytes < 2 ^ 29 := by
    have := nbytes.toNat_lt
    simp only [units, HEADER]
    omega
  have hto : (units nbytes).toUInt32.toNat = units nbytes := by
    rw [Nat.toUInt32, UInt32.toNat_ofNat']
    exact Nat.mod_eq_of_lt (by omega)
  have hpos : 0 < units nbytes := by simp [units]
  have h4096 : (4096 : UInt32).toNat = 4096 := rfl
  refine ⟨hto, UInt32.lt_iff_toNat_lt.mpr (by rw [hto]; exact hpos), ?_⟩
  unfold grown request
  split
  · rename_i hk
    have := UInt32.lt_iff_toNat_lt.mp hk
    rw [hto] at this
    rw [h4096, max_eq_right (by omega)]
  · rename_i hk
    have := UInt32.le_iff_toNat_le.mp (UInt32.not_lt.mp hk)
    rw [hto] at this
    rw [hto, max_eq_left (by omega)]

theorem malloc_served (hbase : 0 < base) (hs : Inv base s) (nbytes : UInt32) (ans : Answers)
    (hfresh : ∀ a, r = some a → Fresh base s.heap a ∧ total s.heap.core + request nbytes < LIMIT) :
    ∃ N p h' ans' used' new, (∀ n ≥ N, malloc base n s.heap nbytes (r :: ans) = some (p, h', ans')) ∧
      Served base s.used (units nbytes).toUInt32 p h' used' new s.heap.core ∧
      ((ans' = r :: ans ∧ p ≠ 0 ∧ new = []) ∨
        (ans' = ans ∧ (p = 0 ↔ r = none) ∧ new = r.toList.map fun a => ⟨a, request nbytes⟩)) := by
  obtain ⟨-, hpos, hgrown⟩ := units_toNat nbytes
  obtain ⟨h, hh⟩ : ∃ h, h = if s.heap.freep = 0 then ((s.heap.setFreep base).setPtr base base).setSize base 0 else s.heap :=
    ⟨_, rfl⟩
  have hgood : ∃ free, Good base h free s.used := by
    rcases hs.shape with ⟨hfreep, hcore, hused⟩ | ⟨free, hg⟩
    · rw [hh, if_pos hfreep, hused]
      exact ⟨[], good_init s.heap hcore⟩
    · rw [hh, if_neg (hg.freep_ne_zero hbase)]
      exact ⟨free, hg⟩
  have hcore : h.core = s.heap.core := by
    rw [hh]
    split <;> rfl
  obtain ⟨free, hg⟩ := hgood
  have hfr : ∀ a, r = some a → Fresh base h a ∧
      total h.core + HEADER * (grown (units nbytes).toUInt32).toNat < LIMIT := by
    rintro a rfl
    obtain ⟨hfa, hb⟩ := hfresh a rfl
    rw [hcore, hgrown]
    exact ⟨⟨hfa.1, by rw [hcore]; exact hfa.2⟩, hb⟩
  obtain ⟨p, h', ans', used', new, hsearch, hserved, hnew⟩ :=
    search_total ans hbase hg (by rw [hcore]; exact hs.limit) hpos hfr (n := 2 * free.length + 4) (Nat.le_refl _)
  rw [hcore] at hserved
  rw [Nat.mul_comm, hgrown] at hnew
  have hmalloc : malloc base (2 * free.length + 4) s.heap nbytes (r :: ans) = some (p, h', ans') := by
    rw [malloc, ← hh]
    exact hsearch
  exact ⟨2 * free.length + 4, p, h', ans', used', new, fun n hn => search_mono hmalloc hn, hserved, hnew⟩

theorem malloc_returns (hbase : 0 < base) (hs : Inv base s) {nbytes : UInt32} {ans : Answers}
    (hc : Allowed base s (.malloc nbytes ans)) (hb : Bounded s (.malloc nbytes ans)) :
    ∃ p s', Returns base s (.malloc nbytes ans) p s' ∧ WellFormed base s' ∧ Result s (.malloc nbytes ans) p s' ∧
      total s'.heap.core < LIMIT := by
  obtain ⟨-, hne, hfresh⟩ := hc
  obtain ⟨r, ans, rfl⟩ := exists_cons_of_ne_nil hne
  obtain ⟨N, p, h', ans', used', new, hmalloc, hserved, -⟩ := malloc_served hbase hs nbytes (r := r) ans
    (by rintro a rfl; exact ⟨hfresh a rfl, hb a rfl⟩)
  obtain ⟨hgood, hlim, hout, -⟩ := hserved
  refine ⟨p, ⟨h', used'⟩, ⟨N, fun n hn => ?_⟩, hgood, ?_, hlim⟩
  · simp only [perform, hmalloc n hn]
    rcases hout with ⟨rfl, rfl, -⟩ | ⟨e, rfl, rfl, hlen⟩
    · rfl
    -- The block is read off its header.
    obtain ⟨free', hg'⟩ := hgood
    have hheaded := hg'.headed e (by simp)
    have hp : e.start + HEADER ≠ 0 := by simp [HEADER]
    have hblock : (⟨e.start, HEADER * (h'.size e.start).toNat⟩ : Extent) = e := by
      rw [← hheaded]
    change (if e.start + HEADER = 0 then some (0, State.mk h' s.used) else some (e.start + HEADER, State.mk h'
      (⟨e.start + HEADER - HEADER, HEADER * (h'.size (e.start + HEADER - HEADER)).toNat⟩ :: s.used))) = _
    rw [if_neg hp, Nat.add_sub_cancel, hblock]
  · rcases hout with ⟨hp, hused, -⟩ | ⟨e, hused, hp, hlen⟩
    · exact .inl ⟨hp, hused⟩
    · refine .inr ⟨e, hused, hp, ?_⟩
      rw [hlen, (units_toNat nbytes).1]
      simp only [units, HEADER]
      omega

theorem Good.perm {used' : List Extent} (hg : Good base h free used) (hp : used.Perm used') :
    Good base h free used' := by
  have hb := hg.blocks.perm (hp.append_left free)
  exact ⟨hg.cycle, hg.freep, hb.base_size, hb.headed, hg.ascending, hb.above, hb.tiles⟩

theorem free_returns (hs : Inv base s) (hc : Allowed base s (.free ap)) :
    ∃ p s', Returns base s (.free ap) p s' ∧ WellFormed base s' ∧ Result s (.free ap) p s' ∧
      s'.heap.core = s.heap.core := by
  obtain ⟨e, he, hap⟩ := hc
  rcases hs.shape with ⟨-, -, hused⟩ | ⟨free, hg⟩
  · rw [hused] at he
    cases he
  obtain ⟨f, l, r, -, hf, hlist, herase⟩ := exists_of_eraseP (p := fun e => decide (e.start + HEADER = ap)) he (by simpa using hap)
  simp only [decide_eq_true_eq] at hf
  have hperm : s.used.Perm (f :: (l ++ r)) := by
    rw [hlist]
    exact perm_middle
  obtain ⟨h', free', hfree, hgood, hcore, -⟩ :=
    free_good (hg.perm hperm) hs.limit (n := free.length + 1) (Nat.lt_succ_self _)
  rw [hf] at hfree
  refine ⟨0, ⟨h', l ++ r⟩, ⟨free.length + 1, fun n hn => perform_mono ?_ hn⟩, ⟨free', hgood⟩, ⟨f, hperm, hf⟩, hcore⟩
  simp only [perform, hfree, herase]
  rfl

theorem Returns.unique {s'' : State} {q : Nat} (h : Returns base s c p s')
    (h' : Returns base s c q s'') : p = q ∧ s' = s'' := by
  obtain ⟨N, hN⟩ := h
  obtain ⟨M, hM⟩ := h'
  have heq := (hN (max N M) (le_max_left _ _)).symm.trans (hM (max N M) (le_max_right _ _))
  simpa using heq

theorem call_returns (hbase : 0 < base) (hs : Inv base s) (hc : Allowed base s c)
    (hb : Bounded s c) : ∃ p s', Returns base s c p s' ∧ WellFormed base s' ∧ Result s c p s' ∧
      total s'.heap.core < LIMIT := by
  cases c with
  | malloc nbytes ans => exact malloc_returns hbase hs hc hb
  | free ap =>
    obtain ⟨p, s', hreturns, hwell, hresult, hcore⟩ := free_returns hs hc
    exact ⟨p, s', hreturns, hwell, hresult, by rw [hcore]; exact hs.limit⟩

-- Stores to the blocks in use do not reach the headers.
theorem Good.store (hg : Good base h free used)
    (hstore : ∀ a, hdr a ≠ h.hdr a → ∃ e ∈ used, e.start < a ∧ a < e.stop) :
    Good base { h with hdr := hdr } free used := by
  have hbase : hdr base = h.hdr base := by
    by_contra hne
    obtain ⟨e, he, hlt, -⟩ := hstore base hne
    have := hg.above e (by simp [he])
    omega
  have hhdr : ∀ f ∈ free ++ used, hdr f.start = h.hdr f.start := by
    intro f hf
    by_contra hne
    obtain ⟨e, he, hlt, hgt⟩ := hstore f.start hne
    have he' : e ∈ free ++ used := by simp [he]
    have hef : e ≠ f := by
      rintro rfl
      omega
    have hpos := hg.tiles.pos f hf
    have hapart := hg.tiles.apart_of_ne he' hf hef
    simp only [Apart, stop] at *
    omega
  have hnode : ∀ p ∈ base :: free.map start, hdr p = h.hdr p := by
    intro p hp
    rcases mem_cons.mp hp with rfl | hp
    · exact hbase
    · obtain ⟨f, hf, rfl⟩ := mem_map.mp hp
      exact hhdr f (by simp [hf])
  refine ⟨?_, hg.freep, ?_, fun f hf => ?_, hg.ascending, hg.above, hg.tiles⟩
  · apply hg.cycle.congr
    intro p hp
    simp only [Heap.next, hnode p hp]
  · rw [← hg.base_size]
    simp only [Heap.size, hbase]
  · have hheaded := hg.headed f hf
    rwa [Headed, Heap.size, ← hhdr f hf] at hheaded

theorem Inv.store (hs : Inv base s) (h : Stores s hdr) :
    Inv base ⟨{ s.heap with hdr := hdr }, s.used⟩ := by
  refine ⟨hs.limit, ?_⟩
  rcases hs.shape with hinit | ⟨free, hg⟩
  · exact .inl hinit
  · exact .inr ⟨free, hg.store h⟩

theorem inv_of_reached (hbase : 0 < base)
    (hs : Reached base (fun s c => Allowed base s c ∧ Bounded s c) s) : Inv base s := by
  induction hs with
  | init hfreep hcore => exact ⟨by simp [hcore, LIMIT, HEADER], .inl ⟨hfreep, hcore, rfl⟩⟩
  | call _ hc h ih =>
    obtain ⟨p, s', hreturns, hwell, -, hlim⟩ := call_returns hbase ih hc.1 hc.2
    obtain ⟨-, rfl⟩ := h.unique hreturns
    exact ⟨hlim, .inr hwell⟩
  | store _ h ih => exact ih.store h

theorem calls_keep_heap (base : Nat) (hbase : 0 < base) (s : State) (c : Call)
    (hs : Reached base (fun s c => Allowed base s c ∧ Bounded s c) s) (hc : Allowed base s c)
    (hb : Bounded s c) : ∃ p s', Returns base s c p s' ∧ WellFormed base s' ∧ Result s c p s' := by
  obtain ⟨p, s', hreturns, hwell, hresult, -⟩ := call_returns hbase (inv_of_reached hbase hs) hc hb
  exact ⟨p, s', hreturns, hwell, hresult⟩

-- The heap before the first call, in memory that is all zero.
def empty : State := ⟨⟨fun _ => ⟨0, 0⟩, 0, []⟩, []⟩

def allowed (base : Nat) (s : State) : Call → Bool
  | .malloc nbytes ans => request nbytes < 2 ^ 31 &&
    match ans with
    | [] => false
    | none :: _ => true
    | some a :: _ => base + HEADER ≤ a && s.heap.core.all fun e => e.stop ≤ a
  | .free ap => s.used.any fun e => e.start + HEADER = ap

theorem allowed_sound (h : allowed base s c = true) : Allowed base s c := by
  cases c with
  | malloc nbytes ans =>
    simp only [allowed, Bool.and_eq_true, decide_eq_true_eq] at h
    refine ⟨h.1, ?_, fun a ha => ?_⟩
    · rintro rfl
      simp at h
    obtain ⟨ans, rfl⟩ : ∃ rest, ans = some a :: rest := by
      cases ans with
      | nil => cases ha
      | cons r rest => exact ⟨rest, by simpa using ha⟩
    simpa [Fresh] using h.2
  | free ap => simpa [allowed, Allowed] using h

-- The calls one after the other, as far as each one passes a test.
def runCalls (base n : Nat) (ok : State → Call → Bool) : State → List Call → Option State
  | s, [] => some s
  | s, c :: cs =>
    if ok s c then do
      let (_, s) ← perform base n s c
      runCalls base n ok s cs
    else none

theorem runCalls_reached {P : State → Call → Prop} {ok : State → Call → Bool}
    (hok : ∀ s c, ok s c = true → P s c) {cs : List Call} (hs : Reached base P s)
    (h : runCalls base n ok s cs = some s') (hne : cs ≠ []) :
    ∃ s0 c p, Reached base P s0 ∧ P s0 c ∧ Returns base s0 c p s' := by
  induction cs generalizing s with
  | nil => exact absurd rfl hne
  | cons c cs ih =>
    rw [runCalls] at h
    split at h
    · rename_i hc
      cases hperform : perform base n s c with
      | none =>
        rw [hperform] at h
        cases h
      | some out =>
        obtain ⟨p, s1⟩ := out
        have hreturns : Returns base s c p s1 := ⟨n, fun m hm => perform_mono hperform hm⟩
        rw [hperform] at h
        cases cs with
        | nil =>
          cases h
          exact ⟨s, c, p, hs, hok s c hc, hreturns⟩
        | cons c' cs => exact ih (hs.call (hok s c hc) hreturns) h (cons_ne_nil _ _)
    · cases h

theorem runCalls_any {f : State → Prop} [DecidablePred f] {ok : State → Call → Bool}
    {cs : List Call} (h : (runCalls base n ok s cs).any (fun s => decide (f s)) = true) :
    ∃ s', runCalls base n ok s cs = some s' ∧ f s' := by
  obtain ⟨s', hrun, hf⟩ := (Option.any_eq_true _ _).mp h
  exact ⟨s', hrun, of_decide_eq_true hf⟩

def bounded (s : State) : Call → Bool
  | .malloc nbytes _ => total s.heap.core + request nbytes < LIMIT
  | .free _ => true

theorem bounded_sound (h : bounded s c = true) : Bounded s c := by
  cases c with
  | malloc nbytes ans => exact fun _ _ => of_decide_eq_true h
  | free ap => trivial

-- Two blocks are freed and merge with the rest of what sbrk has added.
theorem calls_keep_heap_merged : ∃ s, Reached 16 (fun s c => Allowed 16 s c ∧ Bounded s c) s ∧ s.used = [] ∧
    s.heap.next 16 = 4096 ∧ s.heap.next 4096 = 16 ∧
      ∃ p s', Returns 16 s (.malloc 200 [none]) p s' ∧ WellFormed 16 s' ∧ Result s (.malloc 200 [none]) p s' := by
  obtain ⟨s, hrun, hused, hnext⟩ : ∃ s, runCalls 16 5 (fun s c => allowed 16 s c && bounded s c) empty
      [.malloc 100 [some 4096], .malloc 100 [none], .free 69520, .free 69392] = some s ∧ s.used = [] ∧
      s.heap.next 16 = 4096 ∧ s.heap.next 4096 = 16 := runCalls_any (by decide +kernel)
  obtain ⟨s0, c, p, hs0, hc, hreturns⟩ := runCalls_reached (P := fun s c => Allowed 16 s c ∧ Bounded s c)
    (fun s c h => (Bool.and_eq_true_iff.mp h).imp allowed_sound bounded_sound) (.init rfl rfl) hrun (by decide)
  have hs := hs0.call hc hreturns
  exact ⟨s, hs, hused, hnext.1, hnext.2, calls_keep_heap 16 (by decide) s _ hs
    ⟨by decide, by decide, fun a ha => by simp at ha⟩ fun a ha => by simp at ha⟩

-- Without a bound sizes wrap: 33 blocks of 2^27 - 1 units next to each other, all freed.
def region (i : Nat) : Nat := 32 + i * (HEADER * (2 ^ 27 - 1))

def wrapping : List Call :=
  (List.range 33).map (fun i => .malloc (2 ^ 31 - 32) [some (region i)]) ++
    (List.range 33).map fun i => .free (region i + HEADER)

-- One block is free, but its header counts 2^32 units too few.
theorem runCalls_wrapping : ∃ s, runCalls 16 5 (allowed 16) empty wrapping = some s ∧ s.heap.next 16 = 32 ∧
    s.heap.next 32 = 16 ∧ (s.heap.size 32).toNat = 2 ^ 27 - 33 ∧ s.used = [] ∧
    total s.heap.core = HEADER * (33 * (2 ^ 27 - 1)) :=
  runCalls_any (by decide +kernel)

theorem not_calls_keep_heap : ¬ ∀ (base : Nat) (_ : 0 < base) (s : State) (c : Call), Reached base (Allowed base) s →
    Allowed base s c → ∃ p s', Returns base s c p s' ∧ WellFormed base s' ∧ Result s c p s' := by
  intro hall
  obtain ⟨s, hrun, hbase, hfirst, hsize, hused, htotal⟩ := runCalls_wrapping
  obtain ⟨s0, c, p, hs0, hc, hreturns⟩ := runCalls_reached (fun _ _ => allowed_sound) (.init rfl rfl) hrun
    (by decide)
  obtain ⟨q, s', hreturns', ⟨free, hg⟩, -⟩ := hall 16 (by decide) s0 c hs0 hc
  obtain ⟨-, rfl⟩ := hreturns'.unique hreturns
  have hsum := hg.tiles.total_eq
  have hcycle := hg.cycle
  rw [hused, append_nil, htotal] at hsum
  -- The cycle leads from base to the block and back, so there is no other one.
  cases free with
  | nil =>
    have hnext : s'.heap.next 16 = 16 := (path_cons_cons.mp hcycle).1
    omega
  | cons e free =>
    obtain ⟨he, hrest⟩ := path_cons_cons.mp hcycle
    have hstart : e.start = 32 := he.symm.trans hbase
    have hheaded := hg.headed e (by simp)
    rw [Headed, hstart, hsize] at hheaded
    cases free with
    | nil =>
      simp only [total_cons, total_nil, HEADER] at hsum hheaded
      omega
    | cons f free =>
      have hf : s'.heap.next e.start = f.start := (path_cons_cons.mp hrest).1
      have habove := hg.above f (by simp)
      rw [hstart, hfirst] at hf
      omega

end Umalloc
