import Xv6.Umalloc

-- The shape of the heap, and what free and malloc do to it.

namespace Umalloc

open Links Extent List

section Updates

variable (h : Heap) (p q a : Nat) (n : UInt32)

@[simp] theorem next_setPtr : (h.setPtr p q).next a = if a = p then q else h.next a := by
  simp only [Heap.next, Heap.setPtr, Function.update_apply]
  split <;> rfl

@[simp] theorem size_setPtr : (h.setPtr p q).size = h.size := by
  funext a
  simp only [Heap.size, Heap.setPtr, Function.update_apply]
  split
  · rename_i h
    rw [h]
  · rfl

@[simp] theorem next_setSize : (h.setSize p n).next = h.next := by
  funext a
  simp only [Heap.next, Heap.setSize, Function.update_apply]
  split
  · rename_i h
    rw [h]
  · rfl

@[simp] theorem size_setSize : (h.setSize p n).size a = if a = p then n else h.size a := by
  simp only [Heap.size, Heap.setSize, Function.update_apply]
  split <;> rfl

@[simp] theorem next_setFreep : (h.setFreep p).next = h.next := rfl

@[simp] theorem size_setFreep : (h.setFreep p).size = h.size := rfl

@[simp] theorem freep_setPtr : (h.setPtr p q).freep = h.freep := rfl

@[simp] theorem freep_setSize : (h.setSize p n).freep = h.freep := rfl

@[simp] theorem freep_setFreep : (h.setFreep p).freep = p := rfl

@[simp] theorem core_setPtr : (h.setPtr p q).core = h.core := rfl

@[simp] theorem core_setSize : (h.setSize p n).core = h.core := rfl

@[simp] theorem core_setFreep : (h.setFreep p).core = h.core := rfl

end Updates

-- An extent that starts with a header of its length.
def Headed (h : Heap) (e : Extent) : Prop := e.len = HEADER * (h.size e.start).toNat

-- The free list is a cycle through base, in the order of addresses, of blocks that do not touch;
-- with the blocks in use they tile what sbrk has returned.
structure Good (base : Nat) (h : Heap) (free used : List Extent) : Prop where
  cycle : Path h.next (base :: free.map start ++ [base])
  freep : h.freep ∈ base :: free.map start
  base_size : h.size base = 0
  headed : ∀ e ∈ free ++ used, Headed h e
  ascending : free.Pairwise fun e f => e.stop < f.start
  above : ∀ e ∈ free ++ used, base < e.start
  tiles : Tiles (free ++ used) h.core

-- Memory that headers can count.
def LIMIT : Nat := HEADER * 2 ^ 32

variable {base : Nat} {h : Heap} {free used l r : List Extent} {e c d : Extent} {p q : Nat}

theorem cut_of_mem (hp : p ∈ base :: free.map start) : ∃ A l r, free = l ++ r ∧ base :: l.map start = A ++ [p] := by
  rcases mem_cons.mp hp with rfl | hp
  · exact ⟨[], [], free, rfl, rfl⟩
  · obtain ⟨e, he, rfl⟩ := mem_map.mp hp
    obtain ⟨l, r, rfl⟩ := append_of_mem he
    exact ⟨base :: l.map start, l ++ [e], r, by simp, by simp⟩

theorem cut_at (hasc : free.Pairwise fun e f => e.start < f.start) (x : Nat) (hx : ∀ f ∈ free, f.start ≠ x) :
    ∃ l r, free = l ++ r ∧ (∀ f ∈ l, f.start < x) ∧ ∀ f ∈ r, x < f.start := by
  induction free with
  | nil => exact ⟨[], [], rfl, by simp, by simp⟩
  | cons f free ih =>
    obtain ⟨hf, hrest⟩ := pairwise_cons.mp hasc
    rcases Nat.lt_or_gt_of_ne (hx f mem_cons_self) with hlt | hgt
    · obtain ⟨l, r, rfl, hl, hr⟩ := ih hrest fun g hg => hx g (mem_cons_of_mem f hg)
      refine ⟨f :: l, r, rfl, fun g hg => ?_, hr⟩
      rcases mem_cons.mp hg with rfl | hg
      · exact hlt
      · exact hl g hg
    · refine ⟨[], f :: free, rfl, by simp, fun g hg => ?_⟩
      rcases mem_cons.mp hg with rfl | hg
      · exact hgt
      · exact hgt.trans (hf g hg)

theorem starts_ascending (hasc : free.Pairwise fun e f => e.stop < f.start) :
    free.Pairwise fun e f => e.start < f.start :=
  hasc.imp fun {e f} hef => by
    simp only [stop] at hef
    omega

theorem nodes_nodup (hasc : free.Pairwise fun e f => e.stop < f.start) (habove : ∀ f ∈ free, base < f.start) :
    (base :: free.map start).Nodup := by
  refine nodup_cons.mpr ⟨fun hmem => ?_, ?_⟩
  · obtain ⟨e, he, heq⟩ := mem_map.mp hmem
    have := habove e he
    omega
  · refine pairwise_map.mpr ((starts_ascending hasc).imp fun {e f} hef => ?_)
    omega

theorem Good.nodup (hg : Good base h free used) : (base :: free.map start).Nodup :=
  nodes_nodup hg.ascending fun e he => hg.above e (by simp [he])

variable {A : List Nat}

section

variable (hA : base :: l.map start = A ++ [p])

include hA

theorem mem_nodes : p ∈ base :: (l ++ r).map start := by
  rw [map_append, ← cons_append, hA]
  simp

theorem node_cases : p = base ∨ ∃ f ∈ l, p = f.start := by
  have hp : p ∈ base :: l.map start := by simp [hA]
  rcases mem_cons.mp hp with hp | hp
  · exact .inl hp
  · obtain ⟨f, hf, heq⟩ := mem_map.mp hp
    exact .inr ⟨f, hf, heq.symm⟩

theorem path_cut {next : Nat → Nat} :
    Path next (base :: (l ++ r).map start ++ [base]) ↔
      Path next (A ++ [p]) ∧ Path next (p :: r.map start ++ [base]) := by
  have hlist : base :: (l ++ r).map start ++ [base] = A ++ p :: (r.map start ++ [base]) := by
    rw [map_append, ← cons_append, hA]
    simp
  rw [hlist]
  exact path_split

end

theorem Good.cycle_cut (hg : Good base h (l ++ r) used) (hA : base :: l.map start = A ++ [p]) :
    Path h.next (A ++ [p]) ∧ Path h.next (p :: r.map start ++ [base]) :=
  (path_cut hA).mp hg.cycle

theorem path_setPtr (hpath : Path h.next (A ++ [p])) (hq : q ∉ A) (a : Nat) : Path (h.setPtr q a).next (A ++ [p]) := by
  apply hpath.congr
  intro b hb
  have hbq : b ≠ q := fun heq => hq (heq ▸ hb)
  simp [hbq]

theorem path_setPtr_head (hpath : Path h.next (q :: r.map start ++ [base])) (hr : ∀ f ∈ r, f.start ≠ p) :
    Path (h.setPtr p (h.next q)).next (p :: r.map start ++ [base]) := by
  apply Path.replace_head hpath
  · simp
  · intro a ha
    obtain ⟨f, hf, rfl⟩ := mem_map.mp ha
    simp [hr f hf]

theorem Good.nodup_cut (hg : Good base h (l ++ r) used) (hA : base :: l.map start = A ++ [p]) :
    p ∉ A ∧ ∀ f ∈ r, f.start ≠ p ∧ f.start ∉ A := by
  have hnodup := hg.nodup
  rw [map_append, ← cons_append, hA, append_assoc] at hnodup
  have hdisj := disjoint_of_nodup_append hnodup
  have hrest := (nodup_cons.mp (nodup_append.mp hnodup).2.1).1
  refine ⟨fun hp => hdisj hp (by simp), fun f hf => ⟨fun heq => hrest ?_, fun hA' => ?_⟩⟩
  · rw [← heq]
    exact mem_map_of_mem hf
  · exact hdisj hA' (by simp only [singleton_append, mem_cons]; exact .inr (mem_map_of_mem hf))

theorem Headed.stop_eq (he : Headed h e) : h.stop e.start = e.stop := by
  rw [Headed] at he
  rw [Heap.stop, Extent.stop, he]

theorem size_add (he : Headed h e) (hc : Headed h c) (hlt : e.len + c.len < LIMIT) :
    HEADER * (h.size e.start + h.size c.start).toNat = e.len + c.len := by
  simp only [Headed, LIMIT, HEADER] at *
  rw [UInt32.toNat_add, Nat.mod_eq_of_lt (by omega)]
  omega

-- What Good says of the blocks, whichever of them are free.
structure Blocks (base : Nat) (h : Heap) (es : List Extent) : Prop where
  base_size : h.size base = 0
  headed : ∀ e ∈ es, Headed h e
  above : ∀ e ∈ es, base < e.start
  tiles : Tiles es h.core

variable {es fs : List Extent} {k : UInt32}

theorem Good.blocks (hg : Good base h free used) : Blocks base h (free ++ used) :=
  ⟨hg.base_size, hg.headed, hg.above, hg.tiles⟩

theorem Blocks.perm (hb : Blocks base h es) (hp : es.Perm fs) : Blocks base h fs :=
  ⟨hb.base_size, fun e he => hb.headed e (hp.mem_iff.mpr he), fun e he => hb.above e (hp.mem_iff.mpr he),
    hb.tiles.perm hp⟩

theorem Blocks.good (hb : Blocks base h es) (hp : (free ++ used).Perm es)
    (hcycle : Path h.next (base :: free.map start ++ [base])) (hq : q ∈ base :: free.map start)
    (hasc : free.Pairwise fun e f => e.stop < f.start) : Good base (h.setFreep q) free used :=
  have hb := hb.perm hp.symm
  ⟨hcycle, hq, hb.base_size, hb.headed, hasc, hb.above, hb.tiles⟩

theorem Blocks.setPtr (hb : Blocks base h es) (p q : Nat) : Blocks base (h.setPtr p q) es := by
  refine ⟨?_, fun e he => ?_, hb.above, hb.tiles⟩
  · rw [size_setPtr]
    exact hb.base_size
  · rw [Headed, size_setPtr]
    exact hb.headed e he

theorem Blocks.join (hb : Blocks base h (d :: c :: es)) (hjoin : d.stop = c.start) (hlim : total h.core < LIMIT) :
    Blocks base (h.setSize d.start (h.size d.start + h.size c.start)) (d.join c :: es) := by
  have hbd := hb.above d mem_cons_self
  have hmem : ∀ f ∈ es, f ∈ c :: es := fun f hf => mem_cons_of_mem c hf
  refine ⟨?_, fun f hf => ?_, fun f hf => ?_, hb.tiles.join hjoin⟩
  · rw [size_setSize, if_neg hbd.ne]
    exact hb.base_size
  · rcases mem_cons.mp hf with rfl | hf
    · have hsum := size_add (hb.headed d (by simp)) (hb.headed c (by simp))
        (Nat.lt_of_le_of_lt hb.tiles.len_add_le hlim)
      simpa [Headed] using hsum.symm
    · rw [Headed, size_setSize, if_neg (hb.tiles.start_ne (hmem f hf))]
      exact hb.headed f (by simp [hf])
  · rcases mem_cons.mp hf with rfl | hf
    · exact hbd
    · exact hb.above f (by simp [hf])

theorem Blocks.cut (hb : Blocks base h (c :: es)) (hk : 0 < k.toNat) (hlt : k.toNat < (h.size c.start).toNat) :
    ∃ d e, d.start = c.start ∧ d.stop ≤ c.stop ∧ e.len = HEADER * k.toNat ∧
      (h.setSize c.start (h.size c.start - k)).stop c.start = e.start ∧
      Blocks base ((h.setSize c.start (h.size c.start - k)).setSize e.start k) (d :: e :: es) := by
  have hsub : (h.size c.start - k).toNat = (h.size c.start).toNat - k.toNat :=
    UInt32.toNat_sub_of_le _ _ (UInt32.le_iff_toNat_le.mpr hlt.le)
  have hc := hb.headed c mem_cons_self
  have hbc := hb.above c mem_cons_self
  obtain ⟨d, hd⟩ : ∃ d, d = Extent.mk c.start (HEADER * ((h.size c.start).toNat - k.toNat)) := ⟨_, rfl⟩
  obtain ⟨e, he⟩ : ∃ e, e = Extent.mk d.stop (HEADER * k.toNat) := ⟨_, rfl⟩
  have hstart : d.start = c.start := by rw [hd]
  have hjoin : d.join e = c := by
    rw [Headed] at hc
    cases c
    simp only [hd, he, Extent.join, Extent.mk.injEq, true_and] at *
    simp only [HEADER] at *
    omega
  have htiles : Tiles (d :: e :: es) h.core := by
    apply Tiles.cut
    · rw [hjoin]
      exact hb.tiles
    · rw [he]
    · simp only [hd, HEADER]
      omega
    · simp only [he, HEADER]
      omega
  have hne : e.start ≠ c.start := by
    rw [← hstart]
    exact htiles.start_ne (by simp)
  have hbe : base < e.start := by
    simp only [he, Extent.stop]
    omega
  refine ⟨d, e, hstart, ?_, by rw [he], ?_, ?_, fun f hf => ?_, fun f hf => ?_, htiles⟩
  · have := congrArg Extent.stop hjoin
    rw [join_stop (by rw [he])] at this
    simp only [Extent.stop, he] at *
    omega
  · simp [Heap.stop, hsub, hd, he, Extent.stop]
  · simp [hb.base_size, hbc.ne, hbe.ne]
  · simp only [mem_cons] at hf
    rcases hf with rfl | rfl | hf
    · simp [Headed, Ne.symm hne, hsub, hd]
    · simp [Headed, he]
    · have hfe := (htiles.perm (.swap e d _)).start_ne (mem_cons_of_mem d hf)
      have hfc := hb.tiles.start_ne hf
      simpa [Headed, hfe, hfc] using hb.headed f (by simp [hf])
  · simp only [mem_cons] at hf
    rcases hf with rfl | rfl | hf
    · rw [hstart]
      exact hbc
    · exact hbe
    · exact hb.above f (by simp [hf])

theorem perm_mid : (l ++ c :: r ++ used).Perm (c :: (l ++ r ++ used)) := by
  rw [append_assoc, append_assoc, cons_append]
  exact perm_middle

-- The list with the freed block `c` in its place, before the node `p` ahead of it points to it.
structure Mid (base : Nat) (h : Heap) (p : Nat) (l : List Extent) (c : Extent) (r used : List Extent) : Prop where
  nodes : ∃ A, base :: l.map start = A ++ [p] ∧ Path h.next (A ++ [p])
  after : Path h.next (c.start :: r.map start ++ [base])
  base_size : h.size base = 0
  headed : ∀ f ∈ c :: (l ++ r ++ used), Headed h f
  low : l.Pairwise fun e f => e.stop < f.start
  high : (c :: r).Pairwise fun e f => e.stop < f.start
  between : ∀ f ∈ l, f.stop ≤ c.start
  above : ∀ f ∈ c :: (l ++ r ++ used), base < f.start
  tiles : Tiles (c :: (l ++ r ++ used)) h.core

theorem Blocks.mid (hb : Blocks base h (c :: (l ++ r ++ used))) (hA : base :: l.map start = A ++ [p])
    (hbefore : Path h.next (A ++ [p])) (hafter : Path h.next (c.start :: r.map start ++ [base]))
    (hlow : l.Pairwise fun e f => e.stop < f.start) (hhigh : (c :: r).Pairwise fun e f => e.stop < f.start)
    (hbetween : ∀ f ∈ l, f.stop ≤ c.start) : Mid base h p l c r used :=
  ⟨⟨A, hA, hbefore⟩, hafter, hb.base_size, hb.headed, hlow, hhigh, hbetween, hb.above, hb.tiles⟩

theorem joinUpper_mid (hg : Good base h (l ++ r) (e :: used)) (hA : base :: l.map start = A ++ [p])
    (hl : ∀ f ∈ l, f.start < e.start) (hr : ∀ f ∈ r, e.start < f.start) (hlim : total h.core < LIMIT) :
    ∃ c r', Mid base (joinUpper h p e.start) p l c r' used ∧ c.start = e.start ∧ e.stop ≤ c.stop ∧
      r'.length ≤ r.length := by
  obtain ⟨hbefore, hafter⟩ := hg.cycle_cut hA
  have hb : Blocks base h (e :: (l ++ r ++ used)) := hg.blocks.perm perm_middle
  have he := hb.headed e mem_cons_self
  have hbe := hb.above e mem_cons_self
  have hasc := pairwise_append.mp hg.ascending
  have hne : ∀ f ∈ l ++ r ++ used, f.start ≠ e.start := fun f hf => hb.tiles.start_ne hf
  have hAe : e.start ∉ A := by
    intro hmem
    have hnode : e.start ∈ base :: l.map start := by simp [hA, hmem]
    rcases mem_cons.mp hnode with heq | hmem
    · omega
    · obtain ⟨f, hf, heq⟩ := mem_map.mp hmem
      exact hne f (by simp [hf]) heq
  have hbetween : ∀ f ∈ l, f.stop ≤ e.start := by
    intro f hf
    have hapart := hb.tiles.apart_head (f := f) (by simp [hf])
    have := hl f hf
    simp only [Apart, stop] at *
    omega
  have hgap : ∀ f ∈ r, e.stop ≤ f.start := by
    intro f hf
    have hapart := hb.tiles.apart_head (f := f) (by simp [hf])
    have := hr f hf
    simp only [Apart, stop] at *
    omega
  by_cases hjoin : h.stop e.start = h.next p
  · -- The block above is free: it becomes part of this one.
    cases r with
    | nil =>
      have hnext : h.next p = base := (path_cons_cons.mp hafter).1
      rw [he.stop_eq, hnext] at hjoin
      simp only [stop] at hjoin
      omega
    | cons c r =>
      obtain ⟨hnext, hrest⟩ := path_cons_cons.mp hafter
      have hupper : joinUpper h p e.start =
          (h.setSize e.start (h.size e.start + h.size c.start)).setPtr e.start (h.next c.start) := by
        simp only [joinUpper, next_setSize, hnext]
        rw [if_pos (by rw [hjoin, hnext])]
      rw [he.stop_eq, hnext] at hjoin
      obtain ⟨hcr, hr'⟩ := pairwise_cons.mp hasc.2.1
      have hjoined := (hb.perm (.cons e perm_mid)).join hjoin hlim
      rw [hupper]
      refine ⟨e.join c, r, (hjoined.setPtr _ _).mid hA ?_ ?_ hasc.1 ?_ hbetween, rfl, ?_, by simp⟩
      · apply path_setPtr _ hAe
        rw [next_setSize]
        exact hbefore
      · rw [← next_setSize h e.start (h.size e.start + h.size c.start)] at hrest ⊢
        exact path_setPtr_head hrest fun f hf => hne f (by simp [hf])
      · refine pairwise_cons.mpr ⟨fun f hf => ?_, hr'⟩
        rw [join_stop hjoin]
        exact hcr f hf
      · rw [join_stop hjoin]
        simp only [stop] at *
        omega
  · have hupper : joinUpper h p e.start = h.setPtr e.start (h.next p) := by
      rw [joinUpper, if_neg hjoin]
    rw [hupper]
    refine ⟨e, r, (hb.setPtr _ _).mid hA (path_setPtr hbefore hAe _) ?_ hasc.1 ?_ hbetween, rfl, Nat.le_refl _,
      Nat.le_refl _⟩
    · exact path_setPtr_head hafter fun f hf => hne f (by simp [hf])
    · refine pairwise_cons.mpr ⟨fun f hf => ?_, hasc.2.1⟩
      -- The first block above does not touch; the others are above that one.
      cases r with
      | nil => cases hf
      | cons c r =>
        have hnext : h.next p = c.start := (path_cons_cons.mp hafter).1
        rw [he.stop_eq, hnext] at hjoin
        have hc := hgap c mem_cons_self
        rcases mem_cons.mp hf with rfl | hf
        · omega
        · have := (pairwise_cons.mp (starts_ascending hasc.2.1)).1 f hf
          omega

theorem nodes_concat (hA : base :: (l ++ [d]).map start = A ++ [p]) : A = base :: l.map start ∧ p = d.start := by
  have hlist : (base :: l.map start) ++ [d.start] = A ++ [p] := by simpa using hA
  obtain ⟨hinit, hlast⟩ := append_inj' hlist rfl
  exact ⟨hinit.symm, (List.cons.inj hlast).1.symm⟩

theorem joinLower_good (hm : Mid base h p l c r used) (hlim : total h.core < LIMIT) :
    ∃ free, Good base ((joinLower h p c.start).setFreep p) free used ∧ free.length ≤ l.length + r.length + 1 ∧
      ∃ f ∈ free, f.start ≤ c.start ∧ c.stop ≤ f.stop := by
  obtain ⟨A, hA, hbefore⟩ := hm.nodes
  have hb : Blocks base h (c :: (l ++ r ++ used)) := ⟨hm.base_size, hm.headed, hm.above, hm.tiles⟩
  have hbc := hm.above c mem_cons_self
  have hpc : p < c.start := by
    rcases node_cases hA with hp | ⟨f, hf, rfl⟩
    · omega
    · have hne : f.start ≠ c.start := hm.tiles.start_ne (by simp [hf])
      have := hm.between f hf
      simp only [stop] at *
      omega
  have hcr := pairwise_cons.mp hm.high
  have hpr : ∀ f ∈ r, f.start ≠ p := by
    intro f hf
    have := hcr.1 f hf
    simp only [stop] at *
    omega
  have hpA : p ∉ A := by
    have hnodup := nodes_nodup hm.low fun f hf => hm.above f (by simp [hf])
    rw [hA] at hnodup
    exact fun hp => disjoint_of_nodup_append hnodup hp (by simp)
  by_cases hjoin : h.stop p = c.start
  · -- The block below is free: this one becomes part of it.
    rcases eq_nil_or_concat l with rfl | ⟨l, d, rfl⟩
    · have hp : p = base := by
        have := congrArg List.getLast? hA
        simpa using this.symm
      subst hp
      simp only [Heap.stop, hm.base_size] at hjoin
      simp at hjoin
      omega
    rw [concat_eq_append] at *
    obtain ⟨-, hp⟩ := nodes_concat hA
    subst hp
    have hlower : joinLower h d.start c.start =
        (h.setSize d.start (h.size d.start + h.size c.start)).setPtr d.start (h.next c.start) := by
      rw [joinLower, if_pos hjoin]
      simp
    rw [(hm.headed d (by simp)).stop_eq] at hjoin
    have hpair : (c :: (l ++ [d] ++ r ++ used)).Perm (d :: c :: (l ++ r ++ used)) := by
      refine .trans (.cons c ?_) (.swap d c _)
      rw [append_assoc l, singleton_append]
      exact perm_mid
    have hjoined := ((hb.perm hpair).join hjoin hlim).setPtr d.start (h.next c.start)
    have hA' : base :: (l ++ [d.join c]).map start = A ++ [d.start] := by
      rw [← hA]
      simp
    rw [hlower]
    refine ⟨l ++ [d.join c] ++ r, hjoined.good ?_ ((path_cut hA').mpr ⟨?_, ?_⟩) (mem_nodes hA') ?_, by simp; omega,
      d.join c, by simp, ?_, ?_⟩
    · rw [append_assoc l, singleton_append]
      exact perm_mid
    · apply path_setPtr _ hpA
      rw [next_setSize]
      exact hbefore
    · have hafter := hm.after
      rw [← next_setSize h d.start (h.size d.start + h.size c.start)] at hafter ⊢
      exact path_setPtr_head hafter hpr
    · obtain ⟨hlow, -, hld⟩ := pairwise_append.mp hm.low
      rw [append_assoc, singleton_append]
      refine pairwise_append.mpr ⟨hlow, pairwise_cons.mpr ⟨fun f hf => ?_, hcr.2⟩, fun f hf g hg => ?_⟩
      · rw [join_stop hjoin]
        exact hcr.1 f hf
      have hfd : f.stop < d.start := hld f hf d (by simp)
      rcases mem_cons.mp hg with rfl | hg
      · exact hfd
      · have hcg := hcr.1 g hg
        simp only [stop] at *
        omega
    · exact hpc.le
    · rw [join_stop hjoin]
  · have hlower : joinLower h p c.start = h.setPtr p c.start := by
      rw [joinLower, if_neg hjoin]
    rw [hlower]
    refine ⟨l ++ c :: r, (hb.setPtr _ _).good perm_mid ((path_cut hA).mpr ⟨path_setPtr hbefore hpA _, ?_⟩)
      (mem_nodes hA) ?_, by simp; omega, c, by simp, Nat.le_refl _, Nat.le_refl _⟩
    · apply path_cons_cons.mpr
      refine ⟨by simp, path_setPtr (A := c.start :: r.map start) hm.after ?_ _⟩
      intro hmem
      rcases mem_cons.mp hmem with hp | hmem
      · omega
      · obtain ⟨f, hf, heq⟩ := mem_map.mp hmem
        exact hpr f hf heq
    · refine pairwise_append.mpr ⟨hm.low, hm.high, fun f hf g hg => ?_⟩
      -- The last block below does not touch; the others end before that one.
      have hfc : f.stop < c.start := by
        rcases eq_nil_or_concat l with rfl | ⟨l, d, rfl⟩
        · cases hf
        rw [concat_eq_append] at *
        obtain ⟨-, hp⟩ := nodes_concat hA
        subst hp
        have hd := hm.headed d (by simp)
        rw [hd.stop_eq] at hjoin
        have hdc := hm.between d (by simp)
        rcases mem_append.mp hf with hf | hf
        · have hfd := (pairwise_append.mp hm.low).2.2 f hf d (by simp)
          simp only [stop] at *
          omega
        · rw [mem_singleton] at hf
          subst hf
          omega
      rcases mem_cons.mp hg with rfl | hg
      · exact hfc
      · have := hcr.1 g hg
        simp only [stop] at *
        omega

theorem core_joinUpper (h : Heap) (p bp : Nat) : (joinUpper h p bp).core = h.core := by
  unfold joinUpper
  split <;> rfl

theorem core_joinLower (h : Heap) (p bp : Nat) : (joinLower h p bp).core = h.core := by
  unfold joinLower
  split <;> rfl

theorem start_le_last (hg : Good base h (l ++ r) used) (hA : base :: l.map start = A ++ [p])
    (he : e ∈ l) : e.start ≤ p := by
  rcases eq_nil_or_concat l with rfl | ⟨l, d, rfl⟩
  · cases he
  rw [concat_eq_append] at *
  obtain ⟨-, rfl⟩ := nodes_concat hA
  have hlow := (pairwise_append.mp (starts_ascending hg.ascending)).1
  rcases mem_append.mp he with he | he
  · exact ((pairwise_append.mp hlow).2.2 e he d (by simp)).le
  · rw [mem_singleton] at he
    rw [he]

-- The loop of free stops at the node before the block, and nowhere else.
theorem place_iff (hg : Good base h (l ++ r) used) (hA : base :: l.map start = A ++ [p]) {bp : Nat}
    (hbp : base < bp) : h.place bp p = true ↔ p < bp ∧ ∀ f ∈ r, bp < f.start := by
  obtain ⟨-, hafter⟩ := hg.cycle_cut hA
  have hasc := starts_ascending hg.ascending
  simp only [Heap.place, decide_eq_true_eq]
  cases r with
  | nil =>
    have hnext : h.next p = base := (path_cons_cons.mp hafter).1
    have hp : base ≤ p := by
      rcases node_cases hA with hp | ⟨f, hf, rfl⟩
      · omega
      · exact (hg.above f (by simp [hf])).le
    rw [hnext]
    simp only [not_mem_nil, false_implies, implies_true, and_true]
    omega
  | cons c r =>
    have hnext : h.next p = c.start := (path_cons_cons.mp hafter).1
    have hpc : p < c.start := by
      rcases node_cases hA with hp | ⟨f, hf, rfl⟩
      · rw [hp]
        exact hg.above c (by simp)
      · exact (pairwise_append.mp hasc).2.2 f hf c (by simp)
    have hcr := (pairwise_cons.mp (pairwise_append.mp hasc).2.1).1
    have hall : (∀ f ∈ c :: r, bp < f.start) ↔ bp < c.start := by
      constructor
      · intro hf
        exact hf c (by simp)
      · intro hlt f hf
        rcases mem_cons.mp hf with rfl | hf
        · exact hlt
        · exact hlt.trans (hcr f hf)
    rw [hnext, hall]
    omega

theorem free_good (hg : Good base h free (e :: used)) (hlim : total h.core < LIMIT) {n : Nat} (hn : free.length < n) :
    ∃ h' free', Umalloc.free n h (e.start + HEADER) = some h' ∧ Good base h' free' used ∧ h'.core = h.core ∧
      free'.length ≤ free.length + 1 ∧ ∃ f ∈ free', f.start ≤ e.start ∧ e.stop ≤ f.stop := by
  have hbe := hg.above e (by simp)
  have hne : ∀ f ∈ free, f.start ≠ e.start := fun f hf =>
    (hg.tiles.perm perm_middle).start_ne (by simp [hf])
  have hplace : ∃ q ∈ base :: free.map start, h.place e.start q = true := by
    obtain ⟨l, r, rfl, hl, hr⟩ := cut_at (starts_ascending hg.ascending) e.start hne
    obtain ⟨A, q, hA⟩ : ∃ A q, base :: l.map start = A ++ [q] :=
      ⟨_, _, (dropLast_append_getLast (cons_ne_nil _ _)).symm⟩
    have hq : q < e.start := by
      rcases node_cases hA with rfl | ⟨f, hf, rfl⟩
      · exact hbe
      · exact hl f hf
    refine ⟨q, ?_, (place_iff hg hA hbe).mpr ⟨hq, hr⟩⟩
    rw [map_append, ← cons_append, hA]
    simp
  obtain ⟨ns, hpath, hperm⟩ := hg.cycle.rotate hg.freep
  have hlen := hperm.length_eq
  simp only [length_cons, length_map] at hlen
  obtain ⟨q, hq, hstop⟩ := hplace
  obtain ⟨p, hp, hstop, hfind⟩ := find_of_path (n := n) hpath ⟨q, hperm.mem_iff.mpr hq, hstop⟩ (by omega)
  obtain ⟨A, l, r, rfl, hA⟩ := cut_of_mem (hperm.mem_iff.mp hp)
  obtain ⟨hpe, hr⟩ := (place_iff hg hA hbe).mp hstop
  have hl : ∀ f ∈ l, f.start < e.start := fun f hf => Nat.lt_of_le_of_lt (start_le_last hg hA hf) hpe
  obtain ⟨c, r', hmid, hstart, hstop', hlen'⟩ := joinUpper_mid hg hA hl hr hlim
  have hcore := core_joinUpper h p e.start
  obtain ⟨free', hgood, hlen'', f, hf, hfc, hcf⟩ := joinLower_good hmid (by rw [hcore]; exact hlim)
  rw [hstart] at hgood hfc
  refine ⟨_, free', ?_, hgood, ?_, ?_, f, hf, hfc, hstop'.trans hcf⟩
  · have hbp : e.start + HEADER - HEADER = e.start := Nat.add_sub_cancel _ _
    simp only [Umalloc.free, hbp, hfind]
    rfl
  · rw [core_setFreep, core_joinLower, hcore]
  · simp only [length_append]
    omega

theorem take_good (hg : Good base h free used) (hq : q ∈ base :: free.map start) (hk : 0 < k)
    (hfit : k ≤ h.size (h.next q)) :
    ∃ free' e', Good base (take h q (h.next q) k).2 free' (e' :: used) ∧
      (take h q (h.next q) k).1 = e'.start + HEADER ∧ e'.len = HEADER * k.toNat ∧
        (take h q (h.next q) k).2.core = h.core := by
  obtain ⟨A, l, r, rfl, hA⟩ := cut_of_mem hq
  obtain ⟨hbefore, hafter⟩ := hg.cycle_cut hA
  obtain ⟨hqA, hqr⟩ := hg.nodup_cut hA
  cases r with
  | nil =>
    have hnext : h.next q = base := (path_cons_cons.mp hafter).1
    rw [hnext, hg.base_size] at hfit
    exact absurd hfit (UInt32.not_le.mpr hk)
  | cons f r =>
    obtain ⟨hnext, hrest⟩ := path_cons_cons.mp hafter
    rw [hnext] at hfit ⊢
    have hb := hg.blocks.perm perm_mid
    obtain ⟨hlow, hhigh, hlh⟩ := pairwise_append.mp hg.ascending
    have hfr := pairwise_cons.mp hhigh
    by_cases heq : h.size f.start = k
    · have htake : take h q f.start k = (f.start + HEADER, (h.setPtr q (h.next f.start)).setFreep q) := by
        rw [take, if_pos heq]
      rw [htake]
      refine ⟨l ++ r, f, (hb.setPtr _ _).good perm_middle ((path_cut hA).mpr ⟨path_setPtr hbefore hqA _, ?_⟩)
        (mem_nodes hA) ?_, rfl, ?_, rfl⟩
      · exact path_setPtr_head hrest fun g hg' => (hqr g (by simp [hg'])).1
      · exact pairwise_append.mpr ⟨hlow, hfr.2, fun g hg' g' hg'' => hlh g hg' g' (by simp [hg''])⟩
      · rw [hg.headed f (by simp), heq]
    -- Only the end of the block is taken.
    have hlt : k.toNat < (h.size f.start).toNat := by
      have hle := UInt32.le_iff_toNat_le.mp hfit
      have hne : (h.size f.start).toNat ≠ k.toNat := fun h' => heq (UInt32.toNat.inj h')
      omega
    obtain ⟨f', e', hstart, hstop, hlen, hend, hcut⟩ := hb.cut (by simpa using UInt32.lt_iff_toNat_lt.mp hk) hlt
    have htake : take h q f.start k =
        (e'.start + HEADER, ((h.setSize f.start (h.size f.start - k)).setSize e'.start k).setFreep q) := by
      rw [take, if_neg heq]
      simp only [hend]
    have hmap : (l ++ f' :: r).map start = (l ++ f :: r).map start := by
      simp [hstart]
    rw [htake]
    refine ⟨l ++ f' :: r, e', hcut.good ?_ ?_ (mem_nodes hA) ?_, rfl, hlen, rfl⟩
    · refine .trans perm_middle (.trans (.cons e' perm_mid) (.swap f' e' _))
    · rw [hmap, next_setSize, next_setSize]
      exact hg.cycle
    · refine pairwise_append.mpr ⟨hlow, pairwise_cons.mpr ⟨fun g hg' => ?_, hfr.2⟩, fun g hg' g' hg'' => ?_⟩
      · exact Nat.lt_of_le_of_lt hstop (hfr.1 g hg')
      · rcases mem_cons.mp hg'' with rfl | hg''
        · rw [hstart]
          exact hlh g hg' f (by simp)
        · exact hlh g hg' g' (by simp [hg''])

end Umalloc
