import Mathlib

-- Extents of addresses, and lists of them that tile an area.

structure Extent where
  start : Nat
  len : Nat
  deriving DecidableEq, Repr

namespace Extent

open List

def stop (e : Extent) : Nat := e.start + e.len

def Covers (e : Extent) (x : Nat) : Prop := e.start ≤ x ∧ x < e.stop

def Apart (e f : Extent) : Prop := e.stop ≤ f.start ∨ f.stop ≤ e.start

def total (es : List Extent) : Nat := (es.map len).sum

-- Two extents as one, where the first one ends at the second one.
def join (e f : Extent) : Extent := ⟨e.start, e.len + f.len⟩

-- Every address of the area is in exactly one extent.
structure Tiles (es area : List Extent) : Prop where
  pos : ∀ e ∈ es, 0 < e.len
  apart : es.Pairwise Apart
  cover : ∀ x, (∃ e ∈ es, e.Covers x) ↔ ∃ a ∈ area, a.Covers x
  total_eq : total es = total area

variable {e f a : Extent} {es fs area : List Extent}

theorem Apart.symm (h : e.Apart f) : f.Apart e := Or.symm h

@[simp] theorem total_nil : total [] = 0 := rfl

@[simp] theorem total_cons : total (e :: es) = e.len + total es := by simp [total]

@[simp] theorem total_append : total (es ++ fs) = total es + total fs := by simp [total]

theorem len_le_total (h : e ∈ es) : e.len ≤ total es :=
  single_le_sum (by simp) _ (mem_map_of_mem h)

@[simp] theorem join_start : (e.join f).start = e.start := rfl

@[simp] theorem join_len : (e.join f).len = e.len + f.len := rfl

theorem join_stop (h : e.stop = f.start) : (e.join f).stop = f.stop := by
  simp only [stop, join] at *
  omega

theorem Tiles.nil : Tiles [] [] := by
  constructor <;> simp

theorem Tiles.perm (h : Tiles es area) (hp : es.Perm fs) : Tiles fs area := by
  refine ⟨fun e he => h.pos e (hp.mem_iff.mpr he), ?_, fun x => ?_, ?_⟩
  · exact (hp.pairwise_iff fun hef => Apart.symm hef).mp h.apart
  · rw [← h.cover x]
    simp only [hp.mem_iff]
  · rw [← h.total_eq]
    exact ((hp.map len).sum_eq).symm

instance : Std.Symm Apart := ⟨fun _ _ h => h.symm⟩

theorem Tiles.apart_of_ne (h : Tiles es area) (he : e ∈ es) (hf : f ∈ es) (hne : e ≠ f) : e.Apart f :=
  h.apart.forall he hf hne

theorem Tiles.apart_head (h : Tiles (e :: es) area) (hf : f ∈ es) : e.Apart f :=
  (pairwise_cons.mp h.apart).1 f hf

theorem Tiles.inside (h : Tiles es area) {lo hi : Nat} (hin : ∀ a ∈ area, lo ≤ a.start ∧ a.stop ≤ hi) (he : e ∈ es) :
    lo ≤ e.start ∧ e.stop ≤ hi := by
  have hpos := h.pos e he
  obtain ⟨a, ha, hfirst⟩ := (h.cover e.start).mp ⟨e, he, by simp only [Covers, stop]; omega⟩
  obtain ⟨b, hb, hlast⟩ := (h.cover (e.stop - 1)).mp ⟨e, he, by simp only [Covers, stop]; omega⟩
  have := hin a ha
  have := hin b hb
  simp only [Covers] at hfirst hlast
  omega

theorem Tiles.start_ne (h : Tiles (e :: es) area) (hf : f ∈ es) : f.start ≠ e.start := by
  have hapart := h.apart_head hf
  have he := h.pos e mem_cons_self
  have hf' := h.pos f (mem_cons_of_mem e hf)
  simp only [Apart, stop] at hapart
  omega

theorem Tiles.len_add_le (h : Tiles (e :: f :: es) area) : e.len + f.len ≤ total area := by
  have := h.total_eq
  simp only [total_cons] at this
  omega

theorem covers_join (hef : e.stop = f.start) (x : Nat) :
    (∃ g ∈ e.join f :: es, g.Covers x) ↔ ∃ g ∈ e :: f :: es, g.Covers x := by
  have hx : (e.join f).Covers x ↔ e.Covers x ∨ f.Covers x := by
    simp only [Covers, stop, Extent.join] at *
    omega
  simp only [mem_cons, exists_eq_or_imp, hx, or_assoc]

theorem total_join : total (e.join f :: es) = total (e :: f :: es) := by
  simp only [total_cons, join_len]
  omega

theorem Tiles.join (h : Tiles (e :: f :: es) area) (hef : e.stop = f.start) : Tiles (e.join f :: es) area := by
  have hapart := h.apart
  simp only [pairwise_cons, mem_cons] at hapart
  refine ⟨?_, ?_, fun x => ?_, ?_⟩
  · intro g hg
    rcases mem_cons.mp hg with rfl | hg
    · have := h.pos e (by simp)
      simp only [join_len]
      omega
    · exact h.pos g (by simp [hg])
  · refine pairwise_cons.mpr ⟨fun g hg => ?_, hapart.2.2⟩
    have he := hapart.1 g (.inr hg)
    have hf := hapart.2.1 g hg
    have hpos := h.pos g (by simp [hg])
    simp only [Apart, stop, Extent.join] at *
    omega
  · exact (covers_join hef x).trans (h.cover x)
  · exact total_join.trans h.total_eq

theorem Tiles.cut (h : Tiles (e.join f :: es) area) (hef : e.stop = f.start) (he : 0 < e.len) (hf : 0 < f.len) :
    Tiles (e :: f :: es) area := by
  have hapart := h.apart
  simp only [pairwise_cons] at hapart
  refine ⟨?_, ?_, fun x => ?_, ?_⟩
  · intro g hg
    simp only [mem_cons] at hg
    rcases hg with rfl | rfl | hg
    · exact he
    · exact hf
    · exact h.pos g (by simp [hg])
  · refine pairwise_cons.mpr ⟨fun g hg => ?_, pairwise_cons.mpr ⟨fun g hg => ?_, hapart.2⟩⟩
    · rcases mem_cons.mp hg with rfl | hg
      · exact .inl hef.le
      · have hg' := hapart.1 g hg
        simp only [Apart, stop, Extent.join] at *
        omega
    · have hg' := hapart.1 g hg
      simp only [Apart, stop, Extent.join] at *
      omega
  · exact (covers_join hef x).symm.trans (h.cover x)
  · exact total_join.symm.trans h.total_eq

theorem Tiles.grow (h : Tiles es area) (hpos : 0 < e.len) (habove : ∀ a ∈ area, a.stop ≤ e.start) :
    Tiles (e :: es) (e :: area) := by
  refine ⟨?_, ?_, fun x => ?_, ?_⟩
  · intro g hg
    rcases mem_cons.mp hg with rfl | hg
    · exact hpos
    · exact h.pos g hg
  · refine pairwise_cons.mpr ⟨fun g hg => .inr ?_, h.apart⟩
    have hg0 := h.pos g hg
    obtain ⟨a, ha, hcov⟩ := (h.cover (g.start + g.len - 1)).mp ⟨g, hg, by simp only [Covers, stop]; omega⟩
    have := habove a ha
    simp only [Covers, stop] at *
    omega
  · simp only [mem_cons, exists_eq_or_imp, h.cover x]
  · simp only [total_cons, h.total_eq]

end Extent
