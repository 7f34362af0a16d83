import Xv6.Refs

-- The counts are the sums of what the processes own, and every step keeps them so.

namespace Fs

open Prog Function

-- The steps of a call, as far as they matter here.
structure Track where
  begins : Nat
  ends : Nat
  nested : Bool
  denied : Bool
  leak : Slot → Int

namespace Track

def init : Track := ⟨0, 0, false, false, fun _ => 0⟩

def next (c : Syscall) (t : Track) : Event kernelSig → Track
  | ⟨.beginOp, _⟩ => { t with begins := t.begins + 1, nested := t.nested || t.begins ≠ t.ends }
  | ⟨.endOp, _⟩ => { t with ends := t.ends + 1 }
  | ⟨.perm _, ip⟩ => { t with denied := t.denied || DeniedOpen (ip : Inode).din c }
  | ⟨.setMode k _, _⟩ => if isChmod c then { t with leak := bump t.leak k 1 } else t
  | _ => t

def after (c : Syscall) (es : List (Event kernelSig)) : Track := es.foldl (next c) init

theorem after_snoc (c : Syscall) (es : List (Event kernelSig)) (e : Event kernelSig) :
    after c (es ++ [e]) = next c (after c es) e := by
  simp [after]

end Track

abbrev Ended := List (Syscall × List (Event kernelSig))

-- The opens that were refused, and the references that calls of chmod kept.
def lost (es : Ended) : Int := (es.map fun e => if (Track.after e.1 e.2).denied then (1 : Int) else 0).sum

def leaked (es : Ended) (k : Slot) : Int := (es.map fun e => (Track.after e.1 e.2).leak k).sum

def fileCount (ff : File) (k : Slot) : Int := if 0 < ff.ref ∧ Points ff k then 1 else 0

def files (w : World) (k : Slot) : Int := ∑ f, fileCount (w.ftable f) k

def cwds (w : World) (k : Slot) : Int := ∑ p, cwdCount (w.proc p).cwd k

section Shares

variable (w : World) (g : Pid → Option Th)

def depthOf : Option Th → Int
  | some t => t.depth
  | none => 0

def heldOf : Option Th → Set Slot
  | some t => t.held
  | none => ∅

-- The references that process `p` answers for. Those of a child that fork sets up are its parent's.
def irOf (k : Slot) (p : Pid) : Int :=
  match g p with
  | some t => t.ir k
  | none => if (w.proc p).state = .used then 0 else cwdCount (w.proc p).cwd k

def frOf (f : Fd) (p : Pid) : Int :=
  match g p with
  | some t => t.fr f
  | none => if (w.proc p).state = .used then 0 else fdCount (w.proc p).ofile f

end Shares

def TxInv (w : World) (es : Ended) (g : Pid → Option Th) : Prop :=
  w.log.outstanding = ∑ p, depthOf (g p) + lost es

def LockInv (w : World) (g : Pid → Option Th) : Prop :=
  ∀ k p, (w.itable k).lock = some p ↔ k ∈ heldOf (g p)

def IrefInv (w : World) (es : Ended) (g : Pid → Option Th) : Prop :=
  ∀ k, (w.itable k).ref = files w k + ∑ p, irOf w g k p + leaked es k

structure FileInv (w : World) (g : Pid → Option Th) : Prop where
  fref : ∀ f, (w.ftable f).ref = ∑ p, frOf w g f p
  free : ∀ f, (w.ftable f).ref = 0 → (w.ftable f).type = .none
  fresh : ∀ p t f, g p = some t → f ∈ t.fresh → (w.ftable f).ref = 1 ∧ (w.ftable f).type = .none
  use : ∀ p t f k, g p = some t → t.use = some (f, k) → Points (w.ftable f) k

structure ProcInv (w : World) (g : Pid → Option Th) : Prop where
  own : ∀ p t, g p = some t → (w.proc p).ofile = t.ofile ∧ (w.proc p).cwd = t.cwd ∧
    (w.proc p).state ≠ .unused ∧ (w.proc p).state ≠ .used ∧ (w.proc p).state ≠ .zombie
  child : ∀ p t ch, g p = some t → t.child = some ch → (w.proc ch.pid).state = .used ∧
    (w.proc ch.pid).ofile = ch.ofile ∧ (w.proc ch.pid).cwd = ch.cwd
  only : ∀ p p' t t' ch ch', g p = some t → g p' = some t' → t.child = some ch → t'.child = some ch' →
    ch.pid = ch'.pid → p = p'
  used : ∀ q, (w.proc q).state = .used → ∃ p t ch, g p = some t ∧ t.child = some ch ∧ ch.pid = q
  gone : ∀ q, (w.proc q).state = .unused ∨ (w.proc q).state = .zombie →
    (w.proc q).ofile = (fun _ => none) ∧ (w.proc q).cwd = none

structure RefInv (w : World) (es : Ended) (g : Pid → Option Th) : Prop where
  ok : ∀ p t, g p = some t → t.Ok
  tx : TxInv w es g
  lock : LockInv w g
  iref : IrefInv w es g
  file : FileInv w g
  proc : ProcInv w g

section Sums

variable {ι : Type} [Fintype ι] [DecidableEq ι]

theorem sum_change (X X' : ι → Int) (p : ι) (h : ∀ q, q ≠ p → X' q = X q) : ∑ q, X' q = ∑ q, X q + (X' p - X p) := by
  have hX : X' = update X p (X' p) := Function.eq_update_iff.mpr ⟨rfl, h⟩
  have hsum := sum_update_add id X (Finset.mem_univ p) (X' p)
  rw [← hX] at hsum
  simp only [id] at hsum
  omega

theorem sum_change₂ {X X' : ι → Int} {p q : ι} (hpq : p ≠ q) (h : ∀ x, x ≠ p → x ≠ q → X' x = X x) :
    ∑ x, X' x = ∑ x, X x + (X' p - X p) + (X' q - X q) := by
  have h1 := sum_change X (update X p (X' p)) p fun x hx => update_of_ne hx _ _
  have h2 := sum_change (update X p (X' p)) X' q fun x hx => by
    by_cases hxp : x = p
    · subst hxp
      rw [update_self]
    · rw [update_of_ne hxp, h x hxp hx]
  rw [update_self] at h1
  rw [update_of_ne hpq.symm] at h2
  omega

end Sums

section Congr

variable {w w' : World} {es : Ended} {g : Pid → Option Th} {p : Pid} {t' : Option Th}

theorem TxInv.change (h : TxInv w es g) (hw : w'.log.outstanding = w.log.outstanding + (depthOf t' - depthOf (g p))) :
    TxInv w' es (update g p t') := by
  unfold TxInv at *
  rw [hw, h, sum_change (fun q => depthOf (g q)) (fun q => depthOf (update g p t' q)) p
    fun q hq => by rw [update_of_ne hq]]
  simp only [update_self]
  omega

theorem TxInv.congr (h : TxInv w es g) (hw : w'.log.outstanding = w.log.outstanding)
    (hg : depthOf t' = depthOf (g p)) : TxInv w' es (update g p t') :=
  h.change (by omega)

theorem LockInv.congr (h : LockInv w g) (hw : ∀ k, (w'.itable k).lock = (w.itable k).lock)
    (hg : heldOf t' = heldOf (g p)) : LockInv w' (update g p t') := by
  intro k q
  rw [hw k, h k q, field_update heldOf hg]

theorem LockInv.acquire (h : LockInv w g) {k : Slot} (hfree : (w.itable k).lock = none)
    (hk : (w'.itable k).lock = some p) (hw : ∀ j, j ≠ k → (w'.itable j).lock = (w.itable j).lock)
    (hg : heldOf t' = insert k (heldOf (g p))) : k ∉ heldOf (g p) ∧ LockInv w' (update g p t') := by
  have hnot : ∀ q, k ∉ heldOf (g q) := fun q hq => by
    rw [← h k q, hfree] at hq
    cases hq
  refine ⟨hnot p, fun j q => ?_⟩
  by_cases hj : j = k
  · subst hj
    rw [hk, Option.some.injEq]
    by_cases hq : q = p
    · subst hq
      simp [hg]
    · rw [update_of_ne hq]
      exact ⟨fun h => absurd h.symm hq, fun h => absurd h (hnot q)⟩
  · rw [hw j hj, h j q]
    by_cases hq : q = p
    · subst hq
      rw [update_self, hg, Set.mem_insert_iff]
      exact ⟨.inr, fun h => h.resolve_left hj⟩
    · rw [update_of_ne hq]

theorem LockInv.release (h : LockInv w g) {k : Slot} (hheld : k ∈ heldOf (g p))
    (hk : (w'.itable k).lock = none) (hw : ∀ j, j ≠ k → (w'.itable j).lock = (w.itable j).lock)
    (hg : heldOf t' = heldOf (g p) \ {k}) : LockInv w' (update g p t') := by
  have hp := (h k p).mpr hheld
  intro j q
  by_cases hj : j = k
  · subst hj
    rw [hk]
    refine ⟨fun h => (nomatch h), fun hq => ?_⟩
    by_cases hqp : q = p
    · subst hqp
      rw [update_self, hg] at hq
      exact absurd rfl hq.2
    · rw [update_of_ne hqp, ← h j q, hp] at hq
      exact absurd (Option.some.inj hq).symm hqp
  · rw [hw j hj, h j q]
    by_cases hq : q = p
    · subst hq
      rw [update_self, hg]
      exact ⟨fun h => ⟨h, hj⟩, fun h => h.1⟩
    · rw [update_of_ne hq]

def ProcSame (w w' : World) : Prop := ∀ q, (w'.proc q).state = (w.proc q).state ∧
  (w'.proc q).ofile = (w.proc q).ofile ∧ (w'.proc q).cwd = (w.proc q).cwd

theorem ProcSame.of_eq (h : w'.proc = w.proc) : ProcSame w w' := fun q => by rw [h]; exact ⟨rfl, rfl, rfl⟩

def FileSame (w w' : World) : Prop := ∀ f, (w'.ftable f).ref = (w.ftable f).ref ∧
  (w'.ftable f).type = (w.ftable f).type ∧ (w'.ftable f).ip = (w.ftable f).ip

theorem FileSame.of_eq (h : w'.ftable = w.ftable) : FileSame w w' := fun f => by rw [h]; exact ⟨rfl, rfl, rfl⟩

variable {ff ff' : File}

theorem points_congr (ht : ff'.type = ff.type) (hi : ff'.ip = ff.ip) (k : Slot) : Points ff' k ↔ Points ff k := by
  unfold Points
  rw [ht, hi]

theorem fileCount_congr (hr : 0 < ff'.ref ↔ 0 < ff.ref) (ht : ff'.type = ff.type) (hi : ff'.ip = ff.ip)
    (k : Slot) : fileCount ff' k = fileCount ff k := by
  simp only [fileCount, hr, points_congr ht hi]

theorem fileCount_withRef (ff : File) {n : Int} (h : 0 < n ↔ 0 < ff.ref) (k : Slot) :
    fileCount { ff with ref := n } k = fileCount ff k := by
  have hp : Points { ff with ref := n } k ↔ Points ff k := Iff.rfl
  simp only [fileCount, hp, h]

theorem fileCount_of_not {k : Slot} (h : ¬Points ff k) : fileCount ff k = 0 :=
  if_neg fun hp => h hp.2

theorem fileCount_of_pos (h : 0 < ff.ref) (k : Slot) : fileCount ff k = if Points ff k then 1 else 0 := by
  simp only [fileCount, h, true_and]

theorem FileSame.files (h : FileSame w w') (k : Slot) : files w' k = files w k :=
  Finset.sum_congr rfl fun f _ => fileCount_congr (by rw [(h f).1]) (h f).2.1 (h f).2.2 k

-- The shares of the processes other than `p` are as they were.
def SharesSame (w w' : World) (g : Pid → Option Th) (p : Pid) : Prop := ∀ q, q ≠ p → ∀ t',
  (∀ k, irOf w' (update g p t') k q = irOf w g k q) ∧ ∀ f, frOf w' (update g p t') f q = frOf w g f q

theorem sharesSame_of (h : ∀ q, q ≠ p → g q = none → ((w'.proc q).state = .used ↔ (w.proc q).state = .used) ∧
      ((w.proc q).state = .used ∨ ((w'.proc q).ofile = (w.proc q).ofile ∧ (w'.proc q).cwd = (w.proc q).cwd))) :
    SharesSame w w' g p := by
  intro q hq t'
  unfold irOf frOf
  rw [update_of_ne hq]
  match hg : g q with
  | some t => exact ⟨fun _ => rfl, fun _ => rfl⟩
  | none =>
    obtain ⟨h1, h2⟩ := h q hq hg
    rcases h2 with h2 | ⟨h2, h3⟩
    · simp [h1, h2]
    · simp [h1, h2, h3]

theorem ProcSame.shares (h : ProcSame w w') : SharesSame w w' g p :=
  sharesSame_of fun q _ _ => ⟨by rw [(h q).1], .inr (h q).2⟩

theorem irOf_some {t : Th} (h : g p = some t) (k : Slot) : irOf w g k p = t.ir k := by
  unfold irOf
  rw [h]

theorem frOf_some {t : Th} (h : g p = some t) (f : Fd) : frOf w g f p = t.fr f := by
  unfold frOf
  rw [h]

variable {t0 t1 : Th}

theorem IrefInv.change (h : IrefInv w es g) (ht : g p = some t0) (hs : SharesSame w w' g p)
    (hw : ∀ k, (w'.itable k).ref - (w.itable k).ref = (files w' k - files w k) + (t1.ir k - t0.ir k)) :
    IrefInv w' es (update g p (some t1)) := by
  intro k
  have h1 := h k
  have h2 := hw k
  rw [sum_change (irOf w g k) (irOf w' (update g p (some t1)) k) p
    fun q hq => (hs q hq _).1 k, irOf_some ht, irOf_some (update_self p (some t1) g)]
  omega

theorem IrefInv.congr (h : IrefInv w es g) (ht : g p = some t0) (hs : SharesSame w w' g p) (hf : FileSame w w')
    (hw : ∀ k, (w'.itable k).ref = (w.itable k).ref) (hir : t1.ir = t0.ir) :
    IrefInv w' es (update g p (some t1)) :=
  h.change ht hs fun k => by rw [hf.files, hw, hir]; omega

theorem frOf_nonneg (hok : ∀ p t, g p = some t → t.Ok) (f : Fd) (q : Pid) : 0 ≤ frOf w g f q := by
  unfold frOf
  split
  · next t ht => exact (hok q t ht).fr_nonneg f
  · split
    · exact le_rfl
    · exact fdCount_nonneg _ _

section

variable (h : FileInv w g)

include h

theorem FileInv.le_ref (hok : ∀ p t, g p = some t → t.Ok) (f : Fd) (q : Pid) :
    frOf w g f q ≤ (w.ftable f).ref := by
  rw [h.fref f]
  exact Finset.single_le_sum (fun q _ => frOf_nonneg hok f q) (Finset.mem_univ q)

theorem FileInv.add_le_ref (hok : ∀ p t, g p = some t → t.Ok) (f : Fd) {q q' : Pid}
    (hq : q ≠ q') : frOf w g f q + frOf w g f q' ≤ (w.ftable f).ref := by
  rw [h.fref f, ← Finset.add_sum_erase _ _ (Finset.mem_univ q)]
  have h1 : frOf w g f q' ≤ ∑ x ∈ Finset.univ.erase q, frOf w g f x :=
    Finset.single_le_sum (fun q _ => frOf_nonneg hok f q)
      (Finset.mem_erase.mpr ⟨hq.symm, Finset.mem_univ q'⟩)
  omega

theorem FileInv.not_fresh (hok : ∀ p t, g p = some t → t.Ok) {t : Th} {f : Fd}
    (ht : g p = some t) (hf : 1 ≤ t.fr f) {q : Pid} {u : Th} (hu : g q = some u) (hq : q ≠ p) :
    f ∉ u.fresh := by
  intro hfresh
  have h1 := h.add_le_ref hok f hq
  have h2 := (h.fresh q u f hu hfresh).1
  rw [frOf_some ht, frOf_some hu, (hok q u hu).fresh f hfresh] at h1
  omega

theorem FileInv.change {f : Fd} (ht : g p = some t0) (hs : SharesSame w w' g p)
    (hother : ∀ f', f' ≠ f → w'.ftable f' = w.ftable f' ∧ t1.fr f' = t0.fr f')
    (href : (w'.ftable f).ref - (w.ftable f).ref = t1.fr f - t0.fr f)
    (hfree : (w'.ftable f).ref = 0 → (w'.ftable f).type = .none) (hfresh : ∀ f' ∈ t1.fresh, (f' ≠ f ∧ f' ∈ t0.fresh) ∨
      (f' = f ∧ (w'.ftable f).ref = 1 ∧ (w'.ftable f).type = .none))
    (hfresh' : ∀ q u, q ≠ p → g q = some u → f ∉ u.fresh)
    (huse : ∀ f' k, t1.use = some (f', k) → Points (w'.ftable f') k)
    (huse' : ∀ q u k, q ≠ p → g q = some u → u.use = some (f, k) → Points (w'.ftable f) k) :
    FileInv w' (update g p (some t1)) := by
  refine ⟨fun f' => ?_, fun f' => ?_, fun q t f' hq hfr => ?_, fun q t f' k hq hu => ?_⟩
  · rw [sum_change (frOf w g f') (frOf w' (update g p (some t1)) f') p
      fun q hq => (hs q hq _).2 f', frOf_some ht, frOf_some (update_self ..), ← h.fref f']
    by_cases hf : f' = f
    · subst hf
      omega
    · rw [(hother f' hf).1, (hother f' hf).2]
      omega
  · by_cases hf : f' = f
    · subst hf
      exact hfree
    · rw [(hother f' hf).1]
      exact h.free f'
  · rcases update_eq_some hq with ⟨rfl, rfl⟩ | ⟨hqp, hq⟩
    · rcases hfresh f' hfr with ⟨hf, hfr⟩ | ⟨rfl, hf⟩
      · rw [(hother f' hf).1]
        exact h.fresh q t0 f' ht hfr
      · exact hf
    · have hf : f' ≠ f := by
        rintro rfl
        exact hfresh' q t hqp hq hfr
      rw [(hother f' hf).1]
      exact h.fresh q t f' hq hfr
  · rcases update_eq_some hq with ⟨rfl, rfl⟩ | ⟨hqp, hq⟩
    · exact huse f' k hu
    by_cases hf : f' = f
    · subst hf
      exact huse' q t k hqp hq hu
    · rw [(hother f' hf).1]
      exact h.use q t f' k hq hu

theorem FileInv.congr (ht : g p = some t0) (hs : SharesSame w w' g p) (hf : FileSame w w')
    (hfr : t1.fr = t0.fr) (hfresh : t1.fresh = t0.fresh) (huse : ∀ f k, t1.use = some (f, k) → Points (w.ftable f) k) :
    FileInv w' (update g p (some t1)) := by
  refine ⟨fun f => ?_, fun f => ?_, fun q t f hq hfr' => ?_, fun q t f k hq hu => ?_⟩
  · rw [sum_change (frOf w g f) (frOf w' (update g p (some t1)) f) p
      fun q hq => (hs q hq _).2 f, frOf_some ht, frOf_some (update_self ..), hfr, (hf f).1, h.fref f]
    omega
  · rw [(hf f).1, (hf f).2.1]
    exact h.free f
  · rw [(hf f).1, (hf f).2.1]
    rcases update_eq_some hq with ⟨rfl, rfl⟩ | ⟨-, hq⟩
    · exact h.fresh q t0 f ht (hfresh ▸ hfr')
    · exact h.fresh q t f hq hfr'
  · rw [points_congr (hf f).2.1 (hf f).2.2]
    rcases update_eq_some hq with ⟨rfl, rfl⟩ | ⟨-, hq⟩
    · exact huse f k hu
    · exact h.use q t f k hq hu

end

theorem ProcInv.set (h : ProcInv w g) (ht : g p = some t0) (hstate : ∀ q, (w'.proc q).state = (w.proc q).state)
    (hother : ∀ q, q ≠ p → (w'.proc q).ofile = (w.proc q).ofile ∧ (w'.proc q).cwd = (w.proc q).cwd)
    (hown : (w'.proc p).ofile = t1.ofile ∧ (w'.proc p).cwd = t1.cwd) (hch : t1.child = t0.child) :
    ProcInv w' (update g p (some t1)) := by
  obtain ⟨-, -, hlive⟩ := h.own p t0 ht
  have hold : ∀ q t, update g p (some t1) q = some t → ∃ u, g q = some u ∧ t.child = u.child := by
    intro q t hq
    rcases update_eq_some hq with ⟨rfl, rfl⟩ | ⟨-, hq⟩
    · exact ⟨t0, ht, hch⟩
    · exact ⟨t, hq, rfl⟩
  refine ⟨fun q t hq => ?_, fun q t ch hq hc => ?_, fun q q' t t' ch ch' hq hq' hc hc' heq => ?_,
    fun q hq => ?_, fun q hq => ?_⟩
  · rw [hstate q]
    rcases update_eq_some hq with ⟨rfl, rfl⟩ | ⟨hqp, hq⟩
    · exact ⟨hown.1, hown.2, hlive⟩
    · rw [(hother q hqp).1, (hother q hqp).2]
      exact h.own q t hq
  · obtain ⟨u, hu, hcu⟩ := hold q t hq
    have hc' := h.child q u ch hu (hcu ▸ hc)
    have hne : ch.pid ≠ p := fun heq => hlive.2.1 (heq ▸ hc'.1)
    rw [hstate, (hother _ hne).1, (hother _ hne).2]
    exact hc'
  · obtain ⟨u, hu, hcu⟩ := hold q t hq
    obtain ⟨u', hu', hcu'⟩ := hold q' t' hq'
    exact h.only q q' u u' ch ch' hu hu' (hcu ▸ hc) (hcu' ▸ hc') heq
  · rw [hstate q] at hq
    obtain ⟨x, t, ch, hx, hc, hpid⟩ := h.used q hq
    by_cases hxp : x = p
    · subst hxp
      rw [ht] at hx
      cases hx
      exact ⟨x, t1, ch, update_self .., hch ▸ hc, hpid⟩
    · exact ⟨x, t, ch, by rwa [update_of_ne hxp], hc, hpid⟩
  · rw [hstate q] at hq
    have hne : q ≠ p := by
      rintro rfl
      rcases hq with hq | hq
      · exact hlive.1 hq
      · exact hlive.2.2 hq
    rw [(hother q hne).1, (hother q hne).2]
    exact h.gone q hq

theorem ProcInv.congr (h : ProcInv w g) (ht : g p = some t0) (hp : ProcSame w w') (ho : t1.ofile = t0.ofile)
    (hc : t1.cwd = t0.cwd) (hch : t1.child = t0.child) : ProcInv w' (update g p (some t1)) := by
  obtain ⟨h1, h2, -⟩ := h.own p t0 ht
  refine h.set ht (fun q => (hp q).1) (fun q _ => (hp q).2) ⟨?_, ?_⟩ hch
  · rw [(hp p).2.1, h1, ho]
  · rw [(hp p).2.2, h2, hc]

theorem RefInv.ok_update (h : RefInv w es g) (hok : t1.Ok) : ∀ q t, update g p (some t1) q = some t → t.Ok := by
  intro q t hq
  rcases update_eq_some hq with ⟨-, rfl⟩ | ⟨-, hq⟩
  · exact hok
  · exact h.ok q t hq

end Congr

end Fs
