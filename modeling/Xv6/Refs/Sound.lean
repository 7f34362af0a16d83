import Xv6.Refs.Inv

namespace Fs

open Prog Function

attribute [local simp] World.setInode

variable {w w' : World} {es : Ended} {g : Pid → Option Th} {p : Pid} {c : Syscall} {t : Th}

structure Unmoved (w w' : World) : Prop where
  outstanding : w'.log.outstanding = w.log.outstanding
  lock : ∀ k, (w'.itable k).lock = (w.itable k).lock
  ref : ∀ k, (w'.itable k).ref = (w.itable k).ref
  file : FileSame w w'

theorem Unmoved.refl (w : World) : Unmoved w w := ⟨rfl, fun _ => rfl, fun _ => rfl, FileSame.of_eq rfl⟩

variable {k : Slot}

theorem field_setInode {β : Type} {ip : Inode} (f : Inode → β) (h : f ip = f (w.itable k)) (j : Slot) :
    f ((w.setInode k ip).itable j) = f (w.itable j) := field_update f h j

theorem unmoved_setInode {ip : Inode} (hl : ip.lock = (w.itable k).lock)
    (hr : ip.ref = (w.itable k).ref) : Unmoved w (w.setInode k ip) :=
  ⟨rfl, field_setInode Inode.lock hl, field_setInode Inode.ref hr, FileSame.of_eq rfl⟩

theorem bsection_unmoved {b : Nat} {f : Block → Option Nat × Option Block} {r : Option Nat}
    (h : kernelStep (.bsection b f) w = .done r w') : Unmoved w w' ∧ w'.proc = w.proc := by
  rcases bsection_done h with ⟨-, rfl⟩ | ⟨data, log, -, hl, rfl⟩
  · exact ⟨Unmoved.refl w', rfl⟩
  · obtain ⟨rfl, -, -⟩ := Log.logWrite_eq hl
    exact ⟨⟨rfl, fun _ => rfl, fun _ => rfl, FileSame.of_eq rfl⟩, rfl⟩

variable {a : Act} {r : a.Res}

theorem unmoved_of_quiet (ha : quiet a) (h : kernelStep a w = .done r w') : Unmoved w w' := by
  cases a with
  | bsection b f => exact (bsection_unmoved h).1
  | commit =>
    simp only [kernelStep] at h
    split at h
    · cases h
      exact ⟨rfl, fun _ => rfl, fun _ => rfl, FileSame.of_eq rfl⟩
    · cases h
    · cases h
  | setOff f s =>
    cases h
    exact ⟨rfl, fun _ => rfl, fun _ => rfl, fun f' =>
      ⟨field_update File.ref (by rfl) f', field_update File.type (by rfl) f', field_update File.ip (by rfl) f'⟩⟩
  | setDin k f | iload k b | setValid k v => cases h; exact unmoved_setInode rfl rfl
  | endCommit | bread b | bstore b f | inode k | file f | setParent q x =>
    cases h
    exact ⟨rfl, fun _ => rfl, fun _ => rfl, FileSame.of_eq rfl⟩
  | _ => cases ha

theorem quiet_procs (ha : quiet a) (h : kernelStep a w = .done r w') : ProcSame w w' := by
  cases a with
  | bsection b f => exact ProcSame.of_eq (bsection_unmoved h).2
  | commit =>
    simp only [kernelStep] at h
    split at h
    · cases h
      exact ProcSame.of_eq rfl
    · cases h
    · cases h
  | setParent q x =>
    cases h
    exact fun q' =>
      ⟨field_update Proc.state (by rfl) q', field_update Proc.ofile (by rfl) q', field_update Proc.cwd (by rfl) q'⟩
  | endCommit | bread b | bstore b f | inode k | file f | setDin k f | iload k b | setValid k v | setOff f s =>
    cases h
    exact ProcSame.of_eq rfl
  | _ => cases ha

variable {t1 : Th}

theorem RefInv.keep (h : RefInv w es g) (ht : g p = some t) (hm : Unmoved w w') (hp : ProcSame w w') (hok : t1.Ok)
    (hd : t1.depth = t.depth) (hh : t1.held = t.held) (hir : t1.ir = t.ir) (hfr : t1.fr = t.fr)
    (hfresh : t1.fresh = t.fresh) (huse : ∀ f k, t1.use = some (f, k) → Points (w.ftable f) k) (ho : t1.ofile = t.ofile)
    (hcwd : t1.cwd = t.cwd) (hch : t1.child = t.child) : RefInv w' es (update g p (some t1)) where
  ok := h.ok_update hok
  tx := h.tx.congr hm.outstanding (by rw [ht, depthOf, depthOf, hd])
  lock := h.lock.congr hm.lock (by rw [ht]; exact hh)
  iref := h.iref.congr ht hp.shares hm.file hm.ref hir
  file := h.file.congr ht hp.shares hm.file hfr hfresh huse
  proc := h.proc.congr ht hp ho hcwd hch

-- Only what the process has locked and its operation have changed.
theorem RefInv.frame (h : RefInv w es g) (ht : g p = some t) (hok : t1.Ok) (htx : TxInv w' es (update g p (some t1)))
    (hlock : LockInv w' (update g p (some t1))) (hproc : w'.proc = w.proc) (hfile : w'.ftable = w.ftable)
    (href : ∀ j, (w'.itable j).ref = (w.itable j).ref) (h₁ : t1 = { t with depth := t1.depth, held := t1.held }) :
    RefInv w' es (update g p (some t1)) where
  ok := h.ok_update hok
  tx := htx
  lock := hlock
  iref := h.iref.congr ht (ProcSame.of_eq hproc).shares (FileSame.of_eq hfile) href (by rw [h₁])
  file := h.file.congr ht (ProcSame.of_eq hproc).shares (FileSame.of_eq hfile) (by rw [h₁]) (by rw [h₁])
    (by rw [h₁]; exact fun f k => h.file.use p t f k ht)
  proc := h.proc.congr ht (ProcSame.of_eq hproc) (by rw [h₁]) (by rw [h₁]) (by rw [h₁])

theorem RefInv.quiet (h : RefInv w es g) (ht : g p = some t) (ha : quiet a)
    (hs : kernelStep a w = .done r w') : RefInv w' es (update g p (some t)) := by
  have hm := unmoved_of_quiet ha hs
  have huse : ∀ f k, t.use = some (f, k) → Points (w.ftable f) k := fun f k => h.file.use p t f k ht
  exact h.keep ht hm (quiet_procs ha hs) (h.ok p t ht) rfl rfl rfl rfl rfl huse rfl rfl rfl

theorem RefInv.same (h : RefInv w es g) (ht : g p = some t) : RefInv w es (update g p (some t)) := by
  rwa [Function.update_eq_self_iff.mpr ht.symm]

section Entries

variable (w : World) {q : Pid} (pr : Proc)

theorem setProc_other : ∀ q', q' ≠ q → (w.setProc q pr).proc q' = w.proc q' := fun _ hq => update_of_ne hq _ _

theorem setProc_self : (w.setProc q pr).proc q = pr := update_self ..

end Entries

-- wait gives up an entry that exit has emptied.
theorem RefInv.reaped {q : Pid} {pr : Proc} (h : RefInv w es g) (hz : (w.proc q).state = .zombie)
    (hu : pr.state = .unused) (ho : pr.ofile = (w.proc q).ofile) (hc : pr.cwd = (w.proc q).cwd) :
    RefInv (w.setProc q pr) es g := by
  have hof : ∀ q', ((w.setProc q pr).proc q').ofile = (w.proc q').ofile := field_update Proc.ofile ho
  have hcwd : ∀ q', ((w.setProc q pr).proc q').cwd = (w.proc q').cwd := field_update Proc.cwd hc
  have hother := setProc_other (q := q) w pr
  have hused : ∀ q', ((w.setProc q pr).proc q').state = .used ↔ (w.proc q').state = .used := fun q' =>
    iff_of_eq (field_update (fun x : Proc => x.state = .used) (by rw [hu, hz]; simp) q')
  have hidle : ∀ q' u, g q' = some u → q' ≠ q := by
    rintro q' u hq' rfl
    exact (h.proc.own q' u hq').2.2.2.2 hz
  have hir : ∀ k q', irOf (w.setProc q pr) g k q' = irOf w g k q' := by
    intro k q'
    simp only [irOf, hused, hcwd]
  have hfr : ∀ f q', frOf (w.setProc q pr) g f q' = frOf w g f q' := by
    intro f q'
    simp only [frOf, hused, hof]
  refine ⟨h.ok, h.tx, h.lock, fun k => ?_, ⟨fun f => ?_, h.file.free, h.file.fresh, h.file.use⟩,
    ⟨fun q' u hq' => ?_, fun q' u ch hq' hch => ?_, h.proc.only,
      fun q' hq' => h.proc.used q' ((hused q').mp hq'), fun q' hq' => ?_⟩⟩
  · rw [Finset.sum_congr rfl fun q' _ => hir k q']
    exact h.iref k
  · rw [Finset.sum_congr rfl fun q' _ => hfr f q']
    exact h.file.fref f
  · rw [hother q' (hidle q' u hq')]
    exact h.proc.own q' u hq'
  · rw [hof, hcwd, hused]
    exact h.proc.child q' u ch hq' hch
  · rw [hof, hcwd]
    by_cases hq : q' = q
    · subst hq
      exact h.proc.gone q' (.inr hz)
    · rw [hother q' hq] at hq'
      exact h.proc.gone q' hq'

section Inodes

variable (h : RefInv w es g) (ht : g p = some t)

include h ht

theorem RefInv.count {ip : Inode} {n : Int} (hl : ip.lock = (w.itable k).lock)
    (hn : ip.ref = (w.itable k).ref + n) (hok : (t.ref k n).Ok) :
    RefInv (w.setInode k ip) es (update g p (some (t.ref k n))) where
  ok := h.ok_update hok
  tx := h.tx.congr rfl (by rw [ht]; rfl)
  lock := h.lock.congr (field_setInode Inode.lock hl) (by rw [ht]; rfl)
  iref := h.iref.change ht (ProcSame.of_eq rfl).shares fun j => by
    have hf : files (w.setInode k ip) j = files w j := rfl
    rw [hf]
    by_cases hj : j = k
    · subst hj
      simp [Th.ref, bump, hn]
    · simp [Th.ref, bump, hj]
  file := h.file.congr ht (ProcSame.of_eq rfl).shares (FileSame.of_eq rfl) rfl rfl
    fun f j => h.file.use p t f j ht
  proc := h.proc.congr ht (ProcSame.of_eq rfl) rfl rfl rfl

theorem RefInv.acquire (hc : t.Claim k) (hfree : (w.itable k).lock = none) :
    k ∉ t.held ∧ RefInv (w.setInode k { w.itable k with lock := some p }) es
      (update g p (some (t.lock k))) := by
  have hacq : k ∉ heldOf (g p) ∧ LockInv (w.setInode k { w.itable k with lock := some p })
      (update g p (some (t.lock k))) :=
    h.lock.acquire hfree (by simp) (fun j hj => by simp [hj]) (by rw [ht]; rfl)
  obtain ⟨hnot, hlock⟩ := hacq
  rw [ht] at hnot
  exact ⟨hnot, h.frame ht ((h.ok p t ht).lock hc) (h.tx.congr rfl (by rw [ht]; rfl)) hlock rfl rfl
    (field_setInode Inode.ref rfl) rfl⟩

theorem RefInv.release (hk : k ∈ t.held) :
    RefInv (w.setInode k { w.itable k with lock := none }) es (update g p (some (t.unlock k))) := by
  have hlock : LockInv (w.setInode k { w.itable k with lock := none }) (update g p (some (t.unlock k))) :=
    h.lock.release (k := k) (by rw [ht]; exact hk) (by simp)
      (fun j hj => by simp [hj]) (by rw [ht]; rfl)
  exact h.frame ht ((h.ok p t ht).unlock k) (h.tx.congr rfl (by rw [ht]; rfl)) hlock rfl rfl
    (field_setInode Inode.ref rfl) rfl

theorem RefInv.transaction {log : Log}
    (hlog : log.outstanding = w.log.outstanding + ((t1.depth : Int) - t.depth)) (h₁ : t1 = t.at t1.depth) :
    RefInv (w.setLog log) es (update g p (some t1)) := by
  have hok := h.ok p t ht
  rw [h₁]
  exact h.frame ht ⟨hok.ir_nonneg, hok.fr_nonneg, hok.claim, hok.use, hok.fresh⟩ (h.tx.change (by rw [ht]; exact hlog))
    (h.lock.congr (fun _ => rfl) (by rw [ht]; rfl)) rfl rfl (fun _ => rfl) rfl

end Inodes

section Files

variable {f : Fd} {ff : File}

theorem files_change (hother : ∀ f', f' ≠ f → w'.ftable f' = w.ftable f') (k : Slot) :
    files w' k - files w k = fileCount (w'.ftable f) k - fileCount (w.ftable f) k := by
  unfold files
  rw [sum_change (fun f => fileCount (w.ftable f) k) (fun f => fileCount (w'.ftable f) k) f
    fun f' hf' => by rw [hother f' hf']]
  omega

theorem setFile_other (w : World) (ff : File) : ∀ f', f' ≠ f →
    (w.setFile f ff).ftable f' = w.ftable f' := fun _ hf => update_of_ne hf _ _

theorem setFile_self (w : World) (f : Fd) (ff : File) : (w.setFile f ff).ftable f = ff :=
  update_self ..

theorem not_points (h : ff.type = .none ∨ ff.type = .pipe) (k : Slot) : ¬Points ff k := by
  rintro ⟨h1 | h1, -⟩ <;> rw [h1] at h <;> rcases h with h | h <;> cases h

theorem fr_unref (t : Th) (f f' : Fd) : (t.fref f (-1)).fr f' = t.fr f' - if f' = f then 1 else 0 := by
  simp only [Th.fref, bump]
  split <;> omega

theorem Th.Ok.unref_nonneg (hok : t.Ok) (hf : 1 ≤ t.fr f) (f' : Fd) : 0 ≤ (t.fref f (-1)).fr f' := by
  rw [fr_unref]
  have h1 := hok.fr_nonneg f'
  split
  · next heq => rw [heq]; omega
  · omega

variable (h : RefInv w es g) (ht : g p = some t)

include h ht

theorem RefInv.onFile (hok : t1.Ok) (hd : t1.depth = t.depth)
    (hh : t1.held = t.held) (hpr : t1.ofile = t.ofile ∧
      t1.cwd = t.cwd ∧ t1.child = t.child) (hfr : ∀ f', f' ≠ f → t1.fr f' = t.fr f')
    (href : ff.ref - (w.ftable f).ref = t1.fr f - t.fr f) (hfree : ff.ref = 0 → ff.type = .none)
    (hir : ∀ k, fileCount ff k - fileCount (w.ftable f) k + (t1.ir k - t.ir k) = 0)
    (hfresh : ∀ f' ∈ t1.fresh, (f' ≠ f ∧ f' ∈ t.fresh) ∨
      (f' = f ∧ ff.ref = 1 ∧ ff.type = .none)) (hfresh' : ∀ q u, q ≠ p → g q = some u → f ∉ u.fresh)
    (huse : ∀ f' k, t1.use = some (f', k) → Points ((w.setFile f ff).ftable f') k)
    (huse' : ∀ q u k, q ≠ p → g q = some u → u.use = some (f, k) → Points ff k) :
    RefInv (w.setFile f ff) es (update g p (some t1)) where
  ok := h.ok_update hok
  tx := h.tx.congr rfl (by rw [ht, depthOf, depthOf, hd])
  lock := h.lock.congr (fun _ => rfl) (by rw [ht]; exact hh)
  iref := h.iref.change ht (ProcSame.of_eq rfl).shares fun k => by
    rw [files_change (setFile_other w ff) k, setFile_self]
    have h1 := hir k
    simp only [World.setFile]
    omega
  file := h.file.change ht (ProcSame.of_eq rfl).shares
    (fun f' hf' => ⟨setFile_other w ff f' hf', hfr f' hf'⟩) (by rw [setFile_self]; exact href)
    (by rw [setFile_self]; exact hfree) (by rw [setFile_self]; exact hfresh) hfresh' huse
    (by rw [setFile_self]; exact huse')
  proc := h.proc.congr ht (ProcSame.of_eq rfl) hpr.1 hpr.2.1 hpr.2.2

-- A file with one reference is no other process's.
theorem RefInv.no_share (hone : (w.ftable f).ref = 1) (hf : 1 ≤ t.fr f) {q : Pid} {u : Th} (hq : q ≠ p) (hu : g q = some u) :
    u.fr f = 0 := by
  have h1 := h.file.add_le_ref h.ok f hq
  have h2 := (h.ok q u hu).fr_nonneg f
  rw [frOf_some hu, frOf_some ht] at h1
  omega

theorem RefInv.filealloc (hfree : (w.ftable f).ref = 0) :
    t.fr f = 0 ∧ RefInv (w.setFile f { w.ftable f with ref := 1 }) es
      (update g p (some ((t.fref f 1).withFresh (insert f t.fresh)))) := by
  have hok := h.ok p t ht
  have hnone : ∀ q u, g q = some u → u.fr f = 0 := by
    intro q u hq
    have h1 := h.file.le_ref h.ok f q
    have h2 := (h.ok q u hq).fr_nonneg f
    rw [frOf_some hq] at h1
    omega
  have htype := h.file.free f hfree
  have hpoints := not_points (.inl htype)
  have hold : ∀ f' ∈ t.fresh, f' ≠ f := by
    rintro f' hf' rfl
    have h1 := hok.fresh f' hf'
    have h2 := hnone p t ht
    omega
  refine ⟨hnone p t ht, h.onFile ht ⟨hok.ir_nonneg, fun f' => ?_, hok.claim, fun f' k hu => ?_, fun f' hf' => ?_⟩
    rfl rfl ⟨rfl, rfl, rfl⟩ (fun f' hf' => bump_ne _ _ hf') ?_ (fun h0 => by cases h0) (fun k => ?_)
    (fun f' hf' => ?_) (fun q u _ hq hfr => ?_) (fun f' k hu => ?_) fun q u k _ hq hu => ?_⟩
  · exact le_trans (hok.fr_nonneg f') (le_bump _ _ _ (by decide))
  · have hu' := hok.use f' k hu
    have hne : f' ≠ f := by
      rintro rfl
      have h1 := hnone p t ht
      omega
    refine ⟨?_, fun h1 => (Set.mem_insert_iff.mp h1).elim hne hu'.2⟩
    change 1 ≤ bump t.fr f 1 f'
    rw [bump_ne _ _ hne]
    exact hu'.1
  · change bump t.fr f 1 f' = 1
    rcases Set.mem_insert_iff.mp hf' with rfl | hf'
    · rw [bump_self, hnone p t ht]
      rfl
    · rw [bump_ne _ _ (hold f' hf'), hok.fresh f' hf']
  · change 1 - (w.ftable f).ref = bump t.fr f 1 f - t.fr f
    rw [bump_self, hfree]
    omega
  · have h1 : ¬Points { w.ftable f with ref := 1 } k := hpoints k
    rw [fileCount_of_not h1, fileCount_of_not (hpoints k)]
    simp [Th.withFresh, Th.fref]
  · rcases Set.mem_insert_iff.mp hf' with rfl | hf'
    · exact .inr ⟨rfl, rfl, htype⟩
    · exact .inl ⟨hold f' hf', hf'⟩
  · have h1 := (h.file.fresh q u f hq hfr).1
    omega
  · have hu' := (hok.use f' k hu).1
    have hne : f' ≠ f := by
      rintro rfl
      have h1 := hnone p t ht
      omega
    rw [setFile_other w _ f' hne]
    exact h.file.use p t f' k ht hu
  · have h1 := ((h.ok q u hq).use f k hu).1
    have h2 := hnone q u hq
    omega

theorem RefInv.filedup (hf : 1 ≤ t.fr f) (hfresh : f ∉ t.fresh) :
    RefInv (w.setFile f { w.ftable f with ref := (w.ftable f).ref + 1 }) es
      (update g p (some (t.fref f 1))) := by
  have hok := h.ok p t ht
  have hpos := h.file.le_ref h.ok f p
  rw [frOf_some ht] at hpos
  have hle : ∀ f', t.fr f' ≤ (t.fref f 1).fr f' := fun f' => le_bump _ _ _ (by decide)
  have hne : ∀ f' ∈ t.fresh, f' ≠ f := by
    rintro f' hf' rfl
    exact hfresh hf'
  refine h.onFile ht ⟨hok.ir_nonneg, fun f' => le_trans (hok.fr_nonneg f') (hle f'), hok.claim,
      fun f' k hu => ⟨le_trans (hok.use f' k hu).1 (hle f'), (hok.use f' k hu).2⟩, fun f' hf' => ?_⟩
    rfl rfl ⟨rfl, rfl, rfl⟩ (fun f' hf' => bump_ne _ _ hf') ?_ (fun h0 => ?_) (fun k => ?_)
    (fun f' hf' => ?_) (fun q u hq hu => h.file.not_fresh h.ok ht hf hu hq) (fun f' k hu => ?_)
    fun q u k _ hq hu => ?_
  · change bump t.fr f 1 f' = 1
    rw [bump_ne _ _ (hne f' hf'), hok.fresh f' hf']
  · change (w.ftable f).ref + 1 - (w.ftable f).ref = bump t.fr f 1 f - t.fr f
    rw [bump_self]
    omega
  · change (w.ftable f).ref + 1 = 0 at h0
    omega
  · rw [fileCount_withRef _ (by omega)]
    simp [Th.fref]
  · exact .inl ⟨hne f' hf', hf'⟩
  · have hp := h.file.use p t f' k ht hu
    by_cases hff : f' = f
    · subst hff
      rw [setFile_self]
      exact hp
    · rwa [setFile_other w _ f' hff]
  · exact h.file.use q u f k hq hu

theorem RefInv.unref (hf : 1 ≤ t.fr f) (hu : t.use = none) (hpos : 0 < (w.ftable f).ref - 1) :
    f ∉ t.fresh ∧ RefInv (w.setFile f { w.ftable f with ref := (w.ftable f).ref - 1 }) es
      (update g p (some (t.fref f (-1)))) := by
  have hok := h.ok p t ht
  have hnone : f ∉ t.fresh := by
    intro hf'
    have h1 := (h.file.fresh p t f ht hf').1
    omega
  have hne : ∀ f' ∈ t.fresh, f' ≠ f := by
    rintro f' hf' rfl
    exact hnone hf'
  refine ⟨hnone, h.onFile ht ⟨hok.ir_nonneg, hok.unref_nonneg hf, hok.claim, fun f' k hu' => ?_, fun f' hf' => ?_⟩
    rfl rfl ⟨rfl, rfl, rfl⟩ (fun f' hf' => bump_ne _ _ hf') ?_ (fun h0 => ?_) (fun k => ?_)
    (fun f' hf' => ?_) (fun q u hq hgu => h.file.not_fresh h.ok ht hf hgu hq) (fun f' k hu' => ?_)
    fun q u k _ hq hu' => ?_⟩
  · cases hu.symm.trans hu'
  · rw [fr_unref, if_neg (hne f' hf'), hok.fresh f' hf']
    rfl
  · change (w.ftable f).ref - 1 - (w.ftable f).ref = (t.fref f (-1)).fr f - t.fr f
    rw [fr_unref, if_pos rfl]
    omega
  · change (w.ftable f).ref - 1 = 0 at h0
    omega
  · rw [fileCount_withRef _ (by omega)]
    simp [Th.fref]
  · exact .inl ⟨hne f' hf', hf'⟩
  · cases hu.symm.trans hu'
  · exact h.file.use q u f k hq hu'

-- The last reference to a file is given up, and what it pointed to is the caller's.
theorem RefInv.close (hf : 1 ≤ t.fr f) (hu : t.use = none) (hone : (w.ftable f).ref = 1) :
    (f ∈ t.fresh → (w.ftable f).type = .none) ∧ RefInv (w.setFile f { w.ftable f with ref := 0, type := .none }) es
        (update g p (some (((t.fref f (-1)).takeRef (w.ftable f)).withFresh (t.fresh \ {f})))) := by
  have hok := h.ok p t ht
  have hclaim : ∀ k ∈ t.held, 1 ≤ t.ir k := fun k hk => (hok.claim k hk).resolve_right fun ⟨f', hf'⟩ => by
    rw [hu] at hf'
    cases hf'
  refine ⟨fun hfr => (h.file.fresh p t f ht hfr).2, h.onFile ht
    ⟨fun k => ?_, hok.unref_nonneg hf, fun k hk => .inl ?_, fun f' k hu' => ?_, fun f' hf' => ?_⟩
    rfl rfl ⟨rfl, rfl, rfl⟩ (fun f' hf' => bump_ne _ _ hf') ?_ (fun _ => rfl) (fun k => ?_)
    (fun f' hf' => .inl ⟨hf'.2, hf'.1⟩) (fun q u hq hgu => h.file.not_fresh h.ok ht hf hgu hq) (fun f' k hu' => ?_)
    fun q u k hq hgu hu' => ?_⟩
  · change 0 ≤ t.ir k + if Points (w.ftable f) k then 1 else 0
    have h1 := hok.ir_nonneg k
    split <;> omega
  · change 1 ≤ t.ir k + if Points (w.ftable f) k then 1 else 0
    have h1 := hclaim k hk
    split <;> omega
  · cases hu.symm.trans hu'
  · change (t.fref f (-1)).fr f' = 1
    rw [fr_unref, if_neg (show f' ≠ f from hf'.2), hok.fresh f' hf'.1]
    rfl
  · change 0 - (w.ftable f).ref = (t.fref f (-1)).fr f - t.fr f
    rw [fr_unref, if_pos rfl]
    omega
  · have h1 : ¬Points { w.ftable f with ref := 0, type := .none } k := fun hp => by simp [Points] at hp
    rw [fileCount_of_not h1, fileCount_of_pos (by omega)]
    change 0 - _ + (t.ir k + (if Points (w.ftable f) k then 1 else 0) - t.ir k) = 0
    omega
  · cases hu.symm.trans hu'
  · have h1 := ((h.ok q u hgu).use f k hu').1
    have h2 := h.no_share ht hone hf hq hgu
    omega

theorem RefInv.publish (hf : f ∈ t.fresh) (hp : Points ff k)
    (hr : ff.ref = (w.ftable f).ref) (hok : (((t.ref k (-1)).withFresh (t.fresh \ {f})).withUse (some (f, k))).Ok) :
    RefInv (w.setFile f ff) es
      (update g p (some (((t.ref k (-1)).withFresh (t.fresh \ {f})).withUse (some (f, k))))) := by
  obtain ⟨hone, htype⟩ := h.file.fresh p t f ht hf
  have hfr := (h.ok p t ht).fresh f hf
  refine h.onFile ht hok rfl rfl ⟨rfl, rfl, rfl⟩ (fun _ _ => rfl) ?_ (fun h0 => ?_) (fun j => ?_)
    (fun f' hf' => .inl ⟨hf'.2, hf'.1⟩) (fun q u hq hgu => h.file.not_fresh h.ok ht (by omega) hgu hq)
    (fun f' j hu => ?_) fun q u j hq hgu hu => ?_
  · rw [hr]
    change _ = t.fr f - t.fr f
    omega
  · omega
  · have h1 := not_points (.inl htype) j
    have h2 : Points ff j ↔ j = k := by
      constructor
      · intro hj
        exact Option.some.inj (hj.2.symm.trans hp.2)
      · rintro rfl
        exact hp
    rw [fileCount_of_not h1, fileCount_of_pos (by omega)]
    change _ - _ + (bump t.ir k (-1) j - t.ir j) = 0
    simp only [h2, bump]
    split <;> omega
  · obtain ⟨rfl, rfl⟩ := Prod.mk.injEq .. ▸ Option.some.inj hu
    rw [setFile_self]
    exact hp
  · have h1 := ((h.ok q u hgu).use f j hu).1
    have h2 := h.no_share ht hone (by omega) hq hgu
    omega

theorem RefInv.setPipe (hf : f ∈ t.fresh) (hp : ff.type = .pipe) (hr : ff.ref = (w.ftable f).ref) :
    RefInv (w.setFile f ff) es (update g p (some (t.withFresh (t.fresh \ {f})))) := by
  obtain ⟨hone, htype⟩ := h.file.fresh p t f ht hf
  have hok := h.ok p t ht
  have hfr := hok.fresh f hf
  refine h.onFile ht ⟨hok.ir_nonneg, hok.fr_nonneg, hok.claim, fun f' k hu => ?_, fun f' hf' => hok.fresh f' hf'.1⟩
    rfl rfl ⟨rfl, rfl, rfl⟩ (fun _ _ => rfl) ?_ (fun h0 => ?_) (fun j => ?_)
    (fun f' hf' => .inl ⟨hf'.2, hf'.1⟩) (fun q u hq hgu => h.file.not_fresh h.ok ht (by omega) hgu hq)
    (fun f' j hu => ?_) fun q u j hq hgu hu => ?_
  · exact ⟨(hok.use f' k hu).1, fun h1 => (hok.use f' k hu).2 h1.1⟩
  · rw [hr]
    change _ = t.fr f - t.fr f
    omega
  · omega
  · rw [fileCount_of_not (not_points (.inl htype) j), fileCount_of_not (not_points (.inr hp) j)]
    simp [Th.withFresh]
  · have hne : f' ≠ f := by
      rintro rfl
      exact (hok.use f' j hu).2 hf
    rw [setFile_other w ff f' hne]
    exact h.file.use p t f' j ht hu
  · have h1 := ((h.ok q u hgu).use f j hu).1
    have h2 := h.no_share ht hone (by omega) hq hgu
    omega

end Files

section Processes

theorem RefInv.setProc {q : Pid} {pr : Proc} {ofile : Fin NOFILE → Option Fd} {cwd : Option Slot} {child : Option Child}
    (h : RefInv w es g) (ht : g p = some t) (hshare : SharesSame w (w.setProc q pr) g p)
    (hproc : ProcInv (w.setProc q pr) (update g p (some { t with ofile, cwd, child }))) :
    RefInv (w.setProc q pr) es (update g p (some { t with ofile, cwd, child })) := by
  have hok := h.ok p t ht
  exact
    { ok := h.ok_update ⟨hok.ir_nonneg, hok.fr_nonneg, hok.claim, hok.use, hok.fresh⟩
      tx := h.tx.congr rfl (by rw [ht]; rfl)
      lock := h.lock.congr (fun _ => rfl) (by rw [ht]; rfl)
      iref := h.iref.congr ht hshare (FileSame.of_eq rfl) (fun _ => rfl) rfl
      file := h.file.congr ht hshare (FileSame.of_eq rfl) rfl rfl fun f k => h.file.use p t f k ht
      proc := hproc }

theorem RefInv.ownProc (h : RefInv w es g) (pr : Proc) (ht : g p = some t)
    (hs : pr.state = (w.proc p).state) : RefInv (w.setProc p pr) es
      (update g p (some { t with ofile := pr.ofile, cwd := pr.cwd })) := by
  have hother := setProc_other (q := p) w pr
  have hself := setProc_self (q := p) w pr
  have hstate : ∀ q, ((w.setProc p pr).proc q).state = (w.proc q).state := field_update Proc.state hs
  have hshare : SharesSame w (w.setProc p pr) g p := sharesSame_of fun q hq _ => by
    rw [hother q hq]
    exact ⟨Iff.rfl, .inr ⟨rfl, rfl⟩⟩
  apply h.setProc ht hshare
  exact h.proc.set ht hstate (fun q hq => by rw [hother q hq]; exact ⟨rfl, rfl⟩)
    (by rw [hself]; exact ⟨rfl, rfl⟩) rfl

theorem ProcInv.family {cp : Pid} (h : ProcInv w g) (ht : g p = some t) (hother : ∀ q, q ≠ cp → w'.proc q = w.proc q)
    (hcp : g cp = none) (hnot : ∀ q u ch, q ≠ p → g q = some u → u.child = some ch → ch.pid ≠ cp)
    (hold : ∀ ch, t.child = some ch → ch.pid = cp)
    (hnew : ∀ ch, t1.child = some ch → ch.pid = cp ∧ (w'.proc cp).state = .used ∧
      (w'.proc cp).ofile = ch.ofile ∧ (w'.proc cp).cwd = ch.cwd) (hnone : t1.child = none → (w'.proc cp).state ≠ .used)
    (hgone : (w'.proc cp).state = .unused ∨ (w'.proc cp).state = .zombie →
      (w'.proc cp).ofile = (fun _ => none) ∧ (w'.proc cp).cwd = none) (ho : t1.ofile = t.ofile)
    (hc : t1.cwd = t.cwd) : ProcInv w' (update g p (some t1)) := by
  have hne : ∀ q u, g q = some u → q ≠ cp := by
    rintro q u hq rfl
    rw [hcp] at hq
    cases hq
  refine ⟨fun q u hq => ?_, fun q u ch hq hch => ?_, fun q q' u u' ch ch' hq hq' hch hch' heq => ?_,
    fun q hq => ?_, fun q hq => ?_⟩
  · rcases update_eq_some hq with ⟨rfl, rfl⟩ | ⟨-, hq⟩
    · rw [hother q (hne q t ht), ho, hc]
      exact h.own q t ht
    · rw [hother q (hne q u hq)]
      exact h.own q u hq
  · rcases update_eq_some hq with ⟨rfl, rfl⟩ | ⟨hqp, hq⟩
    · obtain ⟨h1, h2⟩ := hnew ch hch
      rw [h1]
      exact h2
    · rw [hother _ (hnot q u ch hqp hq hch)]
      exact h.child q u ch hq hch
  · by_cases hqp : q = p <;> by_cases hqp' : q' = p
    · rw [hqp, hqp']
    · subst hqp
      rw [update_self, Option.some.injEq] at hq
      rw [update_of_ne hqp'] at hq'
      subst hq
      exact absurd (heq ▸ (hnew ch hch).1) (hnot q' u' ch' hqp' hq' hch')
    · subst hqp'
      rw [update_self, Option.some.injEq] at hq'
      rw [update_of_ne hqp] at hq
      subst hq'
      exact absurd (heq ▸ (hnew ch' hch').1) (hnot q u ch hqp hq hch)
    · rw [update_of_ne hqp] at hq
      rw [update_of_ne hqp'] at hq'
      exact h.only q q' u u' ch ch' hq hq' hch hch' heq
  · by_cases hqc : q = cp
    · subst hqc
      match hch : t1.child with
      | some ch => exact ⟨p, t1, ch, update_self .., hch, (hnew ch hch).1⟩
      | none => exact absurd hq (hnone hch)
    rw [hother q hqc] at hq
    obtain ⟨x, u, ch, hx, hch, hpid⟩ := h.used q hq
    have hxp : x ≠ p := by
      rintro rfl
      rw [ht] at hx
      cases hx
      exact hqc (hpid ▸ hold ch hch)
    exact ⟨x, u, ch, by rwa [update_of_ne hxp], hch, hpid⟩
  · by_cases hqc : q = cp
    · subst hqc
      exact hgone hq
    · rw [hother q hqc] at hq ⊢
      exact h.gone q hq

variable {ch : Child}

theorem ProcInv.child_idle (h : ProcInv w g) (ht : g p = some t) (hch : t.child = some ch) :
    g ch.pid = none ∧ ∀ q u ch', q ≠ p → g q = some u → u.child = some ch' → ch'.pid ≠ ch.pid := by
  constructor
  · match hg : g ch.pid with
    | none => rfl
    | some u => exact absurd (h.child p t ch ht hch).1 (h.own ch.pid u hg).2.2.2.1
  · intro q u ch' hq hu hch' heq
    exact hq (h.only q p u t ch' ch hu ht hch' hch heq)

theorem RefInv.childProc (h : RefInv w es g) (pr : Proc) (ht : g p = some t) (hch : t.child = some ch)
    (hs : pr.state = (w.proc ch.pid).state) : RefInv (w.setProc ch.pid pr) es
      (update g p (some (t.withChild (some { ch with ofile := pr.ofile, cwd := pr.cwd })))) := by
  have hother := setProc_other (q := ch.pid) w pr
  have hself := setProc_self (q := ch.pid) w pr
  obtain ⟨hidle, honly⟩ := h.proc.child_idle ht hch
  have hused := (h.proc.child p t ch ht hch).1
  rw [hused] at hs
  have hshare : SharesSame w (w.setProc ch.pid pr) g p := sharesSame_of fun q _ _ => by
    by_cases hqc : q = ch.pid
    · subst hqc
      rw [hself, hs, hused]
      exact ⟨Iff.rfl, .inl rfl⟩
    · rw [hother q hqc]
      exact ⟨Iff.rfl, .inr ⟨rfl, rfl⟩⟩
  apply h.setProc ht hshare
  exact h.proc.family ht hother hidle honly
    (fun ch' hch' => by rw [hch, Option.some.injEq] at hch'; rw [hch'])
    (fun ch' hch' => by
      obtain rfl := Option.some.inj hch'
      rw [hself]
      exact ⟨rfl, hs, rfl, rfl⟩)
    (fun h => by cases h)
    (fun h => by rw [hself, hs] at h; rcases h with h | h <;> cases h) rfl rfl

variable (h : RefInv w es g) (ht : g p = some t)

include h ht

theorem RefInv.allocproc {np : Pid} (hch : t.child = none)
    (hnp : (w.proc np).state = .unused ∨ (w.proc np).state = .zombie) :
    RefInv (w.setProc np { w.proc np with state := .used }) es
      (update g p (some (t.withChild (some ⟨np, fun _ => none, none⟩)))) := by
  have hother := setProc_other (q := np) w { w.proc np with state := .used }
  have hself := setProc_self (q := np) w { w.proc np with state := .used }
  obtain ⟨hof, hcwd⟩ := h.proc.gone np hnp
  have hidle : g np = none := by
    match hg : g np with
    | none => rfl
    | some u => exact absurd hnp (not_or.mpr ⟨(h.proc.own np u hg).2.2.1, (h.proc.own np u hg).2.2.2.2⟩)
  have hshare : SharesSame w (w.setProc np { w.proc np with state := .used }) g p := by
    intro q hq t'
    unfold irOf frOf
    rw [update_of_ne hq]
    by_cases hqn : q = np
    · subst hqn
      rw [hself, hidle]
      simp [hof, hcwd, cwdCount, fdCount_none]
    · rw [hother q hqn]
      exact ⟨fun _ => rfl, fun _ => rfl⟩
  apply h.setProc ht hshare
  exact h.proc.family ht hother hidle
    (fun q u ch' _ hq hc heq => by
      have hu := (h.proc.child q u ch' hq hc).1
      rw [heq] at hu
      rcases hnp with hnp | hnp <;> rw [hnp] at hu <;> cases hu)
    (fun ch hc => by rw [hch] at hc; cases hc)
    (fun ch hc => by
      obtain rfl := Option.some.inj hc
      rw [hself]
      exact ⟨rfl, rfl, hof, hcwd⟩)
    (fun h => by cases h)
    (fun h => by rw [hself] at h; rcases h with h | h <;> cases h) rfl rfl

theorem RefInv.setState {st : ProcState} (hch : t.child = some ch)
    (hst : st = .runnable ∨ ((st = .unused ∨ st = .zombie) ∧ ch.ofile = (fun _ => none) ∧ ch.cwd = none))
    (hok : (t.release ch).Ok) : RefInv (w.setProc ch.pid { w.proc ch.pid with state := st }) es
      (update g p (some (t.release ch))) := by
  have hother := setProc_other (q := ch.pid) w { w.proc ch.pid with state := st }
  have hself := setProc_self (q := ch.pid) w { w.proc ch.pid with state := st }
  obtain ⟨hidle, honly⟩ := h.proc.child_idle ht hch
  obtain ⟨hused, hof, hcwd⟩ := h.proc.child p t ch ht hch
  have hne : p ≠ ch.pid := by
    intro heq
    rw [← heq, ht] at hidle
    cases hidle
  have hst' : st ≠ .used := by
    rcases hst with rfl | ⟨rfl | rfl, -⟩ <;> decide
  have hir : ∀ k, ∑ q, irOf (w.setProc ch.pid { w.proc ch.pid with state := st })
      (update g p (some (t.release ch))) k q = ∑ q, irOf w g k q := by
    intro k
    rw [sum_change₂ (X := irOf w g k) hne fun q hq hqc => by
      unfold irOf
      rw [update_of_ne hq, hother q hqc]]
    rw [irOf_some ht, irOf_some (update_self ..)]
    unfold irOf
    rw [update_of_ne hne.symm, hidle, hself]
    simp only [hused, hst', hcwd, if_true, if_false, Th.release]
    omega
  have hfr : ∀ f, ∑ q, frOf (w.setProc ch.pid { w.proc ch.pid with state := st })
      (update g p (some (t.release ch))) f q = ∑ q, frOf w g f q := by
    intro f
    rw [sum_change₂ (X := frOf w g f) hne fun q hq hqc => by
      unfold frOf
      rw [update_of_ne hq, hother q hqc]]
    rw [frOf_some ht, frOf_some (update_self ..)]
    unfold frOf
    rw [update_of_ne hne.symm, hidle, hself]
    simp only [hused, hst', hof, if_true, if_false, Th.release]
    omega
  have hsame : ∀ q u, update g p (some (t.release ch)) q = some u →
      ∃ u', g q = some u' ∧ u.fresh = u'.fresh ∧ u.use = u'.use := by
    intro q u hq
    rcases update_eq_some hq with ⟨rfl, rfl⟩ | ⟨-, hq⟩
    · exact ⟨t, ht, rfl, rfl⟩
    · exact ⟨u, hq, rfl, rfl⟩
  exact
    { ok := h.ok_update hok
      tx := h.tx.congr rfl (by rw [ht]; rfl)
      lock := h.lock.congr (fun _ => rfl) (by rw [ht]; rfl)
      iref := fun k => by
        rw [hir k]
        exact h.iref k
      file := by
        refine ⟨fun f => by rw [hfr f]; exact h.file.fref f, h.file.free, fun q u f hq hf => ?_,
          fun q u f k hq hu => ?_⟩
        · obtain ⟨u', hu', h1, -⟩ := hsame q u hq
          exact h.file.fresh q u' f hu' (h1 ▸ hf)
        · obtain ⟨u', hu', -, h2⟩ := hsame q u hq
          exact h.file.use q u' f k hu' (h2 ▸ hu)
      proc := h.proc.family ht hother hidle honly
        (fun ch' hch' => by rw [hch, Option.some.injEq] at hch'; rw [hch'])
        (fun ch' hch' => by cases hch')
        (fun _ => by rw [hself]; exact hst')
        (fun hs => by
          rw [hself] at hs ⊢
          rcases hst with rfl | ⟨-, ho, hc⟩
          · rcases hs with hs | hs <;> cases hs
          · exact ⟨hof.trans ho, hcwd.trans hc⟩) rfl rfl }

theorem RefInv.zombie (hd : t.depth = 0) (hh : t.held = ∅)
    (hi : ∀ k, t.ir k = 0) (hf : ∀ f, t.fr f = 0) (hc : t.child = none) (ho : t.ofile = fun _ => none)
    (hcwd : t.cwd = none) :
    RefInv ((w.reparent p).setProc p { (w.reparent p).proc p with state := .zombie }) es
      (update g p none) := by
  have hfields : ∀ q, ((w.reparent p).proc q).state = (w.proc q).state ∧
      ((w.reparent p).proc q).ofile = (w.proc q).ofile ∧ ((w.reparent p).proc q).cwd = (w.proc q).cwd := by
    intro q
    unfold World.reparent
    dsimp only
    split <;> exact ⟨rfl, rfl, rfl⟩
  have hother := setProc_other (q := p) (w.reparent p) { (w.reparent p).proc p with state := .zombie }
  have hself := setProc_self (q := p) (w.reparent p) { (w.reparent p).proc p with state := .zombie }
  obtain ⟨hof, hcw, hlive⟩ := h.proc.own p t ht
  have hgold : ∀ q u, update g p none q = some u → q ≠ p ∧ g q = some u := by
    intro q u hq
    by_cases hqp : q = p
    · subst hqp
      simp at hq
    · rw [update_of_ne hqp] at hq
      exact ⟨hqp, hq⟩
  have hir : ∀ k q, irOf ((w.reparent p).setProc p { (w.reparent p).proc p with state := .zombie })
      (update g p none) k q = irOf w g k q := by
    intro k q
    unfold irOf
    by_cases hqp : q = p
    · subst hqp
      rw [update_self, hself, ht]
      simp [(hfields q).2.2, hcw, hcwd, cwdCount, hi]
    · rw [update_of_ne hqp, hother q hqp, (hfields q).1, (hfields q).2.2]
  have hfr : ∀ f q, frOf ((w.reparent p).setProc p { (w.reparent p).proc p with state := .zombie })
      (update g p none) f q = frOf w g f q := by
    intro f q
    unfold frOf
    by_cases hqp : q = p
    · subst hqp
      rw [update_self, hself, ht]
      simp [(hfields q).2.1, hof, ho, fdCount_none, hf]
    · rw [update_of_ne hqp, hother q hqp, (hfields q).1, (hfields q).2.1]
  refine ⟨fun q u hq => h.ok q u (hgold q u hq).2, h.tx.congr rfl (by rw [ht, depthOf, depthOf, hd]; rfl),
    h.lock.congr (fun _ => rfl) (by rw [ht]; exact hh.symm), fun k => ?_, ⟨fun f => ?_, h.file.free,
      fun q u f hq hfr => h.file.fresh q u f (hgold q u hq).2 hfr,
      fun q u f k hq hu => h.file.use q u f k (hgold q u hq).2 hu⟩,
    ⟨fun q u hq => ?_, fun q u ch hq hch => ?_, fun q q' u u' ch ch' hq hq' =>
      h.proc.only q q' u u' ch ch' (hgold q u hq).2 (hgold q' u' hq').2, fun q hq => ?_, fun q hq => ?_⟩⟩
  · rw [Finset.sum_congr rfl fun q _ => hir k q]
    exact h.iref k
  · rw [Finset.sum_congr rfl fun q _ => hfr f q]
    exact h.file.fref f
  · obtain ⟨hqp, hgq⟩ := hgold q u hq
    rw [hother q hqp, (hfields q).1, (hfields q).2.1, (hfields q).2.2]
    exact h.proc.own q u hgq
  · obtain ⟨hqp, hgq⟩ := hgold q u hq
    have hcu := h.proc.child q u ch hgq hch
    have hne : ch.pid ≠ p := fun heq => hlive.2.1 (heq ▸ hcu.1)
    rw [hother _ hne, (hfields _).1, (hfields _).2.1, (hfields _).2.2]
    exact hcu
  · by_cases hqp : q = p
    · subst hqp
      rw [hself] at hq
      cases hq
    rw [hother q hqp, (hfields q).1] at hq
    obtain ⟨x, u, ch, hx, hch, hpid⟩ := h.proc.used q hq
    have hxp : x ≠ p := by
      rintro rfl
      rw [ht] at hx
      cases hx
      rw [hc] at hch
      cases hch
    exact ⟨x, u, ch, by rwa [update_of_ne hxp], hch, hpid⟩
  · by_cases hqp : q = p
    · subst hqp
      rw [hself]
      exact ⟨(hfields q).2.1.trans (hof.trans ho), (hfields q).2.2.trans (hcw.trans hcwd)⟩
    · rw [hother q hqp, (hfields q).1] at hq
      rw [hother q hqp, (hfields q).2.1, (hfields q).2.2]
      exact h.proc.gone q hq

end Processes

theorem ref_step {P : a.Res → Option Th → Prop} (h : RefInv w es g) (hr : RefRule p c a (g p) P)
    (hs : kernelStep a w = .done r w') : ∃ t', P r t' ∧ RefInv w' es (update g p t') := by
  generalize ht : g p = o at hr
  cases hr with
  | quiet t ha => exact ⟨_, rfl, h.quiet ht ha hs⟩
  | @beginOp t _ hd =>
    simp only [kernelStep] at hs
    split at hs
    · next log hlog =>
      cases hs
      refine ⟨_, rfl, h.transaction ht ?_ rfl⟩
      unfold Log.beginOp at hlog
      split at hlog
      · cases hlog
        change w.log.outstanding + 1 = w.log.outstanding + (((1 : Nat) : Int) - t.depth)
        rw [hd]
        rfl
      · cases hlog
    · cases hs
  | @endOp t hd =>
    simp only [kernelStep] at hs
    split at hs
    · next doCommit log hlog =>
      cases hs
      refine ⟨_, rfl, h.transaction ht ?_ rfl⟩
      have hout : log.outstanding = w.log.outstanding - 1 := by
        unfold Log.endOp at hlog
        dsimp only at hlog
        split at hlog
        · cases hlog
        · split at hlog <;> cases hlog <;> rfl
      rw [hout]
      change w.log.outstanding - 1 = w.log.outstanding + (((0 : Nat) : Int) - t.depth)
      rw [hd]
      rfl
    · cases hs
  | iget t dev inum =>
    simp only [kernelStep] at hs
    split at hs
    · cases hs
      exact ⟨_, rfl, h.count ht rfl rfl ((h.ok p t ht).ref _)⟩
    split at hs
    · next k hk =>
      cases hs
      have hfree := List.find?_some hk
      simp only [decide_eq_true_eq] at hfree
      exact ⟨_, rfl, h.count ht rfl (by rw [hfree]; rfl) ((h.ok p t ht).ref _)⟩
    · cases hs
  | idup t k =>
    cases hs
    exact ⟨_, rfl, h.count ht rfl rfl ((h.ok p t ht).ref _)⟩
  | perm t k =>
    cases hs
    have hok := h.ok p t ht
    exact ⟨_, rfl, h.keep ht (Unmoved.refl w) (ProcSame.of_eq rfl)
      ⟨hok.ir_nonneg, hok.fr_nonneg, hok.claim, hok.use, hok.fresh⟩ rfl rfl rfl rfl rfl
      (fun f k => h.file.use p t f k ht) rfl rfl rfl⟩
  | setMode t k mode =>
    cases hs
    have hok := h.ok p t ht
    refine ⟨_, rfl, ?_⟩
    have hm : Unmoved w (w.setInode k { w.itable k with
        din := { (w.itable k).din with mode := mode } }) := unmoved_setInode rfl rfl
    split
    · exact h.keep ht hm (ProcSame.of_eq rfl)
        ⟨hok.ir_nonneg, hok.fr_nonneg, hok.claim, hok.use, hok.fresh⟩ rfl rfl rfl rfl rfl
        (fun f k => h.file.use p t f k ht) rfl rfl rfl
    · exact h.keep ht hm (ProcSame.of_eq rfl) hok rfl rfl rfl rfl rfl
        (fun f k => h.file.use p t f k ht) rfl rfl rfl
  | acquiresleep hc =>
    simp only [kernelStep] at hs
    split at hs
    · next hfree =>
      cases hs
      obtain ⟨h1, h2⟩ := h.acquire ht hc hfree
      exact ⟨_, ⟨h1, rfl⟩, h2⟩
    · cases hs
  | releasesleep hk =>
    cases hs
    exact ⟨_, rfl, h.release ht hk⟩
  | @iputEnter t k hok =>
    simp only [kernelStep] at hs
    split at hs
    · split at hs
      · next hfree =>
        cases hs
        have hc : t.Claim k := by
          have h1 := hok.ir_nonneg k
          change 0 ≤ bump t.ir k (-1) k at h1
          rw [bump_self] at h1
          exact .inl (by omega)
        obtain ⟨h1, h2⟩ := h.acquire ht hc hfree
        exact ⟨_, ⟨h1, rfl⟩, h2⟩
      · cases hs
    · cases hs
      exact ⟨_, rfl, h.count ht rfl rfl hok⟩
  | iputLeave hok =>
    cases hs
    exact ⟨_, rfl, h.count ht rfl rfl hok⟩
  | filealloc t =>
    simp only [kernelStep] at hs
    split at hs
    · next f hf =>
      cases hs
      have hfree := List.find?_some hf
      simp only [decide_eq_true_eq] at hfree
      obtain ⟨h1, h2⟩ := h.filealloc ht hfree
      exact ⟨_, ⟨h1, rfl⟩, h2⟩
    · cases hs
      exact ⟨_, rfl, h.same ht⟩
  | filedup hf hfresh =>
    simp only [kernelStep] at hs
    split at hs
    · cases hs
    · cases hs
      exact ⟨_, rfl, h.filedup ht hf hfresh⟩
  | fileUnref hf hu =>
    simp only [kernelStep] at hs
    split at hs
    · cases hs
    split at hs
    · next hpos =>
      cases hs
      obtain ⟨h1, h2⟩ := h.unref ht hf hu hpos
      exact ⟨_, ⟨h1, rfl⟩, h2⟩
    · next hge hpos =>
      cases hs
      obtain ⟨h1, h2⟩ := h.close ht hf hu (by omega)
      exact ⟨_, ⟨h1, rfl⟩, h2⟩
  | @file t f hf hu =>
    cases hs
    have hok := h.ok p t ht
    by_cases hk : ∃ k, Points (w.ftable f) k
    · obtain ⟨k, hk⟩ := hk
      refine ⟨_, .inr ⟨k, hk, rfl⟩, h.keep ht (Unmoved.refl w) (ProcSame.of_eq rfl)
        ⟨hok.ir_nonneg, hok.fr_nonneg, fun j hj => ?_, fun f' j hj => ?_, hok.fresh⟩ rfl rfl rfl rfl rfl
        (fun f' j hj => ?_) rfl rfl rfl⟩
      · rcases hok.claim j hj with hc | ⟨f', hf'⟩
        · exact .inl hc
        · rw [hu.1] at hf'
          cases hf'
      · obtain ⟨rfl, rfl⟩ := Prod.mk.injEq .. ▸ Option.some.inj hj
        exact ⟨hf, hu.2⟩
      · obtain ⟨rfl, rfl⟩ := Prod.mk.injEq .. ▸ Option.some.inj hj
        exact hk
    · exact ⟨_, .inl ⟨rfl, fun k hk' => hk ⟨k, hk'⟩⟩, h.same ht⟩
  | setFile hf hk hg hu hok =>
    cases hs
    exact ⟨_, rfl, h.publish ht hf (hg _).1 (hg _).2 hok⟩
  | setPipe hf hg =>
    cases hs
    exact ⟨_, rfl, h.setPipe ht hf (hg _).1 (hg _).2⟩
  | reap t addrOk killed =>
    have hself : update g p (some t) = g := Function.update_eq_self_iff.mpr ht.symm
    refine ⟨_, rfl, ?_⟩
    rw [hself]
    simp only [kernelStep] at hs
    split at hs
    · next ch hch =>
      have hz := List.find?_some hch
      simp only [decide_eq_true_eq] at hz
      split at hs
      · cases hs
        exact h.reaped hz.2 rfl rfl rfl
      · cases hs
        exact h
    · split at hs
      · cases hs
        exact h
      · cases hs
  | proc t =>
    cases hs
    obtain ⟨h1, h2, -⟩ := h.proc.own p t ht
    exact ⟨_, ⟨rfl, h1, h2⟩, h.same ht⟩
  | setOfile t fd v =>
    cases hs
    obtain ⟨h1, h2, -⟩ := h.proc.own p t ht
    have hinv := h.ownProc { w.proc p with ofile := update (w.proc p).ofile fd v } ht rfl
    rw [h1] at hinv
    refine ⟨_, rfl, ?_⟩
    convert hinv using 3
    · rw [h1]
    · simp [Th.withOfile, h2]
  | @childOfile t ch hch fd v =>
    cases hs
    obtain ⟨-, h1, h2⟩ := h.proc.child p t ch ht hch
    have hinv := h.childProc { w.proc ch.pid with
      ofile := update (w.proc ch.pid).ofile fd v } ht hch rfl
    refine ⟨_, rfl, ?_⟩
    convert hinv using 3
    simp [h1, h2]
  | setCwd t cwd =>
    cases hs
    obtain ⟨h1, h2, -⟩ := h.proc.own p t ht
    have hinv := h.ownProc { w.proc p with cwd := cwd } ht rfl
    refine ⟨_, rfl, ?_⟩
    convert hinv using 3
    simp [Th.withCwd, h1]
  | @childCwd t ch hch cwd =>
    cases hs
    obtain ⟨-, h1, h2⟩ := h.proc.child p t ch ht hch
    have hinv := h.childProc { w.proc ch.pid with cwd := cwd } ht hch rfl
    refine ⟨_, rfl, ?_⟩
    convert hinv using 3
    simp [h1]
  | @allocproc t hch =>
    simp only [kernelStep] at hs
    split at hs
    · next np hnp =>
      cases hs
      have hfree := List.find?_some hnp
      simp only [decide_eq_true_eq] at hfree
      exact ⟨_, rfl, h.allocproc ht hch (.inl hfree)⟩
    · cases hs
      exact ⟨_, rfl, h.same ht⟩
  | setState ch hch hst hok =>
    cases hs
    exact ⟨_, rfl, h.setState ht hch hst hok⟩
  | zombie hd hh hi hl hf hc _ ho hcwd =>
    cases hs
    exact ⟨_, rfl, h.zombie ht hd hh (fun k => (hi k).trans (hl k)) hf hc ho hcwd⟩

end Fs
