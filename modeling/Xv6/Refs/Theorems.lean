import Xv6.Boot

-- What the counts say once calls have returned.

namespace Fs

open Prog List

section Lost

variable {es : Ended}

theorem leak_nonneg (c : Syscall) (past : List (Event kernelSig)) (k : Slot) : 0 ≤ (Track.after c past).leak k := by
  induction past using List.reverseRecOn with
  | nil => exact le_rfl
  | append_singleton past e ih =>
    rw [Track.after_snoc]
    obtain ⟨a, r⟩ := e
    cases a with
    | setMode j mode =>
      simp only [Track.next]
      split
      · exact le_trans ih (le_bump _ _ _ (by decide))
      · exact ih
    | _ => exact ih

theorem sum_eq_zero_iff {α : Type} {f : α → Int} {l : List α} (h : ∀ x ∈ l, 0 ≤ f x) :
    (l.map f).sum = 0 ↔ ∀ x ∈ l, f x = 0 := by
  induction l with
  | nil => simp
  | cons x xs ih =>
    have hx := h x (mem_cons_self ..)
    have hxs : 0 ≤ (xs.map f).sum := sum_nonneg fun y hy => by
      obtain ⟨z, hz, rfl⟩ := mem_map.mp hy
      exact h z (mem_cons_of_mem x hz)
    rw [map_cons, sum_cons, forall_mem_cons, ← ih fun y hy => h y (mem_cons_of_mem x hy)]
    omega

theorem lost_eq_zero : lost es = 0 ↔ ∀ c past, (c, past) ∈ es → (Track.after c past).denied = false := by
  unfold lost
  rw [sum_eq_zero_iff fun _ _ => by split <;> decide]
  simp

theorem leaked_eq_zero {k : Slot} : leaked es k = 0 ↔ ∀ c past, (c, past) ∈ es → (Track.after c past).leak k = 0 := by
  unfold leaked
  rw [sum_eq_zero_iff fun e _ => leak_nonneg e.1 e.2 k]
  simp

end Lost

section Idle

variable {sb : Superblock} {P : KernelPool} {g : Pid → Option Th}

theorem Running.outstanding (h : Running sb P g) (hi : ∀ p th, P.thread p = some th → logs th.call = false) :
    P.state.log.outstanding = lost P.ended := by
  have hd : ∀ p, depthOf (g p) = 0 := by
    intro p
    cases hp : P.thread p with
    | none => rw [h.idle p hp]; rfl
    | some th =>
      have hrec := h.thread p th hp
      have hb := hrec.logs (hi p th hp)
      have hdepth := hrec.depth
      rw [hb] at hdepth
      have hpos : 0 ≤ depthOf (g p) := by
        unfold depthOf
        split <;> omega
      omega
  rw [h.inv.tx, Finset.sum_eq_zero fun p _ => hd p, Int.zero_add]

theorem Running.ref (h : Running sb P g) (hi : ∀ p, P.thread p = none) (k : Slot) :
    (P.state.itable k).ref = files P.state k + cwds P.state k + leaked P.ended k := by
  have hir : irOf P.state g k = fun p => cwdCount (P.state.proc p).cwd k := by
    funext p
    have hused : (P.state.proc p).state ≠ .used := by
      intro hu
      obtain ⟨q, t, -, hq, -⟩ := h.inv.proc.used p hu
      rw [h.idle q (hi q)] at hq
      cases hq
    simp only [irOf, h.idle p (hi p), hused, if_false]
  rw [h.inv.iref k, hir]
  rfl

end Idle

-- No call begins an operation inside one, only an open that is refused does not end what it began,
-- and processes between calls hold no inode.
theorem transaction_balance {sb : Superblock} {w : World} (h : Settled w) {P : KernelPool}
    (hr : (machine sb).Reach (fun _ _ => True) (idlePool w) P) :
    (∀ p th, P.thread p = some th → (Track.after th.call th.past).nested = false) ∧
    (∀ c past, (c, past) ∈ P.ended → (Track.after c past).nested = false ∧
      ((Track.after c past).begins = (Track.after c past).ends ↔ (Track.after c past).denied = false)) ∧
    (∀ p k, P.thread p = none → (P.state.itable k).lock ≠ some p) ∧
    ((∀ p th, P.thread p = some th → logs th.call = false) → (P.state.log.outstanding = 0 ↔
        ∀ c past, (c, past) ∈ P.ended → (Track.after c past).denied = false)) := by
  obtain ⟨g, hg⟩ := running_of_reach h hr
  refine ⟨fun p th hp => (hg.thread p th hp).nested, fun c past hmem => ?_, fun p k hp hk => ?_, fun hi => ?_⟩
  · have hret := hg.ended c past hmem
    refine ⟨hret.nested, ?_⟩
    rw [hret.depth]
    cases (Track.after c past).denied <;> simp
  · have hheld := (hg.inv.lock k p).mp hk
    rw [hg.idle p hp] at hheld
    exact hheld
  · rw [hg.outstanding hi, lost_eq_zero]

theorem open_run : ∃ P, (machine tiny).Reach (fun _ _ => True) (idlePool (boot tiny readOnlyDisk)) P ∧
    P.ended.length = 1 ∧ (∀ e ∈ P.ended, (Track.after e.1 e.2).denied = false ∧ ∀ k, (Track.after e.1 e.2).leak k = 0) ∧
    (∀ p, P.thread p = none) ∧ (P.state.proc 0).state ≠ .used ∧ ((P.state.proc 0).ofile 0).isSome := by
  have hrun : ((machine tiny).run (oneCall 0 (.open (some (SLASH :: F)) O_RDONLY) 41)
      (idlePool (boot tiny readOnlyDisk))).any (fun P => decide (P.ended.length = 1 ∧
        (∀ e ∈ P.ended, (Track.after e.1 e.2).denied = false ∧ ∀ k, (Track.after e.1 e.2).leak k = 0) ∧
        (∀ p, (P.thread p).isNone) ∧ (P.state.proc 0).state ≠ .used ∧ ((P.state.proc 0).ofile 0).isSome)) = true := by
    decide
  obtain ⟨P, hP, hf⟩ := Machine.reach_of_any hrun
  simp only [decide_eq_true_eq, Option.isNone_iff_eq_none] at hf
  exact ⟨P, hP, hf⟩

theorem transaction_balance_open : ∃ P, (machine tiny).Reach (fun _ _ => True)
    (idlePool (boot tiny readOnlyDisk)) P ∧ P.ended.length = 1 ∧ P.state.log.outstanding = 0 := by
  obtain ⟨P, hP, hlen, hok, hidle, -⟩ := open_run
  refine ⟨P, hP, hlen, ((transaction_balance (settled_boot _ _) hP).2.2.2 fun p th hp => ?_).mpr
    fun c past hmem => (hok (c, past) hmem).1⟩
  rw [hidle p] at hp
  cases hp

-- An open for writing of a file that may only be read keeps its operation.
theorem not_transaction_balance : ∃ P, (machine tiny).Reach (fun _ _ => True)
    (idlePool (boot tiny readOnlyDisk)) P ∧ (∀ p, P.thread p = none) ∧
    P.ended.map (fun e => ((Track.after e.1 e.2).begins, (Track.after e.1 e.2).ends)) = [(1, 0)] ∧
    P.state.log.outstanding = 1 := by
  have hrun : ((machine tiny).run (oneCall 0 (.open (some (SLASH :: F)) O_WRONLY) 34)
      (idlePool (boot tiny readOnlyDisk))).any (fun P => decide (∀ p, (P.thread p).isNone) &&
        decide (P.ended.map (fun e => ((Track.after e.1 e.2).begins, (Track.after e.1 e.2).ends)) = [(1, 0)]) &&
        decide (P.state.log.outstanding = 1)) = true := by
    decide
  obtain ⟨P, hP, hf⟩ := Machine.reach_of_any hrun
  simp only [Bool.and_eq_true, decide_eq_true_eq, Option.isNone_iff_eq_none] at hf
  exact ⟨P, hP, hf.1.1, hf.1.2, hf.2⟩

-- Between calls the counts of inodes are exact exactly when no chmod has changed a mode.
theorem inode_refs_exact {sb : Superblock} {w : World} (h : Settled w) {P : KernelPool}
    (hr : (machine sb).Reach (fun _ _ => True) (idlePool w) P) (hi : ∀ p, P.thread p = none) :
    (∀ k, (P.state.itable k).ref = files P.state k + cwds P.state k) ↔
      ∀ c past, (c, past) ∈ P.ended → ∀ k, (Track.after c past).leak k = 0 := by
  obtain ⟨g, hg⟩ := running_of_reach h hr
  have hk : ∀ k, (P.state.itable k).ref = files P.state k + cwds P.state k ↔
      ∀ c past, (c, past) ∈ P.ended → (Track.after c past).leak k = 0 := by
    intro k
    rw [hg.ref hi k, ← leaked_eq_zero]
    omega
  simp only [hk]
  exact ⟨fun h c past hmem k => h k c past hmem, fun h k c past hmem => h c past hmem k⟩

theorem inode_refs_exact_open : ∃ P, (machine tiny).Reach (fun _ _ => True)
    (idlePool (boot tiny readOnlyDisk)) P ∧ P.ended.length = 1 ∧
    ∀ k, (P.state.itable k).ref = files P.state k + cwds P.state k := by
  obtain ⟨P, hP, hlen, hok, hidle, -⟩ := open_run
  exact ⟨P, hP, hlen, (inode_refs_exact (settled_boot _ _) hP hidle).mpr
    fun c past hmem => (hok (c, past) hmem).2⟩

-- A call of chmod leaves a reference that no file and no directory accounts for.
theorem not_inode_refs_exact : ∃ P, (machine tiny).Reach (fun _ _ => True)
    (idlePool (boot tiny readOnlyDisk)) P ∧ (∀ p, P.thread p = none) ∧
    ∃ k, (P.state.itable k).ref = 1 ∧ files P.state k + cwds P.state k = 0 := by
  have hrun : ((machine tiny).run (oneCall 0 (.chmod (some (SLASH :: F)) 6) 36)
      (idlePool (boot tiny readOnlyDisk))).any (fun P => decide (∀ p, (P.thread p).isNone) &&
        decide ((P.state.itable 1).ref = 1 ∧ (∀ f, (P.state.ftable f).ref = 0) ∧
          ∀ p, (P.state.proc p).cwd ≠ some 1)) = true := by
    decide
  obtain ⟨P, hP, hf⟩ := Machine.reach_of_any hrun
  simp only [Bool.and_eq_true, decide_eq_true_eq, Option.isNone_iff_eq_none] at hf
  obtain ⟨hidle, href, hfiles, hcwd⟩ := hf
  refine ⟨P, hP, hidle, 1, href, ?_⟩
  simp [files, fileCount, cwds, cwdCount, hfiles, hcwd]

theorem RefInv.fr_nonneg {w : World} {es : Ended} {g : Pid → Option Th} (h : RefInv w es g) (f : Fd) (p : Pid) :
    0 ≤ frOf w g f p := by
  unfold frOf
  split
  · next t ht => exact (h.ok p t ht).fr_nonneg f
  · split
    · exact le_rfl
    · exact fdCount_nonneg _ f

-- In every run from a settled state: what a process between calls has open is not given away,
-- whatever other processes are at; a zombie has nothing open; and between calls the reference
-- counts of files are exact.
theorem file_refs_exact {sb : Superblock} {w : World} (h : Settled w) {P : KernelPool}
    (hr : (machine sb).Reach (fun _ _ => True) (idlePool w) P) :
    (∀ p fd f, P.thread p = none → (P.state.proc p).state ≠ .used → (P.state.proc p).ofile fd = some f →
      1 ≤ (P.state.ftable f).ref) ∧
    (∀ p, (P.state.proc p).state = .zombie →
      (P.state.proc p).ofile = (fun _ => none) ∧ (P.state.proc p).cwd = none) ∧
    ((∀ p, P.thread p = none) → ∀ f, (P.state.ftable f).ref = ∑ p, fdCount (P.state.proc p).ofile f ∧
      ((P.state.ftable f).ref = 0 → (P.state.ftable f).type = .none)) := by
  obtain ⟨g, hg⟩ := running_of_reach h hr
  have hown : ∀ p f, P.thread p = none → (P.state.proc p).state ≠ .used →
      frOf P.state g f p = fdCount (P.state.proc p).ofile f := by
    intro p f hp hu
    simp only [frOf, hg.idle p hp, hu, if_false]
  refine ⟨fun p fd f hp hu hfd => ?_, fun p hz => hg.inv.proc.gone p (.inr hz), fun hi f => ⟨?_, hg.inv.file.free f⟩⟩
  · have hle := Finset.single_le_sum (fun q _ => hg.inv.fr_nonneg f q) (Finset.mem_univ p)
    have hpos := fdCount_pos hfd
    rw [hown p f hp hu] at hle
    rw [hg.inv.file.fref f]
    omega
  · rw [hg.inv.file.fref f]
    refine Finset.sum_congr rfl fun p _ => hown p f (hi p) fun hu => ?_
    obtain ⟨q, t, -, hq, -⟩ := hg.inv.proc.used p hu
    rw [hg.idle q (hi q)] at hq
    cases hq

-- The descriptor that an open returns.
theorem file_refs_exact_open : ∃ P, (machine tiny).Reach (fun _ _ => True)
    (idlePool (boot tiny readOnlyDisk)) P ∧ P.ended.length = 1 ∧
    ∃ f, (P.state.proc 0).ofile 0 = some f ∧ 1 ≤ (P.state.ftable f).ref := by
  obtain ⟨P, hP, hlen, -, hidle, hused, hopen⟩ := open_run
  obtain ⟨f, hfd⟩ := Option.isSome_iff_exists.mp hopen
  exact ⟨P, hP, hlen, f, hfd, (file_refs_exact (settled_boot _ _) hP).1 0 0 f (hidle 0) hused hfd⟩

end Fs
