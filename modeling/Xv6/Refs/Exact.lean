import Xv6.Refs.Sound
import Xv6.Refs.Syscalls

-- The counts in every state that system calls reach, however they interleave.

namespace Fs

open Prog List Function

-- No call is in progress, and the tables of the kernel agree. The file system's contents are left
-- open.
structure Settled (w : World) : Prop where
  outstanding : w.log.outstanding = 0
  lock : ∀ k, (w.itable k).lock = none
  iref : ∀ k, (w.itable k).ref = files w k + cwds w k
  fref : ∀ f, (w.ftable f).ref = ∑ p, fdCount (w.proc p).ofile f
  free : ∀ f, (w.ftable f).ref = 0 → (w.ftable f).type = .none
  used : ∀ p, (w.proc p).state ≠ .used
  gone : ∀ p, (w.proc p).state = .unused ∨ (w.proc p).state = .zombie →
    (w.proc p).ofile = (fun _ => none) ∧ (w.proc p).cwd = none

def idlePool (w : World) : KernelPool := ⟨w, fun _ => none, []⟩

theorem refInv_of_settled {w : World} (h : Settled w) : RefInv w [] fun _ => none where
  ok _ _ hp := by cases hp
  tx := by
    unfold TxInv
    rw [h.outstanding]
    simp only [depthOf, Finset.sum_const_zero]
    rfl
  lock k p := by
    rw [h.lock k]
    exact ⟨(fun hp => by cases hp), fun hk => absurd hk (Set.notMem_empty k)⟩
  iref k := by
    rw [h.iref k]
    simp only [irOf, h.used, if_false, cwds]
    exact (Int.add_zero _).symm
  file := by
    refine ⟨fun f => ?_, h.free, (fun _ _ _ hp => by cases hp), fun _ _ _ _ hp => by cases hp⟩
    rw [h.fref f]
    simp only [frOf, h.used, if_false]
  proc := by
    refine ⟨(fun _ _ hp => by cases hp), (fun _ _ _ hp => by cases hp), (fun _ _ _ _ _ _ hp => by cases hp),
      fun q hq => absurd hq (h.used q), h.gone⟩

def deniedOf : Option Th → Bool
  | some t => t.denied
  | none => false

def leakOf : Option Th → Slot → Int
  | some t => t.leak
  | none => fun _ => 0

-- The ghost state of a call agrees with the steps it has made.
structure Recorded (c : Syscall) (past : List (Event kernelSig)) (t : Option Th) : Prop where
  logs : logs c = false → (Track.after c past).begins = 0
  nested : (Track.after c past).nested = false
  depth : ((Track.after c past).begins : Int) = (Track.after c past).ends + depthOf t
  denied : (Track.after c past).denied = deniedOf t
  leak : (Track.after c past).leak = leakOf t

structure Returned (tr : Track) : Prop where
  nested : tr.nested = false
  depth : tr.begins = tr.ends + if tr.denied then 1 else 0

variable {c : Syscall}

theorem next_of_quiet {a : Act} (ha : quiet a) (tr : Track) (r : a.Res) : Track.next c tr ⟨a, r⟩ = tr := by
  cases a <;> first | rfl | cases ha

variable {past : List (Event kernelSig)} {t t' : Option Th}

theorem Recorded.keep {e : Event kernelSig} (h : Recorded c past t)
    (he : Track.next c (Track.after c past) e = Track.after c past) (hd : depthOf t' = depthOf t)
    (hn : deniedOf t' = deniedOf t) (hl : leakOf t' = leakOf t) : Recorded c (past ++ [e]) t' := by
  constructor <;> rw [Track.after_snoc, he]
  · exact h.logs
  · exact h.nested
  · rw [hd]
    exact h.depth
  · rw [hn]
    exact h.denied
  · rw [hl]
    exact h.leak

theorem recorded_step {p : Pid} {a : Act} {P : a.Res → Option Th → Prop} {r : a.Res} (h : Recorded c past t)
    (hr : RefRule p c a t P) (hP : P r t') : Recorded c (past ++ [⟨a, r⟩]) t' := by
  cases hr with
  | quiet t ha =>
    obtain rfl : t' = _ := hP
    exact h.keep (next_of_quiet ha _ r) rfl rfl rfl
  | @beginOp t hc hd =>
    obtain rfl : t' = _ := hP
    have hdepth := h.depth
    simp only [depthOf, hd] at hdepth
    constructor <;> rw [Track.after_snoc]
    · intro hl
      rw [hl] at hc
      cases hc
    · simp only [Track.next, h.nested, Bool.false_or, decide_eq_false_iff_not, not_not]
      omega
    · simp only [Track.next, depthOf, Th.at]
      omega
    · exact h.denied
    · exact h.leak
  | @endOp t hd =>
    obtain rfl : t' = _ := hP
    have hdepth := h.depth
    simp only [depthOf, hd] at hdepth
    constructor <;> rw [Track.after_snoc]
    · exact h.logs
    · exact h.nested
    · simp only [Track.next, depthOf, Th.at]
      omega
    · exact h.denied
    · exact h.leak
  | perm t k =>
    obtain rfl : t' = _ := hP
    constructor <;> rw [Track.after_snoc]
    · exact h.logs
    · exact h.nested
    · exact h.depth
    · simp only [Track.next, deniedOf, h.denied]
    · exact h.leak
  | setMode t k mode =>
    obtain rfl : t' = _ := hP
    by_cases hc : isChmod c = true
    · constructor <;> rw [Track.after_snoc] <;> simp only [Track.next, hc, if_true]
      · exact h.logs
      · exact h.nested
      · exact h.depth
      · exact h.denied
      · rw [h.leak]
        rfl
    · refine h.keep ?_ ?_ ?_ ?_ <;> simp only [Track.next, hc, if_false, Bool.false_eq_true]
  | acquiresleep => obtain ⟨-, rfl⟩ := hP; exact h.keep rfl rfl rfl rfl
  | @iputEnter t k hok =>
    cases (r : Bool) with
    | true =>
      obtain ⟨-, rfl⟩ := hP
      exact h.keep rfl rfl rfl rfl
    | false =>
      obtain rfl : t' = _ := hP
      exact h.keep rfl rfl rfl rfl
  | filealloc =>
    cases (r : Option Fd) with
    | none => obtain rfl : t' = _ := hP; exact h.keep rfl rfl rfl rfl
    | some f => obtain ⟨-, rfl⟩ := hP; exact h.keep rfl rfl rfl rfl
  | fileUnref =>
    cases (r : Option File) with
    | none => obtain ⟨-, rfl⟩ := hP; exact h.keep rfl rfl rfl rfl
    | some ff => obtain ⟨-, rfl⟩ := hP; exact h.keep rfl rfl rfl rfl
  | file =>
    rcases hP with ⟨rfl, -⟩ | ⟨k, -, rfl⟩
    · exact h.keep rfl rfl rfl rfl
    · exact h.keep rfl rfl rfl rfl
  | proc => obtain ⟨rfl, -⟩ := hP; exact h.keep rfl rfl rfl rfl
  | allocproc =>
    cases (r : Option Pid) with
    | none => obtain rfl : t' = _ := hP; exact h.keep rfl rfl rfl rfl
    | some np => obtain rfl : t' = _ := hP; exact h.keep rfl rfl rfl rfl
  | zombie hd _ _ hl _ _ hdeny =>
    obtain rfl : t' = _ := hP
    exact h.keep rfl (by simp [depthOf, hd]) (by simp [deniedOf, hdeny]) (funext fun k => (hl k).symm)
  | iget | idup | releasesleep | iputLeave | filedup | setFile | setPipe | reap | setOfile | childOfile | setCwd | childCwd
  | setState =>
    obtain rfl : t' = _ := hP
    exact h.keep rfl rfl rfl rfl

theorem returned_of_post (h : Recorded c past t) (hq : RefPost t) : Returned (Track.after c past) := by
  refine ⟨h.nested, ?_⟩
  have h1 := h.depth
  have h2 := h.denied
  match t, hq with
  | none, _ =>
    simp only [deniedOf, depthOf] at h1 h2
    simp only [h2, Bool.false_eq_true, if_false]
    omega
  | some t, hq =>
    simp only [deniedOf, depthOf] at h1 h2
    rw [hq.2.2.1] at h1
    rw [h2]
    split at h1
    · next hd => rw [if_pos hd]; omega
    · next hd => rw [if_neg hd]; omega

section Run

variable {w : World} {es : Ended} {g : Pid → Option Th} {p : Pid}

theorem RefInv.start (h : RefInv w es g) (hp : g p = none) (hs : (w.proc p).state ≠ .unused ∧
    (w.proc p).state ≠ .used ∧ (w.proc p).state ≠ .zombie) :
    RefInv w es (update g p (some (Th.start (w.proc p)))) := by
  have hir : ∀ k, irOf w (update g p (some (Th.start (w.proc p)))) k = irOf w g k := by
    intro k
    funext q
    unfold irOf
    by_cases hqp : q = p
    · subst hqp
      rw [update_self, hp]
      simp [Th.start, hs.2.1]
    · rw [update_of_ne hqp]
  have hfr : ∀ f, frOf w (update g p (some (Th.start (w.proc p)))) f = frOf w g f := by
    intro f
    funext q
    unfold frOf
    by_cases hqp : q = p
    · subst hqp
      rw [update_self, hp]
      simp [Th.start, hs.2.1]
    · rw [update_of_ne hqp]
  refine ⟨h.ok_update (Th.start_ok _), h.tx.congr rfl (by rw [hp]; rfl),
    h.lock.congr (fun _ => rfl) (by rw [hp]; rfl), fun k => by rw [hir]; exact h.iref k,
    ⟨fun f => by rw [hfr]; exact h.file.fref f, h.file.free, fun q t f hq hf => ?_, fun q t f k hq hu => ?_⟩,
    ⟨fun q t hq => ?_, fun q t ch hq hc => ?_, fun q q' t t' ch ch' hq hq' hc hc' heq => ?_,
      fun q hq => ?_, h.proc.gone⟩⟩
  · rcases update_eq_some hq with ⟨-, rfl⟩ | ⟨-, hq⟩
    · exact absurd hf (Set.notMem_empty f)
    · exact h.file.fresh q t f hq hf
  · rcases update_eq_some hq with ⟨-, rfl⟩ | ⟨-, hq⟩
    · cases hu
    · exact h.file.use q t f k hq hu
  · rcases update_eq_some hq with ⟨rfl, rfl⟩ | ⟨-, hq⟩
    · exact ⟨rfl, rfl, hs⟩
    · exact h.proc.own q t hq
  · rcases update_eq_some hq with ⟨-, rfl⟩ | ⟨-, hq⟩
    · cases hc
    · exact h.proc.child q t ch hq hc
  · rcases update_eq_some hq with ⟨-, rfl⟩ | ⟨-, hq⟩
    · cases hc
    · rcases update_eq_some hq' with ⟨-, rfl⟩ | ⟨-, hq'⟩
      · cases hc'
      · exact h.proc.only q q' t t' ch ch' hq hq' hc hc' heq
  · obtain ⟨x, t, ch, hx, hc, hpid⟩ := h.proc.used q hq
    have hxp : x ≠ p := by
      rintro rfl
      rw [hp] at hx
      cases hx
    exact ⟨x, t, ch, by rwa [update_of_ne hxp], hc, hpid⟩

theorem RefInv.finish (h : RefInv w es g) (hr : Recorded c past (g p)) (hq : RefPost (g p)) :
    RefInv w (es ++ [(c, past)]) (update g p none) := by
  have hold : ∀ q t, update g p none q = some t → q ≠ p ∧ g q = some t := by
    intro q t hq
    by_cases hqp : q = p
    · subst hqp
      simp at hq
    · rw [update_of_ne hqp] at hq
      exact ⟨hqp, hq⟩
  -- what the process answered for is what its tables hold, and what it leaked
  have hshare : (∀ k, irOf w g k p = irOf w (update g p none) k p + leakOf (g p) k) ∧
      (∀ f, frOf w g f p = frOf w (update g p none) f p) ∧
      depthOf (g p) = (if deniedOf (g p) then 1 else 0) ∧ heldOf (g p) = ∅ ∧
      ∀ t, g p = some t → t.child = none := by
    unfold irOf frOf
    rw [update_self]
    cases hg : g p with
    | none => simp [leakOf, depthOf, deniedOf, heldOf]
    | some t =>
      rw [hg] at hq
      obtain ⟨ho, hc, -, hu, -⟩ := h.proc.own p t hg
      obtain ⟨h1, h2, h3, h4, h5⟩ := hq
      simp only [hu, ho, hc, if_false, leakOf, depthOf, deniedOf, heldOf, h1, h3, h4, h5]
      refine ⟨fun _ => trivial, fun _ => trivial, ?_, trivial, fun t' ht' => ?_⟩
      · by_cases hd : t.denied = true <;> simp [hd]
      · cases ht'
        exact h2
  obtain ⟨hir, hfr, hdepth, hheld, hchild⟩ := hshare
  have hlost : lost (es ++ [(c, past)]) = lost es + depthOf (g p) := by
    simp only [lost, map_append, sum_append, map_cons, map_nil, sum_cons, sum_nil,
      hr.denied, hdepth, Int.add_zero]
  have hleaked : ∀ k, leaked (es ++ [(c, past)]) k = leaked es k + leakOf (g p) k := by
    intro k
    simp only [leaked, map_append, sum_append, map_cons, map_nil, sum_cons, sum_nil,
      hr.leak, Int.add_zero]
  refine ⟨fun q t hq => h.ok q t (hold q t hq).2, ?_, h.lock.congr (fun _ => rfl) hheld.symm, fun k => ?_,
    ⟨fun f => ?_, h.file.free, fun q t f hq => h.file.fresh q t f (hold q t hq).2,
      fun q t f k hq => h.file.use q t f k (hold q t hq).2⟩,
    ⟨fun q t hq => h.proc.own q t (hold q t hq).2, fun q t ch hq => h.proc.child q t ch (hold q t hq).2,
      fun q q' t t' ch ch' hq hq' => h.proc.only q q' t t' ch ch' (hold q t hq).2 (hold q' t' hq').2,
      fun q hq => ?_, h.proc.gone⟩⟩
  · have htx := h.tx
    unfold TxInv at *
    rw [hlost, sum_change (fun q => depthOf (g q)) (fun q => depthOf (update g p none q)) p
      fun q hq => by rw [update_of_ne hq]]
    simp only [update_self, depthOf] at htx ⊢
    omega
  · have hi := h.iref k
    rw [hleaked, sum_change (irOf w g k) (irOf w (update g p none) k) p fun q hq => by
      unfold irOf
      rw [update_of_ne hq]]
    have h1 := hir k
    omega
  · rw [h.file.fref f, sum_change (frOf w g f) (frOf w (update g p none) f) p fun q hq => by
      unfold frOf
      rw [update_of_ne hq]]
    rw [hfr f]
    omega
  · obtain ⟨x, t, ch, hx, hc, hpid⟩ := h.proc.used q hq
    have hxp : x ≠ p := by
      rintro rfl
      rw [hchild t hx] at hc
      cases hc
    exact ⟨x, t, ch, by rwa [update_of_ne hxp], hc, hpid⟩

theorem ref_discipline (sb : Superblock) :
    Discipline (machine sb) RefRule (fun _ => True) (fun _ _ _ => RefPost) Recorded
      (fun w es g => RefInv w es g ∧ ∀ c past, (c, past) ∈ es → Returned (Track.after c past)) none
      fun _ _ _ _ => True where
  start w es g p c := by
    rintro ⟨h, hes⟩ hp hready
    have hs : (w.proc p).state ≠ .unused ∧ (w.proc p).state ≠ .used ∧ (w.proc p).state ≠ .zombie := by
      have h1 : (w.proc p).state = .running ∨ (w.proc p).state = .runnable ∨ (w.proc p).state = .sleeping := by
        simpa [machine] using hready
      rcases h1 with h1 | h1 | h1 <;> rw [h1] <;> decide
    exact ⟨_, ⟨h.start hp hs, hes⟩, ⟨fun _ => rfl, rfl, rfl, rfl, rfl⟩, syscall_refs sb (w.proc p) c⟩
  step w es g p c a P r w' := by
    rintro ⟨h, hes⟩ hr - hs
    obtain ⟨t, ht, hinv⟩ := ref_step h hr hs
    exact ⟨t, ht, hinv, hes⟩
  record p c past a t P r t' h hr hP := recorded_step h hr hP
  finish w es g p c past v := by
    rintro ⟨h, hes⟩ hr hq
    refine ⟨h.finish hr hq, fun c' past' hmem => ?_⟩
    rcases mem_append.mp hmem with hmem | hmem
    · exact hes c' past' hmem
    · cases mem_singleton.mp hmem
      exact returned_of_post hr hq

structure Running (sb : Superblock) (P : KernelPool) (g : Pid → Option Th) : Prop where
  inv : RefInv P.state P.ended g
  ended : ∀ c past, (c, past) ∈ P.ended → Returned (Track.after c past)
  idle : ∀ p, P.thread p = none → g p = none
  thread : ∀ p th, P.thread p = some th → Recorded th.call th.past (g p)

theorem running_of_reach {sb : Superblock} {w : World} (h : Settled w) {P : KernelPool}
    (hr : (machine sb).Reach (fun _ _ => True) (idlePool w) P) : ∃ g, Running sb P g := by
  have hinit : Guarded RefRule (fun _ => True) (fun _ _ _ => RefPost) Recorded
      (fun w es g => RefInv w es g ∧ ∀ c past, (c, past) ∈ es → Returned (Track.after c past)) none
      (idlePool w) fun _ => none :=
    ⟨⟨refInv_of_settled h, nofun⟩, fun _ _ => rfl, nofun⟩
  obtain ⟨g, hg⟩ := (ref_discipline sb).reach ⟨_, hinit⟩ (hr.weaken fun P m _ => by
    cases m
    · trivial
    · exact fun _ _ _ _ _ => trivial
    · trivial)
  exact ⟨g, hg.inv.1, hg.inv.2, hg.idle, fun p th hp => (hg.rest p th hp).1⟩

end Run

end Fs
