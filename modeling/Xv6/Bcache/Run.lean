import Xv6.Bcache.Sound

-- Any number of processes on the buffers, from binit on.

namespace Bcache

open Prog

variable {ι : Type} {start : Nat} {p : ι} {c : Call} {t t' : Th} {a : Act ι} {r : (sig ι).Res a}
  {W : (sig ι).Res a → Th → Prop}

-- The buffer that a process has counted and not locked, or unlocked and still counted.
def moveNext (m : Option (Fin NBUF)) : Event (sig ι) → Option (Fin NBUF)
  | ⟨.bget _ _ _, b⟩ => some b
  | ⟨.acquiresleep _ _, _⟩ => none
  | ⟨.releasesleep _ b, _⟩ => some b
  | ⟨.unref _, _⟩ => none
  | _ => m

def moves (past : List (Event (sig ι))) : Option (Fin NBUF) := past.foldl moveNext none

-- How many blocks of the log a commit has unpinned.
def unpinNext (n : Nat) : Event (sig ι) → Nat
  | ⟨.bunpin _, _⟩ => n + 1
  | ⟨.clear, _⟩ => 0
  | ⟨.endCommit, _⟩ => 0
  | _ => n

def unpins (past : List (Event (sig ι))) : Nat := past.foldl unpinNext 0

theorem moves_snoc (past : List (Event (sig ι))) (e : Event (sig ι)) : moves (past ++ [e]) = moveNext (moves past) e := by
  simp [moves]

theorem unpins_snoc (past : List (Event (sig ι))) (e : Event (sig ι)) :
    unpins (past ++ [e]) = unpinNext (unpins past) e := by
  simp [unpins]

def unpinned (t : Th) : Nat := (t.commit.map Commit.unpinned).getD 0

theorem unpinned_wrote (t : Th) (b : Fin NBUF) (blockno : Nat) :
    unpinned { t with commit := t.commit.map fun cm => cm.wrote b blockno } = unpinned t := by
  unfold unpinned
  cases t.commit with
  | none => rfl
  | some cm =>
    simp only [Option.map_some, Option.getD_some, Commit.wrote]
    split
    · rfl
    · split <;> rfl

theorem unpinned_of_none {t : Th} (h : t.commit = none) : unpinned t = 0 := by rw [unpinned, h]; rfl

theorem unpinned_of_some {t : Th} {cm : Commit} (h : t.commit = some cm) : unpinned t = cm.unpinned := by
  rw [unpinned, h]
  rfl

theorem Rule.next
    (hrule : Rule start p c a t W) (hW : W r t') :
    t'.transit.map Prod.fst = moveNext (t.transit.map Prod.fst) ⟨a, r⟩ ∧
      unpinned t' = unpinNext (unpinned t) ⟨a, r⟩ := by
  cases hrule with
  | bget _ _ _ | releasesleep _ _ _ | unref _ | fill _ | beginOp _ | logWrite _ _ _ | store _ _ _ _ | header _ _ _ _
  | install _ _ _ _ | clear _ _ | endCommit _ _ =>
    subst hW
    exact ⟨rfl, rfl⟩
  | acquiresleep _ _ _ =>
    obtain ⟨-, rfl⟩ := hW
    exact ⟨rfl, rfl⟩
  | holdingsleep _ b =>
    by_cases hb : t.held b = none
    · have hW := hW.2 hb
      split at hW
      · obtain ⟨x, rfl⟩ := hW
        exact ⟨rfl, rfl⟩
      · subst hW
        exact ⟨rfl, rfl⟩
    · obtain ⟨-, rfl⟩ := hW.1 hb
      exact ⟨rfl, rfl⟩
  | data _ _ | log _ =>
    obtain ⟨rfl, -⟩ := hW
    exact ⟨rfl, rfl⟩
  | copy _ hc _ _ _ | bunpin _ hc _ _ =>
    subst hW
    refine ⟨rfl, ?_⟩
    rw [unpinned_of_some hc]
    rfl
  | write _ _ =>
    subst hW
    exact ⟨rfl, unpinned_wrote ..⟩
  | endOp hc =>
    split at hW
    · obtain ⟨lh, copy, -, rfl⟩ := hW
      refine ⟨rfl, ?_⟩
      rw [unpinned_of_none hc]
      rfl
    · subst hW
      exact ⟨rfl, rfl⟩
  | mine b _ =>
    obtain ⟨blockno, rfl⟩ := hW
    exact ⟨rfl, rfl⟩

structure Recorded (past : List (Event (sig ι))) (t : Th) : Prop where
  moves : t.transit.map Prod.fst = moves past
  unpins : unpinned t = unpins past

theorem Recorded.next {past : List (Event (sig ι))}
    (h : Recorded past t) (hrule : Rule start p c a t W)
    (hW : W r t') : Recorded (past ++ [⟨a, r⟩]) t' := by
  obtain ⟨hm, hu⟩ := hrule.next hW
  exact ⟨by rw [hm, h.moves, moves_snoc], by rw [hu, h.unpins, unpins_snoc]⟩

variable [Fintype ι] {s s' : State ι} {g : ι → Th}

theorem lists_binit (c : Circular (Fin NBUF)) : (binit c).Lists (List.finRange NBUF).reverse := by
  rw [← List.append_nil (List.finRange NBUF).reverse]
  refine (Circular.lists_clear c).pushFronts ?_
  rw [List.append_nil, List.nodup_reverse]
  exact List.nodup_finRange NBUF

theorem inv_boot (c : Circular (Fin NBUF)) (disk : Nat → Block) (start size : Nat) :
    Inv start (boot c disk start size : State ι) fun _ => Th.idle := by
  have hpin : ∀ block, ¬Pinned (boot c disk start size : State ι) (fun _ => Th.idle) block := fun _ hp => nomatch hp.1
  refine ⟨⟨⟨_, lists_binit c, fun b => ?_⟩, fun a b ha => absurd rfl ha, fun b => ?_, nofun, nofun, nofun, nofun, nofun⟩,
    ⟨rfl, .inl rfl, List.nodup_nil, nofun, fun block hp => absurd hp (hpin block), ?_, nofun, nofun, nofun⟩⟩
  · rw [List.mem_reverse]
    exact List.mem_finRange b
  · have hpins : pins (boot c disk start size : State ι) (fun _ => Th.idle) b = 0 := by
      rw [pins, if_neg]
      rintro ⟨block, -, hp⟩
      exact hpin block hp
    have htransits : transits (fun _ : ι => Th.idle) b = 0 := Finset.sum_eq_zero fun _ _ => rfl
    rw [hpins, htransits]
    rfl
  · exact (Finset.sum_eq_zero fun _ _ => rfl).symm

variable [DecidableEq ι]

theorem Inv.step (h : Inv start s g) (hcard : Fintype.card ι + 3 < 2 ^ 32)
    (hrule : Rule start p c a (g p) W)
    (hs : bstep a s = .done r s') : ∃ t, W r t ∧ Inv start s' (Function.update g p t) := by
  cases hrule with
  | bget ht dev blockno => exact ⟨_, rfl, h.bget hcard ht hs⟩
  | @acquiresleep _ b x ht hf hu =>
    simp only [bstep] at hs
    split at hs
    · next hl =>
      cases hs
      have hheld : (g p).held b = none := by
        cases hb : (g p).held b with
        | none => rfl
        | some y =>
          have hlock := (h.cache.held p b y hb).1
          rw [hl] at hlock
          cases hlock
      exact ⟨_, ⟨hheld, rfl⟩, h.acquire hl ht hf hheld hu⟩
    · cases hs
  | @fill _ b hf =>
    simp only [bstep] at hs
    split at hs
    · next hv =>
      cases hs
      exact ⟨_, rfl, h.full hf hv⟩
    · next hv =>
      cases hs
      exact ⟨_, rfl, h.fill hf (by simpa using hv) rfl⟩
  | holdingsleep _ b =>
    cases hs
    cases hb : (g p).held b with
    | some x =>
      have hl := (h.cache.held p b x hb).1
      exact ⟨g p, ⟨fun _ => ⟨decide_eq_true hl, rfl⟩, nofun⟩, h.same p⟩
    | none =>
      by_cases hl : s.lock b = some p
      · refine ⟨_, ⟨fun hn => absurd rfl hn, fun _ => ?_⟩, h.hold hl hb⟩
        rw [if_pos (decide_eq_true hl)]
        exact ⟨_, rfl⟩
      · refine ⟨g p, ⟨fun hn => absurd rfl hn, fun _ => ?_⟩, h.same p⟩
        rw [if_neg (by simp [hl])]
  | releasesleep hh hr hu =>
    cases hs
    exact ⟨_, rfl, h.release hh hr hu⟩
  | unref ht =>
    cases hs
    exact ⟨_, rfl, h.unref ht⟩
  | data hh hf =>
    cases hs
    exact ⟨_, ⟨rfl, fun cm hc => h.known hh hf hc⟩, h.same p⟩
  | header hh hc hd d =>
    cases hs
    exact ⟨_, rfl, h.header hh hc hd⟩
  | copy hh hc hd hb hf =>
    cases hs
    exact ⟨_, rfl, h.copy hh hc hd hb hf⟩
  | install hh hc hd hb =>
    cases hs
    exact ⟨_, rfl, h.install hh hc hb⟩
  | write hh hf =>
    cases hs
    exact ⟨_, rfl, h.write hh hf⟩
  | bunpin hh hc hb _ =>
    cases hs
    exact ⟨_, rfl, h.bunpin hh hc hb⟩
  | log hc =>
    cases hs
    exact ⟨_, ⟨rfl, h.logged.layout, (h.logged.commits p _ hc).2.lh⟩, h.same p⟩
  | beginOp =>
    simp only [bstep] at hs
    split at hs
    · cases hs
    · next hp =>
      split at hs
      · next hb =>
        cases hs
        exact ⟨_, rfl, h.beginOp (by simpa using hp) hb⟩
      · cases hs
  | @logWrite _ b _ hh hf _ =>
    change (if s.home ≤ (s.buf b).blockno then logWriteStep s b else .wait) = .done () s' at hs
    split at hs
    · next hhome => exact ⟨_, rfl, h.logWrite hcard hh hf hhome hs⟩
    · cases hs
  | endOp _ =>
    simp only [bstep] at hs
    split at hs
    · next hp =>
      split at hs
      · cases hs
      · next r log he =>
        cases hs
        refine ⟨_, ?_, h.endOp hp he⟩
        cases r with
        | true => exact ⟨_, _, h.logged.apart, rfl⟩
        | false => rfl
    · cases hs
  | clear hc hl =>
    cases hs
    exact ⟨_, rfl, h.clear hc hl⟩
  | endCommit hc hl =>
    cases hs
    exact ⟨_, rfl, h.endCommit hc hl⟩
  | store _ b d _ =>
    simp only [bstep] at hs
    split at hs
    · next hp =>
      cases hs
      exact ⟨_, rfl, h.store hp.2.1⟩
    · cases hs
  | mine b hn =>
    simp only [bstep] at hs
    split at hs
    · next hp =>
      cases hs
      refine ⟨_, ⟨(s.buf b).blockno, ?_⟩, h.hold hp.1 hn⟩
      rw [ident, hp.2]
    · cases hs

theorem discipline (start : Nat) (hcard : Fintype.card ι + 3 < 2 ^ 32) :
    Discipline (machine ι) (Rule start) (fun _ => True) (fun _ c _ => Ends c) (fun _ => Recorded)
      (fun s _ => Inv start s) Th.idle fun _ _ _ _ => True where
  start s es g p c h hp _ := by
    refine ⟨Th.idle, ?_, ⟨rfl, rfl⟩, call_spec c⟩
    rw [← hp]
    exact h.same p
  step s es g p c a W r s' h hrule _ hs := h.step hcard hrule hs
  record p c past a t W r t' h hrule hW := h.next hrule hW
  finish s es g p c past v h _ hQ := h.forget hQ.post.1 hQ.post.2.1 hQ.post.2.2

end Bcache
