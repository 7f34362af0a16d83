import Xv6.Bcache

-- What a process knows while it works on the buffers.

namespace Bcache

open Prog List Function

-- A commit of the blocks `lh`, whose buffers hold `copy`: `copied` of them are in the log, `dirty`
-- is the buffer of the next log block once it holds its copy, `unpinned` are home and unpinned,
-- and `home` says that the next one is home.
structure Commit where
  lh : List Nat
  copy : Nat → Block
  copied : Nat
  dirty : Option (Fin NBUF)
  unpinned : Nat
  home : Bool

namespace Commit

def start (lh : List Nat) (copy : Nat → Block) : Commit := ⟨lh, copy, 0, none, 0, false⟩

def left (cm : Commit) : List Nat := cm.lh.drop cm.unpinned

def wrote (cm : Commit) (b : Fin NBUF) (blockno : Nat) : Commit :=
  if cm.dirty = some b then { cm with copied := cm.copied + 1, dirty := none }
  else if cm.lh[cm.unpinned]? = some blockno then { cm with home := true }
  else cm

end Commit

-- `transit` is a buffer between its count and its lock, with its device and block, `filling` a
-- locked one that has to be read, `held` those that the process knows to have locked, `freed` the
-- one that its call of brelse has unlocked.
@[ext] structure Th where
  transit : Option (Fin NBUF × Nat × Nat)
  filling : Option (Fin NBUF)
  held : Fin NBUF → Option (Nat × Nat)
  commit : Option Commit
  freed : Option (Fin NBUF)

namespace Th

def idle : Th := ⟨none, none, fun _ => none, none, none⟩

def hold (t : Th) (b : Fin NBUF) (x : Nat × Nat) : Th := { t with held := update t.held b (some x) }

def drop (t : Th) (b : Fin NBUF) : Th := { t with held := update t.held b none }

def moving (t : Th) (m : Option (Fin NBUF × Nat × Nat)) : Th := { t with transit := m }

def fills (t : Th) (b : Option (Fin NBUF)) : Th := { t with filling := b }

def commits (t : Th) (cm : Commit) : Th := { t with commit := some cm }

def frees (t : Th) (b : Option (Fin NBUF)) : Th := { t with freed := b }

structure Ready (t : Th) : Prop where
  transit : t.transit = none
  filling : t.filling = none
  clean : ∀ cm, t.commit = some cm → cm.dirty = none
  freed : t.freed = none

end Th

-- The blocks lie behind those of the log that they are copied to.
def Apart (start : Nat) (lh : List Nat) : Prop := ∀ block ∈ lh, start + lh.length < block

-- What the data of a locked buffer can be during a commit.
structure Known (start : Nat) (cm : Commit) (x : Nat × Nat) (data : Block) : Prop where
  log : ∀ i block, i < cm.copied → cm.lh[i]? = some block → x = (ROOTDEV, start + i + 1) → data = cm.copy block
  home : ∀ block, block ∈ cm.left → x = (ROOTDEV, block) → data = cm.copy block

variable {ι : Type}

-- What a process may do in the call `c`, and what it knows then.
inductive Rule (start : Nat) (p : ι) (c : Call) : Rules (sig ι) Th
  | bget {t : Th} (h : t.transit = none) (dev blockno : Nat) :
    Rule start p c (.bget p dev blockno) t fun (b : Fin NBUF) t' => t' = t.moving (some (b, dev, blockno))
  | acquiresleep {t : Th} {b : Fin NBUF} {x : Nat × Nat} (h : t.transit = some (b, x)) (hf : t.filling = none)
    (hu : t.freed = none) : Rule start p c (.acquiresleep p b) t fun _ t' =>
      t.held b = none ∧ t' = ((t.hold b x).moving none).fills (some b)
  | fill {t : Th} {b : Fin NBUF} (h : t.filling = some b) : Rule start p c (.fill b) t fun _ t' => t' = t.fills none
  | holdingsleep (t : Th) (b : Fin NBUF) : Rule start p c (.holdingsleep p b) t fun (r : Bool) t' =>
    (t.held b ≠ none → r = true ∧ t' = t) ∧ (t.held b = none → if r then ∃ x, t' = t.hold b x else t' = t)
  | releasesleep {t : Th} {b : Fin NBUF} {x : Nat × Nat} (h : t.held b = some x) (hr : t.Ready)
    {u : Option (Fin NBUF)} (hu : ∀ a, u = some a → a = b) :
    Rule start p c (.releasesleep p b) t fun _ t' => t' = ((t.drop b).moving (some (b, x))).frees u
  | unref {t : Th} {b : Fin NBUF} {x : Nat × Nat} (h : t.transit = some (b, x)) :
    Rule start p c (.unref b) t fun _ t' => t' = t.moving none
  | data {t : Th} {b : Fin NBUF} {x : Nat × Nat} (h : t.held b = some x) (hf : t.filling = none) :
    Rule start p c (.data b) t fun (d : Block) t' => t' = t ∧ ∀ cm, t.commit = some cm → Known start cm x d
  | header {t : Th} {cm : Commit} {b : Fin NBUF} (h : t.held b = some (ROOTDEV, start)) (hc : t.commit = some cm)
    (hd : cm.dirty = none) (d : Block) : Rule start p c (.memmove b d) t fun _ t' => t' = t
  | copy {t : Th} {cm : Commit} {b : Fin NBUF} {block : Nat}
    (h : t.held b = some (ROOTDEV, start + cm.copied + 1)) (hc : t.commit = some cm)
    (hd : cm.dirty = none) (hb : cm.lh[cm.copied]? = some block) (hf : t.filling = none) :
    Rule start p c (.memmove b (cm.copy block)) t fun _ t' => t' = t.commits { cm with dirty := some b }
  | install {t : Th} {cm : Commit} {b : Fin NBUF} {block : Nat} (h : t.held b = some (ROOTDEV, block))
    (hc : t.commit = some cm) (hd : cm.dirty = none) (hb : block ∈ cm.left) :
    Rule start p c (.memmove b (cm.copy block)) t fun _ t' => t' = t
  | write {t : Th} {b : Fin NBUF} {blockno : Nat} (h : t.held b = some (ROOTDEV, blockno)) (hf : t.filling = none) :
    Rule start p c (.write b) t fun _ t' => t' = { t with commit := t.commit.map fun cm => cm.wrote b blockno }
  | bunpin {t : Th} {cm : Commit} {b : Fin NBUF} {block : Nat} (h : t.held b = some (ROOTDEV, block))
    (hc : t.commit = some cm) (hb : cm.lh[cm.unpinned]? = some block) (hh : cm.home = true) :
    Rule start p c (.bunpin b) t fun _ t' =>
      t' = t.commits { cm with unpinned := cm.unpinned + 1, home := false }
  | log {t : Th} {cm : Commit} (hc : t.commit = some cm) : Rule start p c .log t fun (log : Log) t' =>
    t' = t ∧ log.start = start ∧ log.lh = cm.lh
  | beginOp (t : Th) : Rule start p c (.beginOp p) t fun _ t' => t' = t
  | logWrite {t : Th} {b : Fin NBUF} {blockno : Nat} (h : t.held b = some (ROOTDEV, blockno))
    (hf : t.filling = none) (hc : t.commit = none) : Rule start p c (.logWrite b) t fun _ t' => t' = t
  | endOp {t : Th} (hc : t.commit = none) : Rule start p c (.endOp p) t fun (r : Bool) t' =>
    if r then ∃ lh copy, Apart start lh ∧ t' = t.commits (Commit.start lh copy) else t' = t
  | clear {t : Th} {cm : Commit} (hc : t.commit = some cm) (hl : cm.left = []) :
    Rule start p c .clear t fun _ t' => t' = t.commits (Commit.start [] cm.copy)
  | endCommit {t : Th} {cm : Commit} (hc : t.commit = some cm) (hl : cm.lh = []) :
    Rule start p c .endCommit t fun _ t' => t' = { t with commit := none }
  | store (t : Th) (b : Fin NBUF) (d : Block) (hc : c = .store b d) : Rule start p c (.store p b d) t fun _ t' => t' = t
  | mine {t : Th} (b : Fin NBUF) (h : t.held b = none) : Rule start p c (.mine p b) t fun _ t' =>
    ∃ blockno, t' = t.hold b (ROOTDEV, blockno)

namespace Th

variable {t : Th} {a b : Fin NBUF} {x y : Nat × Nat} {cm : Commit}

theorem held_hold (t : Th) (b : Fin NBUF) (x : Nat × Nat) : (t.hold b x).held b = some x := update_self ..

theorem held_hold_ne (h : a ≠ b) : (t.hold b x).held a = t.held a := update_of_ne h ..

theorem drop_hold (h : t.held b = none) : (t.hold b x).drop b = t := by
  unfold hold drop
  rw [update_idem, ← h, update_eq_self]

theorem hold_comm {y : Nat × Nat} (h : a ≠ b) : (t.hold b x).hold a y = (t.hold a y).hold b x := by
  unfold hold
  rw [update_comm h]

theorem ne_of_hold (h : (t.hold b x).held a = none) : a ≠ b := by
  rintro rfl
  rw [held_hold] at h
  cases h

theorem commits_self (h : t.commit = some cm) : t.commits cm = t := by
  unfold commits
  rw [← h]

theorem Ready.hold (h : t.Ready) : (t.hold b x).Ready := ⟨h.transit, h.filling, h.clean, h.freed⟩

theorem Ready.commits (h : t.Ready) (hd : cm.dirty = none) : (t.commits cm).Ready := by
  refine ⟨h.transit, h.filling, fun cm' heq => ?_, h.freed⟩
  cases heq
  exact hd

end Th

section Specs

variable {start : Nat} {p : ι} {c : Call} {t : Th} {b : Fin NBUF} {x : Nat × Nat}

-- The programs keep to the rules, whatever they panic with.
abbrev Keeps (start : Nat) (p : ι) (c : Call) {α : Type} (m : Bio ι α) (Q : α → Th → Prop) (t : Th) : Prop :=
  awp (Rule start p c) (fun _ => True) m Q t

theorem act_spec {a : Act ι} {P : (sig ι).Res a → Th → Prop} (h : Rule start p c a t P) :
    Keeps start p c (act a) P t := awp_lift h

theorem bget_spec (hr : t.Ready) (dev blockno : Nat) : Keeps start p c (bget p dev blockno)
    (fun b t' => t.held b = none ∧ t' = (t.hold b (dev, blockno)).fills (some b)) t := by
  refine awp_to (act_spec (.bget hr.transit dev blockno)) fun b => ?_
  refine awp_seq (act_spec (.acquiresleep rfl hr.filling hr.freed)) fun _ t2 ht2 => ⟨ht2.1, ?_⟩
  rw [ht2.2, ← hr.transit]
  rfl

theorem bread_spec (hr : t.Ready) (dev blockno : Nat) : Keeps start p c (bread p dev blockno)
    (fun b t' => t.held b = none ∧ t' = t.hold b (dev, blockno)) t := by
  refine awp_seq (bget_spec hr dev blockno) fun b t1 ht1 => ?_
  obtain ⟨hb, rfl⟩ := ht1
  refine awp_seq (act_spec (.fill rfl)) fun _ t2 ht2 => ⟨hb, ?_⟩
  rw [ht2, ← hr.filling]
  rfl

theorem brelse_spec (hr : t.Ready) (h : t.held b = some x) :
    Keeps start p c (brelse p b) (fun _ t' => t' = t.drop b) t := by
  refine awp_seq (act_spec (.holdingsleep t b)) fun r t1 ht1 => ?_
  obtain ⟨rfl, rfl⟩ := ht1.1 (by simp [h])
  refine awp_ite (fun _ => ?_) fun hn => absurd rfl hn
  refine awp_to (act_spec (.releasesleep h hr (u := none) nofun)) fun _ => ?_
  refine awp_mono (act_spec (.unref rfl)) fun _ t3 ht3 => ?_
  rw [ht3, ← hr.transit, ← hr.freed]
  rfl

section

variable {α : Type} {Q : α → Th → Prop}

theorem bread_to {k : Fin NBUF → Bio ι α} (hr : t.Ready) (dev blockno : Nat)
    (hk : ∀ b, t.held b = none → Keeps start p c (k b) Q (t.hold b (dev, blockno))) :
    Keeps start p c (bread p dev blockno >>= k) Q t :=
  awp_seq (bread_spec hr dev blockno) fun b _ ht => ht.2 ▸ hk b ht.1

theorem brelse_to {k : Unit → Bio ι α} (hr : t.Ready) (hb : t.held b = none) (hk : Keeps start p c (k ()) Q t) :
    Keeps start p c (brelse p b >>= k) Q (t.hold b x) := by
  refine awp_to (brelse_spec hr.hold (t.held_hold b x)) fun _ => ?_
  rwa [Th.drop_hold hb]

end

theorem bwrite_spec {blockno : Nat} (hf : t.filling = none) (h : t.held b = some (ROOTDEV, blockno)) :
    Keeps start p c (bwrite p b)
      (fun _ t' => t' = { t with commit := t.commit.map fun cm => cm.wrote b blockno }) t := by
  refine awp_seq (act_spec (.holdingsleep t b)) fun r t1 ht1 => ?_
  obtain ⟨rfl, rfl⟩ := ht1.1 (by simp [h])
  exact awp_ite (fun _ => act_spec (.write h hf)) fun hn => absurd rfl hn

variable {cm : Commit}

theorem writeHead_spec (hr : t.Ready) (hc : t.commit = some cm) (ha : Apart start cm.lh) :
    Keeps start p c (writeHead p) (fun _ t' => t' = t) t := by
  have hd := hr.clean cm hc
  refine awp_seq (act_spec (.log hc)) fun (log : Log) t1 ht1 => ?_
  obtain ⟨rfl, hstart, -⟩ := ht1
  rw [hstart]
  refine bread_to hr ROOTDEV start fun b hb => ?_
  have hheld := t1.held_hold b (ROOTDEV, start)
  refine awp_seq (act_spec (.data hheld hr.filling)) fun (d : Block) t3 ht3 => ?_
  obtain ⟨rfl, -⟩ := ht3
  refine awp_to (act_spec (.header hheld hc hd _)) fun _ => ?_
  refine awp_seq (bwrite_spec hr.filling hheld) fun _ t5 ht5 => ?_
  have hwrote : cm.wrote b start = cm := by
    have hne : cm.lh[cm.unpinned]? ≠ some start := by
      intro h
      have hlt := ha start (mem_of_getElem? h)
      omega
    rw [Commit.wrote, hd, if_neg (by simp), if_neg hne]
  have ht5 : t5 = t1.hold b (ROOTDEV, start) := by
    rw [ht5, show (t1.hold b (ROOTDEV, start)).commit = some cm from hc, Option.map_some, hwrote, ← hc]
    rfl
  subst ht5
  refine awp_mono (brelse_spec hr.hold hheld) fun _ t6 ht6 => ?_
  rw [ht6, Th.drop_hold hb]

theorem writeLog_spec {blocks : List Nat} (hr : t.Ready) (hc : t.commit = some cm)
    (hun : cm.unpinned = 0) (hdrop : cm.lh.drop cm.copied = blocks) :
    Keeps start p c (writeLog p start cm.copied blocks)
      (fun _ t' => t' = t.commits { cm with copied := cm.copied + blocks.length }) t := by
  induction blocks generalizing t cm with
  | nil =>
    show t = t.commits cm
    rw [Th.commits_self hc]
  | cons block blocks ih =>
    have hd := hr.clean cm hc
    have hget : cm.lh[cm.copied]? = some block := by
      rw [← head?_drop, hdrop, head?_cons]
    refine bread_to hr ROOTDEV (start + cm.copied + 1) fun dst hdst => ?_
    refine bread_to hr.hold ROOTDEV block fun src hsrc => ?_
    have hne := Th.ne_of_hold hsrc
    refine awp_seq (act_spec (.data (Th.held_hold _ src _) hr.filling)) fun (d : Block) t3 ht3 => ?_
    obtain ⟨rfl, hknown⟩ := ht3
    have hleft : block ∈ cm.left := by
      rw [Commit.left, hun, drop_zero]
      exact mem_of_getElem? hget
    obtain rfl := (hknown cm hc).home block hleft rfl
    have hheld : ((t.hold dst (ROOTDEV, start + cm.copied + 1)).hold src (ROOTDEV, block)).held dst =
        some (ROOTDEV, start + cm.copied + 1) := by
      rw [Th.held_hold_ne hne.symm, Th.held_hold]
    refine awp_to (act_spec (.copy hheld hc hd hget hr.filling)) fun _ => ?_
    refine awp_seq (bwrite_spec hr.filling hheld) fun _ t5 ht5 => ?_
    have ht5 : t5 = ((t.commits { cm with copied := cm.copied + 1 }).hold dst
        (ROOTDEV, start + cm.copied + 1)).hold src (ROOTDEV, block) := by
      rw [ht5, Th.commits, Option.map_some, Commit.wrote, if_pos rfl, hd]
      rfl
    subst ht5
    have hr' : (t.commits { cm with copied := cm.copied + 1 }).Ready := hr.commits hd
    refine brelse_to hr'.hold hsrc (brelse_to hr' hdst ?_)
    have htail : cm.lh.drop (cm.copied + 1) = blocks := by
      rw [← drop_drop, hdrop]
      rfl
    refine awp_mono (ih hr' rfl hun htail) fun _ t8 ht8 => ?_
    rw [ht8, length_cons, Nat.add_assoc, Nat.add_comm 1]
    rfl

theorem installTrans_spec {blocks : List Nat} (hr : t.Ready) (hc : t.commit = some cm)
    (hcopied : cm.copied = cm.lh.length) (hhome : cm.home = false) (hdrop : cm.lh.drop cm.unpinned = blocks) :
    Keeps start p c (installTrans p start cm.unpinned blocks)
      (fun _ t' => t' = t.commits { cm with unpinned := cm.unpinned + blocks.length }) t := by
  induction blocks generalizing t cm with
  | nil =>
    show t = t.commits cm
    rw [Th.commits_self hc]
  | cons block blocks ih =>
    have hd := hr.clean cm hc
    have hget : cm.lh[cm.unpinned]? = some block := by
      rw [← head?_drop, hdrop, head?_cons]
    obtain ⟨hlt, -⟩ := List.getElem?_eq_some_iff.mp hget
    refine bread_to hr ROOTDEV (start + cm.unpinned + 1) fun lbuf hlbuf => ?_
    refine bread_to hr.hold ROOTDEV block fun dbuf hdbuf => ?_
    have hne := Th.ne_of_hold hdbuf
    have hheldl : ((t.hold lbuf (ROOTDEV, start + cm.unpinned + 1)).hold dbuf (ROOTDEV, block)).held lbuf =
        some (ROOTDEV, start + cm.unpinned + 1) := by
      rw [Th.held_hold_ne hne.symm, Th.held_hold]
    refine awp_seq (act_spec (.data hheldl hr.filling)) fun (d : Block) t3 ht3 => ?_
    obtain ⟨rfl, hknown⟩ := ht3
    obtain rfl := (hknown cm hc).log cm.unpinned block (by omega) hget rfl
    have hheldd := (t.hold lbuf (ROOTDEV, start + cm.unpinned + 1)).held_hold dbuf (ROOTDEV, block)
    have hleft : block ∈ cm.left := by
      rw [Commit.left, hdrop]
      exact mem_cons_self
    refine awp_to (act_spec (.install hheldd hc hd hleft)) fun _ => ?_
    refine awp_seq (bwrite_spec hr.filling hheldd) fun _ t5 ht5 => ?_
    have ht5 : t5 = ((t.commits { cm with home := true }).hold lbuf
        (ROOTDEV, start + cm.unpinned + 1)).hold dbuf (ROOTDEV, block) := by
      have hc' : ((t.hold lbuf (ROOTDEV, start + cm.unpinned + 1)).hold dbuf (ROOTDEV, block)).commit = some cm := hc
      rw [ht5, hc', Option.map_some, Commit.wrote, hd, if_neg (by simp), if_pos hget]
      rfl
    subst ht5
    refine awp_seq (act_spec (.bunpin (Th.held_hold _ dbuf _) rfl hget rfl)) fun _ t6 ht6 => ?_
    have ht6 : t6 = ((t.commits { cm with unpinned := cm.unpinned + 1 }).hold lbuf
        (ROOTDEV, start + cm.unpinned + 1)).hold dbuf (ROOTDEV, block) := by
      rw [ht6, ← hhome]
      rfl
    subst ht6
    have hr' : (t.commits { cm with unpinned := cm.unpinned + 1 }).Ready := hr.commits hd
    rw [Th.hold_comm hne]
    refine brelse_to hr'.hold ((Th.held_hold_ne hne.symm).trans hlbuf) ?_
    refine brelse_to hr' ((Th.held_hold_ne hne).symm.trans hdbuf) ?_
    have htail : cm.lh.drop (cm.unpinned + 1) = blocks := by
      rw [← drop_drop, hdrop]
      rfl
    refine awp_mono (ih hr' rfl hcopied hhome htail) fun _ t9 ht9 => ?_
    rw [ht9, length_cons, Nat.add_assoc, Nat.add_comm 1]
    rfl

theorem commit_spec {lh : List Nat} {copy : Nat → Block} (hr : t.Ready) (hc : t.commit = some (Commit.start lh copy))
    (ha : Apart start lh) :
    Keeps start p c (commit p) (fun _ t' => t'.Ready ∧ ∃ cm, t'.commit = some cm ∧ cm.lh = []) t := by
  refine awp_seq (act_spec (.log hc)) fun (log : Log) t1 ht1 => ?_
  obtain ⟨rfl, hstart, hlh⟩ := ht1
  refine awp_ite (fun _ => ?_) fun hn => ?_
  · rw [hstart, hlh]
    refine awp_seq (writeLog_spec hr hc rfl rfl) fun _ t2 ht2 => ?_
    have hr2 : t2.Ready := by
      rw [ht2]
      exact hr.commits rfl
    have hc2 : t2.commit = some { Commit.start lh copy with copied := lh.length } := by
      rw [ht2, ← Nat.zero_add lh.length]
      rfl
    refine awp_to (writeHead_spec hr2 hc2 ha) fun _ => ?_
    refine awp_seq (installTrans_spec hr2 hc2 rfl rfl rfl) fun _ t4 ht4 => ?_
    have hr4 : t4.Ready := by
      rw [ht4]
      exact hr2.commits rfl
    have hc4 : t4.commit = some { Commit.start lh copy with copied := lh.length, unpinned := 0 + lh.length } := by
      rw [ht4]
      rfl
    have hleft : Commit.left { Commit.start lh copy with copied := lh.length, unpinned := 0 + lh.length } = [] := by
      rw [Commit.left, Nat.zero_add]
      exact drop_length
    refine awp_seq (act_spec (.clear hc4 hleft)) fun _ t5 ht5 => ?_
    have hr5 : t5.Ready := by
      rw [ht5]
      exact hr4.commits rfl
    have hc5 : t5.commit = some (Commit.start [] copy) := by rw [ht5]; rfl
    refine awp_mono (writeHead_spec hr5 hc5 (by simp [Apart, Commit.start])) fun _ t6 ht6 => ?_
    rw [ht6]
    exact ⟨hr5, _, hc5, rfl⟩
  · refine ⟨hr, _, hc, ?_⟩
    rw [hlh] at hn
    exact length_eq_zero_iff.mp (Nat.eq_zero_of_not_pos hn)

def Post (t : Th) : Prop := t.transit = none ∧ t.filling = none ∧ t.commit = none

theorem endOp_spec (hr : t.Ready) (hc : t.commit = none) : Keeps start p c (endOp p) (fun _ => Post) t := by
  refine awp_seq (act_spec (.endOp hc)) fun (r : Bool) t1 ht1 => ?_
  cases r with
  | true =>
    obtain ⟨lh, copy, ha, rfl⟩ := ht1
    refine awp_seq (commit_spec (hr.commits rfl) rfl ha) fun _ t2 ht2 => ?_
    obtain ⟨hr2, cm, hc2, hlh⟩ := ht2
    refine awp_mono (act_spec (.endCommit hc2 hlh)) fun _ t3 ht3 => ?_
    rw [ht3]
    exact ⟨hr2.transit, hr2.filling, rfl⟩
  | false =>
    have ht1 : t1 = t := ht1
    rw [ht1]
    exact ⟨hr.transit, hr.filling, hc⟩

-- A process that returns from bread has the block's buffer, and one that returns from brelse has
-- given its buffer up.
structure Ends (c : Call) (t : Th) : Prop where
  post : Post t
  bread : ∀ dev blockno, c = .bread dev blockno → ∃ b, t.held b = some (dev, blockno)
  brelse : ∀ b, c = .brelse b → t.freed = some b

theorem call_spec (c : Call) : Keeps start p c (body p c) (fun _ => Ends c) Th.idle := by
  have hr : Th.idle.Ready := ⟨rfl, rfl, nofun, rfl⟩
  cases c with
  | bread dev blockno =>
    refine awp_seq (bread_spec hr dev blockno) fun b t ht => ?_
    rw [ht.2]
    refine ⟨⟨rfl, rfl, rfl⟩, fun dev' blockno' heq => ⟨b, ?_⟩, nofun⟩
    cases heq
    exact Th.held_hold _ b _
  | bwrite b =>
    refine awp_seq (act_spec (.mine b rfl)) fun _ t ht => ?_
    obtain ⟨blockno, rfl⟩ := ht
    refine awp_mono (bwrite_spec hr.hold.filling (Th.held_hold _ b _)) fun _ t ht => ?_
    rw [ht]
    exact ⟨⟨rfl, rfl, rfl⟩, nofun, nofun⟩
  | brelse b =>
    refine awp_seq (act_spec (.holdingsleep _ b)) fun (r : Bool) t ht => ?_
    refine awp_ite (fun hrt => ?_) fun _ => trivial
    have ht := ht.2 rfl
    rw [if_pos hrt] at ht
    obtain ⟨x, rfl⟩ := ht
    have hu : ∀ a, some b = some a → a = b := fun _ heq => (Option.some.inj heq).symm
    refine awp_to (act_spec (.releasesleep (Th.held_hold _ b x) hr.hold hu)) fun _ => ?_
    refine awp_mono (act_spec (.unref rfl)) fun _ t3 ht3 => ?_
    rw [ht3]
    refine ⟨⟨rfl, rfl, rfl⟩, nofun, fun b' heq => ?_⟩
    cases heq
    rfl
  | store b data =>
    refine awp_mono (act_spec (.store _ b data rfl)) fun _ t ht => ?_
    rw [ht]
    exact ⟨⟨rfl, rfl, rfl⟩, nofun, nofun⟩
  | logWrite b =>
    refine awp_seq (act_spec (.mine b rfl)) fun _ t ht => ?_
    obtain ⟨blockno, rfl⟩ := ht
    refine awp_mono (act_spec (.logWrite (Th.held_hold _ b _) rfl rfl)) fun _ t ht => ?_
    rw [ht]
    exact ⟨⟨rfl, rfl, rfl⟩, nofun, nofun⟩
  | beginOp =>
    refine awp_mono (act_spec (.beginOp _)) fun _ t ht => ?_
    rw [ht]
    exact ⟨⟨rfl, rfl, rfl⟩, nofun, nofun⟩
  | endOp => exact awp_mono (endOp_spec hr rfl) fun _ _ ht => ⟨ht, nofun, nofun⟩

end Specs

end Bcache
