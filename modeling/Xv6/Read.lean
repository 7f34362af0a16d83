import Xv6.Fs.Seek
import Xv6.Fs.Image
import Xv6.Fs.Quiet
import Xv6.Pipe.Fifo
import Xv6.Console.Line

-- How much a read may store, for each kind of descriptor.

namespace Pipes

open Lts List

section

variable {ι : Type}

-- What a process has stored where it stands. Bytes that a write has taken do not matter here.
def Stored (c : List UInt8) : Pc → Prop
  | .writeAcquire _ _ | .writeTop _ _ _ | .writeBody _ _ _ | .writeSleep _ _ _ | .writeWake _ _ _
  | .writeDone _ _ _ | .writeRelease _ _ _ => True
  | .readCopy _ n i | .readDone _ n i | .readRelease _ n i => c.length = i ∧ (i : Int) ≤ max n 0
  | _ => c = []

def Pc.asked : Pc → Option Int
  | .readAcquire _ n | .readTop _ n | .readSleep _ n | .readWake _ n => some n
  | .readCopy _ n _ | .readDone _ n _ | .readRelease _ n _ => some n
  | _ => none

-- A read that returns has stored, and reports, no more than it was asked for.
def Fair (c : ι → List UInt8) : Event ι → Prop
  | .ret p (.read _ n) r => ((c p).length : Int) ≤ max n 0 ∧ r ≤ max n 0
  | _ => True

theorem Stored.asked {c : List UInt8} {pc : Pc} {n : Int} (h : Stored c pc) (hn : pc.asked = some n) :
    (c.length : Int) ≤ max n 0 := by
  cases pc <;> simp only [Pc.asked, Option.some.injEq, reduceCtorEq] at hn <;> subst hn
  case readCopy | readDone | readRelease =>
    obtain ⟨rfl, hle⟩ := h
    exact hle
  all_goals
    simp only [Stored] at h
    subst h
    exact le_max_right _ _

variable [DecidableEq ι] {s s' : State ι} {p : ι} {es es' : List (Event ι)}

abbrev Sparing (es : List (Event ι)) (s : State ι) : Prop := Standing current Stored Fair es s.pc

theorem Sparing.ret (hf : Sparing es s) {c : Call} {r : Int} (hfair : Fair (current es) (.ret p c r)) :
    Sparing (es ++ [.ret p c r]) (s.goto p .user) := by
  refine hf.event hfair (fun q hq => ?_) ?_
  · rw [current_snoc]
    exact if_neg hq.symm
  · rw [current_snoc]
    exact if_pos rfl

theorem Sparing.step (hf : Sparing es s) (hm : pipe (.step p) s = some (s', es')) : Sparing (es ++ es') s' := by
  have hp := hf.stand p
  cases hpc : s.pc p <;> rw [hpc] at hp <;> simp only [pipe, hpc, awake, acquire, leave] at hm <;>
    (repeat' split at hm) <;> cases hm
  case readCopy.isTrue.isTrue dst n i hlt hdst =>
    have hnext : current (es ++ [.deliver p s.pipe.head]) p = current es p ++ [s.pipe.head] := by
      rw [current_snoc]
      exact if_pos rfl
    refine hf.event trivial (fun q hq => ?_) ?_
    · rw [current_snoc]
      exact if_neg hq.symm
    rw [hnext]
    refine ⟨by simp [hp.1], ?_⟩
    have h := hlt.1
    push_cast
    omega
  case readTop.isFalse dst n hcond =>
    rw [append_nil]
    exact hf.silent ⟨by rw [show current es p = [] from hp]; rfl, le_max_right _ _⟩
  case readTop.isTrue.isTrue dst n _ _ =>
    refine hf.ret ?_
    rw [Fair, show current es p = [] from hp]
    exact ⟨le_max_right _ _, le_trans (by decide) (le_max_right _ _)⟩
  case readRelease dst n i => exact hf.ret ⟨by rw [hp.1]; exact hp.2, hp.2⟩
  case writeTop.isTrue.isTrue | writeRelease => exact hf.ret trivial
  case h_2.refl =>
    refine hf.event trivial (fun q hq => ?_) trivial
    rw [current_snoc]
    exact if_neg hq.symm
  -- the other steps show nothing and store nothing
  all_goals
    rw [append_nil]
    exact hf.silent hp

theorem Sparing.move (hf : Sparing es s) {m : Move ι} (hm : pipe m s = some (s', es')) : Sparing (es ++ es') s' := by
  cases m with
  | step p => exact hf.step hm
  | kill p =>
    cases hm
    rw [append_nil]
    exact ⟨hf.stand, hf.fair⟩
  | call p c =>
    simp only [pipe] at hm
    split at hm
    · next hu =>
      have hp := hf.stand p
      rw [hu] at hp
      cases hm
      rw [append_nil]
      cases c with
      | write src n => exact hf.silent trivial
      | read dst n | close writable => exact hf.silent hp
    · cases hm

theorem sparing_of_run (hidle : Idle s) (hr : Run pipe (fun _ _ _ => True) s es s') : Sparing es s' := by
  refine hr.inv (I := fun es t => Sparing es t) ⟨fun p => ?_, always_nil _⟩ fun es t m t' es' hf _ hm => hf.move hm
  rw [hidle.pc p]
  rfl

end

end Pipes

namespace Console

open Lts List

section

variable {ι : Type}

def Stored (g : Got) : Pc → Prop
  | .user => g.bytes = []
  | .readAcquire _ _ => g.bytes = []
  | .readTop _ n i | .readDone n i => g.bytes.length = i ∧ (i : Int) ≤ max n 0
  | .readWait _ n i | .readSleep _ n i | .readWake _ n i | .readChar _ n i => g.bytes.length = i ∧ (i : Int) < n

def Pc.asked : Pc → Option Int
  | .user => none
  | .readAcquire _ n | .readTop _ n _ | .readWait _ n _ | .readSleep _ n _ | .readWake _ n _ | .readChar _ n _
  | .readDone n _ => some n

def Fair (g : ι → Got) : Event ι → Prop
  | .ret p n r => ((g p).bytes.length : Int) ≤ max n 0 ∧ r ≤ max n 0
  | _ => True

theorem Stored.asked {g : Got} {pc : Pc} {n : Int} (h : Stored g pc) (hn : pc.asked = some n) :
    (g.bytes.length : Int) ≤ max n 0 := by
  cases pc <;> simp only [Pc.asked, Option.some.injEq, reduceCtorEq] at hn <;> subst hn <;> simp only [Stored] at h
  case readAcquire =>
    rw [h]
    exact le_max_right _ _
  all_goals omega

variable [DecidableEq ι] {s s' : State ι} {p : ι} {es es' : List (Event ι)}

abbrev Sparing (es : List (Event ι)) (s : State ι) : Prop := Standing got Stored Fair es s.pc

section

variable (hf : Sparing es s)

include hf

theorem Sparing.ret {n r : Int} (hlen : ((got es p).bytes.length : Int) ≤ max n 0)
    (hr : r ≤ max n 0) : Sparing (es ++ [.ret p n r]) (s.goto p .user) := by
  refine hf.event ⟨hlen, hr⟩ (fun q hq => ?_) ?_
  · rw [got_snoc]
    exact if_neg hq.symm
  · rw [got_snoc]
    exact congrArg Got.bytes (if_pos rfl)

theorem Sparing.deliver {pc : Pc} {c : UInt8} (hx : ∀ g : Got, g.bytes = (got es p).bytes ++ [c] → Stored g pc) :
    Standing got Stored Fair (es ++ [.deliver p c]) (Function.update s.pc p pc) := by
  refine hf.event trivial (fun q hq => ?_) (hx _ ?_)
  · rw [got_snoc]
    exact if_neg hq.symm
  · rw [got_snoc]
    exact congrArg Got.bytes (if_pos rfl)

theorem Sparing.readChar {dst : Nat → Bool} {n : Int} {i : Nat} (hpc : s.pc p = .readChar dst n i) :
    Sparing (es ++ (readChar s p dst n i).2) (readChar s p dst n i).1 := by
  have hp := hf.stand p
  rw [hpc] at hp
  obtain ⟨hlen, hlt⟩ := hp
  have hle : (i : Int) ≤ max n 0 := by omega
  have hmore : ((i + 1 : Nat) : Int) ≤ max n 0 := by omega
  have hbytes : ∀ (c : UInt8) (g : Got), g.bytes = (got es p).bytes ++ [c] → g.bytes.length = i + 1 := by
    intro c g hg
    rw [hg, length_append, hlen]
    rfl
  unfold Console.readChar
  dsimp only
  by_cases heof : s.cons.buf (RingBuffer.slot s.cons.r) = C 'D'
  · rw [if_pos heof]
    by_cases hi : 0 < i
    · rw [if_pos hi, append_nil]
      exact hf.silent ⟨hlen, hle⟩
    rw [if_neg hi]
    refine hf.event trivial (fun q hq => ?_) ?_
    · rw [got_snoc]
      exact if_neg hq.symm
    · rw [got_snoc, gotNext, if_pos rfl]
      exact ⟨hlen, hle⟩
  · rw [if_neg heof]
    by_cases hdst : dst i = true
    · rw [if_pos hdst]
      by_cases hnl : s.cons.buf (RingBuffer.slot s.cons.r) = NEWLINE
      · rw [if_pos hnl]
        exact hf.deliver fun g hg => ⟨hbytes _ g hg, hmore⟩
      · rw [if_neg hnl]
        exact hf.deliver fun g hg => ⟨hbytes _ g hg, hmore⟩
    · rw [if_neg hdst, append_nil]
      exact hf.silent ⟨hlen, hle⟩

theorem Sparing.step (hm : console (.step p) s = some (s', es')) : Sparing (es ++ es') s' := by
  have hp := hf.stand p
  cases hpc : s.pc p <;> rw [hpc] at hp
  case readChar dst n i =>
    have h := hf.readChar hpc
    simp only [console, hpc, Option.some.injEq] at hm
    rwa [hm] at h
  all_goals
    simp only [console, hpc, acquire, leave] at hm
    (repeat' split at hm) <;> cases hm
  case h_1.refl =>
    rw [append_nil]
    exact hf.silent ⟨by rw [show (got es p).bytes = [] from hp]; rfl, le_max_right _ _⟩
  case readTop.isTrue dst n i hlt =>
    rw [append_nil]
    exact hf.silent ⟨hp.1, hlt⟩
  case readWait.isTrue.isTrue dst n i _ _ =>
    have hlt := hp.2
    exact hf.ret (by rw [hp.1]; omega) (by omega)
  case readDone n i => exact hf.ret (by rw [hp.1]; exact hp.2) hp.2
  all_goals
    rw [append_nil]
    exact hf.silent hp

theorem Sparing.idle (hpc : s'.pc = s.pc) {e : Event ι} (hnext : ∀ q g, gotNext q g e = g)
    (hfair : Fair (got es) e) : Sparing (es ++ [e]) s' := by
  refine ⟨fun q => ?_, always_snoc hf.fair hfair⟩
  rw [got_snoc, hnext, hpc]
  exact hf.stand q

theorem Sparing.move {m : Move ι} (hm : console m s = some (s', es')) : Sparing (es ++ es') s' := by
  cases m with
  | step p => exact hf.step hm
  | kill p =>
    cases hm
    exact hf.idle rfl (fun _ _ => rfl) trivial
  | intr c =>
    simp only [console] at hm
    split at hm
    · cases hm
    · split at hm <;> cases hm
      · exact hf.idle rfl (fun _ _ => rfl) trivial
      · rw [append_nil]
        exact ⟨hf.stand, hf.fair⟩
  | call p dst n =>
    have hp := hf.stand p
    simp only [console] at hm
    split at hm
    · next hu =>
      rw [hu] at hp
      cases hm
      rw [append_nil]
      exact hf.silent hp
    · cases hm

end

theorem sparing_of_run (hidle : Idle s) (hr : Run console (fun _ _ _ => True) s es s') : Sparing es s' := by
  refine hr.inv (I := fun es t => Sparing es t) ⟨fun p => ?_, always_nil _⟩ fun es t m t' es' hf _ hm => hf.move hm
  rw [hidle.pc p]
  rfl

end

end Console

namespace Fs

open Prog List

variable {sb : Superblock} {w w' : World} {p : Pid} {fd : Int32} {f : Fd} {k : Slot} {dst : Nat → Bool}

section Inode

theorem ftable_of_inner {α : Type} {m : Kernel α} {a : α} (h : Inner m) (hr : run kernelStep m w = .done a w') :
    w'.ftable = w.ftable := by
  refine run_of_all (I := fun v => v.ftable = w.ftable) (fun a v r v' ha hv hs => ?_) h rfl hr
  rw [← hv]
  cases a with
  | bsection b g =>
    rcases bsection_done hs with ⟨-, rfl⟩ | ⟨data, log, -, -, rfl⟩
    · rfl
    · rfl
  | bread b | bstore b g | inode k | setDin k g => cases hs; rfl
  | _ => exact absurd ha id

def loaded (sb : Superblock) (w : World) (k : Slot) : Dinode :=
  if (w.itable k).valid then (w.itable k).din else (w.cache (sb.IBLOCK (w.itable k).inum)).dinode

theorem run_ilock_done (h : run kernelStep (ilock sb p k) w = .done () w') :
    w'.ftable = w.ftable ∧ (w'.itable k).din = loaded sb w k := by
  change run kernelStep (if (w.itable k).ref < 1 then Kernel.panic .ilock else _) w = _ at h
  split at h
  · cases h
  obtain ⟨_, v, hv, h⟩ := run_bind_done h
  have hlock : v = w.setInode k { w.itable k with lock := some p } := by
    replace hv : kernelStep (.acquiresleep k p) w = Outcome.done () v := (Kernel.run_act (.acquiresleep k p) w).symm.trans hv
    simp only [kernelStep] at hv
    split at hv
    · exact (Outcome.done.inj hv).2.symm
    · cases hv
  subst hlock
  have hself := w.setInode_self k { w.itable k with lock := some p }
  change run kernelStep (if ((w.setInode k { w.itable k with lock := some p }).itable k).valid = true then _ else _) _
    = _ at h
  rw [hself] at h
  unfold loaded
  by_cases hvalid : (w.itable k).valid = true
  · rw [if_pos hvalid] at h ⊢
    cases h
    exact ⟨rfl, by rw [hself]⟩
  rw [if_neg hvalid] at h ⊢
  obtain ⟨dip, u, hu, h⟩ := run_bind_done h
  cases hu
  split at h
  · cases h
  · cases h
    exact ⟨rfl, by rw [World.setInode_self]; rfl⟩

theorem run_iunlock_done (h : run kernelStep (iunlock p k) w = .done () w') : w'.ftable = w.ftable := by
  replace h : (if (w.itable k).lock ≠ some p ∨ (w.itable k).ref < 1 then _ else _) = Outcome.done () w' :=
    run_ite.symm.trans h
  split at h
  · cases h
  · cases h
    rfl

theorem eitherCopyout_length (dst : Nat → Bool) (at_ : Nat) (bytes : List UInt8) :
    (eitherCopyout dst at_ bytes).1.length ≤ bytes.length := by
  unfold eitherCopyout
  simp only [length_map]
  exact le_trans (List.takeWhile_prefix _).length_le (by simp)

variable {bytes acc : List UInt8} {off n : Nat} {r : Int}

theorem eitherCopyout_true {at_ : Nat} {sent : List UInt8} (h : eitherCopyout dst at_ bytes = (sent, true)) :
    sent.length = bytes.length := by
  unfold eitherCopyout at h
  simp only [Prod.mk.injEq, decide_eq_true_eq] at h
  rw [← h.1]
  exact h.2

theorem readLoop_done {fuel tot : Nat}
    (h : run kernelStep (readLoop sb k dst fuel off n tot acc) w = .done (r, bytes) w') (htot : tot ≤ n)
    (hacc : acc.length = tot) : acc <+: bytes ∧ bytes.length ≤ n ∧ r ≤ bytes.length := by
  have hdone : acc <+: acc ∧ acc.length ≤ n ∧ (tot : Int) ≤ acc.length :=
    ⟨prefix_rfl, by omega, by omega⟩
  induction fuel generalizing off tot acc w with
  | zero =>
    cases h
    exact hdone
  | succ fuel ih =>
    rw [readLoop] at h
    split at h
    · next hlt =>
      obtain ⟨addr, v, -, h⟩ := run_bind_done h
      split at h
      · cases h
        exact hdone
      obtain ⟨bp, u, -, h⟩ := run_bind_done h
      have hlen := eitherCopyout_length dst tot
        (Block.read bp (off % BSIZE) (min (n - tot) (BSIZE - off % BSIZE)))
      have hread := Block.length_read bp (off % BSIZE) (min (n - tot) (BSIZE - off % BSIZE))
      dsimp only at h
      rcases hc : eitherCopyout dst tot (Block.read bp (off % BSIZE) (min (n - tot) (BSIZE - off % BSIZE))) with ⟨sent, ok⟩
      cases ok with
      | true =>
        have hsent := eitherCopyout_true hc
        rw [hc] at h
        have hnext := ih h (by omega) (by rw [length_append]; omega)
          ⟨prefix_rfl, by rw [length_append]; omega, by rw [length_append]; omega⟩
        exact ⟨(prefix_append acc sent).trans hnext.1, hnext.2⟩
      | false =>
        rw [hc] at h hlen
        cases h
        refine ⟨prefix_append acc sent, ?_, by omega⟩
        rw [length_append]
        dsimp only at hlen
        omega
    · cases h
      exact hdone

theorem eitherCopyout_first (dst : Nat → Bool) {m : Nat} (hm : bytes.length = m + 1) :
    ((eitherCopyout dst 0 bytes).1 = [] ↔ dst 0 = false) ∧ ((eitherCopyout dst 0 bytes).1 = [] →
      (eitherCopyout dst 0 bytes).2 = false) := by
  match bytes, hm with
  | b :: bytes, _ =>
    unfold eitherCopyout
    cases hd : dst 0 with
    | false | true => simp [zipIdx_cons, hd]

theorem readLoop_first {fuel : Nat}
    (h : run kernelStep (readLoop sb k dst (fuel + 1) off n 0 []) w = .done (r, bytes) w') (hn : 0 < n) :
    bytes = [] ↔ dst 0 = false ∨ ∃ v, run kernelStep (bmap sb k (off / BSIZE)) w = .done 0 v := by
  rw [readLoop, if_pos hn] at h
  obtain ⟨addr, v, hv, h⟩ := run_bind_done h
  by_cases haddr : addr = 0
  · rw [if_pos haddr] at h
    subst haddr
    cases h
    exact iff_of_true rfl (.inr ⟨_, hv⟩)
  rw [if_neg haddr] at h
  have hno : ¬∃ v, run kernelStep (bmap sb k (off / BSIZE)) w = .done 0 v := by
    rintro ⟨u, hu⟩
    rw [hv] at hu
    exact haddr (Outcome.done.inj hu).1
  rw [or_iff_left hno]
  obtain ⟨bp, u, -, h⟩ := run_bind_done h
  have hmod : off % BSIZE < BSIZE := Nat.mod_lt _ (by decide)
  have hlen := Block.length_read bp (off % BSIZE) (min (n - 0) (BSIZE - off % BSIZE))
  obtain ⟨m, hm⟩ : ∃ m, (Block.read bp (off % BSIZE) (min (n - 0) (BSIZE - off % BSIZE))).length = m + 1 :=
    ⟨min (n - 0) (BSIZE - off % BSIZE) - 1, hlen.trans (by omega)⟩
  obtain ⟨hfirst, hfalse⟩ := eitherCopyout_first dst hm
  rw [← hfirst]
  dsimp only at h
  rcases hc : eitherCopyout dst 0 (Block.read bp (off % BSIZE) (min (n - 0) (BSIZE - off % BSIZE))) with ⟨sent, ok⟩
  cases ok with
  | true =>
    have hsent := eitherCopyout_true hc
    rw [hc] at h hfalse
    have hne : sent ≠ [] := fun h0 => Bool.noConfusion (hfalse h0)
    have hpre := (readLoop_done h (by omega) (by rw [nil_append]; omega)).1
    refine iff_of_false (fun h0 => hne ?_) hne
    rw [h0, nil_append] at hpre
    exact prefix_nil.mp hpre
  | false =>
    rw [hc] at h
    cases h
    rw [nil_append]

theorem readi_done {off n : UInt32}
    (h : run kernelStep (readi sb k dst off n) w = .done (r, bytes) w') :
    bytes.length ≤ n.toNat ∧ r ≤ bytes.length ∧ (bytes = [] ∨ off.toNat + bytes.length ≤ (w.itable k).din.size.toNat) ∧
      (bytes = [] ↔ n = 0 ∨ (w.itable k).din.size ≤ off ∨ 2 ^ 32 ≤ off.toNat + n.toNat ∨ dst 0 = false ∨
        ∃ v, run kernelStep (bmap sb k (off.toNat / BSIZE)) w = .done 0 v) := by
  change run kernelStep (if off > (w.itable k).din.size ∨ off + n < off then pure (0, []) else _) w = _ at h
  generalize hsize : (w.itable k).din.size = size at h
  have h1 := off.toNat_lt
  have h2 := n.toNat_lt
  have h3 := size.toNat_lt
  have hwrap : off + n < off ↔ 2 ^ 32 ≤ off.toNat + n.toNat := by
    rw [UInt32.lt_iff_toNat_lt, UInt32.toNat_add]
    omega
  by_cases hbad : off > size ∨ off + n < off
  · rw [if_pos hbad] at h
    cases h
    refine ⟨Nat.zero_le _, le_rfl, .inl rfl, iff_of_true rfl ?_⟩
    rw [hwrap] at hbad
    rcases hbad with hbad | hbad
    · exact .inr (.inl (UInt32.le_of_lt hbad))
    · exact .inr (.inr (.inl hbad))
  rw [if_neg hbad] at h
  obtain ⟨hoff, hnowrap⟩ := not_or.mp hbad
  have hoff : off.toNat ≤ size.toNat := UInt32.not_lt.mp hoff
  rw [readCount hoff hnowrap] at h
  obtain ⟨-, hlen, hr⟩ := readLoop_done h (Nat.zero_le _) rfl
  refine ⟨by omega, hr, .inr (by omega), ?_⟩
  rw [← hwrap, or_iff_right hnowrap]
  cases hcount : min n.toNat (size.toNat - off.toNat) with
  | zero =>
    rw [hcount] at h
    cases h
    refine iff_of_true rfl ?_
    rcases Nat.eq_zero_or_pos n.toNat with hn | hn
    · exact .inl (UInt32.toNat.inj hn)
    · exact .inr (.inl (UInt32.le_iff_toNat_le.mpr (by omega)))
  | succ m =>
    rw [hcount] at h
    have hn : n ≠ 0 := by
      rintro rfl
      rw [show (0 : UInt32).toNat = 0 from rfl, Nat.zero_min] at hcount
      cases hcount
    have hlt : ¬size ≤ off := by
      rw [UInt32.le_iff_toNat_le]
      omega
    rw [or_iff_right hn, or_iff_right hlt]
    exact readLoop_first h (Nat.succ_pos m)

end Inode

-- A read of `n` bytes that returns `r` after it has stored `bytes`.
def AtMost (n : Int) (r : Int) (bytes : List UInt8) : Prop := (bytes.length : Int) ≤ max n 0 ∧ r ≤ max n 0

-- The reasons for which a read of an inode refuses, or stores no byte.
structure Stopped (sb : Superblock) (w : World) (p : Pid) (f : Fd) (k : Slot) (dst : Nat → Bool) : Prop where
  why : (w.ftable f).readable = false ∨ ((w.itable k).din.mode &&& S_IRUSR = 0 ∧ (w.itable k).din.type ≠ T_DIR) ∨
    dst 0 = false ∨
    ∃ v, run kernelStep (ilock sb p k >>= fun _ => bmap sb k ((w.ftable f).off.toNat / BSIZE)) w = .done 0 v

-- The count is not negative, its sum with the offset wraps around, nothing is left to read, or
-- nothing can be stored.
def ReadFits (sb : Superblock) (w : World) (p : Pid) (f : Fd) (k : Slot) (dst : Nat → Bool) (n : Int32) : Prop :=
  0 ≤ n.toInt ∨ -n.toInt ≤ (w.ftable f).off.toNat ∨ (loaded sb w k).size ≤ (w.ftable f).off ∨ Stopped sb w p f k dst

section Syscall

variable {n : Int32} {io r : Int} {bytes : List UInt8}

def readLocked (sb : Superblock) (p : Pid) (f : Fd) (k : Slot) (dst : Nat → Bool) (n : UInt32) :
    Kernel (Int × List UInt8) := do
  ilock sb p k
  let ff ← fileOf f
  let r ← readi sb k dst ff.off n
  advance f r.1
  iunlock p k
  pure r

theorem run_advance {f : Fd} {r : Int} (h : run kernelStep (advance f r) w = .done () w') :
    (w'.ftable f).off = (w.ftable f).off + UInt32.ofNat r.toNat := by
  unfold advance at h
  replace h : (if r > 0 then _ else _) = Outcome.done () w' := run_ite.symm.trans h
  split at h
  · cases h
    rw [World.setFile_self]
  · next hr =>
    cases h
    rw [Int.toNat_of_nonpos (Int.not_lt.mp hr)]
    exact (UInt32.add_zero _).symm

theorem readLocked_done {n : UInt32} (h : run kernelStep (readLocked sb p f k dst n) w = .done (r, bytes) w') :
    bytes.length ≤ n.toNat ∧ r ≤ bytes.length ∧ (w'.ftable f).off.toNat = (w.ftable f).off.toNat + r.toNat ∧
      (bytes = [] ↔ n = 0 ∨ (loaded sb w k).size ≤ (w.ftable f).off ∨ 2 ^ 32 ≤ (w.ftable f).off.toNat + n.toNat ∨
        dst 0 = false ∨
        ∃ v, run kernelStep (ilock sb p k >>= fun _ => bmap sb k ((w.ftable f).off.toNat / BSIZE)) w = .done 0 v) := by
  obtain ⟨_, v, hlock, h⟩ := run_bind_done h
  obtain ⟨hfiles, hdin⟩ := run_ilock_done hlock
  change run kernelStep (readi sb k dst (v.ftable f).off n >>= _) v = _ at h
  obtain ⟨⟨r', bytes'⟩, u, hread, h⟩ := run_bind_done h
  obtain ⟨_, u', hadv, h⟩ := run_bind_done h
  obtain ⟨_, w'', hunlock, h⟩ := run_bind_done h
  cases h
  obtain ⟨hlen, hr, hin, hempty⟩ := readi_done hread
  have hoff : (w'.ftable f).off = (w.ftable f).off + UInt32.ofNat r.toNat := by
    rw [run_iunlock_done hunlock, run_advance hadv, ftable_of_inner (readi_inner sb k dst _ n) hread, hfiles]
  rw [hfiles, hdin] at hin hempty
  refine ⟨hlen, hr, ?_, ?_⟩
  · have h1 := (loaded sb w k).size.toNat_lt
    rw [hoff, UInt32.toNat_add, UInt32.toNat_ofNat']
    rcases hin with rfl | hin
    · have h0 : r.toNat = 0 := by
        rw [length_nil] at hr
        omega
      have h2 := (w.ftable f).off.toNat_lt
      rw [h0]
      omega
    · omega
  · rw [run_bind hlock]
    exact hempty

theorem toNat_toUInt32_neg (hn : n.toInt < 0) : (n.toUInt32.toNat : Int) = 2 ^ 32 + n.toInt := by
  have h := toInt_eq n
  omega

-- A negative count that no check catches stores what is left of the file.
theorem atMost_iff (hn : n.toInt < 0) (hr : r ≤ bytes.length) : AtMost n.toInt r bytes ↔ bytes = [] := by
  have hmax : max n.toInt 0 = 0 := max_eq_right hn.le
  unfold AtMost
  rw [hmax]
  constructor
  · intro h
    exact length_eq_zero_iff.mp (by omega)
  · rintro rfl
    exact ⟨le_rfl, hr⟩

theorem sysRead_inode (h : OpensInode w p fd f k)
    (hrun : run kernelStep (sysRead sb p fd dst n.toUInt32 io) w = .done (r, bytes) w') :
    (AtMost n.toInt r bytes ↔ ReadFits sb w p f k dst n) ∧
      (w'.ftable f).off.toNat = (w.ftable f).off.toNat + r.toNat := by
  have hrefuse : AtMost n.toInt (-1) [] := ⟨le_max_right _ _, le_trans (by decide) (le_max_right _ _)⟩
  obtain ⟨i, hargfd⟩ := run_argfd h.opens
  obtain ⟨b, hperm, hb⟩ := run_permitted w f S_IRUSR
  unfold sysRead at hrun
  rw [run_bind hargfd] at hrun
  replace hrun : run kernelStep (permitted f S_IRUSR >>= fun b =>
    if b = true then fileread sb p f dst n.toUInt32 io else pure (-1, [])) w = .done (r, bytes) w' := hrun
  rw [run_bind hperm] at hrun
  cases b with
  | false =>
    cases hrun
    have hno : ¬∀ k, (w.ftable f).ip = some k → _ := mt hb.mpr Bool.false_ne_true
    refine ⟨iff_of_true hrefuse (.inr (.inr (.inr ⟨.inr (.inl ?_)⟩))), rfl⟩
    by_contra hcon
    refine hno fun k' hk' => ?_
    rw [h.ip] at hk'
    cases hk'
    tauto
  | true =>
    rw [if_pos rfl] at hrun
    replace hrun : (if (w.ftable f).readable = false then _ else _) = Outcome.done (r, bytes) w' :=
      run_ite.symm.trans hrun
    split at hrun
    · next hro =>
      cases hrun
      exact ⟨iff_of_true hrefuse (.inr (.inr (.inr ⟨.inl hro⟩))), rfl⟩
    · next hro =>
      rw [h.type, h.ip] at hrun
      replace hrun : run kernelStep (readLocked sb p f k dst n.toUInt32) w = .done (r, bytes) w' := hrun
      obtain ⟨hlen, hr, hoff, hempty⟩ := readLocked_done hrun
      refine ⟨?_, hoff⟩
      by_cases hn : 0 ≤ n.toInt
      · have hcount := toInt_eq n
        have hlt := n.toUInt32.toNat_lt
        refine iff_of_true ⟨?_, ?_⟩ (.inl hn) <;> omega
      have hneg := toNat_toUInt32_neg (not_le.mp hn)
      have hne : n.toUInt32 ≠ 0 := by
        intro h0
        have hcount := toInt_eq n
        rw [h0, show (0 : UInt32).toNat = 0 from rfl] at hcount
        omega
      have hallow : ¬((w.itable k).din.mode &&& S_IRUSR = 0 ∧ (w.itable k).din.type ≠ T_DIR) := by
        have := hb.mp rfl k h.ip
        tauto
      have hwrap : 2 ^ 32 ≤ (w.ftable f).off.toNat + n.toUInt32.toNat ↔ -n.toInt ≤ (w.ftable f).off.toNat := by
        omega
      rw [atMost_iff (not_le.mp hn) hr, hempty, or_iff_right hne, hwrap]
      unfold ReadFits
      rw [or_iff_right hn]
      constructor
      · rintro (h1 | h1 | h1 | h1)
        · exact .inr (.inl h1)
        · exact .inl h1
        · exact .inr (.inr ⟨.inr (.inr (.inl h1))⟩)
        · exact .inr (.inr ⟨.inr (.inr (.inr h1))⟩)
      · rintro (h1 | h1 | ⟨h1 | h1 | h1 | h1⟩)
        · exact .inr (.inl h1)
        · exact .inl h1
        · exact absurd h1 hro
        · exact absurd h1 hallow
        · exact .inr (.inr (.inl h1))
        · exact .inr (.inr (.inr h1))

theorem sysRead_other (hf : descriptor w p fd = some f) (htype : (w.ftable f).type = .pipe ∨ (w.ftable f).type = .device)
    (dst : Nat → Bool) (n : UInt32) : run kernelStep (sysRead sb p fd dst n io) w = .done (io, []) w ∨
      run kernelStep (sysRead sb p fd dst n io) w = .done (-1, []) w := by
  obtain ⟨i, hargfd⟩ := run_argfd hf
  obtain ⟨b, hperm, -⟩ := run_permitted w f S_IRUSR
  have hrun : run kernelStep (sysRead sb p fd dst n io) w = run kernelStep (permitted f S_IRUSR >>= fun b =>
      if b = true then fileread sb p f dst n io else pure (-1, [])) w := by
    unfold sysRead
    rw [run_bind hargfd]
  rw [hrun, run_bind hperm]
  cases b with
  | false => exact .inr rfl
  | true =>
    rw [if_pos rfl]
    rw [fileread, run_bind (show run kernelStep (fileOf f) w = .done (w.ftable f) w from rfl)]
    split
    · exact .inr rfl
    rcases htype with htype | htype
    · rw [htype]
      exact .inl rfl
    rw [htype]
    dsimp only
    split
    · exact .inl rfl
    · exact .inr rfl

end Syscall

-- No read stores or reports more than it was asked for: in every run of a pipe or the console, and
-- for an inode exactly if the checks can see the count.
theorem read_at_most (sb : Superblock) (w : World) (p : Pid) (fd : Int32) (f : Fd) (dst : Nat → Bool) (io : Int) :
    (∀ w' k (n : Int32) r bytes, OpensInode w p fd f k →
      run kernelStep (sysRead sb p fd dst n.toUInt32 io) w = .done (r, bytes) w' →
      (AtMost n.toInt r bytes ↔ ReadFits sb w p f k dst n) ∧
        (w'.ftable f).off.toNat = (w.ftable f).off.toNat + r.toNat) ∧
    (∀ n, descriptor w p fd = some f → (w.ftable f).type = .pipe ∨ (w.ftable f).type = .device →
      run kernelStep (sysRead sb p fd dst n io) w = .done (io, []) w ∨
        run kernelStep (sysRead sb p fd dst n io) w = .done (-1, []) w) ∧
    (∀ (ι : Type) [DecidableEq ι] (s t : Pipes.State ι) es, Pipes.Idle s →
      Lts.Run Pipes.pipe (fun _ _ _ => True) s es t →
      (∀ p n, (t.pc p).asked = some n → ((Pipes.current es p).length : Int) ≤ max n 0) ∧
        Lts.Always (fun before e => Pipes.Fair (Pipes.current before) e) es) ∧
    (∀ (ι : Type) [DecidableEq ι] (s t : Console.State ι) es, Console.Idle s →
      Lts.Run Console.console (fun _ _ _ => True) s es t →
      (∀ p n, (t.pc p).asked = some n → ((Console.got es p).bytes.length : Int) ≤ max n 0) ∧
        Lts.Always (fun before e => Console.Fair (Console.got before) e) es) := by
  refine ⟨fun w' k n r bytes h hrun => sysRead_inode h hrun, fun n hf htype => sysRead_other hf htype dst n,
    fun ι _ s t es hidle hr => ?_, fun ι _ s t es hidle hr => ?_⟩
  · have hf := Pipes.sparing_of_run hidle hr
    exact ⟨fun p n hn => (hf.stand p).asked hn, hf.fair⟩
  · have hf := Console.sparing_of_run hidle hr
    exact ⟨fun p n hn => (hf.stand p).asked hn, hf.fair⟩

-- The file "f" of two bytes is read from its start, with two counts.
theorem openF_read : ∃ w, openF = .done 0 w ∧ OpensInode w initproc 0 0 1 ∧
    ends (fun r _ => r = (2, [7, 9])) (run kernelStep (sysRead tiny initproc 0 kernelDst (-1 : Int32).toUInt32 0) w) ∧
    ends (fun r _ => r = (1, [7])) (run kernelStep (sysRead tiny initproc 0 kernelDst (1 : Int32).toUInt32 0) w) := by
  have hrun : ends (fun r w => r = 0 ∧ (w.proc initproc).ofile 0 = some 0 ∧ (w.ftable 0).type = .inode ∧
      (w.ftable 0).ip = some 1 ∧
      ends (fun r _ => r = (2, [7, 9])) (run kernelStep (sysRead tiny initproc 0 kernelDst (-1 : Int32).toUInt32 0) w) ∧
      ends (fun r _ => r = (1, [7])) (run kernelStep (sysRead tiny initproc 0 kernelDst (1 : Int32).toUInt32 0) w))
      openF = true := by
    decide
  obtain ⟨r, w, hw, hP⟩ := done_of_ends hrun
  obtain ⟨rfl, hfile, htype, hip, hneg, hone⟩ := of_decide_eq_true hP
  exact ⟨w, hw, ⟨hfile, htype, hip⟩, hneg, hone⟩

-- A count of -1 gets the whole file.
theorem not_read_at_most : ∃ w w', openF = .done 0 w ∧ OpensInode w initproc 0 0 1 ∧
    run kernelStep (sysRead tiny initproc 0 kernelDst (-1 : Int32).toUInt32 0) w = .done (2, [7, 9]) w' ∧
    ¬AtMost (-1 : Int32).toInt 2 [7, 9] := by
  obtain ⟨w, hw, hopen, hneg, -⟩ := openF_read
  obtain ⟨r, w', hr, hP⟩ := done_of_ends hneg
  obtain rfl := of_decide_eq_true hP
  exact ⟨w, w', hw, hopen, hr, fun h => absurd h.2 (by decide)⟩

theorem read_at_most_one : ∃ w w', openF = .done 0 w ∧
    run kernelStep (sysRead tiny initproc 0 kernelDst (1 : Int32).toUInt32 0) w = .done (1, [7]) w' ∧
    AtMost (1 : Int32).toInt 1 [7] ∧ (w'.ftable 0).off.toNat = (w.ftable 0).off.toNat + 1 := by
  obtain ⟨w, hw, hopen, -, hone⟩ := openF_read
  obtain ⟨r, w', hr, hP⟩ := done_of_ends hone
  obtain rfl := of_decide_eq_true hP
  obtain ⟨hiff, hoff⟩ := (read_at_most _ _ _ _ _ _ _).1 _ _ _ _ _ hopen hr
  exact ⟨w, w', hw, hr, hiff.mpr (.inl (by decide)), hoff⟩

end Fs
