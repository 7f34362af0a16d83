import Xv6.Pipe.Descriptor

-- lseek against integer arithmetic.

namespace Fs

open Prog

structure OpensInode (w : World) (p : Pid) (fd : Int32) (f : Fd) (k : Slot) : Prop where
  opens : descriptor w p fd = some f
  type : (w.ftable f).type = .inode
  ip : (w.ftable f).ip = some k

def seekBase (off size : UInt32) (whence : Int32) : Option Int :=
  if whence = SEEK_SET then some 0
  else if whence = SEEK_CUR then some off.toNat
  else if whence = SEEK_END then some size.toNat
  else none

-- Where lseek should go: the sum, if it is an offset within the file.
def seekTarget (off size : UInt32) (offset whence : Int32) : Option Int := do
  let base ← seekBase off size whence
  if 0 ≤ base + offset.toInt ∧ base + offset.toInt ≤ size.toNat then some (base + offset.toInt) else none

-- The return of lseek at the offset `target`, or of one that is refused.
def seeked (w : World) (f : Fd) : Option Int → Outcome Panic World Int
  | none => .done (-1) w
  | some t => .done t (w.setFile f { w.ftable f with off := UInt32.ofNat t.toNat })

-- The sums of the source, which wrap, stay clear of the file's offsets where the integer sums do.
structure SeekFits (off size : UInt32) (offset whence : Int32) : Prop where
  cur : whence = SEEK_CUR → (0 ≤ off.toNat + offset.toInt ∧ off.toNat + offset.toInt < 2 ^ 32) ∨
    size.toNat < (off.toNat + offset.toInt) % 2 ^ 32
  fromEnd : whence = SEEK_END → 0 ≤ size.toNat + offset.toInt

section Seek

variable {off size : UInt32} {offset whence : Int32}

def seekResult (off size : UInt32) (offset whence : Int32) : Option Int :=
  if badSeek offset whence then none else (seekTo off size offset whence).map fun u => (u.toNat : Int)

theorem toInt_eq (x : Int32) :
    x.toInt = if 2 * x.toUInt32.toNat < 2 ^ 32 then (x.toUInt32.toNat : Int) else x.toUInt32.toNat - 2 ^ 32 :=
  BitVec.toInt_eq_toNat_cond x.toUInt32.toBitVec

theorem toNat_add_toUInt32 (u : UInt32) (x : Int32) :
    ((u + x.toUInt32).toNat : Int) = (u.toNat + x.toInt) % 2 ^ 32 := by
  have hx := toInt_eq x
  rw [UInt32.toNat_add]
  omega

theorem run_sysLseek {w : World} {p : Pid} {fd : Int32} {f : Fd} {k : Slot} (h : OpensInode w p fd f k) :
    run kernelStep (sysLseek p fd offset whence) w =
      seeked w f (seekResult (w.ftable f).off (w.itable k).din.size offset whence) := by
  obtain ⟨i, hargfd⟩ := run_argfd h.opens
  unfold sysLseek seekResult
  rw [run_bind hargfd]
  dsimp only
  by_cases hbad : badSeek offset whence
  · rw [if_pos hbad, if_pos hbad]
    rfl
  rw [if_neg hbad, if_neg hbad]
  change run kernelStep (deref (w.ftable f).ip >>= _) w = _
  rw [h.ip, run_bind (show run kernelStep (deref (some k)) w = .done k w from rfl),
    run_bind (show run kernelStep (inode k) w = .done (w.itable k) w from rfl)]
  cases seekTo (w.ftable f).off (w.itable k).din.size offset whence with
  | none => rfl
  | some u =>
    change Outcome.done _ _ = Outcome.done _ _
    rw [Int.toNat_natCast, UInt32.ofNat_toNat]

theorem seeked_inj {w : World} {f : Fd} {s t : Option Int} (hs : ∀ x ∈ s, 0 ≤ x) (ht : ∀ x ∈ t, 0 ≤ x)
    (h : seeked w f s = seeked w f t) : s = t := by
  cases s with
  | none =>
    cases t with
    | none => rfl
    | some y =>
      have hy := ht y rfl
      have hr : -1 = y := (Outcome.done.inj h).1
      omega
  | some x =>
    cases t with
    | none =>
      have hx := hs x rfl
      have hr : x = -1 := (Outcome.done.inj h).1
      omega
    | some y => exact congrArg some (Outcome.done.inj h).1

theorem seekResult_nonneg : ∀ x ∈ seekResult off size offset whence, 0 ≤ x := by
  intro x hx
  unfold seekResult at hx
  split at hx
  · cases hx
  · obtain ⟨u, -, rfl⟩ := Option.map_eq_some_iff.mp hx
    exact Int.natCast_nonneg _

theorem seekTarget_bounds : ∀ x ∈ seekTarget off size offset whence, 0 ≤ x ∧ x ≤ size.toNat := by
  intro x hx
  obtain ⟨base, -, hx⟩ := Option.bind_eq_some_iff.mp hx
  split at hx
  · next h =>
    cases hx
    exact h
  · cases hx

theorem seekResult_set : seekResult off size offset SEEK_SET = seekTarget off size offset SEEK_SET := by
  have hx := toInt_eq offset
  have hlt := offset.toUInt32.toNat_lt
  have hbad : badSeek offset SEEK_SET ↔ offset.toInt < 0 := by
    simp [badSeek, Int32.lt_iff_toInt_lt, SEEK_SET, SEEK_CUR, SEEK_END]
  have hset : seekTo off size offset SEEK_SET = if offset.toUInt32 > size then none else some offset.toUInt32 := rfl
  have htarget : seekTarget off size offset SEEK_SET =
      if 0 ≤ 0 + offset.toInt ∧ 0 + offset.toInt ≤ size.toNat then some (0 + offset.toInt) else none := rfl
  rw [seekResult, if_congr hbad rfl rfl, hset, htarget]
  by_cases hneg : offset.toInt < 0
  · rw [if_pos hneg, if_neg (by omega)]
  have hnat : (offset.toUInt32.toNat : Int) = offset.toInt := by omega
  rw [if_neg hneg]
  by_cases hbig : offset.toUInt32 > size
  · have h := UInt32.lt_iff_toNat_lt.mp hbig
    rw [if_pos hbig, if_neg (by omega)]
    rfl
  · have h := UInt32.not_lt.mp hbig
    rw [UInt32.le_iff_toNat_le] at h
    rw [if_neg hbig, if_pos (by omega), Option.map_some, hnat, Int.zero_add]

theorem seekResult_cur : seekResult off size offset SEEK_CUR = seekTarget off size offset SEEK_CUR ↔
    (0 ≤ off.toNat + offset.toInt ∧ off.toNat + offset.toInt < 2 ^ 32) ∨
      size.toNat < (off.toNat + offset.toInt) % 2 ^ 32 := by
  have hsum := toNat_add_toUInt32 off offset
  have hsize := size.toNat_lt
  have hbad : ¬badSeek offset SEEK_CUR := by simp [badSeek, SEEK_SET, SEEK_CUR, SEEK_END]
  have hcur : seekTo off size offset SEEK_CUR = if off + offset.toUInt32 < 0 ∨ off + offset.toUInt32 > size then none
      else some (off + offset.toUInt32) := rfl
  have htarget : seekTarget off size offset SEEK_CUR =
      if 0 ≤ off.toNat + offset.toInt ∧ off.toNat + offset.toInt ≤ size.toNat then
        some (off.toNat + offset.toInt) else none := rfl
  have hcond : (off + offset.toUInt32 < 0 ∨ off + offset.toUInt32 > size) ↔
      (size.toNat : Int) < (off.toNat + offset.toInt) % 2 ^ 32 := by
    have hzero : (0 : UInt32).toNat = 0 := rfl
    rw [← hsum, gt_iff_lt, UInt32.lt_iff_toNat_lt, UInt32.lt_iff_toNat_lt, hzero]
    omega
  rw [seekResult, if_neg hbad, hcur, htarget, if_congr hcond rfl rfl]
  by_cases hbig : (size.toNat : Int) < (off.toNat + offset.toInt) % 2 ^ 32
  · rw [if_pos hbig, if_neg (by omega)]
    exact iff_of_true rfl (.inr hbig)
  rw [if_neg hbig, Option.map_some, hsum]
  by_cases hin : 0 ≤ off.toNat + offset.toInt ∧ off.toNat + offset.toInt ≤ size.toNat
  · rw [if_pos hin, Option.some.injEq]
    omega
  · rw [if_neg hin]
    refine iff_of_false (fun h => by cases h) ?_
    omega

theorem seekResult_end : seekResult off size offset SEEK_END = seekTarget off size offset SEEK_END ↔
    0 ≤ size.toNat + offset.toInt := by
  have hsum := toNat_add_toUInt32 size offset
  have hsize := size.toNat_lt
  have hbad : badSeek offset SEEK_END ↔ 0 < offset.toInt := by
    simp [badSeek, Int32.lt_iff_toInt_lt, SEEK_SET, SEEK_CUR, SEEK_END]
  have hend : seekTo off size offset SEEK_END =
      if size + offset.toUInt32 < 0 then none else some (size + offset.toUInt32) := rfl
  have htarget : seekTarget off size offset SEEK_END =
      if 0 ≤ size.toNat + offset.toInt ∧ size.toNat + offset.toInt ≤ size.toNat then
        some (size.toNat + offset.toInt) else none := rfl
  have hcond : ¬size + offset.toUInt32 < 0 := by
    rw [UInt32.lt_iff_toNat_lt]
    simp
  rw [seekResult, if_congr hbad rfl rfl, hend, htarget, if_neg hcond, Option.map_some, hsum]
  by_cases hpos : 0 < offset.toInt
  · rw [if_pos hpos, if_neg (by omega)]
    exact iff_of_true rfl (by omega)
  rw [if_neg hpos]
  by_cases hin : 0 ≤ size.toNat + offset.toInt
  · rw [if_pos (by omega), Option.some.injEq]
    omega
  · rw [if_neg (by omega)]
    exact iff_of_false (fun h => by cases h) hin

theorem seekResult_iff :
    seekResult off size offset whence = seekTarget off size offset whence ↔ SeekFits off size offset whence := by
  by_cases hset : whence = SEEK_SET
  · subst hset
    exact iff_of_true seekResult_set ⟨fun h => absurd h (by decide), fun h => absurd h (by decide)⟩
  by_cases hcur : whence = SEEK_CUR
  · subst hcur
    rw [seekResult_cur]
    exact ⟨fun h => ⟨fun _ => h, fun h => absurd h (by decide)⟩, fun h => h.cur rfl⟩
  by_cases hend : whence = SEEK_END
  · subst hend
    rw [seekResult_end]
    exact ⟨fun h => ⟨fun h => absurd h (by decide), fun _ => h⟩, fun h => h.fromEnd rfl⟩
  · have hbad : badSeek offset whence := .inr (.inr ⟨hset, hcur, hend⟩)
    have hnone : seekBase off size whence = none := by
      rw [seekBase, if_neg hset, if_neg hcur, if_neg hend]
    rw [seekResult, if_pos hbad, seekTarget, hnone]
    exact iff_of_true rfl ⟨fun h => absurd h hcur, fun h => absurd h hend⟩

-- With the sizes and offsets that files have, only SEEK_END can go wrong.
theorem seekFits_of_small (hoff : off.toNat ≤ MAXFILE * BSIZE) (hsize : size.toNat ≤ MAXFILE * BSIZE) :
    SeekFits off size offset whence ↔ (whence = SEEK_END → 0 ≤ size.toNat + offset.toInt) := by
  refine ⟨SeekFits.fromEnd, fun h => ⟨fun _ => ?_, h⟩⟩
  have hx := toInt_eq offset
  have hlt := offset.toUInt32.toNat_lt
  simp only [MAXFILE, NDIRECT, NINDIRECT, BSIZE] at hoff hsize
  omega

-- lseek on an inode file does what integers say iff its sums fit.
theorem lseek_exact {w : World} {p : Pid} {fd : Int32} {f : Fd} {k : Slot} (h : OpensInode w p fd f k)
    (offset whence : Int32) : (run kernelStep (sysLseek p fd offset whence) w =
        seeked w f (seekTarget (w.ftable f).off (w.itable k).din.size offset whence) ↔
      SeekFits (w.ftable f).off (w.itable k).din.size offset whence) ∧
    (∀ t ∈ seekTarget (w.ftable f).off (w.itable k).din.size offset whence, 0 ≤ t ∧ t ≤ (w.itable k).din.size.toNat) ∧
    ((w.ftable f).off.toNat ≤ MAXFILE * BSIZE → (w.itable k).din.size.toNat ≤ MAXFILE * BSIZE →
      (SeekFits (w.ftable f).off (w.itable k).din.size offset whence ↔
        (whence = SEEK_END → 0 ≤ (w.itable k).din.size.toNat + offset.toInt))) := by
  refine ⟨?_, seekTarget_bounds, seekFits_of_small⟩
  rw [run_sysLseek h, ← seekResult_iff]
  refine ⟨seeked_inj seekResult_nonneg fun x hx => (seekTarget_bounds x hx).1, fun heq => ?_⟩
  rw [heq]

end Seek

def openF : Outcome Panic World Int :=
  run kernelStep (sysOpen tiny initproc (some [47, 102]) O_RDONLY) (boot tiny readOnlyDisk)

theorem openF_done : ∃ w, openF = .done 0 w ∧ OpensInode w initproc 0 0 1 ∧ (w.ftable 0).off = 0 ∧
    (w.itable 1).din.size = 2 ∧ ends (fun r w' => r = 4294967295 ∧ (w'.ftable 0).off = 4294967295)
      (run kernelStep (sysLseek initproc 0 (-3) SEEK_END) w) = true := by
  have hrun : ends (fun r w => r = 0 ∧ (w.proc initproc).ofile 0 = some 0 ∧ (w.ftable 0).type = .inode ∧
      (w.ftable 0).ip = some 1 ∧ (w.ftable 0).off = 0 ∧ (w.itable 1).din.size = 2 ∧
      ends (fun r w' => r = 4294967295 ∧ (w'.ftable 0).off = 4294967295)
        (run kernelStep (sysLseek initproc 0 (-3) SEEK_END) w)) openF = true := by
    decide
  obtain ⟨r, w, hw, hP⟩ := done_of_ends hrun
  obtain ⟨rfl, hfile, htype, hip, hoff, hsize, hseek⟩ := of_decide_eq_true hP
  exact ⟨w, hw, ⟨hfile, htype, hip⟩, hoff, hsize, hseek⟩

theorem not_lseek_exact : ∃ w w', openF = .done 0 w ∧ OpensInode w initproc 0 0 1 ∧ (w.ftable 0).off = 0 ∧
    (w.itable 1).din.size = 2 ∧
    run kernelStep (sysLseek initproc 0 (-3) SEEK_END) w = .done 4294967295 w' ∧ (w'.ftable 0).off = 4294967295 ∧
    run kernelStep (sysLseek initproc 0 (-3) SEEK_END) w ≠
      seeked w 0 (seekTarget (w.ftable 0).off (w.itable 1).din.size (-3) SEEK_END) := by
  obtain ⟨w, hw, hopen, hoff, hsize, hseek⟩ := openF_done
  obtain ⟨r, w', hr, hP⟩ := done_of_ends hseek
  obtain ⟨rfl, hoff'⟩ := of_decide_eq_true hP
  refine ⟨w, w', hw, hopen, hoff, hsize, hr, hoff', fun h => ?_⟩
  rw [hr, hoff, hsize] at h
  have hres : (4294967295 : Int) = -1 := (Outcome.done.inj h).1
  omega

theorem lseek_exact_set : ∃ w, openF = .done 0 w ∧
    run kernelStep (sysLseek initproc 0 1 SEEK_SET) w = seeked w 0 (some 1) := by
  obtain ⟨w, hw, hopen, hoff, hsize, -⟩ := openF_done
  have hfits : SeekFits (w.ftable 0).off (w.itable 1).din.size 1 SEEK_SET :=
    ⟨fun h => absurd h (by decide), fun h => absurd h (by decide)⟩
  have hrun := (lseek_exact hopen 1 SEEK_SET).1.mpr hfits
  rw [hoff, hsize] at hrun
  exact ⟨w, hw, hrun⟩

end Fs
