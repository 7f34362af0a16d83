import Xv6.Boot

-- The free map: balloc and bfree of fs.c.

namespace Fs

open Kernel Prog Function

-- The bit of block `b` in the free map.
def Marked (sb : Superblock) (cache : Nat → Block) (b : Nat) : Prop := (cache (sb.BBLOCK b)).bit (b % BPB) = true

-- There is an operation, and the log takes `k` more blocks.
def LogRoom (log : Log) (k : Nat) : Prop :=
  1 ≤ log.outstanding ∧ log.lh.length + k ≤ LOGSIZE ∧ log.lh.length + k < log.size

section

variable {sb : Superblock} {w : World} {log : Log} {cache : Nat → Block} {data : Block} {b c i k n q r : Nat}

theorem LogRoom.logWrite (h : LogRoom log (k + 1)) (b : Nat) : ∃ log', log.logWrite b = .ok log' ∧ LogRoom log' k := by
  obtain ⟨hout, hmax, hsize⟩ := h
  unfold Log.logWrite
  rw [if_neg (by omega), if_neg (by omega)]
  split
  · exact ⟨log, rfl, hout, by omega, by omega⟩
  · refine ⟨_, rfl, hout, ?_, ?_⟩ <;> simp only [List.length_append, List.length_singleton] <;> omega

theorem run_bsection {f : Block → Option Nat × Option Block} {v : Option Nat} (hf : f (w.cache b) = (v, some data))
    (h : LogRoom w.log (k + 1)) : ∃ log, LogRoom log k ∧
      run kernelStep (act (.bsection b f)) w = .done v ((w.setCache (update w.cache b data)).setLog log) := by
  obtain ⟨log, hlog, hroom⟩ := h.logWrite b
  refine ⟨log, hroom, ?_⟩
  rw [run_act]
  simp only [kernelStep, hf, World.logWrite, hlog]
  rfl

theorem run_bzero (w : World) (b : Nat) (h : LogRoom w.log (k + 1)) : ∃ log, LogRoom log k ∧
    run kernelStep (bzero b) w = .done () ((w.setCache (update w.cache b Block.zero)).setLog log) := by
  obtain ⟨log, hroom, hrun⟩ := run_bsection (f := fun _ => (none, some Block.zero)) (b := b) rfl h
  refine ⟨log, hroom, ?_⟩
  rw [bzero, run_bind hrun]
  rfl

theorem scanBits_none (h : ∀ i, r ≤ i → i < r + n → b + i < sb.size → data.bit i = true) :
    scanBits sb data b n r = none := by
  induction n generalizing r with
  | zero => rfl
  | succ n ih =>
    rw [scanBits]
    split
    · rename_i hlt
      rw [if_pos (h r (by omega) (by omega) hlt)]
      exact ih fun i hi hin => h i (by omega) (by omega)
    · rfl

theorem scanBits_some (hr : r ≤ i) (hi : i < r + n) (hsize : b + i < sb.size) (hfree : data.bit i = false)
    (h : ∀ j, r ≤ j → j < i → data.bit j = true) : scanBits sb data b n r = some i := by
  induction n generalizing r with
  | zero => omega
  | succ n ih =>
    rw [scanBits, if_pos (by omega)]
    by_cases heq : r = i
    · rw [heq, hfree]
      rfl
    · rw [if_pos (h r (by omega) (by omega))]
      exact ih (by omega) (by omega) fun j hj => h j (by omega)

theorem BBLOCK_add (sb : Superblock) (hb : b % BPB = 0) (hi : i < BPB) :
    sb.BBLOCK (b + i) = sb.BBLOCK b ∧ (b + i) % BPB = i := by
  simp only [Superblock.BBLOCK, BPB, BSIZE] at *
  omega

theorem marked_add (hb : b % BPB = 0) (hi : i < BPB) :
    Marked sb cache (b + i) ↔ (cache (sb.BBLOCK b)).bit i = true := by
  obtain ⟨hblock, hmod⟩ := BBLOCK_add sb hb hi
  rw [Marked, hblock, hmod]

theorem run_bitmap_full (hb : b % BPB = 0) (h : ∀ i < BPB, b + i < sb.size → Marked sb w.cache (b + i)) :
    run kernelStep (act (.bsection (sb.BBLOCK b) (markFree sb b))) w = .done none w := by
  have hnone : markFree sb b (w.cache (sb.BBLOCK b)) = (none, none) := by
    rw [markFree, scanBits_none]
    intro i _ hi hsize
    exact (marked_add hb (by omega)).mp (h i (by omega) hsize)
  rw [run_act]
  simp only [kernelStep, hnone]
  rfl

theorem run_ballocFrom_full (hb : b % BPB = 0) (h : ∀ c, b ≤ c → c < sb.size → Marked sb w.cache c) :
    run kernelStep (ballocFrom sb n b) w = .done 0 w := by
  induction n generalizing b with
  | zero => rfl
  | succ n ih =>
    rw [ballocFrom]
    split
    · rw [run_bind (run_bitmap_full hb fun i _ hi => h (b + i) (by omega) hi)]
      exact ih ((Nat.add_mod_right b BPB).trans hb) fun c hc => h c (by omega)
    · rfl

-- balloc takes the first free block `c`: its bit is set, and then the block is zeroed.
def taken (sb : Superblock) (cache : Nat → Block) (c : Nat) : Nat → Block :=
  update (update cache (sb.BBLOCK c) ((cache (sb.BBLOCK c)).setBit (c % BPB))) c Block.zero

theorem run_ballocFrom_free (hb : b % BPB = 0) (hroom : LogRoom w.log (k + 2)) (hbc : b ≤ c) (hn : c < b + n * BPB)
    (hc : c < sb.size) (hfree : ¬ Marked sb w.cache c) (h : ∀ d, b ≤ d → d < c → Marked sb w.cache d) :
    ∃ log, LogRoom log k ∧
      run kernelStep (ballocFrom sb n b) w = .done c ((w.setCache (taken sb w.cache c)).setLog log) := by
  induction n generalizing b with
  | zero => omega
  | succ n ih =>
    rw [ballocFrom, if_pos (by omega)]
    by_cases hlast : c < b + BPB
    · obtain ⟨i, rfl⟩ := Nat.exists_eq_add_of_le hbc
      have hi : i < BPB := by omega
      obtain ⟨hblock, hmod⟩ := BBLOCK_add sb hb hi
      have hscan : scanBits sb (w.cache (sb.BBLOCK b)) b BPB 0 = some i := by
        apply scanBits_some (Nat.zero_le i) (by omega) hc
        · simpa [marked_add hb hi] using hfree
        · intro j _ hj
          exact (marked_add hb (by omega)).mp (h (b + j) (by omega) (by omega))
      have hmark : markFree sb b (w.cache (sb.BBLOCK b)) = (some i, some ((w.cache (sb.BBLOCK b)).setBit i)) := by
        rw [markFree, hscan]
      obtain ⟨log₁, hroom₁, hrun⟩ := run_bsection hmark hroom
      obtain ⟨log₂, hroom₂, hzero⟩ := run_bzero
        ((w.setCache (update w.cache (sb.BBLOCK b) ((w.cache (sb.BBLOCK b)).setBit i))).setLog log₁) (b + i) hroom₁
      refine ⟨log₂, hroom₂, ?_⟩
      rw [run_bind hrun]
      simp only
      rw [run_bind hzero, taken, hblock, hmod]
      rfl
    · rw [run_bind (run_bitmap_full hb fun i hi _ => h (b + i) (by omega) (by omega))]
      exact ih ((Nat.add_mod_right b BPB).trans hb) (by omega) (by rw [Nat.add_mul] at hn; omega) fun d hd => h d (by omega)

theorem run_balloc_free (hroom : LogRoom w.log (k + 2)) (hc : c < sb.size) (hfree : ¬ Marked sb w.cache c)
    (h : ∀ d < c, Marked sb w.cache d) : ∃ log, LogRoom log k ∧
      run kernelStep (balloc sb) w = .done c ((w.setCache (taken sb w.cache c)).setLog log) := by
  apply run_ballocFrom_free (Nat.zero_mod BPB) hroom (Nat.zero_le c) _ hc hfree fun d _ => h d
  have := Nat.lt_div_mul_add (a := sb.size) (b := BPB) (by decide)
  rw [Nat.add_mul]
  omega

theorem run_bfree (b : Nat) (hroom : LogRoom w.log (k + 1)) (h : Marked sb w.cache b) : ∃ log, LogRoom log k ∧
    run kernelStep (bfree sb b) w = .done () ((w.setCache (update w.cache (sb.BBLOCK b)
      ((w.cache (sb.BBLOCK b)).clearBit (b % BPB)))).setLog log) := by
  obtain ⟨log, hlog, hrun⟩ := run_bsection (f := unmark b) (if_pos h) hroom
  refine ⟨log, hlog, ?_⟩
  rw [bfree, run_bind hrun]
  rfl

-- The bit of block `b` becomes `v`, and the other bits of the free map are as they were.
def Sets (sb : Superblock) (cache cache' : Nat → Block) (b : Nat) (v : Bool) : Prop :=
  ∀ c < sb.size, ∀ i < BPB, (cache' (sb.BBLOCK c)).bit i =
    if sb.BBLOCK c = sb.BBLOCK b ∧ i = b % BPB then v else (cache (sb.BBLOCK c)).bit i

theorem sets_update {v : Bool} (hbit : ∀ i < BPB, data.bit i = if i = b % BPB then v else (cache (sb.BBLOCK b)).bit i) :
    Sets sb cache (update cache (sb.BBLOCK b) data) b v := by
  intro c _ i hi
  by_cases heq : sb.BBLOCK c = sb.BBLOCK b
  · rw [heq, update_self, hbit i hi]
    simp
  · simp [heq]

theorem byte_lt (b : Nat) : b % BPB / 8 < BSIZE := by
  simp only [BPB, BSIZE]
  omega

theorem sets_setBit : Sets sb cache (update cache (sb.BBLOCK b) ((cache (sb.BBLOCK b)).setBit (b % BPB))) b true := by
  apply sets_update
  intro i _
  rw [Block.bit_setBit _ _ _ (byte_lt b)]
  by_cases h : i = b % BPB <;> simp [h, eq_comm]

theorem sets_clearBit (sb : Superblock) (cache : Nat → Block) (b : Nat) :
    Sets sb cache (update cache (sb.BBLOCK b) ((cache (sb.BBLOCK b)).clearBit (b % BPB))) b false := by
  apply sets_update
  intro i _
  rw [Block.bit_clearBit _ _ _ (byte_lt b)]
  by_cases h : i = b % BPB <;> simp [h, eq_comm]

theorem sets_taken (hmap : ∀ b < sb.size, sb.BBLOCK b ≠ c) : Sets sb cache (taken sb cache c) c true := by
  intro b hb i hi
  rw [taken, update_of_ne (hmap b hb)]
  exact sets_setBit b hb i hi

theorem Sets.marked {cache' : Nat → Block} {v : Bool} (h : Sets sb cache cache' b v) (hc : c < sb.size) :
    Marked sb cache' c ↔ if c = b then v = true else Marked sb cache c := by
  have hsame : (sb.BBLOCK c = sb.BBLOCK b ∧ c % BPB = b % BPB) ↔ c = b := by
    simp only [Superblock.BBLOCK, BPB, BSIZE]
    omega
  rw [Marked, h c hc (c % BPB) (Nat.mod_lt _ (by decide))]
  simp only [hsame]
  split <;> rfl

theorem least_free (hb : b < sb.size) (hfree : ¬ Marked sb cache b) :
    ∃ c < sb.size, ¬ Marked sb cache c ∧ ∀ d < c, Marked sb cache d := by
  classical
  have hex : ∃ c, c < sb.size ∧ ¬ Marked sb cache c := ⟨b, hb, hfree⟩
  refine ⟨Nat.find hex, (Nat.find_spec hex).1, (Nat.find_spec hex).2, fun d hd => ?_⟩
  by_contra hnot
  exact Nat.find_min hex hd ⟨Nat.lt_trans hd (Nat.find_spec hex).1, hnot⟩

end

theorem free_map_exact (sb : Superblock) (w : World) (hroom : LogRoom w.log 3) (h0 : Marked sb w.cache 0)
    (hmap : ∀ b < sb.size, Marked sb w.cache (sb.BBLOCK b)) :
    (run kernelStep (balloc sb) w = .done 0 w ↔ ∀ b < sb.size, Marked sb w.cache b) ∧
    (∀ c < sb.size, ¬ Marked sb w.cache c → (∀ d < c, Marked sb w.cache d) →
      ∃ cache log, run kernelStep (balloc sb) w = .done c ((w.setCache cache).setLog log) ∧ Sets sb w.cache cache c true ∧
        cache c = Block.zero ∧ ∀ k, k ≠ c → k ≠ sb.BBLOCK c → cache k = w.cache k) ∧
    ∀ b < sb.size, Marked sb w.cache b →
      ∃ cache log, run kernelStep (bfree sb b) w = .done () ((w.setCache cache).setLog log) ∧ Sets sb w.cache cache b false ∧
        (∀ k, k ≠ sb.BBLOCK b → cache k = w.cache k) ∧
        ((∀ d < sb.size, Marked sb w.cache d) →
          ∃ w', run kernelStep (balloc sb) ((w.setCache cache).setLog log) = .done b w') := by
  refine ⟨⟨fun hrun b hb => ?_, fun hall => ?_⟩, fun c hc hfree hleast => ?_, fun b hb hmark => ?_⟩
  · by_contra hfree
    obtain ⟨c, hc, hfree, hleast⟩ := least_free hb hfree
    obtain ⟨log, -, hrun'⟩ := run_balloc_free hroom hc hfree hleast
    obtain ⟨rfl, -⟩ := Outcome.done.inj (hrun.symm.trans hrun')
    exact hfree h0
  · exact run_ballocFrom_full (Nat.zero_mod BPB) fun c _ => hall c
  · obtain ⟨log, -, hrun⟩ := run_balloc_free hroom hc hfree hleast
    refine ⟨_, log, hrun, sets_taken fun b hb heq => hfree (heq ▸ hmap b hb), update_self .., fun k hk hmapk => ?_⟩
    rw [taken, update_of_ne hk, update_of_ne hmapk]
  · obtain ⟨log, hlog, hrun⟩ := run_bfree b hroom hmark
    have hsets := sets_clearBit sb w.cache b
    generalize hcache : update w.cache (sb.BBLOCK b) _ = cache at hrun hsets
    refine ⟨cache, log, hrun, hsets, fun k hk => ?_, fun hall => ?_⟩
    · rw [← hcache, update_of_ne hk]
    · have hfree : ¬ Marked sb cache b := by simp [hsets.marked hb]
      have hleast : ∀ d < b, Marked sb cache d := by
        intro d hd
        rw [hsets.marked (by omega), if_neg (by omega)]
        exact hall d (by omega)
      obtain ⟨log', -, hrun'⟩ := run_balloc_free (w := (w.setCache cache).setLog log) hlog hb hfree hleast
      exact ⟨_, hrun'⟩

-- In an operation, with `data` as the free map.
def mapped (data : Block) : World := (boot Superblock.mkfs fun _ => data).setLog ⟨2, LOGSIZE, 1, false, []⟩

theorem room_mapped (data : Block) : LogRoom (mapped data).log 3 := by
  simp [LogRoom, mapped, World.setLog, LOGSIZE, MAXOPBLOCKS]

theorem marked_full (b : Nat) : Marked Superblock.mkfs (mapped fun _ => 255).cache b := by
  have hmask : ∀ r : Fin 8, (255 : UInt8) &&& 1 <<< UInt8.ofNat r.val ≠ 0 := by decide
  have hget : Block.get (fun _ => 255) (b % BPB / 8) = 255 := dif_pos (byte_lt b)
  change (Block.get (fun _ => 255) (b % BPB / 8) &&& Block.mask (b % BPB) != 0) = true
  rw [hget, bne_iff_ne]
  exact hmask ⟨b % BPB % 8, Nat.mod_lt _ (by decide)⟩

theorem free_map_exact_full : run kernelStep (balloc Superblock.mkfs) (mapped fun _ => 255) = .done 0 (mapped fun _ => 255) :=
  (free_map_exact Superblock.mkfs _ (room_mapped _) (marked_full 0) fun _ _ => marked_full _).1.mpr fun b _ => marked_full b

-- The first free block is 233, the free map itself: balloc zeroes it.
def exposed : Block := fun j => if j.val < 29 then 255 else 1

theorem not_free_map_exact : Marked Superblock.mkfs (mapped exposed).cache 0 ∧ ∃ log,
    run kernelStep (balloc Superblock.mkfs) (mapped exposed) =
      .done 233 (((mapped exposed).setCache (update (mapped exposed).cache 233 Block.zero)).setLog log) ∧
    ¬ Marked Superblock.mkfs (update (mapped exposed).cache 233 Block.zero) 233 := by
  have hlow : ∀ d < 233, Marked Superblock.mkfs (mapped exposed).cache d :=
    (by decide +kernel : ∀ d < 233, exposed.bit (d % BPB) = true)
  have hfree : ¬ Marked Superblock.mkfs (mapped exposed).cache 233 := (by decide : ¬ exposed.bit 233 = true)
  obtain ⟨log, -, hrun⟩ := run_balloc_free (room_mapped exposed) (by decide) hfree hlow
  rw [taken, show Superblock.mkfs.BBLOCK 233 = 233 from rfl, update_idem] at hrun
  exact ⟨hlow 0 (by decide), log, hrun, (by decide : ¬ Block.zero.bit 233 = true)⟩

end Fs
