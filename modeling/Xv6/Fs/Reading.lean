import Xv6.Fs.Image

-- Reading an inode without holes: the code returns, and changes nothing.

namespace Fs

open Kernel Prog Loc List Function

def bytesOf (c : Nat → Block) (d : Dinode) (off n : Nat) : List UInt8 := (List.range n).map fun j => byteOf c d (off + j)

section Bytes

variable {c : Nat → Block} {d : Dinode} {off n m : Nat}

@[simp] theorem bytesOf_length : (bytesOf c d off n).length = n := by simp [bytesOf]

theorem bytesOf_append : bytesOf c d off n ++ bytesOf c d (off + n) m = bytesOf c d off (n + m) := by
  unfold bytesOf
  rw [range_add, map_append, map_map]
  congr 1
  apply map_congr_left
  intro j _
  simp only [Function.comp_apply, Nat.add_assoc]

theorem read_eq_bytesOf (hb : blockOf c d (off / BSIZE) ≠ 0) (hm : m ≤ BSIZE - off % BSIZE) :
    (c (blockOf c d (off / BSIZE))).read (off % BSIZE) m = bytesOf c d off m := by
  unfold Block.read bytesOf
  apply map_congr_left
  intro j hj
  have hlt := mem_range.mp hj
  have hdiv : (off + j) / BSIZE = off / BSIZE := by
    simp only [BSIZE] at hm ⊢
    omega
  have hmod : (off + j) % BSIZE = off % BSIZE + j := by
    simp only [BSIZE] at hm ⊢
    omega
  rw [byteOf, hdiv, hmod, if_neg hb]

end Bytes

-- The result of a read of the inode `d` whose destination does not fault.
def readOf (c : Nat → Block) (d : Dinode) (off n : UInt32) : Int × List UInt8 :=
  if off > d.size ∨ off + n < off then (0, [])
  else
    let m := min n.toNat (d.size.toNat - off.toNat)
    (m, bytesOf c d off.toNat m)

-- There is no hole among the first `len` bytes.
structure Solid (c : Nat → Block) (d : Dinode) (len : Nat) : Prop where
  block : ∀ bn, bn * BSIZE < len → blockOf c d bn ≠ 0
  len_le : len ≤ MAXFILE * BSIZE

-- A machine whose steps read inodes and blocks as the kernel's do.
structure ReadsAs (step : Step kernelSig Panic World) : Prop where
  inode : ∀ k w, step (.inode k) w = .done (w.itable k) w
  bread : ∀ b w, step (.bread b) w = .done (w.cache b) w

theorem readsAs_kernel : ReadsAs kernelStep := ⟨fun _ _ => rfl, fun _ _ => rfl⟩

variable {sb : Superblock} {w : World} {k : Slot} {len : Nat} {p : Pid} {name : Name} {ip : Inode} {t : Nat}

section Run

variable {step : Step kernelSig Panic World}

theorem ReadsAs.run_inode (h : ReadsAs step) : run step (Fs.inode k) w = .done (w.itable k) w :=
  (run_lift (S := kernelSig) step (.inode k) w).trans (h.inode k w)

theorem ReadsAs.run_bread (h : ReadsAs step) (b : Nat) : run step (act (.bread b)) w = .done (w.cache b) w :=
  (run_lift (S := kernelSig) step (.bread b) w).trans (h.bread b w)

variable (hr : ReadsAs step)

include hr

theorem run_bmapSlot {i : Fin (NDIRECT + 1)} (h : (w.itable k).din.addrs i ≠ 0) :
    run step (bmapSlot sb k i) w = .done ((w.itable k).din.addrs i).toNat w := by
  rw [bmapSlot, run_bind hr.run_inode, if_neg h]
  rfl

theorem run_bmapEntry {ind e : Nat} (h : (w.cache ind).word e ≠ 0) :
    run step (bmapEntry sb ind e) w = .done ((w.cache ind).word e).toNat w := by
  rw [bmapEntry, run_bind (hr.run_bread ind), if_neg h]
  rfl

theorem run_bmap {bn : Nat} (hlt : bn < MAXFILE) (h : blockOf w.cache (w.itable k).din bn ≠ 0) :
    run step (bmap sb k bn) w = .done (blockOf w.cache (w.itable k).din bn) w := by
  unfold bmap
  by_cases hd : bn < NDIRECT
  · have hpos : pos bn = .slot ⟨bn, Nat.lt_succ_of_lt hd⟩ := dif_pos hd
    rw [blockOf, hpos] at h ⊢
    rw [dif_pos hd]
    exact run_bmapSlot hr fun h0 => h (by rw [addrOf, h0]; rfl)
  have hpos : pos bn = .entry (bn - NDIRECT) := dif_neg hd
  have hent : bn - NDIRECT < NINDIRECT := by
    simp only [MAXFILE] at hlt
    omega
  rw [blockOf, hpos, addrOf] at h ⊢
  rw [dif_neg hd, if_pos hent]
  by_cases h0 : (w.itable k).din.addrs (Fin.last NDIRECT) = 0
  · rw [if_pos h0] at h
    exact absurd rfl h
  · have hne : ((w.itable k).din.addrs (Fin.last NDIRECT)).toNat ≠ 0 := fun h => h0 (UInt32.toNat.inj h)
    rw [if_neg h0] at h ⊢
    rw [run_bind (run_bmapSlot hr h0), if_neg hne]
    exact run_bmapEntry hr fun hw => h (by rw [hw]; rfl)

theorem run_readLoop (dst : Nat → Bool) (fuel off n tot : Nat) (acc : List UInt8) (hs : Solid w.cache (w.itable k).din len)
    (hsize : off + (n - tot) ≤ len) (hfuel : n - tot ≤ fuel) (htot : tot ≤ n) :
    ∃ r, run step (readLoop sb k dst fuel off n tot acc) w = .done r w ∧
      ((∀ j < n, dst j = true) → r = ((n : Int), acc ++ bytesOf w.cache (w.itable k).din off (n - tot))) := by
  induction fuel generalizing off tot acc with
  | zero =>
    have heq : n = tot := by omega
    exact ⟨_, rfl, fun _ => by simp [heq, bytesOf]⟩
  | succ fuel ih =>
    rw [readLoop]
    by_cases hlt : tot < n
    · have hbn : off / BSIZE * BSIZE < len := by
        have := Nat.div_mul_le_self off BSIZE
        omega
      have hmax : off / BSIZE < MAXFILE := Nat.lt_of_mul_lt_mul_right (Nat.lt_of_lt_of_le hbn hs.len_le)
      have hblock := hs.block _ hbn
      rw [if_pos hlt, run_bind (run_bmap hr hmax hblock), if_neg hblock, run_bind (hr.run_bread _)]
      generalize hm : min (n - tot) (BSIZE - off % BSIZE) = m
      have hmod : off % BSIZE < BSIZE := Nat.mod_lt _ (by decide)
      dsimp only
      rw [read_eq_bytesOf hblock (by omega)]
      have hcopy := eitherCopyout_eq dst tot (bytesOf w.cache (w.itable k).din off m)
      rw [bytesOf_length] at hcopy
      match hc : eitherCopyout dst tot (bytesOf w.cache (w.itable k).din off m) with
      | (sent, true) =>
        obtain ⟨r, hrun, hres⟩ := ih (off + m) (tot + m) (acc ++ sent) (by omega) (by omega) (by omega)
        refine ⟨r, hrun, fun hdst => (hres hdst).trans ?_⟩
        have hsent := hcopy fun j hj => hdst _ (by omega)
        rw [hc] at hsent
        have hsent : sent = bytesOf w.cache (w.itable k).din off m := congrArg Prod.fst hsent
        have hsum : m + (n - (tot + m)) = n - tot := by omega
        rw [hsent, append_assoc, bytesOf_append, hsum]
      | (sent, false) =>
        refine ⟨_, rfl, fun hdst => ?_⟩
        have hsent := hcopy fun j hj => hdst _ (by omega)
        rw [hc] at hsent
        cases hsent
    · have heq : n = tot := by omega
      rw [if_neg hlt]
      exact ⟨_, rfl, fun _ => by simp [heq, bytesOf]⟩

-- A read of bytes that are there returns, and calls no balloc.
theorem run_readi (hs : Solid w.cache (w.itable k).din len) (dst : Nat → Bool) (off n : UInt32)
    (hlen : min (off.toNat + n.toNat) (w.itable k).din.size.toNat ≤ len) :
    ∃ r, run step (readi sb k dst off n) w = .done r w ∧
      ((∀ j < n.toNat, dst j = true) → r = readOf w.cache (w.itable k).din off n) := by
  rw [readi, run_bind hr.run_inode]
  unfold readOf
  by_cases hbad : off > (w.itable k).din.size ∨ off + n < off
  · rw [if_pos hbad, if_pos hbad]
    exact ⟨_, rfl, fun _ => rfl⟩
  rw [if_neg hbad, if_neg hbad]
  obtain ⟨hoff, hwrap⟩ := not_or.mp hbad
  have hoff : off.toNat ≤ (w.itable k).din.size.toNat := UInt32.not_lt.mp hoff
  simp only [readCount hoff hwrap]
  obtain ⟨r, hrun, hres⟩ := run_readLoop hr dst (min n.toNat ((w.itable k).din.size.toNat - off.toNat)) off.toNat
    (min n.toNat ((w.itable k).din.size.toNat - off.toNat)) 0 [] hs (by omega) (by omega) (by omega)
  refine ⟨r, hrun, fun hdst => ?_⟩
  rw [hres fun j hj => hdst j (by omega)]
  rfl

end Run

theorem run_inode : run kernelStep (inode k) w = .done (w.itable k) w := readsAs_kernel.run_inode

theorem run_readDirent (hs : Solid w.cache (w.itable k).din len) {j : Nat}
    (hj : j * DIRENT + DIRENT ≤ (w.itable k).din.size.toNat) (hlen : j * DIRENT + DIRENT ≤ len) :
    run kernelStep (readi sb k kernelDst (UInt32.ofNat (j * DIRENT)) (UInt32.ofNat DIRENT)) w =
      .done ((DIRENT : Int), bytesOf w.cache (w.itable k).din (j * DIRENT) DIRENT) w := by
  have hmax : len ≤ 274432 := hs.len_le
  have hoff : (UInt32.ofNat (j * DIRENT)).toNat = j * DIRENT := UInt32.toNat_ofNat_of_lt' (by change _ < 2 ^ 32; omega)
  have hn : (UInt32.ofNat DIRENT).toNat = DIRENT := by decide
  have hgood : ¬(UInt32.ofNat (j * DIRENT) > (w.itable k).din.size ∨
      UInt32.ofNat (j * DIRENT) + UInt32.ofNat DIRENT < UInt32.ofNat (j * DIRENT)) := by
    simp only [gt_iff_lt, UInt32.lt_iff_toNat_lt, UInt32.toNat_add, hoff, hn]
    omega
  have hend : min ((UInt32.ofNat (j * DIRENT)).toNat + (UInt32.ofNat DIRENT).toNat) (w.itable k).din.size.toNat ≤ len := by
    rw [hoff, hn]
    omega
  obtain ⟨r, hrun, hr⟩ := run_readi readsAs_kernel hs kernelDst _ _ hend
  rw [hrun, hr fun _ _ => rfl, readOf, if_neg hgood, hoff, hn, Nat.min_eq_left (by omega)]

def HitOf (c : Nat → Block) (d : Dinode) (name : Name) (j : Nat) : Prop :=
  (direntOf c d j).inum ≠ 0 ∧ namecmp name (direntOf c d j).name = 0

theorem run_searchFrom (sb : Superblock) (hs : Solid w.cache (w.itable k).din len)
    (hsize : t * DIRENT + DIRENT ≤ (w.itable k).din.size.toNat) (hlen : t * DIRENT + DIRENT ≤ len)
    (hit : HitOf w.cache (w.itable k).din name t) (hnot : ∀ x < t, ¬HitOf w.cache (w.itable k).din name x) (fuel j : Nat)
    (hj : j ≤ t) (hfuel : t < fuel + j) :
    run kernelStep (searchFrom sb k name fuel (j * DIRENT)) w =
      .done (some ((direntOf w.cache (w.itable k).din t).inum, t * DIRENT)) w := by
  have hD : 0 < DIRENT := by decide
  induction fuel generalizing j with
  | zero => omega
  | succ fuel ih =>
    have hmul : j * DIRENT ≤ t * DIRENT := Nat.mul_le_mul_right _ hj
    rw [searchFrom, run_bind run_inode, if_pos (by omega), run_bind (run_readDirent hs (by omega) (by omega))]
    have hent : Dirent.ofBytes (bytesOf w.cache (w.itable k).din (j * DIRENT) DIRENT) =
        direntOf w.cache (w.itable k).din j := rfl
    dsimp only
    rw [if_neg (fun h => h rfl), hent]
    by_cases heq : j = t
    · subst heq
      rw [HitOf] at hit
      rw [if_pos hit]
      rfl
    · have hmiss := hnot j (by omega)
      rw [HitOf] at hmiss
      rw [if_neg hmiss, off_succ]
      exact ih (j + 1) (by omega) (by omega)

-- What iget makes of an entry: the inode was in it, or it was free.
structure Got (old new : Inode) (i : Nat) : Prop where
  dev : new.dev = ROOTDEV
  inum : new.inum = i
  lock : new.lock = old.lock
  ref : new.ref = old.ref + 1
  same : 0 < old.ref → old.inum = i ∧ new.valid = old.valid ∧ new.din = old.din
  fresh : old.ref ≤ 0 → old.ref = 0 ∧ new.valid = false

section Table

variable {i : Nat}

theorem run_iget_cases (w : World) (i : Nat) :
    (∃ k ip, run kernelStep (iget ROOTDEV i) w = .done k (w.setInode k ip) ∧ Got (w.itable k) ip i) ∨
      run kernelStep (iget ROOTDEV i) w = .fail .igetNoInodes w ∧ ∀ k, (w.itable k).ref ≠ 0 := by
  have hrun : run kernelStep (iget ROOTDEV i) w = kernelStep (.iget ROOTDEV i) w := Kernel.run_act _ _
  cases hfind : w.findInode ROOTDEV i with
  | some k =>
    have hk := find?_some hfind
    simp only [decide_eq_true_eq] at hk
    obtain ⟨href, hdev, hinum⟩ := hk
    refine .inl ⟨k, { w.itable k with ref := (w.itable k).ref + 1 }, hrun.trans ?_,
      ⟨hdev, hinum, rfl, rfl, fun _ => ⟨hinum, rfl, rfl⟩, fun hle => by omega⟩⟩
    simp only [kernelStep, hfind]
    rfl
  | none =>
    cases hk : w.freeInode with
    | some k =>
      have href : (w.itable k).ref = 0 := by simpa using find?_some hk
      refine .inl ⟨k, { w.itable k with dev := ROOTDEV, inum := i, ref := 1, valid := false }, hrun.trans ?_,
        ⟨rfl, rfl, rfl, by rw [href]; rfl, fun hlt => by omega, fun _ => ⟨href, rfl⟩⟩⟩
      simp only [kernelStep, hfind, hk]
      rfl
    | none =>
      refine .inr ⟨hrun.trans ?_, fun k => ?_⟩
      · simp only [kernelStep, hfind, hk]
        rfl
      · have := find?_eq_none.mp hk k (mem_finRange k)
        simpa using this

theorem run_iget (hfree : ∃ k, (w.itable k).ref = 0) (i : Nat) :
    ∃ k ip, run kernelStep (iget ROOTDEV i) w = .done k (w.setInode k ip) ∧ Got (w.itable k) ip i := by
  obtain ⟨k, hk⟩ := hfree
  exact (run_iget_cases w i).resolve_right fun h => h.2 k hk

def lockedAs (ip : Inode) (p : Pid) (d : Dinode) : Inode := { ip with lock := some p, valid := true, din := d }

theorem run_ilock (sb : Superblock) (href : 0 < (w.itable k).ref) (hlock : (w.itable k).lock = none)
    (hvalid : (w.itable k).valid = true → (w.itable k).din = inodeOf sb w.cache (w.itable k).inum)
    (htype : (inodeOf sb w.cache (w.itable k).inum).type ≠ 0) : run kernelStep (ilock sb p k) w =
      .done () (w.setInode k (lockedAs (w.itable k) p (inodeOf sb w.cache (w.itable k).inum))) := by
  obtain ⟨w1, hw1⟩ : ∃ w1, w1 = w.setInode k { w.itable k with lock := some p } := ⟨_, rfl⟩
  have hself : w1.itable k = { w.itable k with lock := some p } := by rw [hw1, World.setInode_self]
  have hacq : run kernelStep (act (.acquiresleep k p)) w = .done () w1 := by
    refine (Kernel.run_act _ _).trans ?_
    simp only [kernelStep, hlock, hw1]
    rfl
  rw [ilock, run_bind run_inode, if_neg (by omega)]
  refine (run_bind hacq).trans ?_
  rw [run_bind run_inode, hself]
  by_cases hv : (w.itable k).valid = true
  · have hip : lockedAs (w.itable k) p (inodeOf sb w.cache (w.itable k).inum) = { w.itable k with lock := some p } := by
      rw [lockedAs, ← hvalid hv, ← hv]
    rw [if_pos hv, hip, hw1]
    rfl
  have hload : run kernelStep (act (.iload k (sb.IBLOCK (w.itable k).inum))) w1 =
      .done (inodeOf sb w.cache (w.itable k).inum)
        (w.setInode k (lockedAs (w.itable k) p (inodeOf sb w.cache (w.itable k).inum))) := by
    refine (Kernel.run_act _ _).trans ?_
    simp only [kernelStep, hself]
    rw [hw1]
    simp only [World.setInode, update_idem]
    rfl
  rw [if_neg hv]
  refine (run_bind hload).trans ?_
  rw [if_neg htype]
  rfl

theorem run_iunlockput (sb : Superblock) (href : 0 < (w.itable k).ref) (hlock : (w.itable k).lock = some p) (hlink : (w.itable k).din.nlink ≠ 0) :
    run kernelStep (iunlockput sb p k) w =
      .done () (w.setInode k { w.itable k with lock := none, ref := (w.itable k).ref - 1 }) := by
  obtain ⟨w1, hw1⟩ : ∃ w1, w1 = w.setInode k { w.itable k with lock := none } := ⟨_, rfl⟩
  have hself : w1.itable k = { w.itable k with lock := none } := by rw [hw1, World.setInode_self]
  have hunlock : run kernelStep (iunlock p k) w = .done () w1 := by
    have hgood : ¬((w.itable k).lock ≠ some p ∨ (w.itable k).ref < 1) := by
      rw [hlock]
      simp only [ne_eq, not_true_eq_false, false_or]
      omega
    rw [hw1]
    exact (run_bind run_inode).trans (run_ite.trans ((if_neg hgood).trans (Kernel.run_act _ _)))
  have hput : run kernelStep (act (.iputEnter k p)) w1 =
      .done false (w.setInode k { w.itable k with lock := none, ref := (w.itable k).ref - 1 }) := by
    refine (Kernel.run_act _ _).trans ?_
    simp only [kernelStep, hself]
    rw [if_neg fun h => hlink h.2.2, hw1]
    simp only [World.setInode, update_idem]
    rfl
  rw [iunlockput, run_bind hunlock]
  exact run_bind hput

theorem run_dirlookup (sb : Superblock) {len : Nat} (name : Name) (hs : Solid w.cache (w.itable k).din len) (htype : (w.itable k).din.type = T_DIR)
    (hdev : (w.itable k).dev = ROOTDEV) (hfree : ∃ k, (w.itable k).ref = 0)
    (hsize : t * DIRENT + DIRENT ≤ (w.itable k).din.size.toNat) (hlen : t * DIRENT + DIRENT ≤ len)
    (hit : HitOf w.cache (w.itable k).din name t) (hnot : ∀ x < t, ¬HitOf w.cache (w.itable k).din name x) :
    ∃ k' ip, run kernelStep (dirlookup sb k name) w = .done (some (k', t * DIRENT)) (w.setInode k' ip) ∧
      Got (w.itable k') ip (direntOf w.cache (w.itable k).din t).inum.toNat := by
  have hfuel : t < (w.itable k).din.size.toNat / DIRENT + 1 + 0 := by
    have : t ≤ (w.itable k).din.size.toNat / DIRENT := (Nat.le_div_iff_mul_le (by decide)).mpr (by omega)
    omega
  have hsearch := run_searchFrom sb hs hsize hlen hit hnot _ 0 (Nat.zero_le t) hfuel
  rw [Nat.zero_mul] at hsearch
  obtain ⟨k', ip, hget, hgot⟩ := run_iget hfree (direntOf w.cache (w.itable k).din t).inum.toNat
  refine ⟨k', ip, ?_, hgot⟩
  rw [dirlookup, run_bind run_inode, if_neg (fun h => h htype), run_bind hsearch, hdev]
  dsimp only
  rw [run_bind hget]
  rfl

end Table

-- Nothing has been written to the disk: no inode is locked, and the valid entries in use are
-- copies of the disk.
structure Mounted (sb : Superblock) (disk : Nat → Block) (w : World) : Prop where
  cache : w.cache = disk
  lock : ∀ k, (w.itable k).lock = none
  nonneg : ∀ k, 0 ≤ (w.itable k).ref
  valid : ∀ k, 0 < (w.itable k).ref → (w.itable k).valid = true → (w.itable k).din = inodeOf sb disk (w.itable k).inum

theorem elements_single (hne : name ≠ []) (hslash : SLASH ∉ name) (hlen : name.length ≤ DIRSIZ) :
    elements (SLASH :: name) = [name] := by
  have hall : ∀ b ∈ name, (b ≠ SLASH) = True := by
    intro b hb
    exact eq_true fun h => hslash (h ▸ hb)
  have hdrop : (SLASH :: name).dropWhile (· = SLASH) = name := by
    cases name with
    | nil => exact absurd rfl hne
    | cons b bs =>
      have hb : b ≠ SLASH := fun h => hslash (by rw [h]; exact mem_cons_self)
      simp [hb]
  have htake : name.takeWhile (· ≠ SLASH) = name := by
    rw [takeWhile_eq_self_iff]
    intro b hb
    simpa using hall b hb
  have hrest : name.dropWhile (· ≠ SLASH) = [] := by
    rw [dropWhile_eq_nil_iff]
    intro b hb
    simpa using hall b hb
  have hskip : skipelem (SLASH :: name) = some (name, []) := by
    unfold skipelem
    rw [hdrop]
    cases name with
    | nil => exact absurd rfl hne
    | cons b bs =>
      dsimp only
      rw [htake, hrest, take_of_length_le hlen]
      rfl
  rw [elements_eq, hskip]
  rfl

section Namei

variable {disk : Nat → Block}

variable (h : Mounted sb disk w)

include h

theorem Mounted.setInode (k : Slot) (hlock : ip.lock = none) (hnonneg : 0 ≤ ip.ref)
    (hvalid : ip.valid = true → ip.din = inodeOf sb disk ip.inum) : Mounted sb disk (w.setInode k ip) := by
  have hcase : ∀ k', (w.setInode k ip).itable k' = ip ∨ (w.setInode k ip).itable k' = w.itable k' := by
    intro k'
    by_cases hk : k' = k
    · subst hk
      exact .inl (World.setInode_self w k' ip)
    · exact .inr (update_of_ne hk _ _)
  refine ⟨h.cache, fun k' => ?_, fun k' => ?_, fun k' => ?_⟩
  · rcases hcase k' with heq | heq
    · rw [heq, hlock]
    · rw [heq, h.lock]
  · rcases hcase k' with heq | heq
    · rw [heq]
      exact hnonneg
    · rw [heq]
      exact h.nonneg k'
  · rcases hcase k' with heq | heq
    · rw [heq]
      exact fun _ => hvalid
    · rw [heq]
      exact h.valid k'

theorem Mounted.got_valid {k : Slot} {i : Nat} (hgot : Got (w.itable k) ip i)
    (hv : ip.valid = true) : ip.din = inodeOf sb disk i := by
  by_cases hpos : 0 < (w.itable k).ref
  · obtain ⟨hin, hval, hdin⟩ := hgot.same hpos
    rw [hdin, h.valid k hpos (by rw [← hval]; exact hv), hin]
  · have := (hgot.fresh (by omega)).2
    rw [this] at hv
    cases hv

theorem Mounted.got_ref {k : Slot} {i : Nat} (hgot : Got (w.itable k) ip i) : 0 < ip.ref := by
  have := hgot.ref
  have := h.nonneg k
  omega

theorem run_lockRoot (hfree : ∃ k, (w.itable k).ref = 0) (htype : (inodeOf sb disk ROOTINO).type = T_DIR) (p : Pid) :
    ∃ k ip, Got (w.itable k) ip ROOTINO ∧ run kernelStep (iget ROOTDEV ROOTINO) w = .done k (w.setInode k ip) ∧
      run kernelStep (ilock sb p k) (w.setInode k ip) =
        .done () (w.setInode k (lockedAs ip p (inodeOf sb disk ROOTINO))) := by
  obtain ⟨k, ip, hget, hgot⟩ := run_iget hfree ROOTINO
  refine ⟨k, ip, hgot, hget, ?_⟩
  have hself : (w.setInode k ip).itable k = ip := World.setInode_self w k ip
  have hcache : (w.setInode k ip).cache = disk := h.cache
  have hdin : inodeOf sb (w.setInode k ip).cache ((w.setInode k ip).itable k).inum = inodeOf sb disk ROOTINO := by
    rw [hcache, hself, hgot.inum]
  have hlock := run_ilock sb (w := w.setInode k ip) (k := k) (p := p) (by rw [hself]; exact h.got_ref hgot)
    (by rw [hself, hgot.lock, h.lock]) (by rw [hdin, hself]; exact h.got_valid hgot) (by rw [hdin, htype]; decide)
  rw [hdin, hself] at hlock
  refine hlock.trans ?_
  simp only [World.setInode, update_idem]

theorem run_namei {a b : Slot} (hab : a ≠ b) (ha : (w.itable a).ref = 0) (hb : (w.itable b).ref = 0)
    (htype : (inodeOf sb disk ROOTINO).type = T_DIR) (hlink : (inodeOf sb disk ROOTINO).nlink ≠ 0)
    (hs : Solid disk (inodeOf sb disk ROOTINO) len) (hne : name ≠ []) (hslash : SLASH ∉ name)
    (hname : name.length ≤ DIRSIZ) (hsize : t * DIRENT + DIRENT ≤ (inodeOf sb disk ROOTINO).size.toNat)
    (hlen : t * DIRENT + DIRENT ≤ len) (hit : HitOf disk (inodeOf sb disk ROOTINO) name t)
    (hnot : ∀ x < t, ¬HitOf disk (inodeOf sb disk ROOTINO) name x)
    (hinum : (direntOf disk (inodeOf sb disk ROOTINO) t).inum.toNat ≠ ROOTINO) :
    ∃ k w', run kernelStep (namei sb p (SLASH :: name)) w = .done (some k) w' ∧ Mounted sb disk w' ∧
      0 < (w'.itable k).ref ∧ (w'.itable k).dev = ROOTDEV ∧
      (w'.itable k).inum = (direntOf disk (inodeOf sb disk ROOTINO) t).inum.toNat := by
  obtain ⟨k1, ip1, hgot1, hget1, hlock1⟩ := run_lockRoot h ⟨a, ha⟩ htype p
  have hpos1 : 0 < ip1.ref := h.got_ref hgot1
  obtain ⟨d, hd⟩ : ∃ d, d = inodeOf sb disk ROOTINO := ⟨_, rfl⟩
  obtain ⟨inum, hi⟩ : ∃ inum, inum = (direntOf disk d t).inum.toNat := ⟨_, rfl⟩
  rw [← hd] at htype hlink hs hsize hit hnot hinum hlock1 ⊢
  rw [← hi] at hinum ⊢
  obtain ⟨w1, hw1⟩ : ∃ w1, w1 = w.setInode k1 (lockedAs ip1 p d) := ⟨_, rfl⟩
  rw [← hw1] at hlock1
  have hself : w1.itable k1 = lockedAs ip1 p d := by rw [hw1, World.setInode_self]
  have hcache : w1.cache = disk := by rw [hw1]; exact h.cache
  have hother : ∀ k, k ≠ k1 → w1.itable k = w.itable k := by
    intro k hk
    rw [hw1]
    exact update_of_ne hk _ _
  have hfree : ∃ k, (w1.itable k).ref = 0 := by
    by_cases hka : a = k1
    · exact ⟨b, by rw [hother b (fun h => hab (hka.trans h.symm)), hb]⟩
    · exact ⟨a, by rw [hother a hka, ha]⟩
  obtain ⟨k2, ip2, hlook, hgot2⟩ := run_dirlookup sb name (w := w1) (k := k1) (t := t)
    (by rw [hself, hcache]; exact hs) (by rw [hself]; exact htype) (by rw [hself]; exact hgot1.dev) hfree
    (by rw [hself]; exact hsize) hlen (by rw [hself, hcache]; exact hit) (by rw [hself, hcache]; exact hnot)
  have hd1 : direntOf w1.cache (w1.itable k1).din t = direntOf disk d t := by
    rw [hcache, hself]
    rfl
  rw [hd1, ← hi] at hgot2
  -- the file gets another entry than the directory
  have hk : k2 ≠ k1 := by
    intro heq
    rw [heq, hself] at hgot2
    exact hinum ((hgot2.same hpos1).1.symm.trans hgot1.inum)
  rw [hother k2 hk] at hgot2
  obtain ⟨w2, hw2⟩ : ∃ w2, w2 = w1.setInode k2 ip2 := ⟨_, rfl⟩
  rw [← hw2] at hlook
  have hself2 : w2.itable k1 = lockedAs ip1 p d := by
    rw [hw2, ← hself]
    exact update_of_ne (Ne.symm hk) _ _
  have href : 0 < (w2.itable k1).ref := by
    rw [hself2]
    exact hpos1
  have hput := run_iunlockput sb (w := w2) (k := k1) (p := p) href
    (by rw [hself2]; rfl) (by rw [hself2]; exact hlink)
  rw [hself2] at hput
  obtain ⟨ip3, hip3⟩ : ∃ ip3 : Inode, ip3 = { lockedAs ip1 p d with lock := none, ref := (lockedAs ip1 p d).ref - 1 } := ⟨_, rfl⟩
  rw [← hip3] at hput
  have hfile : (w2.setInode k1 ip3).itable k2 = ip2 := by
    rw [hw2]
    simp only [World.setInode, update_of_ne hk, update_self]
  refine ⟨k2, w2.setInode k1 ip3, ?_, ?_, ?_, ?_, ?_⟩
  · have hstart : run kernelStep (startDir p (SLASH :: name)) w = .done k1 (w.setInode k1 ip1) := hget1
    have hdir : ¬(w1.itable k1).din.type ≠ T_DIR := by
      rw [hself]
      exact not_not.mpr htype
    rw [namei, namex, elements_single hne hslash hname]
    have hwalk : run kernelStep (namexFrom sb p false [name] k1) (w.setInode k1 ip1) =
        .done (some (k2, [])) (w2.setInode k1 ip3) := by
      rw [namexFrom, run_bind hlock1, run_bind run_inode, if_neg hdir, if_neg (fun h => Bool.noConfusion h.1), run_bind hlook]
      dsimp only
      rw [run_bind hput]
      rfl
    rw [run_bind ((run_bind hstart).trans hwalk)]
    rfl
  · have hswap : w2.setInode k1 ip3 = (w.setInode k1 ip3).setInode k2 ip2 := by
      rw [hw2, hw1]
      simp only [World.setInode, update_comm (Ne.symm hk), update_idem]
    have hdir : Mounted sb disk (w.setInode k1 ip3) := by
      apply h.setInode k1
      · rw [hip3]
      · rw [hip3]
        change 0 ≤ ip1.ref - 1
        omega
      · intro _
        rw [hip3]
        change d = inodeOf sb disk ip1.inum
        rw [hgot1.inum, hd]
    rw [hswap]
    apply hdir.setInode k2
    · rw [hgot2.lock, h.lock]
    · exact Int.le_of_lt (h.got_ref hgot2)
    · rw [hgot2.inum]
      exact h.got_valid hgot2
  · rw [hfile]
    exact h.got_ref hgot2
  · rw [hfile, hgot2.dev]
  · rw [hfile, hgot2.inum]

end Namei

end Fs
