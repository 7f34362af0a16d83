import Xv6.Log

namespace Log

open Prog List Function

-- The header block round trip.

theorem word_putBlocks_of_le (buf : Block) (i j : Nat) (lh : List Nat) (hj : j ≤ i) :
    (putBlocks buf i lh).word j = buf.word j := by
  induction lh generalizing buf i with
  | nil => rfl
  | cons b bs ih =>
    rw [putBlocks, ih _ _ (by omega), Block.word_setWord_ne _ _ _ _ (by omega)]

theorem word_putBlocks (buf : Block) (i : Nat) (lh : List Nat) (hlen : i + lh.length < 256)
    (hlt : ∀ b ∈ lh, b < 2 ^ 32) (t : Nat) (ht : t < lh.length) :
    ((putBlocks buf i lh).word (i + t + 1)).toNat = lh[t] := by
  induction lh generalizing buf i t with
  | nil => simp at ht
  | cons b bs ih =>
    simp only [length_cons] at hlen ht
    cases t with
    | zero =>
      rw [putBlocks, word_putBlocks_of_le _ _ _ _ (by omega), Nat.add_zero,
        Block.word_setWord_self _ _ _ (by simp only [BSIZE]; omega)]
      have hb := hlt b (by simp)
      simpa using Nat.mod_eq_of_lt hb
    | succ t =>
      have h := ih (buf.setWord (i + 1) (UInt32.ofNat b)) (i + 1) (by omega)
        (fun b hb => hlt b (by simp [hb])) t (by omega)
      rw [show i + 1 + t + 1 = i + (t + 1) + 1 by omega] at h
      simpa [putBlocks] using h

theorem headCount_putHead (buf : Block) (lh : List Nat) (hlen : lh.length ≤ LOGSIZE) :
    headCount (putHead buf lh) = lh.length := by
  have hw : ((putHead buf lh).word 0).toNat = lh.length := by
    rw [putHead, word_putBlocks_of_le _ _ _ _ (by omega), Block.word_setWord_self _ _ _ (by simp only [BSIZE]; omega)]
    simp only [UInt32.toNat_ofNat', LOGSIZE, MAXOPBLOCKS] at hlen ⊢
    omega
  simp only [LOGSIZE, MAXOPBLOCKS] at hlen
  simp only [headCount, hw]
  rw [if_pos (by omega)]

theorem headBlocks_putHead (buf : Block) (lh : List Nat) (hlen : lh.length ≤ LOGSIZE)
    (hlt : ∀ b ∈ lh, b < 2 ^ 32) : headBlocks (putHead buf lh) = lh := by
  apply ext_getElem
  · simp [headBlocks, headCount_putHead buf lh hlen]
  · intro t ht ht'
    simp only [LOGSIZE, MAXOPBLOCKS] at hlen
    have h := word_putBlocks (buf.setWord 0 (UInt32.ofNat lh.length)) 0 lh (by omega) hlt t ht'
    simpa [headBlocks, putHead] using h

theorem headBlocks_of_count_zero {buf : Block} (h : headCount buf = 0) : headBlocks buf = [] := by
  simp [headBlocks, h]

variable {s : Dev} {start size b : Nat} {goal goal' : Nat → Block} {c : List (List Nat)} {lh : List Nat}

section Rules

variable {C : Dev → Prop} {α : Type} {Q : α → Dev → Prop}

theorem wpc_bread {f : Block → LogProg α} (hC : C s)
    (h : wpc devStep C (f (s.cache b)) Q s) : wpc devStep C (bread b >>= f) Q s :=
  ⟨hC, h⟩

theorem wpc_bstore {data : Block} {f : Unit → LogProg α} (hC : C s)
    (h : wpc devStep C (f ()) Q { s with cache := update s.cache b data }) :
    wpc devStep C (bstore b data >>= f) Q s :=
  ⟨hC, h⟩

theorem wpc_bwrite {f : Unit → LogProg α} (hC : C s)
    (h : wpc devStep C (f ()) Q { s with disk := update s.disk b (s.cache b)
                                         issued := s.issued ++ [(b, s.cache b)] }) :
    wpc devStep C (bwrite b >>= f) Q s :=
  ⟨hC, h⟩

end Rules

def InLog (start size b : Nat) : Prop := start ≤ b ∧ b < start + size

-- What recovery makes of a disk: a block listed in the header takes its contents from the log.
def recovered (start : Nat) (disk : Nat → Block) (b : Nat) : Block :=
  if b ∈ headBlocks (disk start) then disk (start + (headBlocks (disk start)).idxOf b + 1) else disk b

structure HeadOk (start size : Nat) (lh : List Nat) : Prop where
  nodup : lh.Nodup
  short : lh.length ≤ LOGSIZE
  fits : lh.length < size
  home : ∀ b ∈ lh, ¬InLog start size b
  word : ∀ b ∈ lh, b < 2 ^ 32

-- The home blocks that a recovery of `disk` yields are those of `goal`.
structure Recovers (start size : Nat) (disk goal : Nat → Block) : Prop where
  head : HeadOk start size (headBlocks (disk start))
  value : ∀ b, ¬InLog start size b → recovered start disk b = goal b

-- The headers with a positive count that have been written, in order: the commit points so far.
def commits (start : Nat) (issued : List (Nat × Block)) : List (List Nat) :=
  (issued.filter fun w => w.1 = start ∧ 0 < headCount w.2).map fun w => headBlocks w.2

theorem commits_append_other (start : Nat) (issued : List (Nat × Block)) (b : Nat) (data : Block)
    (h : b ≠ start ∨ headCount data = 0) :
    commits start (issued ++ [(b, data)]) = commits start issued := by
  rcases h with h | h <;> simp [commits, h]

theorem commits_append_head (start : Nat) (issued : List (Nat × Block)) (data : Block) (h : 0 < headCount data) :
    commits start (issued ++ [(start, data)]) = commits start issued ++ [headBlocks data] := by
  simp [commits, h]

theorem headOk_nil (hsize : 0 < size) : HeadOk start size [] :=
  ⟨nodup_nil, by simp, by simpa using hsize, by simp, by simp⟩

theorem recovers_of_empty (hsize : 0 < size) {disk goal : Nat → Block}
    (hempty : headBlocks (disk start) = []) (hgoal : ∀ b, ¬InLog start size b → disk b = goal b) :
    Recovers start size disk goal := by
  refine ⟨hempty ▸ headOk_nil hsize, fun b hb => ?_⟩
  rw [recovered, hempty, if_neg (by simp)]
  exact hgoal b hb

theorem recovered_update_home (hok : HeadOk start size lh) {disk : Nat → Block}
    (hhead : headBlocks (disk start) = lh) (hb : b ∈ lh) (data : Block) :
    headBlocks (update disk b data start) = lh ∧ ∀ x, ¬InLog start size x → recovered start (update disk b data) x =
        recovered start disk x := by
  have hfits := hok.fits
  have hbhome := hok.home b hb
  have hne : start ≠ b := by
    rintro rfl
    exact hbhome ⟨Nat.le_refl _, by omega⟩
  have hstart : update disk b data start = disk start := update_of_ne hne _ _
  refine ⟨by rw [hstart, hhead], fun x hx => ?_⟩
  simp only [recovered, hstart, hhead]
  by_cases hmem : x ∈ lh
  · have hidx := idxOf_lt_length_of_mem hmem
    rw [if_pos hmem, if_pos hmem, update_of_ne]
    rintro rfl
    exact hbhome ⟨by omega, by omega⟩
  · rw [if_neg hmem, if_neg hmem, update_of_ne]
    rintro rfl
    exact hmem hb

-- The loop invariant of install_trans: the blocks before `tail` are home, and only the listed
-- blocks have buffers that differ from the disk.
theorem installTrans_wpc (hok : HeadOk start size lh) (bs pre : List Nat)
    (hlh : lh = pre ++ bs) (s : Dev) (hhead : headBlocks (s.disk start) = lh)
    (hcache : ∀ b, b ∉ bs → s.cache b = s.disk b)
    (hvalue : ∀ b, ¬InLog start size b → recovered start s.disk b = goal b)
    (hdone : ∀ b ∈ pre, s.disk b = goal b) (hc : commits start s.issued = c) :
    wpc devStep (fun s => Recovers start size s.disk goal ∧ commits start s.issued = c)
      (installTrans start pre.length bs)
      (fun _ s' => s'.cache = s'.disk ∧ headBlocks (s'.disk start) = lh ∧
        (∀ b, ¬InLog start size b → s'.disk b = goal b) ∧ commits start s'.issued = c) s := by
  induction bs generalizing pre s with
  | nil =>
    refine ⟨⟨⟨hhead ▸ hok, hvalue⟩, hc⟩, funext fun b => hcache b (by simp), hhead, ?_, hc⟩
    intro b hb
    by_cases hmem : b ∈ lh
    · exact hdone b (by simpa [hlh] using hmem)
    · have h := hvalue b hb
      rwa [recovered, hhead, if_neg hmem] at h
  | cons b bs ih =>
    have hmem : b ∈ lh := by simp [hlh]
    have hbhome := hok.home b hmem
    have hlen : pre.length + 1 ≤ lh.length := by simp [hlh]
    have hfits := hok.fits
    have hnodup := hok.nodup
    rw [hlh] at hnodup
    have hbpre : b ∉ pre := fun h => (disjoint_of_nodup_append hnodup) h (by simp)
    have hidx : lh.idxOf b = pre.length := by
      rw [hlh, idxOf_append_of_notMem hbpre]
      simp
    have hin : InLog start size (start + pre.length + 1) := ⟨by omega, by omega⟩
    have hnotbs : start + pre.length + 1 ∉ b :: bs := fun h =>
      hok.home _ (by rw [hlh]; exact mem_append_right _ h) hin
    have hlog : s.cache (start + pre.length + 1) = s.disk (start + pre.length + 1) :=
      hcache _ hnotbs
    have hgoal : s.disk (start + pre.length + 1) = goal b := by
      have h := hvalue b hbhome
      rwa [recovered, hhead, if_pos hmem, hidx] at h
    have hC : Recovers start size s.disk goal ∧ commits start s.issued = c :=
      ⟨⟨hhead ▸ hok, hvalue⟩, hc⟩
    obtain ⟨hhead', hrec'⟩ := recovered_update_home hok hhead hmem (s.disk (start + pre.length + 1))
    have hne : b ≠ start := by
      rintro rfl
      exact hbhome ⟨Nat.le_refl _, by omega⟩
    rw [installTrans]
    refine wpc_bread hC (wpc_bread hC (wpc_bstore hC (wpc_bwrite hC ?_)))
    simp only [update_self, hlog]
    have hnext := ih (pre ++ [b]) (by simp [hlh])
      { s with
        disk := update s.disk b (s.disk (start + pre.length + 1))
        cache := update s.cache b (s.disk (start + pre.length + 1))
        issued := s.issued ++ [(b, s.disk (start + pre.length + 1))] }
      hhead' ?_ (fun x hx => by rw [hrec' x hx, hvalue x hx]) ?_
      (by rw [commits_append_other _ _ _ _ (.inl hne), hc])
    · simpa using hnext
    · intro x hx
      by_cases hxb : x = b
      · subst hxb; simp
      · simp only [ne_eq, hxb, not_false_eq_true, update_of_ne]
        exact hcache x (by simp [hxb, hx])
    · intro x hx
      by_cases hxb : x = b
      · subst hxb; simpa using hgoal
      · simp only [ne_eq, hxb, not_false_eq_true, update_of_ne]
        exact hdone x (by simpa [hxb] using hx)

theorem clearHead_wpc (hsize : 0 < size) (s : Dev) (hcache : s.cache = s.disk)
    (hhead : HeadOk start size (headBlocks (s.disk start)))
    (hvalue : ∀ b, ¬InLog start size b → s.disk b = goal b)
    (hrec : ∀ b, ¬InLog start size b → recovered start s.disk b = goal b)
    (hc : commits start s.issued = c) :
    wpc devStep (fun s => Recovers start size s.disk goal ∧ commits start s.issued = c)
      (writeHead start [])
      (fun _ s' => s'.cache = s'.disk ∧ headBlocks (s'.disk start) = [] ∧
        (∀ b, ¬InLog start size b → s'.disk b = goal b) ∧ commits start s'.issued = c) s := by
  have hC : Recovers start size s.disk goal ∧ commits start s.issued = c := ⟨⟨hhead, hrec⟩, hc⟩
  have hzero : headCount (putHead (s.disk start) []) = 0 := by simpa using headCount_putHead _ [] (by simp)
  have hempty := headBlocks_of_count_zero hzero
  have hhome : ∀ b, ¬InLog start size b → b ≠ start := by
    rintro b hb rfl
    exact hb ⟨Nat.le_refl _, by omega⟩
  rw [writeHead]
  refine wpc_bread hC (wpc_bstore hC ?_)
  rw [hcache]
  have hgoal : ∀ b, ¬InLog start size b → update s.disk start (putHead (s.disk start) []) b = goal b := by
    intro b hb
    rw [update_of_ne (hhome b hb), hvalue b hb]
  have hcount : commits start (s.issued ++ [(start, putHead (s.disk start) [])]) = c := by
    rw [commits_append_other _ _ _ _ (.inr hzero), hc]
  refine wpc_lift hC ⟨⟨recovers_of_empty hsize ?_ ?_, ?_⟩, ?_, ?_, ?_, ?_⟩ <;>
    simp only [update_self]
  · exact hempty
  · exact hgoal
  · exact hcount
  · exact hempty
  · exact hgoal
  · exact hcount

-- A recovery, cut off anywhere, keeps the home blocks that recovery yields; a complete one has put
-- them there.
theorem recoverFromLog_wpc (hsize : 0 < size) (s : Dev) (hcache : s.cache = s.disk)
    (hrec : Recovers start size s.disk goal) (hc : commits start s.issued = c) :
    wpc devStep (fun s => Recovers start size s.disk goal ∧ commits start s.issued = c)
      (recoverFromLog start)
      (fun _ s' => s'.cache = s'.disk ∧ headBlocks (s'.disk start) = [] ∧
        (∀ b, ¬InLog start size b → s'.disk b = goal b) ∧ commits start s'.issued = c) s := by
  have hC : Recovers start size s.disk goal ∧ commits start s.issued = c := ⟨hrec, hc⟩
  rw [recoverFromLog, readHead]
  refine wpc_bind (wpc_bread hC ⟨hC, ?_⟩)
  rw [hcache]
  refine wpc_bind (wpc_mono (installTrans_wpc hrec.head (headBlocks (s.disk start)) [] rfl s rfl
    (fun b _ => congrFun hcache b) hrec.value (by simp) hc) ?_)
  rintro _ s' ⟨hrec', _⟩ ⟨hcache', hhead', hvalue', hc'⟩
  exact clearHead_wpc hsize s' hcache' hrec'.head hvalue' hrec'.value hc'

-- The header is empty, and the home blocks are those of the transactions committed so far.
def Before (start size : Nat) (goal : Nat → Block) (c : List (List Nat)) (s : Dev) : Prop :=
  headBlocks (s.disk start) = [] ∧ (∀ b, ¬InLog start size b → s.disk b = goal b) ∧ commits start s.issued = c

theorem Before.update {s : Dev} (h : Before start size goal c s) {x : Nat}
    (hx : InLog start size x) (hne : x ≠ start) (data : Block) (cache : Nat → Block) :
    Before start size goal c
      { disk := update s.disk x data, cache := cache, issued := s.issued ++ [(x, data)] } := by
  obtain ⟨hempty, hvalue, hc⟩ := h
  refine ⟨?_, fun b hb => ?_, ?_⟩
  · simpa [update_of_ne (Ne.symm hne)] using hempty
  · have hbx : b ≠ x := by rintro rfl; exact hb hx
    simpa [update_of_ne hbx] using hvalue b hb
  · simpa [commits_append_other _ _ _ _ (.inl hne)] using hc

theorem writeLog_wpc (bs : List Nat) (tail : Nat)
    (hfits : tail + bs.length < size) (hhome : ∀ b ∈ bs, ¬InLog start size b) (s : Dev)
    (hbefore : Before start size goal c s) :
    wpc devStep (Before start size goal c) (writeLog start tail bs)
      (fun _ s' =>
        (∀ t (ht : t < bs.length), s'.disk (start + tail + t + 1) = s.cache bs[t] ∧
          s'.cache (start + tail + t + 1) = s.cache bs[t]) ∧
        ∀ b, b ≤ start + tail ∨ start + tail + bs.length < b → s'.disk b = s.disk b ∧ s'.cache b = s.cache b) s := by
  induction bs generalizing tail s with
  | nil => exact ⟨hbefore, by simp, fun b _ => ⟨rfl, rfl⟩⟩
  | cons b bs ih =>
    simp only [length_cons] at hfits
    have hin : InLog start size (start + tail + 1) := ⟨by omega, by omega⟩
    rw [writeLog]
    refine wpc_bread hbefore (wpc_bread hbefore (wpc_bstore hbefore (wpc_bwrite hbefore ?_)))
    simp only [update_self]
    refine wpc_mono (ih (tail + 1) (by omega) (fun x hx => hhome x (by simp [hx])) _
      (hbefore.update hin (by omega) _ _)) ?_
    rintro _ s' _ ⟨hlog, hother⟩
    have hkeep : ∀ x ∈ bs, update s.cache (start + tail + 1) (s.cache b) x = s.cache x := by
      intro x hx
      apply update_of_ne
      rintro rfl
      exact hhome _ (by simp [hx]) hin
    refine ⟨fun t ht => ?_, fun x hx => ?_⟩
    · cases t with
      | zero =>
        have h := hother (start + tail + 1) (.inl (by omega))
        simpa using h
      | succ t =>
        simp only [length_cons] at ht
        have h := hlog t (by omega)
        dsimp only at h
        rw [hkeep _ (getElem_mem _), show start + (tail + 1) + t + 1 = start + tail + (t + 1) + 1 by omega] at h
        simpa using h
    · simp only [length_cons] at hx
      have h := hother x (by omega)
      have hne : x ≠ start + tail + 1 := by omega
      simpa [update_of_ne hne] using h

-- The write of a full header commits: from then on recovery yields the cached contents of every
-- logged block.
theorem writeHead_wpc (hok : HeadOk start size lh) (hne : 0 < lh.length)
    (s : Dev) (hbefore : Before start size goal c s)
    (hlog : ∀ t (ht : t < lh.length), s.disk (start + t + 1) = goal' lh[t])
    (hother : ∀ b, ¬InLog start size b → b ∉ lh → goal' b = goal b) :
    wpc devStep (fun s => Before start size goal c s ∨
        Recovers start size s.disk goal' ∧ commits start s.issued = c ++ [lh])
      (writeHead start lh)
      (fun _ s' => ∃ data, s'.disk = update s.disk start data ∧
        s'.cache = update s.cache start data ∧ headBlocks data = lh ∧
        Recovers start size s'.disk goal' ∧ commits start s'.issued = c ++ [lh]) s := by
  obtain ⟨hempty, hvalue, hc⟩ := hbefore
  have hC := Or.inl (b := Recovers start size s.disk goal' ∧ commits start s.issued = c ++ [lh])
    (⟨hempty, hvalue, hc⟩ : Before start size goal c s)
  have hhead := headBlocks_putHead (s.cache start) lh hok.short hok.word
  have hcount : 0 < headCount (putHead (s.cache start) lh) := by
    rw [headCount_putHead _ _ hok.short]
    exact hne
  have hrec : Recovers start size (update s.disk start (putHead (s.cache start) lh)) goal' := by
    refine ⟨by simpa [hhead] using hok, fun b hb => ?_⟩
    have hbs : b ≠ start := by
      rintro rfl
      exact hb ⟨Nat.le_refl _, by have := hok.fits; omega⟩
    simp only [recovered, update_self, hhead]
    by_cases hmem : b ∈ lh
    · have hidx := idxOf_lt_length_of_mem hmem
      rw [if_pos hmem, update_of_ne (by omega), hlog _ hidx, getElem_idxOf hidx]
    · rw [if_neg hmem, update_of_ne hbs, hvalue b hb, hother b hb hmem]
  have hcommit : commits start (s.issued ++ [(start, putHead (s.cache start) lh)]) = c ++ [lh] := by
    rw [commits_append_head _ _ _ hcount, hc, hhead]
  rw [writeHead]
  refine wpc_bread hC (wpc_bstore hC (wpc_lift hC ⟨.inr ⟨?_, ?_⟩, putHead (s.cache start) lh,
    ?_, rfl, hhead, ?_, ?_⟩)) <;> simp only [update_self]
  · exact hrec
  · exact hcommit
  · exact hrec
  · exact hcommit

def Clean (start size : Nat) (goal : Nat → Block) (c : List (List Nat)) (s : Dev) : Prop :=
  s.cache = s.disk ∧ Before start size goal c s

theorem commit_wpc (hok : HeadOk start size lh) (hne : 0 < lh.length)
    (s : Dev) (hbefore : Before start size goal c s)
    (hcache : ∀ b, b ∉ lh → s.cache b = s.disk b) (hnew : ∀ b ∈ lh, s.cache b = goal' b)
    (hother : ∀ b, ¬InLog start size b → b ∉ lh → goal' b = goal b) :
    wpc devStep (fun s => Before start size goal c s ∨
        Recovers start size s.disk goal' ∧ commits start s.issued = c ++ [lh])
      (commit start lh) (fun _ s' => Clean start size goal' (c ++ [lh]) s') s := by
  have hfits := hok.fits
  rw [commit, if_pos hne]
  have hwrite := wpc_mono (writeLog_wpc lh 0 (by omega) hok.home s hbefore)
    fun _ s' hC hQ => And.intro hC hQ
  refine wpc_bind (wpc_mono (wpc_crash hwrite fun s' h => .inl h) ?_)
  rintro _ s1 _ ⟨hs1, hlog1, hkeep1⟩
  simp only [Nat.add_zero] at hlog1 hkeep1
  have hdisk1 : ∀ t (ht : t < lh.length), s1.disk (start + t + 1) = goal' lh[t] := by
    intro t ht
    rw [(hlog1 t ht).1, hnew _ (getElem_mem _)]
  have hcache1 : ∀ b, b ∉ lh → s1.cache b = s1.disk b := by
    intro b hb
    by_cases hrange : b ≤ start ∨ start + lh.length < b
    · obtain ⟨hd, hca⟩ := hkeep1 b hrange
      rw [hd, hca, hcache b hb]
    · obtain ⟨hd, hca⟩ := hlog1 (b - start - 1) (by omega)
      rw [show start + (b - start - 1) + 1 = b by omega] at hd hca
      rw [hd, hca]
  refine wpc_bind (wpc_mono (writeHead_wpc hok hne s1 hs1 hdisk1 hother) ?_)
  rintro _ s2 _ ⟨data, hdisk2, hcache2, hhead2, hrec2, hc2⟩
  have hhead2' : headBlocks (s2.disk start) = lh := by rw [hdisk2, update_self, hhead2]
  have hcache2' : ∀ b, b ∉ lh → s2.cache b = s2.disk b := by
    intro b hb
    rw [hdisk2, hcache2]
    by_cases hbs : b = start
    · subst hbs; simp
    · rw [update_of_ne hbs, update_of_ne hbs, hcache1 b hb]
  have hinstall := wpc_mono (installTrans_wpc hok lh [] rfl s2 hhead2' hcache2' hrec2.value (by simp) hc2)
    fun _ s' hC hQ => And.intro hC hQ
  refine wpc_bind (wpc_mono (wpc_crash hinstall fun s' h => .inr h) ?_)
  rintro _ s3 _ ⟨⟨hrec3, _⟩, hcache3, hhead3, hvalue3, hc3⟩
  refine wpc_mono (wpc_crash (clearHead_wpc (by omega) s3 hcache3 hrec3.head hvalue3 hrec3.value hc3)
    fun s' h => .inr h) ?_
  rintro _ s4 _ ⟨hcache4, hempty4, hvalue4, hc4⟩
  exact ⟨hcache4, hempty4, hvalue4, hc4⟩

-- The home blocks after a transaction, and after several, each applied whole.
def applyTxn (disk : Nat → Block) (txn : List (Nat × Block)) : Nat → Block :=
  txn.foldl (fun disk w => update disk w.1 w.2) disk

def applyTxns (disk : Nat → Block) (txns : List (List (Nat × Block))) : Nat → Block :=
  txns.foldl applyTxn disk

theorem applyTxn_of_notMem (disk : Nat → Block) (txn : List (Nat × Block)) (b : Nat)
    (hb : b ∉ txn.map Prod.fst) : applyTxn disk txn b = disk b := by
  induction txn generalizing disk with
  | nil => rfl
  | cons w rest ih =>
    simp only [map_cons, mem_cons, not_or] at hb
    rw [applyTxn, foldl_cons]
    exact (ih _ hb.2).trans (update_of_ne hb.1 _ _)

theorem applyTxn_congr (txn : List (Nat × Block)) (d e : Nat → Block) (b : Nat)
    (h : b ∈ txn.map Prod.fst ∨ d b = e b) : applyTxn d txn b = applyTxn e txn b := by
  induction txn generalizing d e with
  | nil => exact h.resolve_left (by simp)
  | cons w rest ih =>
    refine ih _ _ ?_
    by_cases hw : b = w.1
    · subst hw; simp
    · simpa [hw] using h

section Transactions

variable {log : Log}

-- The list of the current transaction has no duplicates and fits the header and the log region.
structure Logged (log : Log) (lh : List Nat) : Prop where
  nodup : lh.Nodup
  short : lh.length ≤ LOGSIZE
  fits : lh.length < log.size

theorem logWrite_ok {log log' : Log} (h : log.logWrite b = .ok log') (hl : Logged log log.lh) :
    log'.start = log.start ∧ log'.size = log.size ∧ Logged log log'.lh ∧ ∀ x, x ∈ log'.lh ↔ x ∈ log.lh ∨ x = b := by
  obtain ⟨rfl, hshort, hfits⟩ := logWrite_eq h
  refine ⟨rfl, rfl, ?_, fun x => ?_⟩
  · by_cases hmem : b ∈ log.lh
    · simpa [hmem] using hl
    simp only [hmem, if_false]
    refine ⟨?_, ?_, ?_⟩
    · simpa [nodup_append, hl.nodup] using fun a ha (he : a = b) => hmem (he ▸ ha)
    · simp only [length_append, length_singleton]
      omega
    · simp only [length_append, length_singleton]
      omega
  · by_cases hmem : b ∈ log.lh
    · simp only [hmem, if_true]
      refine ⟨.inl, ?_⟩
      rintro (hx | rfl)
      · exact hx
      · exact hmem
    · simp [hmem]

theorem logWrites_wpc (txn : List (Nat × Block)) (l : Log) (hl : Logged l l.lh) (s : Dev)
    (hbefore : Before log.start log.size goal c s) :
    wpc devStep (Before log.start log.size goal c) (logWrites l txn)
      (fun l' s' => s' = { s with cache := applyTxn s.cache txn } ∧ l'.start = l.start ∧
        Logged l l'.lh ∧ ∀ x, x ∈ l'.lh ↔ x ∈ l.lh ∨ x ∈ txn.map Prod.fst) s := by
  induction txn generalizing l s with
  | nil => exact ⟨hbefore, rfl, rfl, hl, by simp⟩
  | cons w rest ih =>
    obtain ⟨b, data⟩ := w
    rw [logWrites]
    refine wpc_bread hbefore (wpc_bstore hbefore ?_)
    cases hw : l.logWrite b with
    | error e => exact hbefore
    | ok l' =>
      obtain ⟨hstart, hsize, hl', hmem⟩ := logWrite_ok hw hl
      have hl'' : Logged l' l'.lh := ⟨hl'.nodup, hl'.short, hsize ▸ hl'.fits⟩
      refine wpc_mono (ih l' hl'' _ hbefore) ?_
      rintro l'' s' _ ⟨hs', hstart'', hlogged, hmem''⟩
      refine ⟨hs', hstart''.trans hstart, ⟨hlogged.nodup, hlogged.short, hsize ▸ hlogged.fits⟩, ?_⟩
      intro x
      rw [hmem'', hmem]
      simp only [map_cons, mem_cons]
      tauto

def Matches (lh : List Nat) (txn : List (Nat × Block)) : Prop :=
  ∀ b, b ∈ lh ↔ b ∈ txn.map Prod.fst

def HomeTxn (log : Log) (txn : List (Nat × Block)) : Prop :=
  ∀ w ∈ txn, w.1 < 2 ^ 32 ∧ ¬InLog log.start log.size w.1

variable {txn : List (Nat × Block)} {txns : List (List (Nat × Block))}

theorem transaction_wpc (hsize : 0 < log.size) (hhome : HomeTxn log txn)
    (hne : txn ≠ []) (s : Dev) (hclean : Clean log.start log.size goal c s) :
    wpc devStep (fun s => Before log.start log.size goal c s ∨ Recovers log.start log.size s.disk (applyTxn goal txn) ∧
          ∃ lh, commits log.start s.issued = c ++ [lh] ∧ Matches lh txn)
      (transaction log txn)
      (fun _ s' => ∃ lh, Matches lh txn ∧ Clean log.start log.size (applyTxn goal txn) (c ++ [lh]) s') s := by
  obtain ⟨hcache, hbefore⟩ := hclean
  have hvalue := hbefore.2.1
  rw [transaction]
  have hl0 : Logged { log with outstanding := 1, lh := [] } [] := ⟨nodup_nil, by simp, hsize⟩
  have hwrites := wpc_mono (logWrites_wpc txn { log with outstanding := 1, lh := [] } hl0 s
    hbefore) fun _ s' hC hQ => And.intro hC hQ
  refine wpc_bind (wpc_mono (wpc_crash hwrites fun s' h => .inl h) ?_)
  rintro l' s' _ ⟨hbefore', hs', hstart, hlogged, hmem⟩
  have hmatch : Matches l'.lh txn := fun x => by simpa using hmem x
  have hok : HeadOk log.start log.size l'.lh := by
    refine ⟨hlogged.nodup, hlogged.short, hlogged.fits, fun b hb => ?_, fun b hb => ?_⟩
    all_goals
      obtain ⟨w, hw, rfl⟩ := mem_map.mp ((hmatch b).mp hb)
    · exact (hhome w hw).2
    · exact (hhome w hw).1
  have hpos : 0 < l'.lh.length := by
    obtain ⟨w, hw⟩ := exists_mem_of_ne_nil txn hne
    exact length_pos_of_mem ((hmatch w.1).mpr (mem_map_of_mem hw))
  rw [show l'.start = log.start from hstart]
  have hkept : ∀ b, b ∉ l'.lh → s'.cache b = s'.disk b := by
    intro b hb
    rw [hs', hcache]
    exact applyTxn_of_notMem _ _ _ fun h => hb ((hmatch b).mpr h)
  have hnew : ∀ b ∈ l'.lh, s'.cache b = applyTxn goal txn b := by
    intro b hb
    rw [hs']
    exact applyTxn_congr _ _ _ _ (.inl ((hmatch b).mp hb))
  have hother : ∀ b, ¬InLog log.start log.size b → b ∉ l'.lh → applyTxn goal txn b = goal b := by
    intro b _ hb
    exact applyTxn_of_notMem _ _ _ fun h => hb ((hmatch b).mpr h)
  refine wpc_mono (wpc_crash (commit_wpc hok hpos s' hbefore' hkept hnew hother) ?_) ?_
  · rintro s'' (h | ⟨hrec, hc⟩)
    · exact .inl h
    · exact .inr ⟨hrec, _, hc, hmatch⟩
  · exact fun _ s'' _ h => ⟨_, hmatch, h⟩

-- The crash condition: recovery yields some prefix of the transactions, applied whole, and the
-- headers written so far are those of its non-empty ones.
def Durable (log : Log) (goal : Nat → Block) (c : List (List Nat))
    (txns : List (List (Nat × Block))) (s : Dev) : Prop :=
  ∃ m ≤ txns.length, ∃ heads, commits log.start s.issued = c ++ heads ∧
    List.Forall₂ Matches heads ((txns.take m).filter fun txn => !txn.isEmpty) ∧
    Recovers log.start log.size s.disk (applyTxns goal (txns.take m))

theorem Durable.cons_empty (h : Durable log goal c txns s) : Durable log goal c ([] :: txns) s := by
  obtain ⟨m, hm, heads, hc, hmatch, hrec⟩ := h
  exact ⟨m + 1, by simpa using hm, heads, hc, by simpa using hmatch, by simpa [applyTxns, applyTxn] using hrec⟩

theorem Durable.cons (hne : txn ≠ []) (hmatch : Matches lh txn)
    (h : Durable log (applyTxn goal txn) (c ++ [lh]) txns s) : Durable log goal c (txn :: txns) s := by
  obtain ⟨m, hm, heads, hc, hall, hrec⟩ := h
  refine ⟨m + 1, by simpa using hm, lh :: heads, by simpa using hc, ?_, by simpa [applyTxns] using hrec⟩
  have hfilter : (List.take (m + 1) (txn :: txns)).filter (fun txn => !txn.isEmpty) =
      txn :: (txns.take m).filter fun txn => !txn.isEmpty := by
    simp [hne]
  rw [hfilter]
  exact List.Forall₂.cons hmatch hall

theorem transactions_wpc (hsize : 0 < log.size) (txns : List (List (Nat × Block)))
    (hhome : ∀ txn ∈ txns, HomeTxn log txn) (s : Dev) (hclean : Clean log.start log.size goal c s) :
    wpc devStep (Durable log goal c txns) (transactions log txns) (fun _ _ => True) s := by
  have hnow : ∀ {goal c s} (txns : List (List (Nat × Block))), Before log.start log.size goal c s →
      Durable log goal c txns s := by
    intro goal c s txns hb
    refine ⟨0, by simp, [], by simpa using hb.2.2, by simp, ?_⟩
    exact recovers_of_empty hsize hb.1 (by simpa [applyTxns] using hb.2.1)
  induction txns generalizing goal c s with
  | nil => exact ⟨hnow [] hclean.2, trivial⟩
  | cons txn txns ih =>
    have hrest : ∀ txn ∈ txns, HomeTxn log txn := fun t ht => hhome t (by simp [ht])
    rw [transactions]
    by_cases hne : txn = []
    · subst hne
      have hskip : transaction log [] = pure () := by simp [transaction, logWrites, commit]
      rw [hskip]
      exact wpc_crash (ih hrest s hclean) fun s' h => h.cons_empty
    refine wpc_bind (wpc_mono (wpc_crash (transaction_wpc hsize (hhome txn (by simp)) hne s hclean)
      ?_) ?_)
    · rintro s' (h | ⟨hrec, lh, hc, hmatch⟩)
      · exact hnow _ h
      · exact Durable.cons hne hmatch ⟨0, by simp, [], by simpa using hc, by simp, by
          simpa [applyTxns] using hrec⟩
    · rintro _ s' _ ⟨lh, hmatch, hclean'⟩
      exact wpc_crash (ih hrest s' hclean') fun s'' h => h.cons hne hmatch

end Transactions

theorem recoveries_recover (hsize : 0 < size) (cuts : List Nat)
    (s : Dev) (h : Recovers start size s.disk goal) :
    Recovers start size (cuts.foldl (fun s m => cut devStep m (recoverFromLog start) s.crash) s).disk goal := by
  induction cuts generalizing s with
  | nil => exact h
  | cons m cuts ih =>
    have hcut := cut_of_wpc m (recoverFromLog_wpc hsize s.crash rfl h rfl)
    exact ih _ hcut.1

theorem installTrans_done (start : Nat) (bs : List Nat) (tail : Nat) (s : Dev) :
    ∃ s', run devStep (installTrans start tail bs) s = .done () s' := by
  induction bs generalizing tail s with
  | nil => exact ⟨s, rfl⟩
  | cons b bs ih => exact ih (tail + 1) _

theorem recoverFromLog_done (hsize : 0 < size) (s : Dev)
    (h : Recovers start size s.disk goal) :
    ∃ final, run devStep (recoverFromLog start) s.crash = .done () final ∧
      ∀ b, ¬InLog start size b → final.disk b = goal b := by
  obtain ⟨s1, h1⟩ := installTrans_done start (headBlocks (s.crash.cache start)) 0 s.crash
  have hrun : run devStep (recoverFromLog start) s.crash = run devStep (writeHead start []) s1 :=
    run_bind h1
  have hwp := wp_of_wpc (recoverFromLog_wpc hsize s.crash rfl h rfl)
  rw [wp, hrun] at hwp
  exact ⟨_, hrun, hwp.2.2.2.1⟩

-- The run is cut off after `n` steps, and recovery any number of times before it completes.
theorem crash_atomic (log : Log) (hsize : 0 < log.size) (disk : Nat → Block)
    (hempty : headCount (disk log.start) = 0) (txns : List (List (Nat × Block)))
    (hhome : ∀ txn ∈ txns, HomeTxn log txn) (n : Nat) (cuts : List Nat) :
    let crashed := cut devStep n (transactions log txns) ⟨disk, disk, []⟩
    let last := cuts.foldl (fun s m => cut devStep m (recoverFromLog log.start) s.crash) crashed
    ∃ final, run devStep (recoverFromLog log.start) last.crash = .done () final ∧ ∃ m ≤ txns.length,
        List.Forall₂ Matches (commits log.start crashed.issued)
          ((txns.take m).filter fun txn => !txn.isEmpty) ∧
        ∀ b, ¬InLog log.start log.size b → final.disk b = applyTxns disk (txns.take m) b := by
  intro crashed last
  have hclean : Clean log.start log.size disk [] ⟨disk, disk, []⟩ :=
    ⟨rfl, headBlocks_of_count_zero hempty, fun _ _ => rfl, rfl⟩
  obtain ⟨m, hm, heads, hc, hmatch, hrec⟩ := cut_of_wpc n (transactions_wpc hsize txns hhome _ hclean)
  obtain ⟨final, hrun, hfinal⟩ := recoverFromLog_done hsize last (recoveries_recover hsize cuts crashed hrec)
  refine ⟨final, hrun, m, hm, ?_, hfinal⟩
  rw [show commits log.start crashed.issued = heads by simpa using hc]
  exact hmatch

-- The crash comes while the header is being cleared, and recovery is cut off once.
def oneLog : Log := { start := 2, size := 30, outstanding := 0, committing := false, lh := [] }

theorem crash_atomic_oneLog :
    let crashed := cut devStep 13 (transactions oneLog [[(46, Block.zero.setWord 0 7)]])
      ⟨fun _ => Block.zero, fun _ => Block.zero, []⟩
    let last := [2].foldl (fun s m => cut devStep m (recoverFromLog 2) s.crash) crashed
    ∃ final, run devStep (recoverFromLog 2) last.crash = .done () final ∧ ∃ m ≤ 1,
        List.Forall₂ Matches (commits 2 crashed.issued)
          (([[(46, Block.zero.setWord 0 7)]].take m).filter fun txn => !txn.isEmpty) ∧
        ∀ b, ¬InLog 2 30 b → final.disk b =
          applyTxns (fun _ => Block.zero) ([[(46, Block.zero.setWord 0 7)]].take m) b :=
  crash_atomic oneLog (by decide) (fun _ => Block.zero) (by simp [headCount])
    [[(46, Block.zero.setWord 0 7)]] (by simp [HomeTxn, InLog, oneLog]) 13 [2]

end Log
