import Xv6.Sys.Calls

-- exec builds a second address space beside the process's own, and one of the two is freed.

namespace Sys

open Vm Sep Prog List Set
open scoped Pointwise

theorem number_lt (bytes : List UInt8) (i n : Nat) : Fs.number bytes i n < 256 ^ n := by
  induction n generalizing i with
  | zero => exact Nat.one_pos
  | succ n ih =>
    have h1 := ih (i + 1)
    have h2 := (bytes.getD i 0).toNat_lt
    rw [Fs.number, Nat.pow_succ]
    omega

theorem sub64_eq {a b : Nat} (hb : b ≤ a) (ha : a < 2 ^ 64) : sub64 a b = a - b := by
  unfold sub64
  rw [Nat.mod_eq_of_lt (lt_of_le_of_lt hb ha)]
  have h : a + (2 ^ 64 - b) = (a - b) + 2 ^ 64 := by omega
  rw [h, Nat.add_mod_right, Nat.mod_eq_of_lt (by omega)]

theorem flags2perm_lt (flags : Nat) : flags2perm flags < 2 ^ 10 := by
  unfold flags2perm
  split <;> split <;> decide

variable {L : Layout} {p : Pid} {me : ProcMem} {kid : Option (Pid × ProcMem)} {ends : List (Nat × Bool)} {root : Nat}
  {c : Nat → Page} {argv : List (List UInt8)} {pg : Page}

section Load

variable {F : Assn Nat Page} {k m : Nat → Nat} (sb : Superblock)

theorem loadseg_own {va n : Nat} (hu : ∀ v < n, m v &&& PTE_U ≠ 0) (slot : Slot) (offset sz : UInt32)
    (hn : va + sz.toNat ≤ n * PGSIZE) (left : Nat) (i : UInt32)
    (hi : left ≠ 0 → i.toNat + (left - 1) * PGSIZE < sz.toNat) :
    Does L p (Has (Image L root m c n * F) me kid ends) (loadseg sb root va slot offset sz left i) fun _ =>
      Has ((⋃ c' : Nat → Page, Image L root m c' n) * F) me kid ends := by
  have hany : ∀ c, Image L root m c n ⊆ ⋃ c' : Nat → Page, Image L root m c' n := fun c =>
    subset_iUnion (fun c' => Image L root m c' n) c
  induction left generalizing i c with
  | zero => exact Hoare.ret (has_mono (mul_subset_mul_right (hany c)))
  | succ left ih =>
    refine has_know (fun _ ⟨_, hh, _, _, heq⟩ hv => image_count hh (heq ▸ hv : Valid (_ * _)).left) fun hcount => ?_
    have hi := hi (by omega)
    rw [Nat.add_sub_cancel] at hi
    have hmax := low_max
    have hsum : (va + i.toNat) % 2 ^ 64 = va + i.toNat := by
      refine Nat.mod_eq_of_lt ?_
      unfold PGSIZE MAXVA at *
      omega
    have hpage : (va + i.toNat) / PGSIZE < n := by
      unfold PGSIZE at *
      omega
    rw [loadseg, hsum]
    refine mem_seq F (walkaddr_mapped hpage (hu _ hpage)) subset_rfl fun pa => ?_
    rw [iUnion_mul]
    refine has_ex fun ⟨hne, hpa⟩ => ?_
    rw [if_neg hne, hpa]
    refine fs_seq (quiet_plain (Fs.readi_quiet sb slot _ _ _)) fun r => ?_
    refine mem_seq F (image_put hpage _) subset_rfl fun _ => ?_
    refine Hoare.ite (fun _ => Hoare.ret (has_mono (mul_subset_mul_right (hany _)))) fun _ => ?_
    refine ih _ fun hleft => ?_
    have hnext : (i + UInt32.ofNat PGSIZE).toNat = i.toNat + PGSIZE := by
      have hlt := sz.toNat_lt
      have hone : (left - 1) * PGSIZE + PGSIZE = left * PGSIZE := by
        rw [← Nat.succ_mul]
        congr 1
        omega
      rw [UInt32.toNat_add, show (UInt32.ofNat PGSIZE).toNat = PGSIZE from rfl]
      refine Nat.mod_eq_of_lt ?_
      unfold PGSIZE at *
      omega
    rw [hnext]
    unfold PGSIZE at *
    omega

theorem loadSegments_own (hk : Low k) (slot : Slot) (n : Nat) (off : UInt32) (sz : Nat) :
    Does L p (Has (Loaded L root k (pages sz) * F) me kid ends) (loadSegments sb root slot n off sz) fun r =>
      Has (Loaded L root k (pages r.2) * F) me kid ends := by
  induction n generalizing off sz with
  | zero => exact Hoare.ret subset_rfl
  | succ n ih =>
    rw [loadSegments]
    refine fs_seq (quiet_plain (Fs.readi_quiet sb slot _ _ _)) fun r => ?_
    dsimp only
    have hvaddr := number_lt r.2 16 8
    have hmemsz := number_lt r.2 40 8
    generalize Fs.number r.2 0 4 = type, Fs.number r.2 40 8 = memsz, Fs.number r.2 32 8 = filesz,
      Fs.number r.2 16 8 = vaddr, Fs.number r.2 8 8 = offset, Fs.number r.2 4 4 = flags at hvaddr hmemsz ⊢
    refine Hoare.ite (fun _ => Hoare.ret subset_rfl) fun _ => Hoare.ite (fun _ => ih _ _) fun _ => ?_
    refine Hoare.ite (fun _ => Hoare.ret subset_rfl) fun hfile => ?_
    refine Hoare.ite (fun _ => Hoare.ret subset_rfl) fun hwrap => ?_
    refine Hoare.ite (fun _ => Hoare.ret subset_rfl) fun _ => ?_
    have hsum : (vaddr + memsz) % 2 ^ 64 = vaddr + memsz := by omega
    rw [hsum]
    refine mem_seq F (uvmalloc_loaded sz (vaddr + memsz) _ hk (flags2perm_lt flags)) subset_rfl fun sz1 => ?_
    rw [iUnion_mul]
    refine has_ex fun hsz1 => Hoare.ite (fun hz => ?_) fun hz => ?_
    · rw [if_pos hz]
      exact Hoare.ret subset_rfl
    rw [if_neg hz]
    have hle : vaddr + (UInt32.ofNat filesz).toNat ≤ pages sz1 * PGSIZE := by
      have h1 := hsz1 hz
      have h2 : (UInt32.ofNat filesz).toNat ≤ filesz := by
        rw [UInt32.toNat_ofNat']
        exact Nat.mod_le _ _
      unfold pages PGSIZE
      omega
    unfold Loaded
    rw [iUnion_mul]
    refine has_ex fun m => ?_
    rw [iUnion₂_mul]
    refine has_ex fun c => has_ex fun ⟨hfits, hu⟩ => ?_
    refine (loadseg_own sb hu slot _ _ hle _ _ fun hleft => ?_).bind fun ok => ?_
    · unfold PGSIZE at *
      rw [show (0 : UInt32).toNat = 0 from rfl]
      omega
    · have hback : (⋃ c' : Nat → Page, Image L root m c' (pages sz1)) * F ⊆
          Loaded L root k (pages sz1) * F :=
        mul_subset_mul_right (iUnion_subset fun c' => image_loaded hfits hu)
      refine Hoare.pre ?_ (has_mono hback)
      exact Hoare.ite (fun _ => ih _ _) fun _ => Hoare.ret subset_rfl

end Load

section Layout

def pushDown (sp n : Nat) : Nat := sp - n - (sp - n) % 16

-- Where it puts the argument strings, and how far it then has come.
def pointers : Nat → List (List UInt8) → List Nat
  | _, [] => []
  | sp, arg :: argv => pushDown sp (arg.length + 1) :: pointers (pushDown sp (arg.length + 1)) argv

def lowest : Nat → List (List UInt8) → Nat
  | sp, [] => sp
  | sp, arg :: argv => lowest (pushDown sp (arg.length + 1)) argv

def Found (c : Nat → Page) (a : Nat) (bs : List UInt8) : Prop := ∀ i < bs.length, byteOf c (a + i) = bs.getD i 0

-- Each of the strings is found at its pointer, with a NUL behind it.
def Strings (c : Nat → Page) : Nat → List (List UInt8) → Prop
  | _, [] => True
  | sp, arg :: argv =>
    Found c (pushDown sp (arg.length + 1)) (arg ++ [0]) ∧ Strings c (pushDown sp (arg.length + 1)) argv

variable {c c' : Nat → Page} {sp n : Nat}

theorem pushDown_le (h : n ≤ sp) : pushDown sp n + n ≤ sp := by
  unfold pushDown
  omega

theorem pushDown_aligned (sp n : Nat) : pushDown sp n % 16 = 0 := by
  unfold pushDown
  omega

theorem length_pointers (sp : Nat) (argv : List (List UInt8)) : (pointers sp argv).length = argv.length := by
  induction argv generalizing sp with
  | nil => rfl
  | cons arg argv ih => rw [pointers, length_cons, length_cons, ih]

theorem lowest_le (sp : Nat) (argv : List (List UInt8)) : lowest sp argv ≤ sp := by
  induction argv generalizing sp with
  | nil => exact le_rfl
  | cons arg argv ih =>
    refine (ih _).trans ?_
    unfold pushDown
    omega

theorem Found.keep {a : Nat} {bs : List UInt8} (h : Found c a bs) (hk : ∀ x, a ≤ x → byteOf c' x = byteOf c x) :
    Found c' a bs := fun i hi => by rw [hk _ (by omega), h i hi]

theorem Strings.keep (h : Strings c sp argv) (hk : ∀ x, lowest sp argv ≤ x → byteOf c' x = byteOf c x) :
    Strings c' sp argv := by
  induction argv generalizing sp with
  | nil => trivial
  | cons arg argv ih => exact ⟨h.1.keep fun x hx => hk x ((lowest_le (pushDown sp (arg.length + 1)) argv).trans hx), ih h.2 hk⟩

end Layout

section Stack

variable {F O I : Assn Nat Page} {m : Nat → Nat} {n base : Nat}

-- What pushArgs leaves: the strings below `sp`, or less, and nothing below `base`.
structure Pushed (base sp : Nat) (argv : List (List UInt8)) (ustack : List Nat) (c c' : Nat → Page)
    (r : Option (Nat × List Nat)) : Prop where
  below : ∀ a < base, byteOf c' a = byteOf c a
  above : ∀ a, sp ≤ a → byteOf c' a = byteOf c a
  result : ∀ sp' us, r = some (sp', us) → sp' = lowest sp argv ∧ us = ustack ++ pointers sp argv ∧
    base ≤ lowest sp argv ∧ Strings c' sp argv

variable {sp sz : Nat} {ustack : List Nat}

theorem pushed_none : Pushed base sp argv ustack c c none :=
  ⟨fun _ _ => rfl, fun _ _ => rfl, fun _ _ h => by cases h⟩

theorem Pushed.cons {arg : List UInt8} {c' c'' : Nat → Page}
    {r : Option (Nat × List Nat)} (hsp : arg.length + 1 ≤ sp) (hbase : base ≤ pushDown sp (arg.length + 1))
    (hw : Wrote c c' (pushDown sp (arg.length + 1)) (arg ++ [0]))
    (h : Pushed base (pushDown sp (arg.length + 1)) argv (ustack ++ [pushDown sp (arg.length + 1)]) c' c'' r) :
    Pushed base sp (arg :: argv) ustack c c'' r where
  below a ha := by rw [h.below a ha, hw.outside a (by omega)]
  above a ha := by
    have hle := pushDown_le hsp
    have hout := hw.outside a (by rw [length_append, length_singleton]; omega)
    rw [h.above a (by omega), hout]
  result sp' us hr := by
    obtain ⟨hsp', hus, hle, hstr⟩ := h.result sp' us hr
    refine ⟨hsp', ?_, hle, ?_, hstr⟩
    · rw [hus, pointers, append_assoc, singleton_append]
    · exact Found.keep hw.inside fun x hx => h.above x hx

theorem pushArgs_own (hk : ∀ v, n ≤ v → m v &&& PTE_U = 0) (hbase : PGSIZE ≤ base) (argv : List (List UInt8))
    (hargs : ∀ arg ∈ argv, arg.length < PGSIZE) (sp : Nat) (hsp : base ≤ sp ∧ sp < 2 ^ 64) (ustack : List Nat) :
    Does L p (Has (Image L root m c n * F) me kid ends) (pushArgs root base argv sp ustack) fun r =>
      ⋃ (c' : Nat → Page) (_ : Pushed base sp argv ustack c c' r), Has (Image L root m c' n * F) me kid ends := by
  induction argv generalizing sp ustack c with
  | nil =>
    refine Hoare.ret fun o ho => mem_iUnion₂.mpr ⟨c, ⟨fun _ _ => rfl, fun _ _ => rfl, fun sp' us h => ?_⟩, ho⟩
    cases h
    exact ⟨rfl, (append_nil _).symm, hsp.1, trivial⟩
  | cons arg argv ih =>
    have hnone : ∀ c', Pushed base sp (arg :: argv) ustack c c' none → Has (Image L root m c' n * F) me kid ends ⊆
        ⋃ (c' : Nat → Page) (_ : Pushed base sp (arg :: argv) ustack c c' none), Has (Image L root m c' n * F) me kid ends :=
      fun c' h o ho => mem_iUnion₂.mpr ⟨c', h, ho⟩
    have hlen := hargs arg mem_cons_self
    have hsub : sub64 sp (arg.length + 1) = sp - (arg.length + 1) := sub64_eq (by omega) hsp.2
    rw [pushArgs, hsub]
    refine Hoare.ite (fun _ => Hoare.ret (hnone c pushed_none)) fun _ =>
      Hoare.ite (fun _ => Hoare.ret (hnone c pushed_none)) fun hge => ?_
    refine mem_seq F (copyout_spec hk root _ _ c) subset_rfl fun ok => ?_
    rw [iUnion₂_mul]
    refine has_ex fun c' => has_ex fun (hc' : Copied ok c c' (pushDown sp (arg.length + 1)) (arg ++ [0])) => ?_
    have hdown := pushDown_le (show arg.length + 1 ≤ sp by omega)
    have hge : base ≤ pushDown sp (arg.length + 1) := Nat.le_of_not_lt hge
    refine Hoare.ite (fun hok => ?_) fun _ => Hoare.ret (hnone c' ⟨fun a ha => ?_, fun a ha => ?_, fun _ _ h => by cases h⟩)
    · rw [hok] at hc'
      have hrest := ih (c := c') (fun a ha => hargs a (mem_cons_of_mem arg ha)) (pushDown sp (arg.length + 1))
        ⟨hge, by omega⟩ (ustack ++ [pushDown sp (arg.length + 1)])
      refine hrest.post fun r => iUnion₂_subset fun c'' hc'' o ho => ?_
      exact mem_iUnion₂.mpr ⟨c'', hc''.cons (by omega) hge hc'.all, ho⟩
    · exact hc'.outside (by omega)
    · exact hc'.outside (by rw [length_append, length_singleton]; omega)

-- Where the stack pointer comes to rest, below the array of pointers.
def finalSp (sz : Nat) (argv : List (List UInt8)) : Nat := pushDown (lowest sz argv) ((argv.length + 1) * 8)

-- The stack that exec leaves, in a space of `sz` bytes with the entries `m` and the pages `c`.
structure Stacked (argv : List (List UInt8)) (sz : Nat) (m : Nat → Nat) (c : Nat → Page) (tf : Page) : Prop where
  pages : sz % PGSIZE = 0 ∧ (USERSTACK + 1) * PGSIZE ≤ sz
  regs : tf.word A1 = finalSp sz argv ∧ tf.word SP = finalSp sz argv
  base : sz - USERSTACK * PGSIZE ≤ finalSp sz argv
  strings : Strings c sz argv
  array : Found c (finalSp sz argv) ((pointers sz argv ++ [0]).flatMap (bytesOf 8))
  guard : m (sz / PGSIZE - (USERSTACK + 1)) &&& PTE_U = 0
  user : ∀ v, sz / PGSIZE - USERSTACK ≤ v → v < sz / PGSIZE → m v &&& PTE_U ≠ 0

-- What exec leaves: all as it was and -1, or the new address space.
def execed (L : Layout) (me : ProcMem) (argv : List (List UInt8)) (pg : Page) (O F : Assn Nat Page)
    (kid : Option (Pid × ProcMem)) (ends : List (Nat × Bool)) (r : Int) : Set (Option Own) :=
  (⋃ _ : r = -1, Has (page L me.trapframe pg * (O * F)) me kid ends) ∪
  ⋃ (pg' : Page) (root : Nat) (sz : Nat) (name : List UInt8) (m : Nat → Nat) (c : Nat → Page)
    (_ : r = argv.length ∧ Fits (upper L me.trapframe) m (pages sz) ∧ Stacked argv sz m c pg'),
    Has (page L me.trapframe pg' * (Image L root m c (pages sz) * F)) ⟨root, sz, me.trapframe, name, me.xstate⟩ kid ends

-- The process's own memory, while a second address space is built.
def aside (L : Layout) (me : ProcMem) (pg : Page) (O F : Assn Nat Page) : Assn Nat Page :=
  page L me.trapframe pg * (O * F)

theorem failed_own : Does L p (Has (aside L me pg O F) me kid ends) (pure (-1) : SysM Int)
    (execed L me argv pg O F kid ends) :=
  Hoare.ret fun _ ho => .inl (mem_iUnion.mpr ⟨rfl, ho⟩)

theorem execBad_own {x : SysM Int}
    (hx : Does L p (Has (aside L me pg O F) me kid ends) x (execed L me argv pg O F kid ends)) :
    Does L p (Has (Space L root (upper L me.trapframe) (pages sz) * aside L me pg O F) me kid ends)
      (ofMem (procFreepagetable root sz) >>= fun _ => x) (execed L me argv pg O F kid ends) :=
  mem_seq _ (procFreepagetable_spec root _ sz) subset_rfl fun _ => by
    rw [one_mul]
    exact hx

theorem commit_own (hO : O ⊆ space L me) (sz sp entry : Nat) (path : List UInt8) :
    Does L p (Has (I * aside L me pg O F) me kid ends) (commit p root sz sp entry path) fun _ =>
      Has (page L me.trapframe (((pg.setWord A1 sp).setWord EPC entry).setWord SP sp) * (I * F))
        ⟨root, sz, me.trapframe, nameOf (lastName path), me.xstate⟩ kid ends := by
  refine procOf_seq ?_
  unfold aside
  rw [mul_left_comm]
  refine mem_seq _ (setPage_spec me.trapframe pg _) subset_rfl fun _ => ?_
  refine (setProc_own _).bind fun _ => (setProc_own _).bind fun _ => ?_
  refine mem_seq _ (setPage_spec me.trapframe _ _) subset_rfl fun _ => ?_
  generalize (((pg.setWord A1 sp).setWord EPC entry).setWord SP sp) = pg'
  have hfree : Spec L (space L me) (procFreepagetable me.pagetable me.sz) fun _ => 1 :=
    procFreepagetable_spec me.pagetable me.trapframe me.sz
  have hshape : page L me.trapframe pg' * (I * (O * F)) = O * (page L me.trapframe pg' * (I * F)) := by ac_rfl
  rw [hshape]
  refine ((ofMem_own hfree _).pre (has_mono (mul_subset_mul_right hO))).post fun _ o ho => ?_
  rwa [one_mul] at ho

theorem commit_regs (hsp : sp < 2 ^ 64) (entry : Nat) :
    (((pg.setWord A1 sp).setWord EPC entry).setWord SP sp).word A1 = sp ∧
      (((pg.setWord A1 sp).setWord EPC entry).setWord SP sp).word SP = sp := by
  constructor
  · rw [Page.word_setWord_of_ne _ _ (by decide), Page.word_setWord_of_ne _ _ (by decide),
      Page.word_setWord_self _ (by decide) hsp]
  · exact Page.word_setWord_self _ (by decide) hsp

theorem length_bytesOf (n w : Nat) : (bytesOf n w).length = n := by
  induction n generalizing w with
  | zero => rfl
  | succ n ih => rw [bytesOf, length_cons, ih]

theorem length_words (ws : List Nat) : (ws.flatMap (bytesOf 8)).length = ws.length * 8 := by
  induction ws with
  | nil => rfl
  | cons w ws ih => rw [flatMap_cons, length_append, length_bytesOf, ih, length_cons, Nat.succ_mul, Nat.add_comm]

structure Ready (argv : List (List UInt8)) (sz : Nat) (m : Nat → Nat) (c : Nat → Page) : Prop where
  pages : sz % PGSIZE = 0 ∧ (USERSTACK + 1) * PGSIZE ≤ sz ∧ sz < 2 ^ 64
  base : sz - USERSTACK * PGSIZE ≤ lowest sz argv
  strings : Strings c sz argv
  guard : m (sz / PGSIZE - (USERSTACK + 1)) &&& PTE_U = 0
  user : ∀ v, sz / PGSIZE - USERSTACK ≤ v → v < sz / PGSIZE → m v &&& PTE_U ≠ 0

theorem pushPointers_own (hO : O ⊆ space L me) (hlen : argv.length < MAXARG)
    (hfits : Fits (upper L me.trapframe) m (pages sz)) (hready : Ready argv sz m c) (hb : base = sz - USERSTACK * PGSIZE)
    (entry : Nat) (path : List UInt8) :
    Does L p (Has (Image L root m c (pages sz) * aside L me pg O F) me kid ends)
      (pushPointers p root sz base (lowest sz argv) entry (pointers sz argv) path) (execed L me argv pg O F kid ends) := by
  have hbad : ∀ c, Image L root m c (pages sz) * aside L me pg O F ⊆
      Space L root (upper L me.trapframe) (pages sz) * aside L me pg O F := fun c =>
    mul_subset_mul_right (image_space hfits)
  have hcount := length_pointers sz argv
  have hk : ∀ v, pages sz ≤ v → m v &&& PTE_U = 0 := fun v hv => by
    rw [hfits v hv]
    exact upper_no_user L _ v
  obtain ⟨hmul, hroom, hsmall⟩ := hready.pages
  have hbase := hready.base
  have hlow := lowest_le sz argv
  have hsub : sub64 (lowest sz argv) ((argv.length + 1) * 8) = lowest sz argv - (argv.length + 1) * 8 := by
    refine sub64_eq ?_ (by omega)
    unfold USERSTACK PGSIZE MAXARG at *
    omega
  unfold pushPointers
  rw [if_neg (by omega), hcount, hsub]
  dsimp only
  refine Hoare.ite (fun _ => (execBad_own failed_own).pre (has_mono (hbad c))) fun hge => ?_
  refine mem_seq _ (copyout_spec hk root _ _ c) subset_rfl fun ok => ?_
  rw [iUnion₂_mul]
  refine has_ex fun c' => has_ex fun (hc' : Copied ok c c' (finalSp sz argv) _) => ?_
  refine Hoare.ite (fun hok => ?_) fun _ => (execBad_own failed_own).pre (has_mono (hbad c'))
  rw [hok] at hc'
  have hdown : finalSp sz argv + (argv.length + 1) * 8 ≤ lowest sz argv := pushDown_le (by
    unfold USERSTACK PGSIZE MAXARG at *
    omega)
  have habove : ∀ x, lowest sz argv ≤ x → byteOf c' x = byteOf c x := fun x hx => hc'.all.outside x (.inr (by
    rw [length_words, length_append, hcount, length_singleton]
    omega))
  have hstacked : Stacked argv sz m c' (((pg.setWord A1 (finalSp sz argv)).setWord EPC entry).setWord SP (finalSp sz argv)) :=
    ⟨⟨hmul, hroom⟩, commit_regs (by omega) entry, by rw [← hb]; exact Nat.le_of_not_lt hge, hready.strings.keep habove,
      hc'.all.inside, hready.guard, hready.user⟩
  refine (commit_own hO sz _ entry path).bind fun _ => Hoare.ret fun o ho => .inr ?_
  refine mem_iUnion.mpr ⟨((pg.setWord A1 (finalSp sz argv)).setWord EPC entry).setWord SP (finalSp sz argv),
    mem_iUnion₂.mpr ⟨root, sz, mem_iUnion₂.mpr ⟨nameOf (lastName path), m, ?_⟩⟩⟩
  exact mem_iUnion₂.mpr ⟨c', ⟨rfl, hfits, hstacked⟩, ho⟩

theorem execStack_own (hO : O ⊆ space L me) (sz entry : Nat) (path : List UInt8) (hlen : argv.length < MAXARG)
    (hargs : ∀ arg ∈ argv, arg.length < PGSIZE) :
    Does L p (Has (Loaded L root (upper L me.trapframe) (pages sz) * aside L me pg O F) me kid ends)
      (execStack p root sz entry path argv) (execed L me argv pg O F kid ends) := by
  have hk := upper_low L me.trapframe
  have hcount : ∀ h ∈ Loaded L root (upper L me.trapframe) (pages sz) * aside L me pg O F, Valid h →
      pages sz < TRAPFRAME / PGSIZE := by
    rintro _ ⟨h, hh, _, _, rfl⟩ hv
    obtain ⟨m, hh⟩ := mem_iUnion.mp hh
    obtain ⟨c, -, hh⟩ := mem_iUnion₂.mp hh
    exact image_count hh hv.left
  refine has_know hcount fun hcount => ?_
  have hmax := low_max
  have hround : PGROUNDUP sz = pages sz * PGSIZE := PGROUNDUP_pages (by omega)
  have hpages : pages (pages sz * PGSIZE) = pages sz := pages_mul _
  have htop : (pages sz * PGSIZE + (USERSTACK + 1) * PGSIZE) % 2 ^ 64 = (pages sz + (USERSTACK + 1)) * PGSIZE := by
    rw [← Nat.add_mul]
    refine Nat.mod_eq_of_lt ?_
    unfold USERSTACK PGSIZE MAXVA at *
    omega
  unfold execStack
  dsimp only
  rw [hround, htop]
  refine mem_seq (aside L me pg O F) (uvmalloc_loaded (pages sz * PGSIZE) _ PTE_W hk (by decide)) ?_ fun sz1 => ?_
  · rw [hpages]
  rw [iUnion_mul]
  refine has_ex fun hsz1 => Hoare.ite (fun hz => ?_) fun hz => ?_
  · rw [if_pos hz]
    exact (execBad_own failed_own).pre (has_mono (mul_subset_mul_right loaded_space))
  rw [if_neg hz]
  have hsz1 : sz1 = (pages sz + (USERSTACK + 1)) * PGSIZE := by
    rw [hsz1 hz]
    refine Nat.max_eq_right (Nat.mul_le_mul_right _ ?_)
    omega
  have hsmall : sz1 < 2 ^ 64 := by
    rw [hsz1]
    unfold USERSTACK PGSIZE MAXVA at *
    omega
  have hguard : sub64 sz1 ((USERSTACK + 1) * PGSIZE) = pages sz * PGSIZE := by
    rw [sub64_eq _ hsmall, hsz1, Nat.add_mul, Nat.add_sub_cancel]
    rw [hsz1]
    exact Nat.mul_le_mul_right _ (by omega)
  have hroom : (USERSTACK + 1) * PGSIZE ≤ sz1 := by
    rw [hsz1]
    exact Nat.mul_le_mul_right _ (by omega)
  have hbase : sub64 sz1 (USERSTACK * PGSIZE) = sz1 - USERSTACK * PGSIZE :=
    sub64_eq (by unfold USERSTACK PGSIZE at *; omega) hsmall
  have hlt : pages sz < pages sz1 := by
    rw [hsz1, pages_mul]
    omega
  rw [hguard, hbase]
  unfold Loaded
  rw [iUnion_mul]
  refine has_ex fun m => ?_
  rw [iUnion₂_mul]
  refine has_ex fun c => has_ex fun ⟨hfits, hu⟩ => ?_
  refine mem_seq _ (uvmclear_image hlt) subset_rfl fun _ => ?_
  have hfits' : Fits (upper L me.trapframe) (cleared m (pages sz)) (pages sz1) := cleared_fits hlt hfits
  have hk' : ∀ v, pages sz1 ≤ v → cleared m (pages sz) v &&& PTE_U = 0 := fun v hv => by
    rw [hfits' v hv]
    exact upper_no_user L _ v
  refine (pushArgs_own hk' ?_ argv hargs sz1 ?_ []).bind fun r => Hoare.ex fun c' => Hoare.ex fun hpushed => ?_
  · unfold USERSTACK PGSIZE at *
    omega
  · exact ⟨Nat.sub_le _ _, hsmall⟩
  match r, hpushed with
  | none, _ => exact (execBad_own failed_own).pre (has_mono (mul_subset_mul_right (image_space hfits')))
  | some (sp, ustack), hpushed =>
    obtain ⟨rfl, rfl, hle, hstr⟩ := hpushed.result sp ustack rfl
    rw [nil_append]
    refine pushPointers_own hO hlen hfits' ⟨⟨?_, hroom, hsmall⟩, hle, hstr, ?_, fun v h1 h2 => ?_⟩ rfl entry path
    · rw [hsz1]
      exact Nat.mul_mod_left _ _
    · rw [hsz1, Nat.mul_div_cancel _ (by decide), Nat.add_sub_cancel]
      exact cleared_user m (pages sz)
    · rw [hsz1, Nat.mul_div_cancel _ (by decide)] at h1 h2
      rw [cleared_other (by omega)]
      refine hu v ?_
      rw [hsz1, pages_mul]
      exact h2

end Stack

section Exec

variable {F O : Assn Nat Page} (sb : Superblock)

theorem unlockBad_own (slot : Slot) : Does L p (Has (aside L me pg O F) me kid ends) (unlockBad sb p slot)
    (execed L me argv pg O F kid ends) :=
  fs_seq (iunlockput_plain sb p slot) fun _ => fs_seq endOp_plain fun _ => failed_own

theorem execLoad_own (hO : O ⊆ space L me) (slot : Slot) (path : List UInt8) (hlen : argv.length < MAXARG)
    (hargs : ∀ arg ∈ argv, arg.length < PGSIZE) :
    Does L p (Has (aside L me pg O F) me kid ends) (execLoad L sb p slot path argv)
      (execed L me argv pg O F kid ends) := by
  refine fs_seq (quiet_plain (Fs.readi_quiet sb slot _ _ _)) fun r => ?_
  dsimp only
  generalize Fs.number r.2 0 4 = magic, Fs.number r.2 56 2 = phnum, Fs.number r.2 32 8 = phoff,
    Fs.number r.2 24 8 = entry
  refine Hoare.ite (fun _ => unlockBad_own sb slot) fun _ => Hoare.ite (fun _ => unlockBad_own sb slot) fun _ => ?_
  refine procOf_seq (has_know (know_left fun _ hh => page_frame hh) fun htf => ?_)
  refine mem_seq (aside L me pg O F) (procPagetable_spec (L.frame_lt htf)) (one_mul _).ge fun r => ?_
  match r with
  | none =>
    rw [one_mul]
    exact unlockBad_own sb slot
  | some root =>
    refine Hoare.pre ?_ (has_mono (mul_subset_mul_right table_loaded))
    refine (loadSegments_own sb (upper_low L me.trapframe) slot phnum _ 0).bind fun r => ?_
    refine Hoare.ite (fun _ => ?_) fun _ => ?_
    · exact fs_seq (iunlockput_plain sb p slot) fun _ => fs_seq endOp_plain fun _ =>
        execStack_own hO r.2 entry path hlen hargs
    · exact (execBad_own (unlockBad_own sb slot)).pre (has_mono (mul_subset_mul_right loaded_space))

-- `O` is the process's address space, which a failed exec leaves as it is.
theorem exec_own (hO : O ⊆ space L me) (path : List UInt8) (hlen : argv.length < MAXARG)
    (hargs : ∀ arg ∈ argv, arg.length < PGSIZE) :
    Does L p (Has (aside L me pg O F) me kid ends) (exec L sb p path argv) (execed L me argv pg O F kid ends) := by
  refine fs_seq (all_lift trivial) fun _ => fs_seq (namei_plain sb p path) fun r => ?_
  match r with
  | none => exact fs_seq endOp_plain fun _ => failed_own
  | some slot => exact fs_seq (ilock_plain sb p slot) fun _ => execLoad_own sb hO slot path hlen hargs

end Exec

end Sys
