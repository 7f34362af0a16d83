import Xv6.Sys.Exec
import Xv6.Sys.Growproc
import Xv6.Vm.User

-- The stack that a program finds when exec has started it.

namespace Sys

open Vm Sep Prog List Function
open scoped Pointwise

variable {L : Layout}

section Solo

-- The steps that concern the file system and the process `p` alone.
def solo (p : Pid) : SysAct → Prop
  | .fs a => plain a
  | .mem _ => True
  | .proc q => q = p
  | .setProc q _ => q = p
  | .lockZombie _ _ => False
  | .pipeclose _ _ => False

variable {p : Pid} {α : Type}

theorem ofFs_solo {m : Kernel α} (h : Plain m) : (ofFs m).All (solo p) := by
  induction m with
  | ret a => trivial
  | fail e => trivial
  | act a k ih => exact ⟨h.1, fun r => ih r (h.2 r)⟩

theorem ofMem_solo (m : Phys α) : (ofMem m).All (solo p) := by
  induction m with
  | ret a => trivial
  | fail e => trivial
  | act a k ih => exact ⟨trivial, fun r => ih r⟩

variable (sb : Superblock)

theorem loadseg_solo (pagetable va : Nat) (k : Slot) (offset sz : UInt32) (left : Nat) (i : UInt32) :
    (loadseg sb pagetable va k offset sz left i).All (solo p) := by
  induction left generalizing i with
  | zero => trivial
  | succ left ih =>
    refine all_bind (ofMem_solo _) fun pa => all_ite trivial ?_
    refine all_bind (ofFs_solo (quiet_plain (Fs.readi_quiet sb k _ _ _))) fun r => ?_
    exact all_bind (ofMem_solo _) fun _ => all_ite trivial (ih _)

theorem loadSegments_solo (pagetable : Nat) (k : Slot) (n : Nat) (off : UInt32) (sz : Nat) :
    (loadSegments sb pagetable k n off sz).All (solo p) := by
  induction n generalizing off sz with
  | zero => trivial
  | succ n ih =>
    rw [loadSegments]
    refine all_bind (ofFs_solo (quiet_plain (Fs.readi_quiet sb k _ _ _))) fun r => ?_
    dsimp only
    generalize Fs.number r.2 0 4 = type, Fs.number r.2 40 8 = memsz, Fs.number r.2 32 8 = filesz,
      Fs.number r.2 16 8 = vaddr, Fs.number r.2 8 8 = offset, Fs.number r.2 4 4 = flags
    refine all_ite trivial (all_ite (ih _ _) (all_ite trivial (all_ite trivial (all_ite trivial ?_))))
    refine all_bind (ofMem_solo _) fun sz1 => all_ite trivial ?_
    exact all_bind (loadseg_solo sb _ _ _ _ _ _ _) fun ok => all_ite (ih _ _) trivial

theorem pushArgs_solo (pagetable base : Nat) (argv : List (List UInt8)) (sp : Nat)
    (ustack : List Nat) : (pushArgs pagetable base argv sp ustack).All (solo p) := by
  induction argv generalizing sp ustack with
  | nil => trivial
  | cons arg argv ih => exact all_ite trivial (all_ite trivial (all_bind (ofMem_solo _) fun ok => all_ite (ih _ _) trivial))

theorem commit_solo (pagetable sz sp entry : Nat) (path : List UInt8) :
    (commit p pagetable sz sp entry path).All (solo p) := by
  refine all_bind (all_lift rfl) fun pr => all_bind (ofMem_solo _) fun _ => ?_
  refine all_bind (all_lift rfl) fun _ => all_bind (all_lift rfl) fun _ => ?_
  exact all_bind (ofMem_solo _) fun _ => ofMem_solo _

theorem pushPointers_solo (pagetable sz base sp entry : Nat) (ustack : List Nat) (path : List UInt8) :
    (pushPointers p pagetable sz base sp entry ustack path).All (solo p) := by
  have hbad : (do ofMem (procFreepagetable pagetable sz); pure (-1) : SysM Int).All (solo p) :=
    all_bind (ofMem_solo _) fun _ => trivial
  refine all_ite trivial (all_ite hbad (all_bind (ofMem_solo _) fun ok => all_ite ?_ hbad))
  exact all_bind (commit_solo _ _ _ _ _) fun _ => trivial

theorem execStack_solo (pagetable sz entry : Nat) (path : List UInt8) (argv : List (List UInt8)) :
    (execStack p pagetable sz entry path argv).All (solo p) := by
  refine all_bind (ofMem_solo _) fun sz1 => all_ite (all_bind (ofMem_solo _) fun _ => trivial) ?_
  refine all_bind (ofMem_solo _) fun _ => all_bind (pushArgs_solo _ _ _ _ _) fun r => ?_
  match r with
  | none => exact all_bind (ofMem_solo _) fun _ => trivial
  | some (sp, ustack) => exact pushPointers_solo _ _ _ _ _ _ _

theorem unlockBad_solo (k : Slot) : (unlockBad sb p k).All (solo p) :=
  all_bind (ofFs_solo (iunlockput_plain sb p k)) fun _ => all_bind (ofFs_solo endOp_plain) fun _ => trivial

theorem execLoad_solo (k : Slot) (path : List UInt8) (argv : List (List UInt8)) :
    (execLoad L sb p k path argv).All (solo p) := by
  refine all_bind (ofFs_solo (quiet_plain (Fs.readi_quiet sb k _ _ _))) fun r => ?_
  refine all_ite (unlockBad_solo sb k) (all_ite (unlockBad_solo sb k) (all_bind (all_lift rfl) fun pr => ?_))
  refine all_bind (ofMem_solo _) fun r => ?_
  match r with
  | none => exact unlockBad_solo sb k
  | some pagetable =>
    refine all_bind (loadSegments_solo sb _ _ _ _ _) fun r => all_ite ?_ ?_
    · exact all_bind (ofFs_solo (iunlockput_plain sb p k)) fun _ => all_bind (ofFs_solo endOp_plain) fun _ =>
        execStack_solo _ _ _ _ _
    · exact all_bind (ofMem_solo _) fun _ => unlockBad_solo sb k

theorem exec_solo (path : List UInt8) (argv : List (List UInt8)) :
    (exec L sb p path argv).All (solo p) := by
  refine all_bind (ofFs_solo (all_lift trivial)) fun _ => all_bind (ofFs_solo (namei_plain sb p path)) fun r => ?_
  match r with
  | none => exact all_bind (ofFs_solo endOp_plain) fun _ => trivial
  | some k => exact all_bind (ofFs_solo (ilock_plain sb p k)) fun _ => execLoad_solo sb k path argv

def Runs (L : Layout) (p : Pid) (f : Heap Nat Page) (t : Option Own) (s : Sys) : Prop :=
  ∃ o, t = some o ∧ o.kid = none ∧ Holds L s.mem (o.heap * f) ∧ s.proc p = o.me

theorem solo_sound (L : Layout) (p : Pid) (f : Heap Nat Page) :
    Sound (guarded (OwnRule L p) fun a _ => solo p a) (sysStep L) benign (Runs L p f) := by
  rintro a t s P ⟨hrule, hsolo⟩ ⟨o, rfl, hkid, H, hme⟩
  cases hrule with
  | @plain a o ha =>
    unfold sysStep
    dsimp only
    cases kernelStep a s.fs with
    | done r w => exact ⟨_, rfl, o, rfl, hkid, H, hme⟩
    | fail e w => trivial
    | wait => trivial
  | @mem a o P' hm =>
    have hsat := mem_sound hm H
    unfold sysStep
    dsimp only
    cases hstep : memStep L a s.mem with
    | done r mem =>
      rw [hstep] at hsat
      obtain ⟨h', hP, H'⟩ := hsat
      exact ⟨_, ⟨h', hP, rfl⟩, { o with heap := h' }, rfl, hkid, H', hme⟩
    | fail e mem =>
      rw [hstep] at hsat
      exact hsat
    | wait => trivial
  | proc => exact ⟨_, ⟨hme, rfl⟩, o, rfl, hkid, H, hme⟩
  | setProc _ g =>
    refine ⟨_, rfl, { o with me := g o.me }, rfl, hkid, H, ?_⟩
    have hset : update s.proc p (g (s.proc p)) p = g o.me := by rw [update_self, hme]
    exact hset
  | kidProc hk | setKid hk =>
    rw [hkid] at hk
    cases hk
  | _ => exact hsolo.elim

end Solo

section Layout

variable {sp : Nat} {argv : List (List UInt8)}

-- The start and the length of what exec pushes: the array of pointers at `sp`, and the strings.
def items (sp : Nat) (ptrs : List Nat) (argv : List (List UInt8)) : List (Nat × Nat) :=
  (sp, (argv.length + 1) * 8) :: List.zipWith (fun q arg => (q, arg.length + 1)) ptrs argv

def Apart (x y : Nat × Nat) : Prop := x.1 + x.2 ≤ y.1 ∨ y.1 + y.2 ≤ x.1

theorem strings_between (hargs : ∀ arg ∈ argv, arg.length < PGSIZE) (hlow : PGSIZE ≤ lowest sp argv) :
    (∀ x ∈ List.zipWith (fun q arg => (q, arg.length + 1)) (pointers sp argv) argv, lowest sp argv ≤ x.1 ∧ x.1 + x.2 ≤ sp) ∧
      (List.zipWith (fun q arg => (q, arg.length + 1)) (pointers sp argv) argv).Pairwise Apart := by
  induction argv generalizing sp with
  | nil => exact ⟨fun x hx => absurd hx (by simp [pointers]), List.Pairwise.nil⟩
  | cons arg argv ih =>
    have hlen := hargs arg mem_cons_self
    obtain ⟨hin, hpair⟩ := @ih (pushDown sp (arg.length + 1)) (fun a ha => hargs a (mem_cons_of_mem arg ha)) hlow
    have hle : lowest (pushDown sp (arg.length + 1)) argv ≤ pushDown sp (arg.length + 1) := lowest_le _ _
    have hlow' : PGSIZE ≤ lowest (pushDown sp (arg.length + 1)) argv := hlow
    have hdown : pushDown sp (arg.length + 1) + (arg.length + 1) ≤ sp := pushDown_le (by
      have hsp : pushDown sp (arg.length + 1) ≤ sp := by
        unfold pushDown
        omega
      omega)
    rw [pointers, zipWith_cons_cons, lowest]
    refine ⟨fun x hx => ?_, pairwise_cons.mpr ⟨fun x hx => ?_, hpair⟩⟩
    · rcases mem_cons.mp hx with rfl | hx
      · exact ⟨hle, hdown⟩
      · have hx := hin x hx
        omega
    · exact .inr (hin x hx).2

theorem pointers_aligned (sp : Nat) (argv : List (List UInt8)) :
    ∀ q ∈ pointers sp argv, q % 16 = 0 := by
  induction argv generalizing sp with
  | nil => exact fun q hq => absurd hq (by simp [pointers])
  | cons arg argv ih =>
    intro q hq
    rcases mem_cons.mp hq with rfl | hq
    · exact pushDown_aligned _ _
    · exact ih _ q hq

theorem Strings.getD {c : Nat → Page} (h : Strings c sp argv) {i : Nat} (hi : i < argv.length) :
    Found c ((pointers sp argv).getD i 0) (argv.getD i [] ++ [0]) := by
  induction argv generalizing sp i with
  | nil => exact absurd hi (by simp)
  | cons arg argv ih =>
    cases i with
    | zero => exact h.1
    | succ i => exact ih h.2 (by simpa using hi)

theorem words_getD (ws : List Nat) {i j : Nat} (hi : i < ws.length) (hj : j < 8) :
    (ws.flatMap (bytesOf 8)).getD (8 * i + j) 0 = (bytesOf 8 (ws.getD i 0)).getD j 0 := by
  induction ws generalizing i with
  | nil => exact absurd hi (by simp)
  | cons w ws ih =>
    have hlen := length_bytesOf 8 w
    rw [flatMap_cons]
    cases i with
    | zero => rw [Nat.mul_zero, Nat.zero_add, getD_append _ _ _ _ (by omega), getD_cons_zero]
    | succ i =>
      rw [getD_append_right _ _ _ _ (by omega), hlen, show 8 * (i + 1) + j - 8 = 8 * i + j by omega,
        ih (by simpa using hi), getD_cons_succ]

end Layout

section Final

variable {mem : Mem} {root n : Nat} {m : Nat → Nat} {c : Nat → Page} {g f : Heap Nat Page}

-- The stack that the program finds: the pointers at a1, and what they point to.
structure ArgStack (mem : Mem) (pr : ProcMem) (argv : List (List UInt8)) (sp : Nat) (ptrs : List Nat) : Prop where
  regs : (mem.page pr.trapframe).word A1 = sp ∧ (mem.page pr.trapframe).word SP = sp
  aligned : sp % 16 = 0 ∧ ∀ q ∈ ptrs, q % 16 = 0
  count : ptrs.length = argv.length
  pointer : ∀ i < argv.length, userBytes mem.page pr.pagetable (sp + 8 * i) 8 = bytesOf 8 (ptrs.getD i 0)
  null : userBytes mem.page pr.pagetable (sp + 8 * argv.length) 8 = bytesOf 8 0
  string : ∀ i < argv.length,
    userBytes mem.page pr.pagetable (ptrs.getD i 0) ((argv.getD i []).length + 1) = argv.getD i [] ++ [0]
  inside : ∀ x ∈ items sp ptrs argv, pr.sz - USERSTACK * PGSIZE ≤ x.1 ∧ x.1 + x.2 ≤ pr.sz
  apart : (items sp ptrs argv).Pairwise Apart
  user : ∀ a, pr.sz - USERSTACK * PGSIZE ≤ a → a < pr.sz → Readable mem.page pr.pagetable a
  guard : ∀ a, pr.sz - (USERSTACK + 1) * PGSIZE ≤ a → a < pr.sz - USERSTACK * PGSIZE → ¬Readable mem.page pr.pagetable a

section

variable (H : Holds L mem (g * f)) (hg : g ∈ Image L root m c n)

include H hg

theorem image_pte {a : Nat} (ha : a / PGSIZE < n) :
    a < MAXVA ∧ pteAt mem.page 2 root a = m (a / PGSIZE) := by
  have hcount : n < TRAPFRAME / PGSIZE := image_count hg H.valid.left
  have hmax := low_max
  have hva : a < MAXVA := by
    unfold PGSIZE MAXVA at *
    omega
  exact ⟨hva, pteAt_image hg H.valid.left (H.agree.left H.valid) hva⟩

theorem image_userByte {a : Nat} (ha : a / PGSIZE < n) : userByte mem.page root a = byteOf c a := by
  obtain ⟨-, hpte⟩ := image_pte H hg ha
  obtain ⟨t, -, w, hw, rfl⟩ := hg
  replace H : Holds L mem (t * w * f) := H
  have hown := (user_single 0 n hw H.valid.left.right).2.2 _ (mem_range'_1.mpr ⟨Nat.zero_le (a / PGSIZE), by omega⟩)
  have hpage := ((H.agree.left H.valid).right H.valid.left) _ _ hown
  rw [userByte, frameOf, hpte, hpage, byteOf]

theorem image_userBytes {a : Nat} {bs : List UInt8} (hf : Found c a bs)
    (hend : a + bs.length ≤ n * PGSIZE) : userBytes mem.page root a bs.length = bs := by
  refine ext_getElem (length_userBytes _) fun i hi hi' => ?_
  have hpage : (a + i) / PGSIZE < n := by
    unfold PGSIZE at *
    omega
  rw [getElem_userBytes, image_userByte H hg hpage, hf i hi', getD_eq_getElem _ _ hi']

theorem image_readable {a : Nat} (ha : a / PGSIZE < n) :
    Readable mem.page root a ↔ m (a / PGSIZE) &&& PTE_U ≠ 0 := by
  obtain ⟨hva, hpte⟩ := image_pte H hg ha
  obtain ⟨t, -, w, hw, rfl⟩ := hg
  obtain ⟨-, fl, hleaf⟩ := user_leaf hw (Nat.zero_le (a / PGSIZE)) (by omega)
  rw [Readable, hpte]
  exact ⟨fun h => h.2.2, fun h => ⟨hva, hleaf.valid, h⟩⟩

end

theorem stacked_argStack {argv : List (List UInt8)} {pr : ProcMem}
    (hs : Stacked argv pr.sz m c (mem.page pr.trapframe)) (hlen : argv.length < MAXARG)
    (hargs : ∀ arg ∈ argv, arg.length < PGSIZE) (H : Holds L mem (g * f))
    (hg : g ∈ Image L pr.pagetable m c (pages pr.sz)) :
    ArgStack mem pr argv (finalSp pr.sz argv) (pointers pr.sz argv) := by
  obtain ⟨hmul, hroom⟩ := hs.pages
  have hpages : pages pr.sz = pr.sz / PGSIZE := by
    unfold pages PGSIZE at *
    omega
  have hsize : pages pr.sz * PGSIZE = pr.sz := by
    rw [hpages]
    exact Nat.div_mul_cancel (Nat.dvd_of_mod_eq_zero hmul)
  have hbase := hs.base
  have hstart : finalSp pr.sz argv ≤ lowest pr.sz argv := by
    unfold finalSp pushDown
    omega
  have hlow : PGSIZE ≤ lowest pr.sz argv := by
    unfold USERSTACK PGSIZE at *
    omega
  have hdown : finalSp pr.sz argv + (argv.length + 1) * 8 ≤ lowest pr.sz argv := pushDown_le (by
    unfold PGSIZE MAXARG at *
    omega)
  have htop := lowest_le pr.sz argv
  have hcount := length_pointers pr.sz argv
  obtain ⟨hin, hpair⟩ := strings_between hargs hlow
  have hword : ∀ i ≤ argv.length, userBytes mem.page pr.pagetable (finalSp pr.sz argv + 8 * i) 8 =
      bytesOf 8 ((pointers pr.sz argv ++ [0]).getD i 0) := by
    intro i hi
    have hlen := length_bytesOf 8 ((pointers pr.sz argv ++ [0]).getD i 0)
    have hfound : Found c (finalSp pr.sz argv + 8 * i) (bytesOf 8 ((pointers pr.sz argv ++ [0]).getD i 0)) := by
      intro j hj
      rw [hlen] at hj
      have hall : (pointers pr.sz argv ++ [0]).length = argv.length + 1 := by
        rw [length_append, hcount, length_singleton]
      have harray := hs.array (8 * i + j) (by rw [length_words, hall]; omega)
      rw [Nat.add_assoc, harray, words_getD _ (by omega) hj]
    have h := image_userBytes H hg hfound (by omega)
    rwa [hlen] at h
  constructor
  · exact hs.regs
  · exact ⟨pushDown_aligned _ _, pointers_aligned _ _⟩
  · exact hcount
  · intro i hi
    rw [hword i (by omega), getD_append _ _ _ _ (by omega)]
  · rw [hword _ le_rfl, getD_append_right _ _ _ _ (by omega), hcount, Nat.sub_self, getD_cons_zero]
  · intro i hi
    have hmem : ((pointers pr.sz argv).getD i 0, (argv.getD i []).length + 1) ∈
        List.zipWith (fun q arg => (q, arg.length + 1)) (pointers pr.sz argv) argv := by
      rw [getD_eq_getElem _ _ (by omega), getD_eq_getElem _ _ hi]
      exact mem_iff_getElem.mpr ⟨i, by rw [length_zipWith]; omega, getElem_zipWith ..⟩
    have hlen : (argv.getD i [] ++ [0]).length = (argv.getD i []).length + 1 := by
      rw [length_append, length_singleton]
    have h := image_userBytes H hg (hs.strings.getD hi) (by
      have hend := (hin _ hmem).2
      omega)
    rwa [hlen] at h
  · intro x hx
    rcases mem_cons.mp hx with rfl | hx
    · exact ⟨hbase, by dsimp only; omega⟩
    · have hx := hin x hx
      omega
  · refine pairwise_cons.mpr ⟨fun x hx => .inl ?_, hpair⟩
    have hx := hin x hx
    dsimp only
    omega
  · intro a h1 h2
    refine (image_readable H hg ?_).mpr (hs.user _ ?_ ?_)
    · rw [hpages]
      unfold PGSIZE at *
      omega
    · unfold USERSTACK PGSIZE at *
      omega
    · unfold PGSIZE at *
      omega
  · intro a h1 h2 hr
    have hpage : a / PGSIZE = pr.sz / PGSIZE - (USERSTACK + 1) := by
      unfold USERSTACK PGSIZE at *
      omega
    have huser := (image_readable H hg (by rw [hpages, hpage]; unfold USERSTACK PGSIZE at *; omega)).mp hr
    rw [hpage] at huser
    exact huser hs.guard

-- The bytes that no address from `base` on leads to have not changed.
def KeepsBelow (root base : Nat) (mem mem' : Mem) : Prop :=
  ∀ pa o, (∀ a, base ≤ a → ¬(frameOf mem.page root a = pa ∧ a % PGSIZE = o)) → (mem'.page pa).get o = (mem.page pa).get o

theorem run_copyout {s : Sys} (ht : UserTable s.mem.page root) {base sp : Nat} (hle : base ≤ sp) (bs : List UInt8) :
    ∃ ok mem', run (sysStep L) (ofMem (copyout root sp bs)) s = .done ok { s with mem := mem' } ∧
      SameTables s.mem.page root mem' ∧ KeepsBelow root base s.mem mem' := by
  obtain ⟨g, new, hreach, hstored, hcopy⟩ :=
    @within_copyoutFrom s.mem.page root sp bs L ht bs.length s.mem (fun _ _ => rfl) le_rfl
  have hlen : (bs.take g).length ≤ g := length_take_le ..
  have hcopied : run (memStep L) (copyout root sp bs) s.mem = .done (decide (g = bs.length)) { s.mem with page := new } :=
    hcopy.run
  exact ⟨_, _, run_ofMem hcopied, hstored.tables ht fun i hi => (hreach.all i (by omega)).1,
    fun pa o h => hstored.outside pa o fun i _ => h (sp + i) (by omega)⟩

theorem run_pushArgs {s : Sys} (ht : UserTable s.mem.page root) (base : Nat) (argv : List (List UInt8)) (sp : Nat)
    (ustack : List Nat) :
    ∃ r mem', run (sysStep L) (pushArgs root base argv sp ustack) s = .done r { s with mem := mem' } ∧
      KeepsBelow root base s.mem mem' := by
  induction argv generalizing s sp ustack with
  | nil => exact ⟨_, s.mem, rfl, fun _ _ _ => rfl⟩
  | cons arg argv ih =>
    rw [pushArgs]
    by_cases hmany : MAXARG ≤ ustack.length
    · rw [if_pos hmany]
      exact ⟨_, s.mem, rfl, fun _ _ _ => rfl⟩
    rw [if_neg hmany]
    dsimp only
    generalize sub64 sp (arg.length + 1) - sub64 sp (arg.length + 1) % 16 = sp'
    by_cases hlow : sp' < base
    · rw [if_pos hlow]
      exact ⟨_, s.mem, rfl, fun _ _ _ => rfl⟩
    rw [if_neg hlow]
    obtain ⟨ok, mem₁, hcopied, hkeep, hout⟩ := run_copyout (L := L) ht (Nat.not_lt.mp hlow) (arg ++ [0])
    rw [run_bind hcopied]
    cases ok with
    | true =>
      obtain ⟨r, mem', hrun, hrest⟩ := @ih { s with mem := mem₁ } (userTable_congr ht hkeep) sp' (ustack ++ [sp'])
      refine ⟨r, mem', hrun, fun pa o h => ?_⟩
      rw [hrest pa o (by dsimp only; rwa [frameOf_congr hkeep]), hout pa o h]
    | false => exact ⟨_, _, rfl, hout⟩

theorem run_pushPointers {s : Sys} (ht : UserTable s.mem.page root) (p : Pid) (sz base sp entry : Nat) {ustack : List Nat}
    (hlen : ustack.length < MAXARG) (path : List UInt8) :
    ∃ (ok : Bool) (sp' : Nat) (mem' : Mem), KeepsBelow root base s.mem mem' ∧
      run (sysStep L) (pushPointers p root sz base sp entry ustack path) s =
        run (sysStep L) (if ok then commit p root sz sp' entry path >>= fun _ => pure (ustack.length : Int)
          else ofMem (procFreepagetable root sz) >>= fun _ => pure (-1)) { s with mem := mem' } := by
  rw [pushPointers, if_neg (Nat.not_le.mpr hlen)]
  dsimp only
  generalize sub64 sp ((ustack.length + 1) * 8) - sub64 sp ((ustack.length + 1) * 8) % 16 = sp'
  by_cases hlow : sp' < base
  · rw [if_pos hlow]
    exact ⟨false, sp', s.mem, fun _ _ _ => rfl, rfl⟩
  rw [if_neg hlow]
  obtain ⟨ok, mem', hcopied, -, hout⟩ := run_copyout (L := L) ht (Nat.not_lt.mp hlow) ((ustack ++ [0]).flatMap (bytesOf 8))
  exact ⟨ok, sp', mem', hout, run_bind hcopied⟩

end Final

section Runs

variable {sb : Superblock} {s s' : Sys} {p : Pid} {path : List UInt8} {argv : List (List UInt8)} {r : Int}
  (hmem : HasMemory L s.mem (s.proc p)) (hlen : argv.length < MAXARG) (hargs : ∀ arg ∈ argv, arg.length < PGSIZE)

include hmem hlen hargs

theorem exec_wp : wp (sysStep L) (exec L sb p path argv) (fun e _ => benign e) (fun r s' =>
    r = -1 ∨ r = argv.length ∧ ∃ sp ptrs, ArgStack s'.mem (s'.proc p) argv sp ptrs) s := by
  obtain ⟨h, f, hh, H⟩ := hmem
  obtain ⟨pg, hh⟩ := Set.mem_iUnion.mp hh
  have hpre : some ⟨h, s.proc p, none, []⟩ ∈ Has (aside L (s.proc p) pg (space L (s.proc p)) 1) (s.proc p) none [] := by
    refine ⟨h, ?_, H.valid.left, rfl⟩
    unfold aside
    rw [mul_one]
    exact hh
  have hexec : Does L p (Has (aside L (s.proc p) pg (space L (s.proc p)) 1) (s.proc p) none []) (exec L sb p path argv)
      (execed L (s.proc p) argv pg (space L (s.proc p)) 1 none []) := exec_own sb subset_rfl path hlen hargs
  have hawp := hexec _ hpre
  have hwp := wp_of_awp (solo_sound L p f) (awp_guard hawp (all_mono (exec_solo sb path argv) fun a ha _ => ha))
    ⟨_, rfl, rfl, H, rfl⟩
  refine Outcome.Sat.mono hwp (fun _ _ he => he) ?_
  rintro r s' ⟨t, ht, o, rfl, -, H', hme⟩
  rcases ht with ht | ht
  · obtain ⟨hr, -⟩ := Set.mem_iUnion.mp ht
    exact .inl hr
  obtain ⟨pg', ht⟩ := Set.mem_iUnion.mp ht
  obtain ⟨root, sz, ht⟩ := Set.mem_iUnion₂.mp ht
  obtain ⟨name, m, ht⟩ := Set.mem_iUnion₂.mp ht
  obtain ⟨c, ⟨hr, -, hstacked⟩, _, ⟨x, hx, g, hg, rfl⟩, hv, ho⟩ := Set.mem_iUnion₂.mp ht
  obtain rfl := Option.some.inj ho
  rw [mul_one] at hg
  replace H' : Holds L s'.mem (x * g * f) := H'
  have htf : s'.mem.page (s.proc p).trapframe = pg' := by
    rw [mul_assoc] at H'
    refine H'.agree.left H'.valid _ _ ?_
    rw [(mem_page.mp hx).2]
    exact single_self _ _
  rw [mul_assoc, mul_left_comm] at H'
  rw [hme]
  refine .inr ⟨hr, _, _, stacked_argStack (m := m) (c := c) ?_ hlen hargs H' hg⟩
  dsimp only
  rwa [htf]

end Runs

-- exec has failed, or the arguments are on the new stack and it returns their number. Before it
-- commits or fails, what pushes the strings and the pointers to them writes nothing below the
-- base of the stack.
theorem exec_stack (L : Layout) (sb : Superblock) :
    (∀ (s s' : Sys) (p : Pid) (path : List UInt8) (argv : List (List UInt8)) (r : Int), HasMemory L s.mem (s.proc p) →
      argv.length < MAXARG → (∀ arg ∈ argv, arg.length < PGSIZE) →
      run (sysStep L) (exec L sb p path argv) s = .done r s' →
      r = -1 ∨ r = argv.length ∧ ∃ sp ptrs, ArgStack s'.mem (s'.proc p) argv sp ptrs) ∧
    ∀ (s : Sys) (root base sp : Nat) (ustack : List Nat), UserTable s.mem.page root →
      (∀ argv, ∃ r mem', run (sysStep L) (pushArgs root base argv sp ustack) s = .done r { s with mem := mem' } ∧
        KeepsBelow root base s.mem mem') ∧
      (ustack.length < MAXARG → ∀ p sz entry path, ∃ (ok : Bool) (sp' : Nat) (mem' : Mem),
        KeepsBelow root base s.mem mem' ∧ run (sysStep L) (pushPointers p root sz base sp entry ustack path) s =
          run (sysStep L) (if ok then commit p root sz sp' entry path >>= fun _ => pure (ustack.length : Int)
            else ofMem (procFreepagetable root sz) >>= fun _ => pure (-1)) { s with mem := mem' }) :=
  ⟨fun _ _ _ _ _ _ hmem hlen hargs hrun => (wp_done (exec_wp hmem hlen hargs) hrun :), fun _ _ base sp ustack ht =>
    ⟨fun argv => run_pushArgs ht base argv sp ustack, fun hlen p sz entry path =>
      run_pushPointers ht p sz base sp entry hlen path⟩⟩

-- A file system with the program "f", which has no segments.
def programDisk (b : Nat) : Block :=
  if b = Fs.tiny.IBLOCK 2 then Block.zero.setDinode (Fs.oneBlock T_FILE 1 64 42 Fs.S_IRUSR)
  else if b = 42 then Block.zero.write 0 [127, 69, 76, 70]
  else Fs.readOnlyDisk b

-- A process with one page of user memory.
def smallProcess : Sys :=
  match run (memStep smallLayout) (newSpace smallLayout 4096 4096) (smallMem [4096]) with
  | .done _ mem => ⟨Fs.boot Fs.tiny programDisk, mem, fun _ => ⟨8192, 4096, 4096, [], 0⟩⟩
  | _ => ⟨Fs.boot Fs.tiny programDisk, smallMem [], fun _ => .zero⟩

theorem smallProcess_memory :
    HasMemory smallLayout smallProcess.mem (smallProcess.proc initproc) := by
  obtain ⟨mem, hrun, hmem⟩ := small_process
  rw [smallProcess, hrun]
  exact hmem

variable {α β : Type}

-- The program that is left after `n` steps, and the state.
def rest (L : Layout) : Nat → SysM α → Sys → SysM α × Sys
  | n + 1, .act a k, s =>
    match sysStep L a s with
    | .done r s' => rest L n (k r) s'
    | _ => (.act a k, s)
  | _, m, s => (m, s)

theorem run_rest (n : Nat) (m : SysM α) (s : Sys) :
    run (sysStep L) (rest L n m s).1 (rest L n m s).2 = run (sysStep L) m s := by
  induction n generalizing m s with
  | zero => cases m <;> rfl
  | succ n ih =>
    cases m with
    | ret a | fail e => rfl
    | act a k =>
      rw [rest, run]
      cases h : sysStep L a s with
      | done r s' => exact ih (k r) s'
      | fail e s' | wait => rw [run, h]

theorem ofMem_done {m : Phys α} {f : α → SysM β} {Q : β → Sys → Prop} {s : Sys}
    (h : wp (sysStep L) (ofMem m >>= f) (fun e _ => benign e) Q s) :
    ∃ a mem, run (sysStep L) (ofMem m >>= f) s = run (sysStep L) (f a) { s with mem := mem } := by
  induction m generalizing s with
  | ret a => exact ⟨a, s.mem, rfl⟩
  | fail e => exact h.elim
  | act a k ih =>
    have hact : run (sysStep L) (Prog.lift (S := sysSig) (.mem a) : SysM _) s = sysStep L (.mem a) s := run_lift ..
    replace h := (wp_act (S := sysSig) (.mem a) (fun r => ofMem (k r) >>= f) Q s).mp h
    unfold sysStep at hact h
    cases hstep : memStep L a s.mem with
    | done r mem =>
      simp only [hstep] at hact h
      obtain ⟨b, mem', hrun⟩ := ih r h
      exact ⟨b, mem', (run_bind (f := fun r => ofMem (k r) >>= f) hact).trans hrun⟩
    | fail e mem =>
      simp only [hstep] at h
      exact h.elim
    | wait => exact absurd hstep (memStep_ne_wait L a s.mem)

-- After 93 steps only the old page table is left to be freed, which does not panic.
theorem exec_stack_program : ∃ s s' sp ptrs, HasMemory smallLayout s.mem (s.proc initproc) ∧
    run (sysStep smallLayout) (exec smallLayout Fs.tiny initproc [Fs.SLASH, 102] [[102], [97, 98]]) s = .done 2 s' ∧
    ArgStack s'.mem (s'.proc initproc) [[102], [97, 98]] sp ptrs := by
  have hwp := @exec_wp smallLayout Fs.tiny smallProcess initproc [Fs.SLASH, 102] [[102], [97, 98]] smallProcess_memory
    (by decide) (by decide)
  have hleft : (rest smallLayout 93 (exec smallLayout Fs.tiny initproc [Fs.SLASH, 102] [[102], [97, 98]]) smallProcess).1 =
      ofMem (procFreepagetable 8192 4096) >>= fun _ => pure 2 := by
    with_unfolding_all rfl
  rw [wp, ← run_rest 93, hleft] at hwp
  obtain ⟨-, mem, hexec⟩ := ofMem_done hwp
  rw [← hleft, run_rest] at hexec
  obtain hr | ⟨-, sp, ptrs, hstack⟩ := (exec_stack smallLayout Fs.tiny).1 _ _ _ _ _ 2 smallProcess_memory
    (by decide) (by decide) hexec
  · cases hr
  · exact ⟨_, _, sp, ptrs, smallProcess_memory, hexec, hstack⟩

end Sys
