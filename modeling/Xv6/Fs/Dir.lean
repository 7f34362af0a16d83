import Xv6.Fs.Inode

-- fs.c: directories and path names. A string ends where the list of its bytes does or at a zero.

namespace Fs

open Kernel List

abbrev Name := List UInt8

def strncmp (p q : List UInt8) : Nat → Int
  | 0 => 0
  | n + 1 =>
    if p.headD 0 ≠ 0 ∧ p.headD 0 = q.headD 0 then strncmp p.tail q.tail n
    else ((p.headD 0).toNat : Int) - (q.headD 0).toNat

def strncpy (t : List UInt8) : Nat → List UInt8
  | 0 => []
  | n + 1 => if t.headD 0 = 0 then List.replicate (n + 1) 0 else t.headD 0 :: strncpy t.tail n

def namecmp (s t : Name) : Int := strncmp s t DIRSIZ

-- What the comparisons see of a name: its first DIRSIZ bytes, up to a zero.
def key (name : Name) : Name := (name.take DIRSIZ).takeWhile (· ≠ 0)

theorem strncmp_eq_zero (p q : List UInt8) (n : Nat) :
    strncmp p q n = 0 ↔ (p.take n).takeWhile (· ≠ 0) = (q.take n).takeWhile (· ≠ 0) := by
  induction n generalizing p q with
  | zero => simp [strncmp]
  | succ n ih =>
    have hhead : ∀ l : List UInt8, l.headD 0 = 0 ↔ (l.take (n + 1)).takeWhile (· ≠ 0) = [] := by
      intro l
      cases l with
      | nil => simp
      | cons b l => by_cases hb : b = 0 <;> simp [hb]
    have hcons : ∀ l : List UInt8, l.headD 0 ≠ 0 → (l.take (n + 1)).takeWhile (· ≠ 0) =
        l.headD 0 :: (l.tail.take n).takeWhile (· ≠ 0) := by
      intro l hl
      cases l with
      | nil => exact absurd rfl hl
      | cons b l => exact takeWhile_cons_of_pos (by simpa using hl)
    rw [strncmp]
    by_cases hp : p.headD 0 = 0
    · rw [if_neg fun h => h.1 hp, (hhead p).mp hp, eq_comm (a := []), ← hhead, hp]
      change (0 : Int) - _ = 0 ↔ _
      rw [← UInt8.toNat_inj]
      change _ ↔ (q.headD 0).toNat = 0
      omega
    rw [hcons p hp]
    by_cases heq : p.headD 0 = q.headD 0
    · rw [if_pos ⟨hp, heq⟩, ih, hcons q (heq ▸ hp), heq, List.cons.injEq]
      exact (and_iff_right rfl).symm
    rw [if_neg fun h => heq h.2]
    have hne : (p.headD 0).toNat ≠ (q.headD 0).toNat := fun h => heq (UInt8.toNat_inj.mp h)
    constructor
    · intro h
      omega
    · intro h
      by_cases hq : q.headD 0 = 0
      · rw [(hhead q).mp hq] at h
        cases h
      · rw [hcons q hq, List.cons.injEq] at h
        exact absurd h.1 heq

theorem namecmp_eq_zero (s t : Name) : namecmp s t = 0 ↔ key s = key t := strncmp_eq_zero s t DIRSIZ

theorem key_strncpy (t : Name) : key (strncpy t DIRSIZ) = key t := by
  have hgen : ∀ (n : Nat) (t : List UInt8),
      ((strncpy t n).take n).takeWhile (· ≠ 0) = (t.take n).takeWhile (· ≠ 0) := by
    intro n
    induction n with
    | zero => intro t; rfl
    | succ n ih =>
      intro t
      rw [strncpy]
      cases t with
      | nil => simp [replicate_succ]
      | cons b t =>
        by_cases hb : b = 0
        · simp [hb, replicate_succ]
        · simpa [hb] using ih t
  exact hgen DIRSIZ t

def DIRENT : Nat := 2 + DIRSIZ

structure Dirent where
  inum : UInt16
  name : Name

namespace Dirent

def ofBytes (bytes : List UInt8) : Dirent where
  inum := UInt16.ofNat ((bytes.getD 0 0).toNat + 256 * (bytes.getD 1 0).toNat)
  name := (bytes.drop 2).take DIRSIZ

def toBytes (de : Dirent) : List UInt8 :=
  UInt8.ofNat (de.inum.toNat % 256) :: UInt8.ofNat (de.inum.toNat / 256) :: de.name

end Dirent

section

variable (sb : Superblock)

-- The number and the offset of the first entry from `off` that has the name.
def searchFrom (k : Slot) (name : Name) : Nat → Nat → Kernel (Option (UInt16 × Nat))
  | 0, _ => pure none
  | fuel + 1, off => do
    let dp ← inode k
    if off < dp.din.size.toNat then do
      let (r, bytes) ← readi sb k kernelDst (UInt32.ofNat off) (UInt32.ofNat DIRENT)
      if r ≠ DIRENT then panic .dirlookupRead
      else if (Dirent.ofBytes bytes).inum ≠ 0 ∧ namecmp name (Dirent.ofBytes bytes).name = 0 then
        pure (some ((Dirent.ofBytes bytes).inum, off))
      else searchFrom k name fuel (off + DIRENT)
    else pure none

def dirlookup (k : Slot) (name : Name) : Kernel (Option (Slot × Nat)) := do
  let dp ← inode k
  if dp.din.type ≠ T_DIR then panic .dirlookupNotDir
  else
    match ← searchFrom sb k name (dp.din.size.toNat / DIRENT + 1) 0 with
    | none => pure none
    | some (inum, off) => do
      let ip ← iget dp.dev inum.toNat
      pure (some (ip, off))

-- The offset of the first entry from `off` that is free, or of the end.
def freeFrom (k : Slot) : Nat → Nat → Kernel Nat
  | 0, off => pure off
  | fuel + 1, off => do
    let dp ← inode k
    if off < dp.din.size.toNat then do
      let (r, bytes) ← readi sb k kernelDst (UInt32.ofNat off) (UInt32.ofNat DIRENT)
      if r ≠ DIRENT then panic .dirlinkRead
      else if (Dirent.ofBytes bytes).inum = 0 then pure off
      else freeFrom k fuel (off + DIRENT)
    else pure off

def writeDirent (k : Slot) (de : Dirent) (off : Nat) : Kernel Int :=
  writei sb k (kernelSrc de.toBytes) (UInt32.ofNat off) (UInt32.ofNat DIRENT)

def dirlink (p : Pid) (k : Slot) (name : Name) (inum : Nat) : Kernel Int := do
  match ← dirlookup sb k name with
  | some (ip, _) => do
    iput sb p ip
    pure (-1)
  | none => do
    let dp ← inode k
    let off ← freeFrom sb k (dp.din.size.toNat / DIRENT + 1) 0
    let r ← writeDirent sb k ⟨UInt16.ofNat inum, strncpy name DIRSIZ⟩ off
    if r ≠ DIRENT then pure (-1) else pure 0

def emptyFrom (k : Slot) : Nat → Nat → Kernel Bool
  | 0, _ => pure true
  | fuel + 1, off => do
    let dp ← inode k
    if off < dp.din.size.toNat then do
      let (r, bytes) ← readi sb k kernelDst (UInt32.ofNat off) (UInt32.ofNat DIRENT)
      if r ≠ DIRENT then panic .isdiremptyReadi
      else if (Dirent.ofBytes bytes).inum ≠ 0 then pure false
      else emptyFrom k fuel (off + DIRENT)
    else pure true

def isdirempty (k : Slot) : Kernel Bool := do
  let dp ← inode k
  emptyFrom sb k (dp.din.size.toNat / DIRENT + 1) (2 * DIRENT)

end

def SLASH : UInt8 := 47

def skipelem (path : List UInt8) : Option (Name × List UInt8) :=
  match path.dropWhile (· = SLASH) with
  | [] => none
  | s => some ((s.takeWhile (· ≠ SLASH)).take DIRSIZ, (s.dropWhile (· ≠ SLASH)).dropWhile (· = SLASH))

def elementsFrom : Nat → List UInt8 → List Name
  | 0, _ => []
  | n + 1, path =>
    match skipelem path with
    | none => []
    | some (name, path) => name :: elementsFrom n path

-- The elements that the loop of namex sees.
def elements (path : List UInt8) : List Name := elementsFrom path.length path

section

variable (sb : Superblock)

def namexFrom (p : Pid) (parent : Bool) : List Name → Slot → Kernel (Option (Slot × Name))
  | [], k =>
    if parent then do
      iput sb p k
      pure none
    else pure (some (k, []))
  | name :: names, k => do
    ilock sb p k
    let ip ← inode k
    if ip.din.type ≠ T_DIR then do
      iunlockput sb p k
      pure none
    else if parent = true ∧ names = [] then do
      iunlock p k
      pure (some (k, name))
    else
      match ← dirlookup sb k name with
      | none => do
        iunlockput sb p k
        pure none
      | some (next, _) => do
        iunlockput sb p k
        namexFrom p parent names next

-- A pointer that the code follows without a test.
def deref (ip : Option Slot) : Kernel Slot :=
  match ip with
  | some k => pure k
  | none => panic .kerneltrap

def startDir (p : Pid) (path : List UInt8) : Kernel Slot :=
  if path.head? = some SLASH then iget ROOTDEV ROOTINO
  else do
    let pr : Proc ← act (.proc p)
    let cwd ← deref pr.cwd
    idup cwd

def namex (p : Pid) (path : List UInt8) (parent : Bool) : Kernel (Option (Slot × Name)) := do
  let k ← startDir p path
  namexFrom sb p parent (elements path) k

def namei (p : Pid) (path : List UInt8) : Kernel (Option Slot) := do
  let r ← namex sb p path false
  pure (r.map Prod.fst)

def nameiparent (p : Pid) (path : List UInt8) : Kernel (Option (Slot × Name)) := namex sb p path true

end

theorem skipelem_length_lt {path rest : List UInt8} {name : Name}
    (h : skipelem path = some (name, rest)) : rest.length < path.length := by
  unfold skipelem at h
  have hdrop : (path.dropWhile (· = SLASH)).length ≤ path.length := (dropWhile_sublist _).length_le
  split at h
  · cases h
  rename_i s hs
  simp only [Option.some.injEq, Prod.mk.injEq] at h
  obtain ⟨-, rfl⟩ := h
  cases hp : path.dropWhile (· = SLASH) with
  | nil => exact absurd hp hs
  | cons x xs =>
    have hx : x ≠ SLASH := by
      have := head_dropWhile_not (p := (· = SLASH)) (l := path) (by simp [hp])
      simpa [hp] using this
    rw [hp] at hdrop
    rw [dropWhile_cons_of_pos (by simpa using hx)]
    calc ((xs.dropWhile (· ≠ SLASH)).dropWhile (· = SLASH)).length
        ≤ (xs.dropWhile (· ≠ SLASH)).length := (dropWhile_sublist _).length_le
      _ ≤ xs.length := (dropWhile_sublist _).length_le
      _ < path.length := Nat.lt_of_succ_le hdrop

theorem elementsFrom_nil (n : Nat) : elementsFrom n [] = [] := by
  cases n <;> rfl

theorem elementsFrom_congr {n m : Nat} {path : List UInt8} (hn : path.length ≤ n)
    (hm : path.length ≤ m) : elementsFrom n path = elementsFrom m path := by
  induction n generalizing m path with
  | zero =>
    obtain rfl := length_eq_zero_iff.mp (Nat.le_zero.mp hn)
    rw [elementsFrom_nil, elementsFrom_nil]
  | succ n ih =>
    cases m with
    | zero =>
      obtain rfl := length_eq_zero_iff.mp (Nat.le_zero.mp hm)
      rw [elementsFrom_nil, elementsFrom_nil]
    | succ m =>
      simp only [elementsFrom]
      cases h : skipelem path with
      | none => rfl
      | some r =>
        have hlt := skipelem_length_lt h
        exact congrArg (r.1 :: ·) (ih (by omega) (by omega))

theorem elements_eq (path : List UInt8) : elements path = match skipelem path with
      | none => []
      | some (name, rest) => name :: elements rest := by
  cases path with
  | nil => rfl
  | cons b path =>
    simp only [elements, length_cons, elementsFrom]
    cases h : skipelem (b :: path) with
    | none => rfl
    | some r =>
      have hlt := skipelem_length_lt h
      exact congrArg (r.1 :: ·) (elementsFrom_congr (by simpa [Nat.lt_succ_iff] using hlt) le_rfl)

end Fs
