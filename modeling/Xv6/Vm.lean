import Xv6.Kalloc

-- vm.c, and the page tables of proc.c. Addresses are 64-bit numbers. A loop over
-- the pages of a range counts them: walk panics long before an address wraps.

namespace Vm

def panic {α : Type} (e : Panic) : Phys α := Prog.fail e

-- The levels of walk that are left, down to the address of the entry for `va`.
def walkFrom (va : Nat) (alloc : Bool) : Nat → Nat → Phys (Option Nat)
  | 0, pagetable => pure (some (pagetable + 8 * PX 0 va))
  | level + 1, pagetable => do
    let pte ← load (pagetable + 8 * PX (level + 1) va)
    if pte &&& PTE_V ≠ 0 then walkFrom va alloc level (PTE2PA pte)
    else if alloc = false then pure none
    else do
      match ← kalloc with
      | none => pure none
      | some pa => do
        memset pa 0
        store (pagetable + 8 * PX (level + 1) va) (PA2PTE pa ||| PTE_V)
        walkFrom va alloc level pa

def walk (pagetable va : Nat) (alloc : Bool) : Phys (Option Nat) :=
  if MAXVA ≤ va then panic .walk else walkFrom va alloc 2 pagetable

-- 0 where the address is not mapped for the user.
def walkaddr (pagetable va : Nat) : Phys Nat :=
  if MAXVA ≤ va then pure 0
  else do
    match ← walk pagetable va false with
    | none => pure 0
    | some a => do
      let pte ← load a
      if pte &&& PTE_V = 0 then pure 0
      else if pte &&& PTE_U = 0 then pure 0
      else pure (PTE2PA pte)

section Map

variable (pagetable : Nat)

-- The results 0 and -1 of the source are `true` and `false`.
def mapFrom (perm : Nat) : Nat → Nat → Nat → Phys Bool
  | 0, _, _ => pure true
  | n + 1, a, pa => do
    match ← walk pagetable a true with
    | none => pure false
    | some pte => do
      let old ← load pte
      if old &&& PTE_V ≠ 0 then panic .remap
      else do
        store pte (PA2PTE pa ||| perm ||| PTE_V)
        mapFrom perm n (a + PGSIZE) (pa + PGSIZE)

def mappages (va size pa perm : Nat) : Phys Bool :=
  if va % PGSIZE ≠ 0 then panic .mappagesVa
  else if size % PGSIZE ≠ 0 then panic .mappagesSize
  else if size = 0 then panic .mappagesZero
  else mapFrom pagetable perm (size / PGSIZE) va pa

def freeLeaf (doFree : Bool) (pte : Nat) : Phys Unit :=
  if doFree then kfree (PTE2PA pte) else pure ()

def unmapFrom (doFree : Bool) : Nat → Nat → Phys Unit
  | 0, _ => pure ()
  | n + 1, a => do
    match ← walk pagetable a false with
    | none => panic .uvmunmapWalk
    | some pte => do
      let old ← load pte
      if old &&& PTE_V = 0 then panic .uvmunmapMapped
      else if PTE_FLAGS old = PTE_V then panic .uvmunmapLeaf
      else do
        freeLeaf doFree old
        store pte 0
        unmapFrom doFree n (a + PGSIZE)

def uvmunmap (va npages : Nat) (doFree : Bool) : Phys Unit :=
  if va % PGSIZE ≠ 0 then panic .uvmunmapVa else unmapFrom pagetable doFree npages va

end Map

def uvmcreate : Phys (Option Nat) := do
  match ← kalloc with
  | none => pure none
  | some pagetable => do
    memset pagetable 0
    pure (some pagetable)

-- The conversion of a 64-bit number to int and back.
def intOf (n : Nat) : Nat := if n % 2 ^ 32 < 2 ^ 31 then n % 2 ^ 32 else 2 ^ 64 - 2 ^ 32 + n % 2 ^ 32

section Grow

variable (pagetable : Nat)

def uvmdealloc (oldsz newsz : Nat) : Phys Nat :=
  if oldsz ≤ newsz then pure oldsz
  else if PGROUNDUP newsz < PGROUNDUP oldsz then do
    uvmunmap pagetable (PGROUNDUP newsz) (intOf ((PGROUNDUP oldsz - PGROUNDUP newsz) / PGSIZE)) true
    pure newsz
  else pure newsz

-- The loop of uvmalloc from `a` on, with the number of pages that are left.
def uvmallocFrom (oldsz newsz xperm : Nat) : Nat → Nat → Phys Nat
  | 0, _ => pure newsz
  | n + 1, a => do
    match ← kalloc with
    | none => do
      let _ ← uvmdealloc pagetable a oldsz
      pure 0
    | some mem => do
      memset mem 0
      if ← mappages pagetable a PGSIZE mem (PTE_R ||| PTE_U ||| xperm) then
        uvmallocFrom oldsz newsz xperm n (a + PGSIZE)
      else do
        kfree mem
        let _ ← uvmdealloc pagetable a oldsz
        pure 0

def uvmalloc (oldsz newsz xperm : Nat) : Phys Nat :=
  if newsz < oldsz then pure oldsz
  else uvmallocFrom pagetable (PGROUNDUP oldsz) newsz xperm
    ((newsz - PGROUNDUP oldsz + (PGSIZE - 1)) / PGSIZE) (PGROUNDUP oldsz)

-- The entries of a table that freewalk has still to visit. `free` frees the
-- table that an entry points to.
def freeEntries (free : Nat → Phys Unit) : List Nat → Phys Unit
  | [] => pure ()
  | i :: is => do
    let pte ← load (pagetable + 8 * i)
    if pte &&& PTE_V ≠ 0 ∧ pte &&& (PTE_R ||| PTE_W ||| PTE_X) = 0 then do
      free (PTE2PA pte)
      store (pagetable + 8 * i) 0
      freeEntries free is
    else if pte &&& PTE_V ≠ 0 then panic .freewalkLeaf
    else freeEntries free is

end Grow

-- The indices of a table's entries. It is never unfolded to 512 numbers.
@[irreducible] def indices : List Nat := List.range 512

theorem indices_eq : indices = List.range 512 := by
  unfold indices
  rfl

theorem mem_indices {i : Nat} : i ∈ indices ↔ i < 512 := by
  rw [indices_eq]
  exact List.mem_range

theorem nodup_indices : indices.Nodup := by
  rw [indices_eq]
  exact List.nodup_range

-- The recursion of the source has no bound; the tables have three levels.
def freewalk : Nat → Nat → Phys Unit
  | 0, _ => panic .depth
  | depth + 1, pagetable => do
    freeEntries pagetable (freewalk depth) indices
    kfree pagetable

section Space

variable (pagetable : Nat)

def uvmfree (sz : Nat) : Phys Unit :=
  if 0 < sz then do
    uvmunmap pagetable 0 (PGROUNDUP sz / PGSIZE) true
    freewalk 3 pagetable
  else freewalk 3 pagetable

def uvmcopyErr (new i : Nat) : Phys Bool := do
  uvmunmap new 0 (i / PGSIZE) true
  pure false

def uvmcopyFrom (old new : Nat) : Nat → Nat → Phys Bool
  | 0, _ => pure true
  | n + 1, i => do
    match ← walk old i false with
    | none => panic .uvmcopyPte
    | some a => do
      let pte ← load a
      if pte &&& PTE_V = 0 then panic .uvmcopyPresent
      else do
        match ← kalloc with
        | none => uvmcopyErr new i
        | some mem => do
          let pg ← pageAt (PTE2PA pte)
          setPage mem fun _ => pg
          if ← mappages new i PGSIZE mem (PTE_FLAGS pte) then uvmcopyFrom old new n (i + PGSIZE)
          else do
            kfree mem
            uvmcopyErr new i

def uvmcopy (old new sz : Nat) : Phys Bool := uvmcopyFrom old new ((sz + (PGSIZE - 1)) / PGSIZE) 0

def uvmclear (va : Nat) : Phys Unit := do
  match ← walk pagetable va false with
  | none => panic .uvmclear
  | some a => do
    let pte ← load a
    store a (pte &&& (2 ^ 64 - 1 - PTE_U))

-- Each round copies a byte at least, so there are at most as many as bytes.
def copyoutFrom : Nat → Nat → List UInt8 → Phys Bool
  | 0, _, _ => pure true
  | fuel + 1, dstva, src =>
    if src = [] then pure true
    else if MAXVA ≤ PGROUNDDOWN dstva then pure false
    else do
      match ← walk pagetable (PGROUNDDOWN dstva) false with
      | none => pure false
      | some a => do
        let pte ← load a
        if pte &&& PTE_V = 0 ∨ pte &&& PTE_U = 0 ∨ pte &&& PTE_W = 0 then pure false
        else do
          let n := min (PGSIZE - dstva % PGSIZE) src.length
          setPage (PTE2PA pte) fun pg => pg.write (dstva % PGSIZE) (src.take n)
          copyoutFrom fuel (PGROUNDDOWN dstva + PGSIZE) (src.drop n)

def copyout (dstva : Nat) (src : List UInt8) : Phys Bool := copyoutFrom pagetable src.length dstva src

def copyinFrom : Nat → Nat → Nat → Phys (Option (List UInt8))
  | 0, _, _ => pure (some [])
  | fuel + 1, srcva, len =>
    if len = 0 then pure (some [])
    else do
      let pa ← walkaddr pagetable (PGROUNDDOWN srcva)
      if pa = 0 then pure none
      else do
        let n := min (PGSIZE - srcva % PGSIZE) len
        let pg ← pageAt pa
        match ← copyinFrom fuel (PGROUNDDOWN srcva + PGSIZE) (len - n) with
        | none => pure none
        | some bytes => pure (some (pg.read (srcva % PGSIZE) n ++ bytes))

-- The bytes, or nothing where the source returns -1.
def copyin (srcva len : Nat) : Phys (Option (List UInt8)) := copyinFrom pagetable len srcva len

-- The same with the bytes that are at dst when it returns -1.
def copyinToFrom : Nat → Nat → Nat → Phys (List UInt8 × Bool)
  | 0, _, _ => pure ([], true)
  | fuel + 1, srcva, len =>
    if len = 0 then pure ([], true)
    else do
      let pa ← walkaddr pagetable (PGROUNDDOWN srcva)
      if pa = 0 then pure ([], false)
      else do
        let n := min (PGSIZE - srcva % PGSIZE) len
        let pg ← pageAt pa
        let r ← copyinToFrom fuel (PGROUNDDOWN srcva + PGSIZE) (len - n)
        pure (pg.read (srcva % PGSIZE) n ++ r.1, r.2)

def copyinTo (srcva len : Nat) : Phys (List UInt8 × Bool) := copyinToFrom pagetable len srcva len

def copyinstrFrom : Nat → Nat → Nat → Phys (Option (List UInt8))
  | 0, _, _ => pure none
  | fuel + 1, srcva, max =>
    if max = 0 then pure none
    else do
      let pa ← walkaddr pagetable (PGROUNDDOWN srcva)
      if pa = 0 then pure none
      else do
        let n := min (PGSIZE - srcva % PGSIZE) max
        let pg ← pageAt pa
        let bytes := pg.read (srcva % PGSIZE) n
        if 0 ∈ bytes then pure (some (bytes.takeWhile fun b => decide (b ≠ 0)))
        else do
          match ← copyinstrFrom fuel (PGROUNDDOWN srcva + PGSIZE) (max - n) with
          | none => pure none
          | some rest => pure (some (bytes ++ rest))

-- The string without its NUL, or nothing where the source returns -1.
def copyinstr (srcva max : Nat) : Phys (Option (List UInt8)) := copyinstrFrom pagetable max srcva max

end Space

section Proc

variable (L : Layout)

def procPagetable (trapframe : Nat) : Phys (Option Nat) := do
  match ← uvmcreate with
  | none => pure none
  | some pagetable =>
    if ← mappages pagetable TRAMPOLINE PGSIZE L.trampoline (PTE_R ||| PTE_X) then
      if ← mappages pagetable TRAPFRAME PGSIZE trapframe (PTE_R ||| PTE_W) then
        pure (some pagetable)
      else do
        uvmunmap pagetable TRAMPOLINE 1 false
        uvmfree pagetable 0
        pure none
    else do
      uvmfree pagetable 0
      pure none

def procFreepagetable (pagetable sz : Nat) : Phys Unit := do
  uvmunmap pagetable TRAMPOLINE 1 false
  uvmunmap pagetable TRAPFRAME 1 false
  uvmfree pagetable sz

end Proc

end Vm
