import Xv6.Vm
import Xv6.Proc

-- The processes with their memory: proc.c, exec.c and pipe.c as far as they take and give back
-- pages.

-- The fields of struct proc for the memory, the name without its NUL, and the exit status.
structure ProcMem where
  pagetable : Nat
  sz : Nat
  trapframe : Nat
  name : List UInt8
  xstate : Int32
  deriving DecidableEq

def ProcMem.zero : ProcMem := ⟨0, 0, 0, [], 0⟩

structure Sys where
  fs : World
  mem : Vm.Mem
  proc : Pid → ProcMem

-- The steps of the file system and of the memory, and those that touch both.
inductive SysAct where
  | fs (a : Act)
  | mem (a : Sep.MemAct Nat Vm.Page)
  | proc (p : Pid)
  | setProc (p : Pid) (f : ProcMem → ProcMem)
  -- wait's search for a child that has exited. wait keeps its lock, so it is no zombie to others
  -- until it is given up or put back.
  | lockZombie (p : Pid) (killed : Bool)
  -- the section of pipeclose; it returns whether both ends are closed
  | pipeclose (pi : Nat) (writable : Bool)

def SysAct.Res : SysAct → Type
  | .fs a => a.Res
  | .mem a => a.Res
  | .proc _ => ProcMem
  | .setProc _ _ => Unit
  | .lockZombie _ _ => Option Pid
  | .pipeclose _ _ => Bool

def sysSig : Prog.Sig := ⟨SysAct, SysAct.Res⟩

inductive SysPanic where
  | fs (e : Panic)
  | vm (e : Vm.Panic)
  deriving DecidableEq

abbrev SysM := Prog sysSig SysPanic

namespace Sys

open Vm

def READOPEN : Nat := 544
def WRITEOPEN : Nat := 548

def endOf (writable : Bool) : Nat := if writable then WRITEOPEN else READOPEN

def setOpen (pg : Page) (writable : Bool) (v : UInt8) : Page := pg.write (endOf writable) [v, 0, 0, 0]

def isOpen (pg : Page) (writable : Bool) : Bool := decide (leNat pg.get (endOf writable) 4 ≠ 0)

def sysStep (L : Layout) : Prog.Step sysSig SysPanic Sys
  | .fs a, s =>
    match kernelStep a s.fs with
    | .done r w => .done r { s with fs := w }
    | .fail e w => .fail (.fs e) { s with fs := w }
    | .wait => .wait
  | .mem a, s =>
    match memStep L a s.mem with
    | .done r m => .done r { s with mem := m }
    | .fail e m => .fail (.vm e) { s with mem := m }
    | .wait => .wait
  | .proc p, s => .done (s.proc p) s
  | .setProc p f, s => .done () { s with proc := Function.update s.proc p (f (s.proc p)) }
  | .lockZombie p killed, s =>
    match s.fs.zombieChild p with
    | some c => .done (some c) { s with fs := s.fs.setProc c { s.fs.proc c with state := .used } }
    | none => if s.fs.haveKids p = false ∨ killed = true then .done none s else .wait
  | .pipeclose pi writable, s =>
    let pg := setOpen (s.mem.page pi) writable 0
    .done (!isOpen pg false && !isOpen pg true)
      { s with mem := { s.mem with page := Function.update s.mem.page pi pg } }

-- The programs of the file system and of the memory as programs of the kernel.
def ofFs {α : Type} (m : Kernel α) : SysM α :=
  Prog.embed (T := sysSig) SysAct.fs (fun _ r => r) SysPanic.fs m

def ofMem {α : Type} (m : Phys α) : SysM α :=
  Prog.embed (T := sysSig) SysAct.mem (fun _ r => r) SysPanic.vm m

def procOf (p : Pid) : SysM ProcMem := Prog.lift (S := sysSig) (.proc p)

def setProc (p : Pid) (f : ProcMem → ProcMem) : SysM Unit := Prog.lift (S := sysSig) (.setProc p f)

def addInt (sz : Nat) (n : Int32) : Nat := ((sz + n.toInt) % 2 ^ 64).toNat

-- The difference of 64-bit numbers. It is not unfolded by itself.
@[irreducible] def sub64 (a b : Nat) : Nat := (a + (2 ^ 64 - b % 2 ^ 64)) % 2 ^ 64

def bytesOf : Nat → Nat → List UInt8
  | 0, _ => []
  | n + 1, w => UInt8.ofNat w :: bytesOf n (w / 256)

def nameOf (s : List UInt8) : List UInt8 := s.take 15

section Proc

variable (L : Layout)

def EPC : Nat := 3
def SP : Nat := 6
def A1 : Nat := 15

def growproc (p : Pid) (n : Int32) : SysM Int := do
  let pr ← procOf p
  if n > 0 then do
    let sz ← ofMem (uvmalloc pr.pagetable pr.sz (addInt pr.sz n) PTE_W)
    if sz = 0 then pure (-1)
    else do
      setProc p fun pr => { pr with sz := sz }
      pure 0
  else if n < 0 then do
    let sz ← ofMem (uvmdealloc pr.pagetable pr.sz (addInt pr.sz n))
    setProc p fun pr => { pr with sz := sz }
    pure 0
  else do
    setProc p fun pr' => { pr' with sz := pr.sz }
    pure 0

end Proc

def setEnd (pi : Nat) (writable : Bool) (ff : File) : File :=
  { ff with type := .pipe, readable := !writable, writable := writable, pipe := some pi }

section Exec

variable (L : Layout) (sb : Superblock) (p : Pid)

def flags2perm (flags : Nat) : Nat :=
  (if flags &&& 1 ≠ 0 then PTE_X else 0) ||| (if flags &&& 2 ≠ 0 then PTE_W else 0)

-- The pages of a segment that are left. readi fails before the counter wraps.
def loadseg (pagetable va : Nat) (k : Slot) (offset sz : UInt32) : Nat → UInt32 → SysM Bool
  | 0, _ => pure true
  | left + 1, i => do
    let pa ← ofMem (walkaddr pagetable ((va + i.toNat) % 2 ^ 64))
    if pa = 0 then Prog.fail (.vm .loadseg)
    else do
      let n := if (sz - i).toNat < PGSIZE then sz - i else UInt32.ofNat PGSIZE
      let (r, bytes) ← ofFs (Fs.readi sb k Fs.kernelDst (offset + i) n)
      ofMem (setPage pa fun pg => pg.write 0 bytes)
      if r ≠ n.toNat then pure false else loadseg pagetable va k offset sz left (i + UInt32.ofNat PGSIZE)

-- The loop over the program headers, with the size so far, which is returned on failure too, to be
-- freed.
def loadSegments (pagetable : Nat) (k : Slot) : Nat → UInt32 → Nat → SysM (Bool × Nat)
  | 0, _, sz => pure (true, sz)
  | n + 1, off, sz => do
    let (r, ph) ← ofFs (Fs.readi sb k Fs.kernelDst off (UInt32.ofNat Fs.PROGHDR))
    let vaddr := Fs.number ph 16 8
    let filesz := Fs.number ph 32 8
    let memsz := Fs.number ph 40 8
    if r ≠ Fs.PROGHDR then pure (false, sz)
    else if Fs.number ph 0 4 ≠ Fs.ELF_PROG_LOAD then
      loadSegments pagetable k n (off + UInt32.ofNat Fs.PROGHDR) sz
    else if memsz < filesz then pure (false, sz)
    else if (vaddr + memsz) % 2 ^ 64 < vaddr then pure (false, sz)
    else if vaddr % PGSIZE ≠ 0 then pure (false, sz)
    else do
      let sz1 ← ofMem (uvmalloc pagetable sz ((vaddr + memsz) % 2 ^ 64) (flags2perm (Fs.number ph 4 4)))
      if sz1 = 0 then pure (false, sz)
      else do
        let filesz := UInt32.ofNat filesz
        let ok ← loadseg sb pagetable vaddr k (UInt32.ofNat (Fs.number ph 8 8)) filesz
          ((filesz.toNat + (PGSIZE - 1)) / PGSIZE) 0
        if ok then loadSegments pagetable k n (off + UInt32.ofNat Fs.PROGHDR) sz1 else pure (false, sz1)

-- The argument strings that are left to push, and the pointers to those pushed.
def pushArgs (pagetable stackbase : Nat) : List (List UInt8) → Nat → List Nat → SysM (Option (Nat × List Nat))
  | [], sp, ustack => pure (some (sp, ustack))
  | arg :: argv, sp, ustack =>
    if MAXARG ≤ ustack.length then pure none
    else
      let sp := sub64 sp (arg.length + 1)
      let sp := sp - sp % 16
      if sp < stackbase then pure none
      else do
        if ← ofMem (copyout pagetable sp (arg ++ [0])) then pushArgs pagetable stackbase argv sp (ustack ++ [sp])
        else pure none

def lastName (path : List UInt8) : List UInt8 := (path.reverse.takeWhile fun b => decide (b ≠ Fs.SLASH)).reverse

def commit (pagetable sz sp entry : Nat) (path : List UInt8) : SysM Unit := do
  let pr ← procOf p
  ofMem (setPage pr.trapframe fun pg => pg.setWord A1 sp)
  setProc p fun pr => { pr with name := nameOf (lastName path) }
  setProc p fun pr => { pr with pagetable := pagetable, sz := sz }
  ofMem (setPage pr.trapframe fun pg => (pg.setWord EPC entry).setWord SP sp)
  ofMem (procFreepagetable pr.pagetable pr.sz)

-- The array of pointers on top of the strings, after which nothing fails.
def pushPointers (pagetable sz stackbase sp entry : Nat) (ustack : List Nat) (path : List UInt8) : SysM Int :=
  if MAXARG ≤ ustack.length then Prog.fail (.vm .ustack)
  else
    let sp := sub64 sp ((ustack.length + 1) * 8)
    let sp := sp - sp % 16
    let bad : SysM Int := do
      ofMem (procFreepagetable pagetable sz)
      pure (-1)
    if sp < stackbase then bad
    else do
      if ← ofMem (copyout pagetable sp ((ustack ++ [0]).flatMap (bytesOf 8))) then do
        commit p pagetable sz sp entry path
        pure ustack.length
      else bad

def execStack (pagetable sz entry : Nat) (path : List UInt8) (argv : List (List UInt8)) : SysM Int := do
  let sz := PGROUNDUP sz
  let sz1 ← ofMem (uvmalloc pagetable sz ((sz + (USERSTACK + 1) * PGSIZE) % 2 ^ 64) PTE_W)
  if sz1 = 0 then do
    ofMem (procFreepagetable pagetable sz)
    pure (-1)
  else do
    ofMem (uvmclear pagetable (sub64 sz1 ((USERSTACK + 1) * PGSIZE)))
    let stackbase := sub64 sz1 (USERSTACK * PGSIZE)
    match ← pushArgs pagetable stackbase argv sz1 [] with
    | none => do
      ofMem (procFreepagetable pagetable sz1)
      pure (-1)
    | some (sp, ustack) => pushPointers p pagetable sz1 stackbase sp entry ustack path

def unlockBad (k : Slot) : SysM Int := do
  ofFs (Fs.iunlockput sb p k)
  ofFs Fs.endOp
  pure (-1)

def execLoad (k : Slot) (path : List UInt8) (argv : List (List UInt8)) : SysM Int := do
  let (r, elf) ← ofFs (Fs.readi sb k Fs.kernelDst 0 (UInt32.ofNat Fs.ELFHDR))
  if r ≠ Fs.ELFHDR then unlockBad sb p k
  else if Fs.number elf 0 4 ≠ Fs.ELF_MAGIC then unlockBad sb p k
  else do
    let pr ← procOf p
    match ← ofMem (procPagetable L pr.trapframe) with
    | none => unlockBad sb p k
    | some pagetable => do
      let (ok, sz) ← loadSegments sb pagetable k (Fs.number elf 56 2) (UInt32.ofNat (Fs.number elf 32 8)) 0
      if ok then do
        ofFs (Fs.iunlockput sb p k)
        ofFs Fs.endOp
        execStack p pagetable sz (Fs.number elf 24 8) path argv
      else do
        ofMem (procFreepagetable pagetable sz)
        unlockBad sb p k

-- The path and the arguments are strings without their NUL.
def exec (path : List UInt8) (argv : List (List UInt8)) : SysM Int := do
  ofFs Fs.beginOp
  match ← ofFs (Fs.namei sb p path) with
  | none => do
    ofFs Fs.endOp
    pure (-1)
  | some k => do
    ofFs (Fs.ilock sb p k)
    execLoad L sb p k path argv

end Exec

end Sys
