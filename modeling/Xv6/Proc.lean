import Xv6.Sysfile
import Xv6.Prog.Pool

-- exec.c and the parts of proc.c that hold files and directories. `vm` is what the memory system
-- answers.

namespace Fs

open Kernel

def ELF_MAGIC : Nat := 0x464C457F
def ELF_PROG_LOAD : Nat := 1
def PGSIZE : Nat := 4096
def ELFHDR : Nat := 64
def PROGHDR : Nat := 56

def number (bytes : List UInt8) (i : Nat) : Nat → Nat
  | 0 => 0
  | n + 1 => (bytes.getD i 0).toNat + 256 * number bytes (i + 1) n

section

variable (sb : Superblock)

-- The pages are mapped: uvmalloc was asked for them before.
def loadseg (k : Slot) (offset sz : UInt32) : Nat → UInt32 → Kernel Bool
  | 0, _ => pure true
  | fuel + 1, i =>
    if i < sz then do
      let n := if (sz - i).toNat < PGSIZE then sz - i else UInt32.ofNat PGSIZE
      let (r, _) ← readi sb k kernelDst (offset + i) n
      if r ≠ n.toNat then pure false else loadseg k offset sz fuel (i + UInt32.ofNat PGSIZE)
    else pure true

def loadProg (k : Slot) (vm : Nat → Bool) : Nat → UInt32 → Kernel Bool
  | 0, _ => pure true
  | n + 1, off => do
    let (r, ph) ← readi sb k kernelDst off (UInt32.ofNat PROGHDR)
    if r ≠ PROGHDR then pure false
    else if number ph 0 4 ≠ ELF_PROG_LOAD then loadProg k vm n (off + UInt32.ofNat PROGHDR)
    else if number ph 40 8 < number ph 32 8 then pure false
    else if 2 ^ 64 ≤ number ph 16 8 + number ph 40 8 then pure false
    else if number ph 16 8 % PGSIZE ≠ 0 then pure false
    else if vm n = false then pure false
    else do
      let sz := UInt32.ofNat (number ph 32 8)
      let ok ← loadseg sb k (UInt32.ofNat (number ph 8 8)) sz (sz.toNat / PGSIZE + 1) 0
      if ok then loadProg k vm n (off + UInt32.ofNat PROGHDR) else pure false

def execLoad (k : Slot) (vm : Nat → Bool) (pagetable : Bool) : Kernel Bool := do
  let (r, elf) ← readi sb k kernelDst 0 (UInt32.ofNat ELFHDR)
  if r ≠ ELFHDR then pure false
  else if number elf 0 4 ≠ ELF_MAGIC then pure false
  else if pagetable = false then pure false
  else loadProg sb k vm (number elf 56 2) (UInt32.ofNat (number elf 32 8))

-- `argc` is the result once the program is loaded, -1 if the stack cannot be made.
def sysExec (p : Pid) (path : Option Path) (vm : Nat → Bool) (pagetable : Bool) (argc : Int) : Kernel Int :=
  match path with
  | none => pure (-1)
  | some path => do
    beginOp
    match ← namei sb p path with
    | none => do
      endOp
      pure (-1)
    | some k => do
      ilock sb p k
      let ok ← execLoad sb k vm pagetable
      iunlockput sb p k
      endOp
      if ok then pure argc else pure (-1)

def forkFiles (np : Pid) (files : Fin NOFILE → Option Fd) : List (Fin NOFILE) → Kernel Unit
  | [] => pure ()
  | fd :: fds =>
    match files fd with
    | some f => do
      let f ← filedup f
      act (.setOfile np fd (some f))
      forkFiles np files fds
    | none => forkFiles np files fds

-- Processes are named by their entry. `mem` says that there is memory for the child.
def sysFork (p : Pid) (mem : Bool) : Kernel Int := do
  let np : Option Pid ← act .allocproc
  match np with
  | none => pure (-1)
  | some np =>
    if mem then do
      let pr : Proc ← act (.proc p)
      forkFiles np pr.ofile (List.finRange NOFILE)
      let cwd ← deref pr.cwd
      let cwd ← idup cwd
      act (.setCwd np (some cwd))
      act (.setParent np (some p))
      act (.setState np .runnable)
      pure np.val
    else do
      act (.setParent np none)
      act (.setState np .unused)
      pure (-1)

def exitFiles (p : Pid) : List (Fin NOFILE) → Kernel Unit
  | [] => pure ()
  | fd :: fds => do
    let pr : Proc ← act (.proc p)
    match pr.ofile fd with
    | some f => do
      fileclose sb p f
      act (.setOfile p fd none)
      exitFiles p fds
    | none => exitFiles p fds

def sysExit (p : Pid) : Kernel Int :=
  if p = initproc then panic .initExiting
  else do
    exitFiles sb p (List.finRange NOFILE)
    beginOp
    let pr : Proc ← act (.proc p)
    let cwd ← deref pr.cwd
    iput sb p cwd
    endOp
    act (.setCwd p none)
    act (.zombie p)
    pure 0

def sysWait (p : Pid) (addrOk killed : Bool) : Kernel Int := do
  let c : Option Pid ← act (.reap p addrOk killed)
  match c with
  | some c => pure c.val
  | none => pure (-1)

end

-- A system call with its arguments and the answers of user memory, devices and the memory system.
inductive Syscall where
  | dup (fd : Int32)
  | read (fd : Int32) (dst : Nat → Bool) (n : UInt32) (io : Int)
  | write (fd : Int32) (src : Nat → Option UInt8) (n : Int32) (io : Int)
  | close (fd : Int32)
  | fstat (fd : Int32) (dst : Bool)
  | link (old new : Option Path)
  | unlink (path : Option Path)
  | «open» (path : Option Path) (omode : UInt32)
  | mkdir (path : Option Path)
  | mknod (path : Option Path) (major minor : Int32)
  | chdir (path : Option Path)
  | exec (path : Option Path) (vm : Nat → Bool) (pagetable : Bool) (argc : Int)
  | lseek (fd offset whence : Int32)
  | chmod (path : Option Path) (mode : UInt32)
  | fork (mem : Bool)
  | exit
  | wait (addrOk killed : Bool)

def syscall (sb : Superblock) (p : Pid) : Syscall → Kernel Int
  | .dup fd => sysDup p fd
  | .read fd dst n io => Prod.fst <$> sysRead sb p fd dst n io
  | .write fd src n io => sysWrite sb p fd src n io
  | .close fd => sysClose sb p fd
  | .fstat fd dst => Prod.fst <$> sysFstat sb p fd dst
  | .link old new => sysLink sb p old new
  | .unlink path => sysUnlink sb p path
  | .open path omode => sysOpen sb p path omode
  | .mkdir path => sysMkdir sb p path
  | .mknod path major minor => sysMknod sb p path major minor
  | .chdir path => sysChdir sb p path
  | .exec path vm pagetable argc => sysExec sb p path vm pagetable argc
  | .lseek fd offset whence => sysLseek p fd offset whence
  | .chmod path mode => sysChmod sb p path mode
  | .fork mem => sysFork p mem
  | .exit => sysExit sb p
  | .wait addrOk killed => sysWait p addrOk killed

-- Every process that has been set up and has not exited may call.
def machine (sb : Superblock) : Prog.Machine kernelSig Panic Int Syscall World Pid where
  step := kernelStep
  body p c := syscall sb p c
  ready p w := (w.proc p).state = .running ∨ (w.proc p).state = .runnable ∨ (w.proc p).state = .sleeping

abbrev KernelPool := Prog.Pool kernelSig Panic Int Syscall World Pid

end Fs
