import Xv6.File

-- sysfile.c. A path is `none` where argstr fails.

namespace Fs

open Kernel

def O_RDONLY : UInt32 := 0x000
def O_WRONLY : UInt32 := 0x001
def O_RDWR : UInt32 := 0x002
def O_CREATE : UInt32 := 0x200
def O_TRUNC : UInt32 := 0x400

def S_IRUSR : UInt16 := 4
def S_IWUSR : UInt16 := 2

abbrev Path := List UInt8

def ofile (p : Pid) : Kernel (Fin NOFILE → Option Fd) := do
  let pr : Proc ← act (.proc p)
  pure pr.ofile

def argfd (p : Pid) (fd : Int32) : Kernel (Option (Fin NOFILE × Fd)) := do
  let files ← ofile p
  if h : 0 ≤ fd.toInt ∧ fd.toInt < NOFILE then
    let fd : Fin NOFILE := ⟨fd.toInt.toNat, by omega⟩
    pure ((files fd).map fun f => (fd, f))
  else pure none

def fdalloc (p : Pid) (f : Fd) : Kernel (Option (Fin NOFILE)) := do
  let files ← ofile p
  match (List.finRange NOFILE).find? fun fd => (files fd).isNone with
  | some fd => do
    act (.setOfile p fd (some f))
    pure (some fd)
  | none => pure none

def sysDup (p : Pid) (fd : Int32) : Kernel Int := do
  match ← argfd p fd with
  | none => pure (-1)
  | some (_, f) =>
    match ← fdalloc p f with
    | none => pure (-1)
    | some fd => do
      let _ ← filedup f
      pure fd.val

-- The check of the file's mode in read and write; it is not made for directories.
def permitted (f : Fd) (bit : UInt16) : Kernel Bool := do
  let ff ← fileOf f
  match ff.ip with
  | none => pure true
  | some k => do
    let ip : Inode ← act (.perm k)
    pure (ip.din.mode &&& bit ≠ 0 ∨ ip.din.type = T_DIR)

section

variable (sb : Superblock)

def sysRead (p : Pid) (fd : Int32) (dst : Nat → Bool) (n : UInt32) (io : Int) : Kernel (Int × List UInt8) := do
  match ← argfd p fd with
  | none => pure (-1, [])
  | some (_, f) => do
    if ← permitted f S_IRUSR then fileread sb p f dst n io else pure (-1, [])

def sysWrite (p : Pid) (fd : Int32) (src : Nat → Option UInt8) (n : Int32) (io : Int) : Kernel Int := do
  match ← argfd p fd with
  | none => pure (-1)
  | some (_, f) => do
    if ← permitted f S_IWUSR then filewrite sb p f src n io else pure (-1)

def sysClose (p : Pid) (fd : Int32) : Kernel Int := do
  match ← argfd p fd with
  | none => pure (-1)
  | some (fd, f) => do
    act (.setOfile p fd none)
    fileclose sb p f
    pure 0

def sysFstat (p : Pid) (fd : Int32) (dst : Bool) : Kernel (Int × Option Stat) := do
  match ← argfd p fd with
  | none => pure (-1, none)
  | some (_, f) => filestat sb p f dst

def addNlink (n : Int16) (d : Dinode) : Dinode := { d with nlink := d.nlink + n }

def linkBad (p : Pid) (k : Slot) : Kernel Int := do
  ilock sb p k
  setDin k (addNlink (-1))
  iupdate sb k
  iunlockput sb p k
  endOp
  pure (-1)

def linkEntry (p : Pid) (dp k : Slot) (name : Name) : Kernel Int := do
  let d ← inode dp
  let ip ← inode k
  if d.dev ≠ ip.dev then pure (-1) else dirlink sb p dp name ip.inum

def sysLink (p : Pid) (old new : Option Path) : Kernel Int :=
  match old, new with
  | some old, some new => do
    beginOp
    match ← namei sb p old with
    | none => do
      endOp
      pure (-1)
    | some k => do
      ilock sb p k
      let ip ← inode k
      if ip.din.type = T_DIR then do
        iunlockput sb p k
        endOp
        pure (-1)
      else do
        setDin k (addNlink 1)
        iupdate sb k
        iunlock p k
        match ← nameiparent sb p new with
        | none => linkBad sb p k
        | some (dp, name) => do
          ilock sb p dp
          let r ← linkEntry sb p dp k name
          iunlockput sb p dp
          if r < 0 then linkBad sb p k
          else do
            iput sb p k
            endOp
            pure 0
  | _, _ => pure (-1)

def DOT : Name := [46]
def DOTDOT : Name := [46, 46]

def unlinkBad (p : Pid) (dp : Slot) : Kernel Int := do
  iunlockput sb p dp
  endOp
  pure (-1)

-- The link that the ".." of directory `k` was, for the parent `dp`.
def addParent (n : Int16) (dp : Slot) (type : Int16) : Kernel Unit :=
  if type = T_DIR then do
    setDin dp (addNlink n)
    iupdate sb dp
  else pure ()

def unlinkEntry (p : Pid) (dp k : Slot) (off : Nat) : Kernel Int := do
  let r ← writeDirent sb dp ⟨0, List.replicate DIRSIZ 0⟩ off
  if r ≠ DIRENT then panic .unlinkWritei
  else do
    let ip ← inode k
    addParent sb (-1) dp ip.din.type
    iunlockput sb p dp
    setDin k (addNlink (-1))
    iupdate sb k
    iunlockput sb p k
    endOp
    pure 0

-- The check for an empty directory, which other inodes pass.
def mayUnlink (k : Slot) (type : Int16) : Kernel Bool :=
  if type = T_DIR then isdirempty sb k else pure true

def sysUnlink (p : Pid) (path : Option Path) : Kernel Int :=
  match path with
  | none => pure (-1)
  | some path => do
    beginOp
    match ← nameiparent sb p path with
    | none => do
      endOp
      pure (-1)
    | some (dp, name) => do
      ilock sb p dp
      if namecmp name DOT = 0 ∨ namecmp name DOTDOT = 0 then unlinkBad sb p dp
      else
        match ← dirlookup sb dp name with
        | none => unlinkBad sb p dp
        | some (k, off) => do
          ilock sb p k
          let ip ← inode k
          if ip.din.nlink < 1 then panic .unlinkNlink
          else do
            let empty ← mayUnlink sb k ip.din.type
            if empty then unlinkEntry sb p dp k off
            else do
              iunlockput sb p k
              unlinkBad sb p dp

def createFail (p : Pid) (dp k : Slot) : Kernel (Option Slot) := do
  setDin k fun d => { d with nlink := 0 }
  iupdate sb k
  iunlockput sb p k
  iunlockput sb p dp
  pure none

def createDots (p : Pid) (dp k : Slot) (type : Int16) : Kernel Bool :=
  if type = T_DIR then do
    let ip ← inode k
    let r ← dirlink sb p k DOT ip.inum
    if r < 0 then pure false
    else do
      let d ← inode dp
      let r ← dirlink sb p k DOTDOT d.inum
      pure (r ≥ 0)
  else pure true

def createNew (p : Pid) (dp k : Slot) (name : Name) (type major minor : Int16) : Kernel (Option Slot) := do
  ilock sb p k
  setDin k fun d => { d with major := major, minor := minor, nlink := 1 }
  iupdate sb k
  let ok ← createDots sb p dp k type
  if ok then do
    let ip ← inode k
    let r ← dirlink sb p dp name ip.inum
    if r < 0 then createFail sb p dp k
    else do
      addParent sb 1 dp type
      iunlockput sb p dp
      act (.setMode k (S_IRUSR ||| S_IWUSR))
      pure (some k)
  else createFail sb p dp k

def create (p : Pid) (path : Path) (type major minor : Int16) : Kernel (Option Slot) := do
  match ← nameiparent sb p path with
  | none => pure none
  | some (dp, name) => do
    ilock sb p dp
    match ← dirlookup sb dp name with
    | some (k, _) => do
      iunlockput sb p dp
      ilock sb p k
      let ip ← inode k
      if type = T_FILE ∧ (ip.din.type = T_FILE ∨ ip.din.type = T_DEVICE) then pure (some k)
      else do
        iunlockput sb p k
        pure none
    | none => do
      let d ← inode dp
      match ← ialloc sb d.dev type with
      | none => do
        iunlockput sb p dp
        pure none
      | some k => createNew sb p dp k name type major minor

def openInode (p : Pid) (path : Path) (omode : UInt32) : Kernel (Option Slot) :=
  if omode &&& O_CREATE ≠ 0 then create sb p path T_FILE 0 0
  else do
    match ← namei sb p path with
    | none => pure none
    | some k => do
      ilock sb p k
      let ip ← inode k
      if ip.din.type = T_DIR ∧ omode ≠ O_RDONLY then do
        iunlockput sb p k
        pure none
      else pure (some k)

def openTrunc (k : Slot) (omode : UInt32) (type : Int16) : Kernel Unit :=
  if omode &&& O_TRUNC ≠ 0 ∧ type = T_FILE then itrunc sb k else pure ()

def openFill (p : Pid) (k : Slot) (omode : UInt32) (f : Fd) (fd : Fin NOFILE) : Kernel Int := do
  let ip ← inode k
  act (.setFile f fun ff => { ff with
    type := if ip.din.type = T_DEVICE then .device else .inode
    major := if ip.din.type = T_DEVICE then ip.din.major else ff.major
    off := if ip.din.type = T_DEVICE then ff.off else 0
    ip := some k
    readable := omode &&& O_WRONLY = 0
    writable := omode &&& O_WRONLY ≠ 0 ∨ omode &&& O_RDWR ≠ 0 })
  openTrunc sb k omode ip.din.type
  iunlock p k
  endOp
  pure fd.val

def openBad (p : Pid) (k : Slot) : Kernel Int := do
  iunlockput sb p k
  endOp
  pure (-1)

def openFile (p : Pid) (k : Slot) (omode : UInt32) : Kernel Int := do
  match ← filealloc with
  | none => openBad sb p k
  | some f =>
    match ← fdalloc p f with
    | none => do
      fileclose sb p f
      openBad sb p k
    | some fd => openFill sb p k omode f fd

-- Open for `what` (O_RDONLY or O_WRONLY) of an inode whose mode lacks `bit`.
def Denied (omode what : UInt32) (bit : UInt16) (d : Dinode) : Prop :=
  omode &&& what ≠ 0 ∧ d.mode &&& bit = 0 ∧ d.type ≠ T_DIR

instance (omode what : UInt32) (bit : UInt16) (d : Dinode) : Decidable (Denied omode what bit d) :=
  inferInstanceAs (Decidable (_ ∧ _ ∧ _))

-- The permission checks return without end_op.
def openDenied (p : Pid) (k : Slot) : Kernel Int := do
  iunlockput sb p k
  pure (-1)

def sysOpen (p : Pid) (path : Option Path) (omode : UInt32) : Kernel Int :=
  match path with
  | none => pure (-1)
  | some path => do
    beginOp
    match ← openInode sb p path omode with
    | none => do
      endOp
      pure (-1)
    | some k => do
      let ip ← inode k
      if ip.din.type = T_DEVICE ∧ (ip.din.major < 0 ∨ NDEV ≤ ip.din.major.toInt) then openBad sb p k
      else do
        let ip : Inode ← act (.perm k)
        if Denied omode O_RDONLY S_IRUSR ip.din then openDenied sb p k
        else if Denied omode O_WRONLY S_IWUSR ip.din then openDenied sb p k
        else openFile sb p k omode

def sysMake (p : Pid) (path : Option Path) (type major minor : Int16) : Kernel Int := do
  beginOp
  match path with
  | none => do
    endOp
    pure (-1)
  | some path =>
    match ← create sb p path type major minor with
    | none => do
      endOp
      pure (-1)
    | some k => do
      iunlockput sb p k
      endOp
      pure 0

def sysMkdir (p : Pid) (path : Option Path) : Kernel Int := sysMake sb p path T_DIR 0 0

def sysMknod (p : Pid) (path : Option Path) (major minor : Int32) : Kernel Int :=
  sysMake sb p path T_DEVICE major.toInt16 minor.toInt16

def sysChdir (p : Pid) (path : Option Path) : Kernel Int := do
  beginOp
  match path with
  | none => do
    endOp
    pure (-1)
  | some path =>
    match ← namei sb p path with
    | none => do
      endOp
      pure (-1)
    | some k => do
      ilock sb p k
      let ip ← inode k
      if ip.din.type ≠ T_DIR then do
        iunlockput sb p k
        endOp
        pure (-1)
      else do
        iunlock p k
        let pr : Proc ← act (.proc p)
        let cwd ← deref pr.cwd
        iput sb p cwd
        endOp
        act (.setCwd p (some k))
        pure 0

def sysChmod (p : Pid) (path : Option Path) (mode : UInt32) : Kernel Int :=
  match path with
  | none => pure (-1)
  | some path => do
    beginOp
    match ← namei sb p path with
    | none => do
      endOp
      pure (-1)
    | some k => do
      ilock sb p k
      act (.setMode k mode.toUInt16)
      iupdate sb k
      iunlock p k
      endOp
      pure 0

end

def SEEK_SET : Int32 := 0
def SEEK_CUR : Int32 := 1
def SEEK_END : Int32 := 2

-- The arguments that lseek refuses before it looks at the inode.
def badSeek (offset whence : Int32) : Prop :=
  (whence = SEEK_SET ∧ offset < 0) ∨ (whence = SEEK_END ∧ offset > 0) ∨
    (whence ≠ SEEK_SET ∧ whence ≠ SEEK_CUR ∧ whence ≠ SEEK_END)

instance (offset whence : Int32) : Decidable (badSeek offset whence) :=
  inferInstanceAs (Decidable (_ ∨ _ ∨ _))

-- The new offset. The sums are unsigned, so the tests against zero never hold.
def seekTo (off size : UInt32) (offset whence : Int32) : Option UInt32 :=
  if whence = SEEK_SET then if offset.toUInt32 > size then none else some offset.toUInt32
  else if whence = SEEK_CUR then
    if off + offset.toUInt32 < 0 ∨ off + offset.toUInt32 > size then none
    else some (off + offset.toUInt32)
  else if size + offset.toUInt32 < 0 then none
  else some (size + offset.toUInt32)

def sysLseek (p : Pid) (fd offset whence : Int32) : Kernel Int := do
  match ← argfd p fd with
  | none => pure (-1)
  | some (_, f) =>
    if badSeek offset whence then pure (-1)
    else do
      let ff ← fileOf f
      let k ← deref ff.ip
      let ip ← inode k
      match seekTo ff.off ip.din.size offset whence with
      | none => pure (-1)
      | some off => do
        act (.setOff f fun _ => off)
        pure off.toNat

end Fs
