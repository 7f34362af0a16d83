import Xv6.Fs.Image
import Xv6.Sysfile

-- The file system as one process sees it through system calls: inodes, descriptors and the console.
-- Blocks, the log and locks are below this level.

namespace User

open Fs Function

inductive Body where
  | free
  | dir (ents : List Dirent)
  | file (data : List UInt8)
  | device (major : Nat)

structure Node where
  body : Body
  mode : UInt16
  nlink : Nat

structure Desc where
  ino : Nat
  off : Nat
  readable : Bool
  writable : Bool

-- What a call gets that needs disk blocks or an entry of the file table.
inductive Chance where
  | enough
  | only (n : Nat)

structure Os where
  node : Nat → Node
  ninodes : Nat
  cwd : Nat
  ofile : Nat → Option Desc
  chance : Nat → Chance
  -- the console
  input : List UInt8
  output : List UInt8

namespace Body

-- ip->type
def type : Body → Int16
  | free => 0
  | dir _ => T_DIR
  | file _ => T_FILE
  | device _ => T_DEVICE

def bytes : Body → List UInt8
  | dir ents => ents.flatMap Dirent.toBytes
  | file data => data
  | _ => []

end Body

def MAXSIZE : Nat := MAXFILE * BSIZE

-- Directories and paths

def entries (nd : Node) : List Dirent :=
  match nd.body with
  | .dir ents => ents
  | _ => []

def lookup (node : Nat → Node) (dp : Nat) (name : Name) : Option Nat :=
  ((entries (node dp)).find? fun de => de.inum ≠ 0 ∧ namecmp name de.name = 0).map fun de => de.inum.toNat

def namexFrom (node : Nat → Node) (parent : Bool) : List Name → Nat → Option (Nat × Name)
  | [], ip => if parent then none else some (ip, [])
  | name :: names, ip =>
    if (node ip).body.type ≠ T_DIR then none
    else if parent ∧ names = [] then some (ip, name)
    else
      match lookup node ip name with
      | none => none
      | some next => namexFrom node parent names next

namespace Os

def setBody (os : Os) (ip : Nat) (body : Body) : Os :=
  { os with node := update os.node ip { os.node ip with body := body } }

def setFd (os : Os) (fd : Nat) (f : Option Desc) : Os := { os with ofile := update os.ofile fd f }

def setCwd (os : Os) (ip : Nat) : Os := { os with cwd := ip }

def puts (os : Os) (bytes : List UInt8) : Os := { os with output := os.output ++ bytes }

def printf (os : Os) (s : String) : Os := os.puts s.toUTF8.toList

def draw (os : Os) : Chance × Os := (os.chance 0, { os with chance := fun i => os.chance (i + 1) })

def ents (os : Os) (dp : Nat) : List Dirent := entries (os.node dp)

def dirlookup (os : Os) (dp : Nat) (name : Name) : Option Nat := lookup os.node dp name

def namex (os : Os) (path : Path) (parent : Bool) : Option (Nat × Name) :=
  namexFrom os.node parent (elements path) (if path.head? = some SLASH then ROOTINO else os.cwd)

def namei (os : Os) (path : Path) : Option Nat := (os.namex path false).map Prod.fst

def nameiparent (os : Os) (path : Path) : Option (Nat × Name) := os.namex path true

def ialloc (os : Os) : Option Nat :=
  (List.range os.ninodes).find? fun i => i ≠ 0 ∧ (os.node i).body.type = 0

-- dirlink where the name is not there yet: the first free entry, or one more.
def dirlink (os : Os) (dp : Nat) (name : Name) (inum : Nat) : Bool × Os :=
  let ents := os.ents dp
  let de : Dirent := ⟨UInt16.ofNat inum, strncpy name DIRSIZ⟩
  let i := ents.findIdx fun de => de.inum = 0
  if i < ents.length then (true, os.setBody dp (.dir (ents.set i de)))
  else if DIRENT * i + DIRENT > MAXSIZE then (false, os)
  else
    match os.draw with
    | (.enough, os) => (true, os.setBody dp (.dir (ents ++ [de])))
    | (.only n, os) => if n < DIRENT then (false, os) else (true, os.setBody dp (.dir (ents ++ [de])))

-- create(path, T_FILE, 0, 0)
def create (os : Os) (path : Path) : Option Nat × Os :=
  match os.nameiparent path with
  | none => (none, os)
  | some (dp, name) =>
    match os.dirlookup dp name with
    | some ip =>
      if (os.node ip).body.type = T_FILE ∨ (os.node ip).body.type = T_DEVICE then (some ip, os) else (none, os)
    | none =>
      match os.ialloc with
      | none => (none, os)
      | some ip =>
        match { os with node := update os.node ip ⟨.file [], S_IRUSR ||| S_IWUSR, 1⟩ }.dirlink dp name ip with
        | (true, os) => (some ip, os)
        | (false, os) => (none, { os with node := update os.node ip ⟨.free, 0, 0⟩ })

-- System calls; none is -1.

def fdalloc (os : Os) : Option Nat := (List.range NOFILE).find? fun fd => (os.ofile fd).isNone

def openInode (os : Os) (path : Path) (omode : UInt32) : Option Nat × Os :=
  if omode &&& O_CREATE ≠ 0 then os.create path
  else
    match os.namei path with
    | none => (none, os)
    | some ip => if (os.node ip).body.type = T_DIR ∧ omode ≠ O_RDONLY then (none, os) else (some ip, os)

def refuses (nd : Node) (omode : UInt32) : Bool :=
  (match nd.body with
    | .device major => major ≥ NDEV
    | _ => false) ||
  (omode &&& O_RDONLY ≠ 0 ∧ nd.mode &&& S_IRUSR = 0 ∧ nd.body.type ≠ T_DIR) ||
  (omode &&& O_WRONLY ≠ 0 ∧ nd.mode &&& S_IWUSR = 0 ∧ nd.body.type ≠ T_DIR)

def «open» (os : Os) (path : Path) (omode : UInt32) : Option Nat × Os :=
  if path.length ≥ MAXPATH then (none, os)
  else
    match os.openInode path omode with
    | (none, os) => (none, os)
    | (some ip, os) =>
      if refuses (os.node ip) omode then (none, os)
      else
        match os.draw with
        | (.only 0, os) => (none, os)
        | (_, os) =>
          match os.fdalloc with
          | none => (none, os)
          | some fd =>
            let f : Desc := ⟨ip, 0, omode &&& O_WRONLY = 0, omode &&& O_WRONLY ≠ 0 ∨ omode &&& O_RDWR ≠ 0⟩
            let os := os.setFd fd (some f)
            if omode &&& O_TRUNC ≠ 0 ∧ (os.node ip).body.type = T_FILE then (some fd, os.setBody ip (.file []))
            else (some fd, os)

-- The inode goes with its last link and its last descriptor.
def iput (os : Os) (ip : Nat) : Os :=
  if (os.node ip).nlink = 0 ∧ os.cwd ≠ ip ∧ (List.range NOFILE).all fun fd => (os.ofile fd).all fun f => f.ino ≠ ip then
    { os with node := update os.node ip ⟨.free, 0, 0⟩ }
  else os

def close (os : Os) (fd : Nat) : Os :=
  match os.ofile fd with
  | none => os
  | some f => (os.setFd fd none).iput f.ino

def permits (nd : Node) (bit : UInt16) : Bool := nd.mode &&& bit ≠ 0 ∨ nd.body.type = T_DIR

def line (input : List UInt8) : List UInt8 := input.take ((input.takeWhile (· ≠ 10)).length + 1)

def read (os : Os) (fd n : Nat) : Option (List UInt8) × Os :=
  match os.ofile fd with
  | none => (none, os)
  | some f =>
    if permits (os.node f.ino) S_IRUSR = false ∨ f.readable = false then (none, os)
    else
      match (os.node f.ino).body with
      | .device _ =>
        let bytes := (line os.input).take n
        (some bytes, { os with input := os.input.drop bytes.length })
      | body =>
        let bytes := (body.bytes.drop f.off).take n
        (some bytes, os.setFd fd (some { f with off := f.off + bytes.length }))

-- The bytes of `data` from `off` on replaced.
def splice (data : List UInt8) (off : Nat) (bytes : List UInt8) : List UInt8 :=
  data.take off ++ bytes ++ data.drop (off + bytes.length)

def writei (os : Os) (ip off : Nat) (src : List UInt8) : Option Nat × Os :=
  let data := (os.node ip).body.bytes
  if off > data.length ∨ off + src.length > MAXSIZE then (none, os)
  else
    match os.draw with
    | (.enough, os) => (some src.length, os.setBody ip (.file (splice data off src)))
    | (.only n, os) => (some (min n src.length), os.setBody ip (.file (splice data off (src.take n))))

-- ((MAXOPBLOCKS-1-1-2) / 2) * BSIZE
def CHUNK : Nat := (MAXOPBLOCKS - 1 - 1 - 2) / 2 * BSIZE

def filewriteFrom : Nat → Os → Nat → Desc → List UInt8 → Bool × Os
  | 0, os, _, _, src => (src.isEmpty, os)
  | n + 1, os, fd, f, src =>
    if src = [] then (true, os)
    else
      match os.writei f.ino f.off (src.take CHUNK) with
      | (none, os) => (false, os)
      | (some r, os) =>
        let f := { f with off := f.off + r }
        let os := os.setFd fd (some f)
        if r ≠ (src.take CHUNK).length then (false, os) else filewriteFrom n os fd f (src.drop CHUNK)

def write (os : Os) (fd : Nat) (src : List UInt8) : Option Nat × Os :=
  match os.ofile fd with
  | none => (none, os)
  | some f =>
    if permits (os.node f.ino) S_IWUSR = false ∨ f.writable = false then (none, os)
    else
      match (os.node f.ino).body with
      | .device _ => (some src.length, { os with output := os.output ++ src })
      | _ =>
        match filewriteFrom src.length os fd f src with
        | (true, os) => (some src.length, os)
        | (false, os) => (none, os)

-- The fields of struct stat that the programs read.
structure Stat where
  type : Int16
  size : Nat

def fstat (os : Os) (fd : Nat) : Option Stat :=
  (os.ofile fd).map fun f => ⟨(os.node f.ino).body.type, (os.node f.ino).body.bytes.length⟩

-- ulib.c
def stat (os : Os) (path : Path) : Option Stat × Os :=
  match os.open path O_RDONLY with
  | (none, os) => (none, os)
  | (some fd, os) => (os.fstat fd, os.close fd)

def unlink (os : Os) (path : Path) : Bool × Os :=
  if path.length ≥ MAXPATH then (false, os)
  else
    match os.nameiparent path with
    | none => (false, os)
    | some (dp, name) =>
      if namecmp name [46] = 0 ∨ namecmp name [46, 46] = 0 then (false, os)
      else
        let ents := os.ents dp
        match ents.findIdx? fun de => de.inum ≠ 0 ∧ namecmp name de.name = 0, os.dirlookup dp name with
        | some i, some ip =>
          -- isdirempty
          if (os.node ip).body.type = T_DIR ∧ ((os.ents ip).drop 2).any fun de => de.inum ≠ 0 then (false, os)
          else
            let os := os.setBody dp (.dir (ents.set i ⟨0, List.replicate DIRSIZ 0⟩))
            let up := if (os.node ip).body.type = T_DIR then (os.node dp).nlink - 1 else (os.node dp).nlink
            let os := { os with node := update os.node dp { os.node dp with nlink := up } }
            let os := { os with node := update os.node ip { os.node ip with nlink := (os.node ip).nlink - 1 } }
            (true, os.iput ip)
        | _, _ => (false, os)

end Os

-- What stops a run: the bound on its loops, or an access outside a buffer.
inductive Fault where
  | fuel
  | overflow

-- The loops of the run come to an end.
def Ends {α : Type} (f : Nat → Except Fault α) (a : α) : Prop := ∃ N, ∀ n ≥ N, f n = .ok a

end User
