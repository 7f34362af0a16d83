import Mathlib

-- param.h

abbrev NPROC : Nat := 64
abbrev NOFILE : Nat := 16
abbrev NFILE : Nat := 100
abbrev NINODE : Nat := 50
abbrev NDEV : Nat := 10
abbrev ROOTDEV : Nat := 1
abbrev MAXARG : Nat := 32
abbrev MAXOPBLOCKS : Nat := 10
abbrev LOGSIZE : Nat := MAXOPBLOCKS * 3
abbrev NBUF : Nat := MAXOPBLOCKS * 3
abbrev FSSIZE : Nat := 2000
abbrev MAXPATH : Nat := 128
abbrev USERSTACK : Nat := 1

instance : NeZero NPROC := ⟨by decide⟩

-- The panics of the file system. `kerneltrap` is the trap a null pointer takes.
inductive Panic where
  | tooBigTransaction
  | logWriteOutsideTrans
  | logCommitting
  | freeingFreeBlock
  | igetNoInodes
  | ilock
  | ilockNoType
  | iunlock
  | bmapOutOfRange
  | dirlookupNotDir
  | dirlookupRead
  | dirlinkRead
  | isdiremptyReadi
  | unlinkNlink
  | unlinkWritei
  | filedup
  | fileclose
  | fileread
  | filewrite
  | initExiting
  | kerneltrap
  deriving DecidableEq, Repr
