import Xv6.Lts
import Xv6.RingBuffer

-- virtio_disk.c: requests, the device, and the interrupt handler. What is done under vdisk_lock is
-- cut where the device may be seen to act. Block contents are left out.

namespace Virtio

open Lts Function

abbrev NUM : Nat := 8

scoped instance : NeZero NUM := ⟨by decide⟩
abbrev BSIZE : Nat := 1024

def VRING_DESC_F_NEXT : BitVec 16 := 1
def VRING_DESC_F_WRITE : BitVec 16 := 2

def VIRTIO_BLK_T_IN : BitVec 32 := 0
def VIRTIO_BLK_T_OUT : BitVec 32 := 1

inductive Addr (β : Type) where
  | null
  | op (i : Fin NUM)
  | data (b : β)
  | status (i : Fin NUM)

structure Desc (β : Type) where
  addr : Addr β
  len : Nat
  flags : BitVec 16
  next : Nat

def Desc.zero {β : Type} : Desc β := ⟨.null, 0, 0, 0⟩

structure BlkReq where
  type : BitVec 32
  reserved : BitVec 32
  sector : BitVec 64

structure Info (β : Type) where
  b : Option β
  status : UInt8

-- `avail.nread` is how far the device has come, `used.nread` is disk.used_idx.
structure Disk (β : Type) where
  desc : Fin NUM → Desc β
  avail : RingBuffer Nat 16 NUM
  used : RingBuffer Nat 16 NUM
  free : Fin NUM → Bool
  info : Fin NUM → Info β
  ops : Fin NUM → BlkReq

structure Job (β : Type) where
  b : β
  blockno : BitVec 32
  write : Bool

structure Idx where
  head : Fin NUM
  data : Fin NUM
  status : Fin NUM

def Idx.toList (x : Idx) : List (Fin NUM) := [x.head, x.data, x.status]

-- A block that goes from a buffer to the disk, or from the disk to a buffer.
structure Transfer (β : Type) where
  b : β
  sector : BitVec 64
  write : Bool

-- The product is taken in 32 bits.
def Job.sector {β : Type} (j : Job β) : BitVec 64 := (j.blockno * BitVec.ofNat 32 (BSIZE / 512)).setWidth 64

def Job.transfer {β : Type} (j : Job β) : Transfer β := ⟨j.b, j.sector, j.write⟩

inductive Pc (β : Type) where
  | user
  | acquire (j : Job β)
  | alloc (j : Job β)
  | allocWake (j : Job β)
  | submit (j : Job β) (x : Idx)
  | wait (j : Job β) (x : Idx)
  | wake (j : Job β) (x : Idx)
  | free (j : Job β) (x : Idx)

inductive Chan (β : Type) where
  | free
  | buf (b : β)
deriving DecidableEq

inductive Owner (ι : Type) where
  | proc (p : ι)
  | intr

inductive Halt where
  | panic (msg : String)
  -- an access outside of a table or through a null pointer, or a chain that the
  -- device does not understand
  | fault

inductive Event (ι β : Type) where
  | submit (p : ι) (i : Nat) (r : Transfer β)
  | transfer (i : Nat) (r : Transfer β)
  | complete (i : Nat) (b : β)
  | ret (p : ι) (b : β)
  | halt (h : Halt)

-- `taken` and `finished` are the chains that the device works on and those that it
-- has not yet posted. `busy` is b->disk, `holder` the process that has b->lock, and
-- `chan p` what the process is SLEEPING on.
structure State (ι β : Type) where
  disk : Disk β
  taken : List Nat
  finished : List Nat
  busy : β → Bool
  lock : Option (Owner ι)
  holder : β → Option ι
  chan : ι → Option (Chan β)
  pc : ι → Pc β

inductive Move (ι β : Type) where
  | acquiresleep (p : ι) (b : β)
  | releasesleep (p : ι) (b : β)
  | call (p : ι) (j : Job β)
  | step (p : ι)
  | kill (p : ι)
  | intr
  | intrStep
  | take
  | transfer (i : Nat)
  | post (i : Nat)

variable {ι β : Type}

section Functions

variable [DecidableEq ι] [DecidableEq β]

namespace State

@[simp]
def goto (s : State ι β) (p : ι) (pc : Pc β) : State ι β := { s with pc := update s.pc p pc }

@[simp]
def setLock (s : State ι β) (h : Option (Owner ι)) : State ι β := { s with lock := h }

@[simp]
def setDisk (s : State ι β) (d : Disk β) : State ι β := { s with disk := d }

-- sleep: the process is on its channel before anyone else can have vdisk_lock.
@[simp]
def sleep (s : State ι β) (p : ι) (c : Chan β) : State ι β :=
  { s with lock := none, chan := update s.chan p (some c) }

@[simp]
def wakeup (s : State ι β) (c : Chan β) : State ι β :=
  { s with chan := fun p => if s.chan p = some c then none else s.chan p }

end State

def Disk.descAt (d : Disk β) (i : Nat) : Desc β := if h : i < NUM then d.desc ⟨i, h⟩ else Desc.zero

def allocDesc (s : State ι β) : Option (Fin NUM × State ι β) :=
  ((List.finRange NUM).find? s.disk.free).map fun i =>
    (i, s.setDisk { s.disk with free := update s.disk.free i false })

def freeDesc (i : Nat) (s : State ι β) : Except Halt (State ι β) :=
  if h : i < NUM then
    if s.disk.free ⟨i, h⟩ then .error (.panic "free_desc 2")
    else .ok ((s.setDisk { s.disk with
      desc := update s.disk.desc ⟨i, h⟩ Desc.zero
      free := update s.disk.free ⟨i, h⟩ true }).wakeup .free)
  else .error (.panic "free_desc 1")

-- No more than NUM descriptors can be freed one after the other.
def freeChain : Nat → Nat → State ι β → Except Halt (State ι β)
  | 0, _, _ => .error .fault
  | n + 1, i, s => do
    let d := s.disk.descAt i
    let s ← freeDesc i s
    if d.flags &&& VRING_DESC_F_NEXT ≠ 0 then freeChain n d.next s else .ok s

def alloc3Desc (s : State ι β) : Except Halt (Option Idx × State ι β) :=
  match allocDesc s with
  | none => .ok (none, s)
  | some (i, s) =>
    match allocDesc s with
    | none => do
      let s ← freeDesc i s
      .ok (none, s)
    | some (j, s) =>
      match allocDesc s with
      | none => do
        let s ← freeDesc i s
        let s ← freeDesc j s
        .ok (none, s)
      | some (k, s) => .ok (some ⟨i, j, k⟩, s)

def Job.request (j : Job β) : BlkReq := ⟨if j.write then VIRTIO_BLK_T_OUT else VIRTIO_BLK_T_IN, 0, j.sector⟩

def Job.dataFlags (j : Job β) : BitVec 16 := (if j.write then 0 else VRING_DESC_F_WRITE) ||| VRING_DESC_F_NEXT

def headDesc (x : Idx) : Desc β := ⟨.op x.head, 16, VRING_DESC_F_NEXT, x.data⟩

def dataDesc (j : Job β) (x : Idx) : Desc β := ⟨.data j.b, BSIZE, j.dataFlags, x.status⟩

def statusDesc (x : Idx) : Desc β := ⟨.status x.head, 1, VRING_DESC_F_WRITE, 0⟩

-- The request is written down before avail->idx lets the device see it.
def submit (s : State ι β) (j : Job β) (x : Idx) : State ι β :=
  { s with
    disk := { s.disk with
      ops := update s.disk.ops x.head j.request
      desc := update (update (update s.disk.desc x.head (headDesc x)) x.data
        (dataDesc j x)) x.status (statusDesc x)
      info := update s.disk.info x.head ⟨some j.b, 0xff⟩
      avail := s.disk.avail.push x.head }
    busy := update s.busy j.b true }

-- The chain as the device reads it: the slot of its status, and what it asks for.
def Disk.chain (d : Disk β) (i : Nat) : Option (Fin NUM × Transfer β) :=
  let d0 := d.descAt i
  let d1 := d.descAt d0.next
  let d2 := d.descAt d1.next
  match d0.addr, d1.addr, d2.addr with
  | .op k, .data b, .status k' =>
    let r := d.ops k
    let write := decide (r.type = VIRTIO_BLK_T_OUT)
    if d0.len = 16 ∧ d0.flags = VRING_DESC_F_NEXT ∧ d1.len = BSIZE ∧
        d1.flags = (if write then VRING_DESC_F_NEXT else VRING_DESC_F_WRITE ||| VRING_DESC_F_NEXT) ∧
        d2.len = 1 ∧ d2.flags = VRING_DESC_F_WRITE then
      some (k', ⟨b, r.sector, write⟩)
    else none
  | _, _, _ => none

end Functions

section Machine

variable [DecidableEq ι] [DecidableEq β]

abbrev Step (ι β : Type) := Option (State ι β × List (Event ι β))

def acquire (s : State ι β) (p : ι) (pc : Pc β) : Step ι β :=
  match s.lock with
  | none => some ((s.setLock (some (.proc p))).goto p pc, [])
  | some _ => none

def halt (s : State ι β) (h : Halt) : Step ι β := some (s, [.halt h])

def virtioDiskRw (s : State ι β) (p : ι) : Step ι β :=
  match s.pc p with
  | .user => none
  | .acquire j => acquire s p (.alloc j)
  | .alloc j =>
    match alloc3Desc s with
    | .error h => halt s h
    | .ok (none, s) => some ((s.sleep p .free).goto p (.allocWake j), [])
    | .ok (some x, s) => some (s.goto p (.submit j x), [])
  | .allocWake j => if (s.chan p).isSome then none else acquire s p (.alloc j)
  | .submit j x => some ((submit s j x).goto p (.wait j x), [.submit p x.head j.transfer])
  | .wait j x =>
    if s.busy j.b then some ((s.sleep p (.buf j.b)).goto p (.wake j x), [])
    else some (s.goto p (.free j x), [])
  | .wake j x => if (s.chan p).isSome then none else acquire s p (.wait j x)
  | .free j x =>
    let i := s.disk.info x.head
    match freeChain (NUM + 1) x.head
      (s.setDisk { s.disk with info := update s.disk.info x.head { i with b := none } }) with
    | .error h => halt s h
    | .ok s => some ((s.setLock none).goto p .user, [.ret p j.b])

def virtioDiskIntr (s : State ι β) : Step ι β :=
  if s.disk.used.nread = s.disk.used.nwrite then some (s.setLock none, [])
  else
    let id := s.disk.used.head
    if h : id < NUM then
      if (s.disk.info ⟨id, h⟩).status ≠ 0 then halt s (.panic "virtio_disk_intr status")
      else
        match (s.disk.info ⟨id, h⟩).b with
        | none => halt s .fault
        | some b =>
          let s := { s with busy := update s.busy b false }.wakeup (.buf b)
          some (s.setDisk { s.disk with used := s.disk.used.pop }, [.complete id b])
    else halt s .fault

def deviceTransfer (s : State ι β) (i : Nat) : Step ι β :=
  if i ∈ s.taken then
    match s.disk.chain i with
    | none => halt s .fault
    | some (k, r) =>
      let info := { s.disk.info k with status := 0 }
      some ({ s with
        disk := { s.disk with info := update s.disk.info k info }
        taken := s.taken.erase i
        finished := s.finished ++ [i] }, [.transfer i r])
  else none

def virtio : Machine (Move ι β) (State ι β) (Event ι β)
  | .acquiresleep p b, s =>
    match s.holder b, s.pc p with
    | none, .user => some ({ s with holder := update s.holder b (some p) }, [])
    | _, _ => none
  | .releasesleep p b, s =>
    match s.pc p with
    | .user => if s.holder b = some p then some ({ s with holder := update s.holder b none }, []) else none
    | _ => none
  | .call p j, s =>
    match s.pc p with
    | .user => if s.holder j.b = some p then some (s.goto p (.acquire j), []) else none
    | _ => none
  | .step p, s => virtioDiskRw s p
  | .kill p, s => some ({ s with chan := update s.chan p none }, [])
  | .intr, s =>
    match s.lock with
    | none => some (s.setLock (some .intr), [])
    | some _ => none
  | .intrStep, s =>
    match s.lock with
    | some .intr => virtioDiskIntr s
    | _ => none
  | .take, s =>
    if s.disk.avail.nread = s.disk.avail.nwrite then none
    else
      some ({ s with
        disk := { s.disk with avail := s.disk.avail.pop }
        taken := s.taken ++ [s.disk.avail.head] }, [])
  | .transfer i, s => deviceTransfer s i
  | .post i, s =>
    if i ∈ s.finished then
      some ({ s with
        disk := { s.disk with used := s.disk.used.push i }
        finished := s.finished.erase i }, [])
    else none

end Machine

structure Idle {ι β : Type} (s : State ι β) : Prop where
  avail : s.disk.avail.nread = s.disk.avail.nwrite
  used : s.disk.used.nread = s.disk.used.nwrite
  free : ∀ i, s.disk.free i = true
  taken : s.taken = []
  finished : s.finished = []
  lock : s.lock = none
  pc : ∀ p, s.pc p = .user

end Virtio
