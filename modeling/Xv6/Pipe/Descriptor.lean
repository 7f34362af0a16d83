import Xv6.Boot
import Xv6.Pipe

-- Pipes behind descriptors: sys_pipe, and the way from sys_read and sys_write to the pipe.

namespace Fs

open Kernel

section Pipe

variable (sb : Superblock)

def pipealloc (p : Pid) (page : Option Nat) : Kernel (Option (Fd × Fd)) := do
  match ← filealloc with
  | none => pure none
  | some f0 =>
    match ← filealloc with
    | none => do
      fileclose sb p f0
      pure none
    | some f1 =>
      match page with
      | none => do
        fileclose sb p f0
        fileclose sb p f1
        pure none
      | some pi => do
        act (.setFile f0 fun ff =>
          { ff with type := .pipe, readable := true, writable := false, pipe := some pi })
        act (.setFile f1 fun ff =>
          { ff with type := .pipe, readable := false, writable := true, pipe := some pi })
        pure (some (f0, f1))

def sysPipe (p : Pid) (page : Option Nat) (out : Bool) : Kernel Int := do
  match ← pipealloc sb p page with
  | none => pure (-1)
  | some (rf, wf) =>
    match ← fdalloc p rf with
    | none => do
      fileclose sb p rf
      fileclose sb p wf
      pure (-1)
    | some fd0 =>
      match ← fdalloc p wf with
      | none => do
        act (.setOfile p fd0 none)
        fileclose sb p rf
        fileclose sb p wf
        pure (-1)
      | some fd1 =>
        if out then pure 0
        else do
          act (.setOfile p fd0 none)
          act (.setOfile p fd1 none)
          fileclose sb p rf
          fileclose sb p wf
          pure (-1)

end Pipe

-- Whether sys_read and sys_write get as far as to the pipe.
def pipeEntry (p : Pid) (fd : Int32) (bit : UInt16) (dir : File → Bool) : Kernel Bool := do
  match ← argfd p fd with
  | none => pure false
  | some (_, f) => do
    if ← permitted f bit then do
      let ff ← fileOf f
      pure (dir ff && ff.type = .pipe)
    else pure false

theorem toNat_lt_nofile {fd : Int32} (h : 0 ≤ fd.toInt ∧ fd.toInt < NOFILE) : fd.toInt.toNat < NOFILE := by omega

def descriptor (w : World) (p : Pid) (fd : Int32) : Option Fd :=
  if h : 0 ≤ fd.toInt ∧ fd.toInt < NOFILE then (w.proc p).ofile ⟨fd.toInt.toNat, toNat_lt_nofile h⟩ else none

-- The descriptor is the end of the pipe `pi` that `dir` asks for.
def EndOf (pi : Nat) (dir : File → Bool) (w : World) (p : Pid) (fd : Int32) : Prop :=
  ∃ f, descriptor w p fd = some f ∧ (w.ftable f).type = .pipe ∧ (w.ftable f).pipe = some pi ∧ dir (w.ftable f) = true

-- The inode that `ip` still points to, if any, does not stand in the way.
def Permits (bit : UInt16) (w : World) (p : Pid) (fd : Int32) : Prop :=
  ∀ f k, descriptor w p fd = some f → (w.ftable f).ip = some k →
    (w.itable k).din.mode &&& bit ≠ 0 ∨ (w.itable k).din.type = T_DIR

variable {w : World} {p : Pid} {fd : Int32} {bit : UInt16} {dir : File → Bool} {pi : Nat}

section Entry

variable {f : Fd}

open Prog

theorem run_argfd (hf : descriptor w p fd = some f) : ∃ i, run kernelStep (argfd p fd) w = .done (some (i, f)) w := by
  unfold descriptor at hf
  split at hf
  · next h =>
    refine ⟨⟨fd.toInt.toNat, by omega⟩, ?_⟩
    simp only [argfd, dif_pos h]
    show Outcome.done (((w.proc p).ofile ⟨fd.toInt.toNat, _⟩).map fun f => (_, f)) w = _
    rw [hf]
    rfl
  · cases hf

theorem run_permitted (w : World) (f : Fd) (bit : UInt16) : ∃ b, run kernelStep (permitted f bit) w = .done b w ∧
    (b = true ↔ ∀ k, (w.ftable f).ip = some k → (w.itable k).din.mode &&& bit ≠ 0 ∨ (w.itable k).din.type = T_DIR) := by
  cases hip : (w.ftable f).ip with
  | none =>
    refine ⟨true, ?_, ?_⟩
    · rw [permitted, run_bind (show run kernelStep (fileOf f) w = .done (w.ftable f) w from rfl), hip]
      rfl
    · simp
  | some k =>
    refine ⟨decide ((w.itable k).din.mode &&& bit ≠ 0 ∨ (w.itable k).din.type = T_DIR), ?_, ?_⟩
    · rw [permitted, run_bind (show run kernelStep (fileOf f) w = .done (w.ftable f) w from rfl), hip]
      rfl
    · simp

theorem run_entry (hf : descriptor w p fd = some f) (htype : (w.ftable f).type = .pipe)
    (hdir : dir (w.ftable f) = true) {b : Bool} (hperm : run kernelStep (permitted f bit) w = .done b w) :
    run kernelStep (pipeEntry p fd bit dir) w = .done b w := by
  obtain ⟨i, hargfd⟩ := run_argfd hf
  unfold pipeEntry
  rw [run_bind hargfd]
  show run kernelStep (permitted f bit >>= _) w = _
  rw [run_bind hperm]
  cases b with
  | false => rfl
  | true =>
    show Outcome.done (dir (w.ftable f) && decide ((w.ftable f).type = .pipe)) w = _
    rw [hdir, htype]
    rfl

theorem run_pipeEntry (bit : UInt16) (he : EndOf pi dir w p fd) :
    ∃ b, run kernelStep (pipeEntry p fd bit dir) w = .done b w ∧ (b = true ↔ Permits bit w p fd) := by
  obtain ⟨f, hf, htype, -, hdir⟩ := he
  obtain ⟨b, hperm, hb⟩ := run_permitted w f bit
  refine ⟨b, run_entry hf htype hdir hperm, ?_⟩
  rw [hb]
  constructor
  · intro h f' k hf'
    rw [hf] at hf'
    cases hf'
    exact h k
  · intro h k
    exact h f k hf

end Entry

-- The moves of processes that read and write through descriptors, and all others.
inductive FdMove where
  | read (p : Pid) (fd : Int32) (dst : Nat → Bool) (n : Int32)
  | write (p : Pid) (fd : Int32) (src : Nat → Option UInt8) (n : Int32)
  | other (m : Pipes.Move Pid)

namespace FdMove

def direct : FdMove → Pipes.Move Pid
  | .read p _ dst n => .call p (.read dst n.toInt)
  | .write p _ src n => .call p (.write src n.toInt)
  | .other m => m

def On (pi : Nat) (w : World) : FdMove → Prop
  | .read p fd _ _ => EndOf pi File.readable w p fd
  | .write p fd _ _ => EndOf pi File.writable w p fd
  | .other _ => True

def Allowed (w : World) : FdMove → Prop
  | .read p fd _ _ => Permits S_IRUSR w p fd
  | .write p fd _ _ => Permits S_IWUSR w p fd
  | .other _ => True

def Idle (s : Pipes.State Pid) : FdMove → Prop
  | .read p _ _ _ | .write p _ _ _ => s.pc p = .user
  | .other _ => True

end FdMove

def enterPipe (w : World) (p : Pid) (fd : Int32) (bit : UInt16) (dir : File → Bool) (c : Pipes.Call)
    (s : Pipes.State Pid) : Option (Pipes.State Pid × List (Pipes.Event Pid)) :=
  match s.pc p with
  | .user =>
    match Prog.run kernelStep (pipeEntry p fd bit dir) w with
    | .done true _ => Pipes.pipe (.call p c) s
    | .done false _ => some (s, [.ret p c (-1)])
    | _ => none
  | _ => none

-- The pipe as processes use it, each call in any state of the kernel.
def viaFd : Lts.Machine (World × FdMove) (Pipes.State Pid) (Pipes.Event Pid)
  | (w, .read p fd dst n), s => enterPipe w p fd S_IRUSR File.readable (.read dst n.toInt) s
  | (w, .write p fd src n), s => enterPipe w p fd S_IWUSR File.writable (.write src n.toInt) s
  | (_, .other m), s => Pipes.pipe m s

section Runs

variable {c : Pipes.Call} {s : Pipes.State Pid}

theorem enterPipe_eq (he : EndOf pi dir w p fd) (hp : Permits bit w p fd) :
    enterPipe w p fd bit dir c s = Pipes.pipe (.call p c) s := by
  obtain ⟨b, hrun, hb⟩ := run_pipeEntry bit he
  rw [hb.mpr hp] at hrun
  unfold enterPipe
  rw [hrun]
  cases hpc : s.pc p <;> simp only [Pipes.pipe, hpc]

theorem enterPipe_refused (he : EndOf pi dir w p fd) (hp : ¬Permits bit w p fd) (hu : s.pc p = .user) :
    enterPipe w p fd bit dir c s = some (s, [.ret p c (-1)]) := by
  obtain ⟨b, hrun, hb⟩ := run_pipeEntry bit he
  have hfalse : b = false := by
    cases b with
    | false => rfl
    | true => exact absurd (hb.mp rfl) hp
  rw [hfalse] at hrun
  simp only [enterPipe, hu, hrun]

theorem enterPipe_eq_iff (he : EndOf pi dir w p fd) (hu : s.pc p = .user) :
    enterPipe w p fd bit dir c s = Pipes.pipe (.call p c) s ↔ Permits bit w p fd := by
  constructor
  · intro heq
    by_contra hp
    rw [enterPipe_refused he hp hu] at heq
    simp [Pipes.pipe, hu] at heq
  · exact enterPipe_eq he

theorem viaFd_eq {m : FdMove} (ho : m.On pi w) (ha : m.Allowed w) : viaFd (w, m) s = Pipes.pipe m.direct s := by
  cases m with
  | read p fd dst n | write p fd src n => exact enterPipe_eq ho ha
  | other m => rfl

theorem viaFd_eq_iff {m : FdMove} (ho : m.On pi w) (hi : m.Idle s) :
    viaFd (w, m) s = Pipes.pipe m.direct s ↔ m.Allowed w := by
  cases m with
  | read p fd dst n | write p fd src n => exact enterPipe_eq_iff ho hi
  | other m => exact ⟨fun _ => trivial, fun _ => rfl⟩

theorem exec_viaFd {ms : List (World × FdMove)} (h : ∀ x ∈ ms, x.2.On pi x.1 ∧ x.2.Allowed x.1)
    (es : List (Pipes.Event Pid)) (s : Pipes.State Pid) :
    Lts.exec viaFd (fun _ _ _ => True) ms es s =
      Lts.exec Pipes.pipe (fun _ _ _ => True) (ms.map fun x => x.2.direct) es s := by
  induction ms generalizing es s with
  | nil => rfl
  | cons x ms ih =>
    obtain ⟨w, m⟩ := x
    have hx := h (w, m) (List.mem_cons_self ..)
    have hms : ∀ x ∈ ms, x.2.On pi x.1 ∧ x.2.Allowed x.1 := fun x hx => h x (List.mem_cons_of_mem _ hx)
    simp only [List.map_cons, Lts.exec, if_true, viaFd_eq hx.1 hx.2]
    cases Pipes.pipe m.direct s with
    | none => rfl
    | some r => exact ih hms _ _

end Runs

-- A call through a descriptor does what the call on the pipe does exactly when the inode that the
-- file had before does not forbid it.
theorem pipe_fd_independent (pi : Nat) : (∀ w m s, FdMove.On pi w m → FdMove.Idle s m →
      (viaFd (w, m) s = Pipes.pipe m.direct s ↔ m.Allowed w)) ∧
    ∀ ms ms' : List (World × FdMove), ms.map (fun x => x.2.direct) = ms'.map (fun x => x.2.direct) →
      (∀ x ∈ ms ++ ms', x.2.On pi x.1 ∧ x.2.Allowed x.1) → ∀ es s,
        Lts.exec viaFd (fun _ _ _ => True) ms es s = Lts.exec viaFd (fun _ _ _ => True) ms' es s ∧
        Lts.exec viaFd (fun _ _ _ => True) ms es s =
          Lts.exec Pipes.pipe (fun _ _ _ => True) (ms.map fun x => x.2.direct) es s := by
  refine ⟨fun w m s ho hi => viaFd_eq_iff ho hi, fun ms ms' heq h es s => ?_⟩
  have hms := exec_viaFd (fun x hx => h x (List.mem_append_left _ hx)) es s
  have hms' := exec_viaFd (fun x hx => h x (List.mem_append_right _ hx)) es s
  rw [hms, hms', heq]
  exact ⟨rfl, rfl⟩

inductive FileCall where
  | sys (c : Syscall)
  | pipe (page : Option Nat) (out : Bool)

def fileCall (sb : Superblock) (p : Pid) : FileCall → Kernel Int
  | .sys c => syscall sb p c
  | .pipe page out => sysPipe sb p page out

def history (sb : Superblock) (p : Pid) : List FileCall → World → Option World
  | [], w => some w
  | c :: cs, w =>
    match Prog.run kernelStep (fileCall sb p c) w with
    | .done _ w' => history sb p cs w'
    | _ => none

-- Descriptor 0 of the first process is the read end of the pipe at 1, in entry 0.
def ReadEnd (w : World) : Prop :=
  descriptor w 0 0 = some 0 ∧ (w.ftable 0).type = .pipe ∧ (w.ftable 0).pipe = some 1 ∧ (w.ftable 0).readable = true

instance (w : World) : Decidable (ReadEnd w) := inferInstanceAs (Decidable (_ ∧ _))

theorem ReadEnd.endOf {w : World} (h : ReadEnd w) : EndOf 1 File.readable w 0 0 := ⟨0, h⟩

theorem ReadEnd.permits {w : World} (h : ReadEnd w) (bit : UInt16) : Permits bit w 0 0 ↔ ∀ k, (w.ftable 0).ip = some k →
      (w.itable k).din.mode &&& bit ≠ 0 ∨ (w.itable k).din.type = T_DIR := by
  constructor
  · intro hp k
    exact hp 0 k h.1
  · intro hp f k hf
    rw [h.1] at hf
    cases hf
    exact hp k

def emptyPipe : Pipes.State Pid :=
  ⟨⟨⟨fun _ => 0, 0, 0⟩, true, true⟩, none, fun _ => false, fun _ => none, fun _ => .user⟩

def readOne : FdMove := .read 0 0 (fun _ => true) 1

theorem pipe_at_once : ∃ w, history tiny 0 [.pipe (some 1) true] (boot tiny readOnlyDisk) = some w ∧ ReadEnd w ∧
    readOne.Allowed w := by
  have hone : ((history tiny 0 [.pipe (some 1) true] (boot tiny readOnlyDisk)).any fun w =>
      decide (ReadEnd w ∧ (w.ftable 0).ip = none)) = true := by
    decide
  obtain ⟨w, hw, hf⟩ := (Option.any_eq_true _ _).mp hone
  obtain ⟨hend, hip⟩ := of_decide_eq_true hf
  refine ⟨w, hw, hend, (hend.permits _).mpr fun k hk => ?_⟩
  rw [hip] at hk
  cases hk

-- The pipe is made at once, or after a file has been opened and closed in its place.
theorem pipe_fd_independent_reuse : ∃ w w', history tiny 0 [.pipe (some 1) true] (boot tiny readOnlyDisk) = some w ∧
    history tiny 0 [.sys (.open (some (SLASH :: F)) O_RDONLY), .sys (.close 0), .pipe (some 1) true]
      (boot tiny readOnlyDisk) = some w' ∧
    Lts.exec viaFd (fun _ _ _ => True) [(w, readOne)] [] emptyPipe =
      Lts.exec viaFd (fun _ _ _ => True) [(w', readOne)] [] emptyPipe := by
  have htwo : ((history tiny 0 [.sys (.open (some (SLASH :: F)) O_RDONLY), .sys (.close 0), .pipe (some 1) true]
      (boot tiny readOnlyDisk)).any fun w => decide (ReadEnd w ∧ (w.ftable 0).ip = some 1 ∧
        (w.itable 1).din.mode &&& S_IRUSR ≠ 0)) = true := by
    decide
  obtain ⟨w, hw, hend, hallowed⟩ := pipe_at_once
  obtain ⟨w', hw', hf'⟩ := (Option.any_eq_true _ _).mp htwo
  obtain ⟨hend', hip', hmode⟩ := of_decide_eq_true hf'
  refine ⟨w, w', hw, hw', ((pipe_fd_independent 1).2 [(w, readOne)] [(w', readOne)] rfl ?_ [] emptyPipe).1⟩
  intro x hx
  rcases List.mem_cons.mp hx with rfl | hx
  · exact ⟨hend.endOf, hallowed⟩
  · obtain rfl := List.mem_singleton.mp hx
    refine ⟨hend'.endOf, (hend'.permits _).mpr fun k hk => ?_⟩
    rw [hip'] at hk
    cases hk
    exact .inl hmode

-- The file that was there before loses its read permission: now the read of the pipe is refused.
theorem not_pipe_fd_independent : ∃ w w', history tiny 0 [.pipe (some 1) true] (boot tiny readOnlyDisk) = some w ∧
    history tiny 0 [.sys (.open (some (SLASH :: F)) O_RDONLY), .sys (.close 0),
      .sys (.chmod (some (SLASH :: F)) 0), .pipe (some 1) true] (boot tiny readOnlyDisk) = some w' ∧
    EndOf 1 File.readable w 0 0 ∧ EndOf 1 File.readable w' 0 0 ∧
    viaFd (w, readOne) emptyPipe = Pipes.pipe readOne.direct emptyPipe ∧
    viaFd (w', readOne) emptyPipe = some (emptyPipe, [.ret 0 (.read (fun _ => true) 1) (-1)]) := by
  have htwo : ((history tiny 0 [.sys (.open (some (SLASH :: F)) O_RDONLY), .sys (.close 0),
      .sys (.chmod (some (SLASH :: F)) 0), .pipe (some 1) true] (boot tiny readOnlyDisk)).any fun w =>
        decide (ReadEnd w ∧ (w.ftable 0).ip = some 1 ∧
          ¬((w.itable 1).din.mode &&& S_IRUSR ≠ 0 ∨ (w.itable 1).din.type = T_DIR))) = true := by
    decide
  obtain ⟨w, hw, hend, hallowed⟩ := pipe_at_once
  obtain ⟨w', hw', hf'⟩ := (Option.any_eq_true _ _).mp htwo
  obtain ⟨hend', hip', hmode⟩ := of_decide_eq_true hf'
  have hrefused : ¬Permits S_IRUSR w' 0 0 := fun hp => hmode ((hend'.permits _).mp hp 1 hip')
  have hn : (1 : Int32).toInt = 1 := by decide
  refine ⟨w, w', hw, hw', hend.endOf, hend'.endOf, viaFd_eq (m := readOne) hend.endOf hallowed, ?_⟩
  show enterPipe w' 0 0 S_IRUSR File.readable (.read (fun _ => true) (1 : Int32).toInt) emptyPipe = _
  rw [hn, enterPipe_refused hend'.endOf hrefused rfl]

end Fs
