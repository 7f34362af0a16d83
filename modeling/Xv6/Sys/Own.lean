import Xv6.Sys
import Xv6.Vm.Copy
import Xv6.Refs.Sound

-- Who owns which page: each is free, part of one process's memory, held by a call in progress, a
-- pipe, or kept by the kernel.

namespace Sys

open Vm Sep Prog
open scoped Pointwise

-- The memory of a process: its trapframe and its address space.
def Memory (L : Layout) (pr : ProcMem) : Assn Nat Page :=
  ⋃ pg : Page, page L pr.trapframe pg * Space L pr.pagetable (upper L pr.trapframe) (pages pr.sz)

-- What a call has while it runs: pages, those of the process included, the memory fields of the
-- process and of a child it sets up or gives up, and ends of pipes that no open file stands for.
structure Own where
  heap : Heap Nat Page
  me : ProcMem
  kid : Option (Pid × ProcMem)
  ends : List (Nat × Bool)

-- The steps of the file system that make or end neither a process nor the end of a pipe.
def plain : Act → Prop
  | .allocproc | .setState _ _ | .zombie _ | .reap _ _ _ | .fileUnref _ | .setFile _ _ => False
  | _ => True

-- What each step of process `p` does to what it owns.
inductive OwnRule (L : Layout) (p : Pid) : Rules sysSig (Option Own)
  | plain {a : Act} (o : Own) (h : plain a) : OwnRule L p (.fs a) (some o) fun _ o' => o' = some o
  | mem {a : MemAct Nat Page} {o : Own} {P : a.Res → Heap Nat Page → Prop}
    (h : memRule (· ∈ L.frames) (.fill 5) a o.heap P) :
    OwnRule L p (.mem a) (some o) fun r o' => ∃ h', P r h' ∧ o' = some { o with heap := h' }
  | proc (o : Own) : OwnRule L p (.proc p) (some o) fun (pr : ProcMem) o' => pr = o.me ∧ o' = some o
  | setProc (o : Own) (f : ProcMem → ProcMem) :
    OwnRule L p (.setProc p f) (some o) fun _ o' => o' = some { o with me := f o.me }
  | kidProc {o : Own} {q : Pid} {pr : ProcMem} (h : o.kid = some (q, pr)) :
    OwnRule L p (.proc q) (some o) fun (r : ProcMem) o' => r = pr ∧ o' = some o
  | setKid {o : Own} {q : Pid} {pr : ProcMem} (h : o.kid = some (q, pr)) (f : ProcMem → ProcMem) :
    OwnRule L p (.setProc q f) (some o) fun _ o' => o' = some { o with kid := some (q, f pr) }
  | allocproc {o : Own} (h : o.kid = none) : OwnRule L p (.fs .allocproc) (some o) fun (r : Option Pid) o' =>
    match r with
    | none => o' = some o
    | some np => o' = some { o with kid := some (np, .zero) }
  | lockZombie {o : Own} (h : o.kid = none) (killed : Bool) :
    OwnRule L p (.lockZombie p killed) (some o) fun (r : Option Pid) o' =>
      match r with
      | none => o' = some o
      | some c => ∃ pr, ∃ k ∈ Memory L pr, Valid (k * o.heap) ∧
        o' = some { o with heap := k * o.heap, kid := some (c, pr) }
  | discard {o : Own} {q : Pid} (h : o.kid = some (q, .zero)) :
    OwnRule L p (.fs (.setState q .unused)) (some o) fun _ o' => o' = some { o with kid := none }
  | release {o : Own} {q : Pid} {pr : ProcMem} {st : ProcState} {k h : Heap Nat Page} (hk : o.kid = some (q, pr))
    (hst : st = .runnable ∨ st = .zombie) (hh : o.heap = k * h) (hm : k ∈ Memory L pr) :
    OwnRule L p (.fs (.setState q st)) (some o) fun _ o' => o' = some { o with heap := h, kid := none }
  | zombie {o : Own} (hm : o.heap ∈ Memory L o.me) (hk : o.kid = none) (he : o.ends = []) :
    OwnRule L p (.fs (.zombie p)) (some o) fun _ o' => o' = none
  | fileUnref (o : Own) (f : Fd) : OwnRule L p (.fs (.fileUnref f)) (some o) fun (r : Option File) o' =>
    match r with
    | none => o' = some o
    | some ff =>
      if ff.type = .pipe then
        ∃ pi, ff.pipe = some pi ∧ o' = some { o with ends := (pi, ff.writable) :: o.ends }
      else o' = some o
  | fill (o : Own) (f : Fd) {k : File → File} (hk : ∀ ff, (k ff).type ≠ .pipe) :
    OwnRule L p (.fs (.setFile f k)) (some o) fun _ o' => o' = some o
  | newPipe {o : Own} (f : Fd) {pi : Nat} {pg : Page} {h : Heap Nat Page} (hh : o.heap = single pi pg * h)
    (ho : ∀ w, isOpen pg w = true) : OwnRule L p (.fs (.setFile f (setEnd pi false))) (some o) fun _ o' =>
      o' = some { o with heap := h, ends := (pi, true) :: o.ends }
  | newEnd {o : Own} (f : Fd) {pi : Nat} {w : Bool} (h : (pi, w) ∈ o.ends) :
    OwnRule L p (.fs (.setFile f (setEnd pi w))) (some o) fun _ o' =>
      o' = some { o with ends := o.ends.erase (pi, w) }
  | pipeclose {o : Own} {pi : Nat} {w : Bool} (h : (pi, w) ∈ o.ends) :
    OwnRule L p (.pipeclose pi w) (some o) fun (last : Bool) o' =>
      if last then ∃ pg, pi ∈ L.frames ∧ Valid (single pi pg * o.heap) ∧
        o' = some { o with heap := single pi pg * o.heap, ends := o.ends.erase (pi, w) }
      else o' = some { o with ends := o.ends.erase (pi, w) }

end Sys
