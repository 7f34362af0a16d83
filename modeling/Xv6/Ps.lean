import Xv6.Kernel
import Xv6.Printf

-- sys_getprocs and ps.c.

namespace Ps

open Printf List

-- What sys_getprocs reads of struct proc; the name is the string in its 16 bytes.
structure Proc where
  state : ProcState
  pid : Int32
  name : List UInt8
  nonzero : 0 ∉ name
  short : name.length < 16

-- struct proc_info, which the kernel and the program declare each for itself.
structure ProcInfo where
  pid : Int32
  state : UInt32
  name : List UInt8

-- enum procstate of proc.h, and of uproc.h
def kernelStates : List ProcState := [.unused, .used, .sleeping, .runnable, .running, .zombie]

def userStates : List ProcState := [.unused, .sleeping, .runnable, .running, .zombie]

-- The bytes after the end of the string are 0 once more, if there is room, and junk.
def safestrcpy (junk : Nat → UInt8) (t : List UInt8) (n : Nat) : List UInt8 :=
  t.take (n - 1) ++ (0 :: 0 :: (List.range n).map junk).take (n - (t.take (n - 1)).length)

section

-- The array on the kernel's stack, and whether copyout succeeds.
variable (junk : Nat → Nat → UInt8) (copyout : List ProcInfo → Bool)

def getprocsFrom (info : List ProcInfo) : List Proc → List ProcInfo
  | [] => info
  | p :: ps =>
    if p.state ≠ .unused then
      getprocsFrom (info ++ [⟨p.pid, UInt32.ofNat (kernelStates.idxOf p.state), safestrcpy (junk info.length) p.name 16⟩]) ps
    else getprocsFrom info ps

def sysGetprocs (proc : Pid → Proc) : Option (List ProcInfo) :=
  let info := getprocsFrom junk [] ((List.finRange NPROC).map proc)
  if info.length > 0 ∧ copyout info = false then none else some info

end

def text (s : String) : List UInt8 := s.toList.map chr

def word (state : UInt32) : List UInt8 :=
  match userStates[state.toNat]? with
  | some .unused => text "unused   "
  | some .sleeping => text "sleep    "
  | some .runnable => text "runnable "
  | some .running => text "running  "
  | some .zombie => text "zombie   "
  | _ => text "unknown  "

def put (fmt : List UInt8) (args : List Arg) : Option (List UInt8) :=
  (vprintf (fmt.length + 1) false fmt args).map Prod.fst

def header : List UInt8 := text "\nPID\tSTATE\t\tNAME\n" ++ text "------------------------------------\n"

def lineFmt : List UInt8 := text "%d\t%s\t%s\n"

def printFrom : List ProcInfo → Option (List UInt8)
  | [] => some []
  | info :: rest => do
    let line ← put lineFmt [.word info.pid.toUInt32.toUInt64, .str (some (word info.state)), .str (some info.name)]
    (printFrom rest).map (line ++ ·)

-- main; -1 processes are none.
def main (count : Option (List ProcInfo)) : Option (List UInt8) := do
  let lines ← printFrom (count.getD [])
  some (header ++ lines ++ text "\n")

def cstr (buf : List UInt8) : List UInt8 := buf.takeWhile (· ≠ 0)

-- The page that should be there, given the word for each state.
def line (words : ProcState → List UInt8) (p : Proc) : List UInt8 :=
  rep Char.toUpper 10 p.pid.toInt ++ text "\t" ++ words p.state ++ text "\t" ++ p.name ++ text "\n"

def page (words : ProcState → List UInt8) (ps : List Proc) : List UInt8 := header ++ ps.flatMap (line words) ++ text "\n"

def rightWord : ProcState → List UInt8
  | .unused => text "unused   "
  | .used => text "used     "
  | .sleeping => text "sleep    "
  | .runnable => text "runnable "
  | .running => text "running  "
  | .zombie => text "zombie   "

def shownWord (state : ProcState) : List UInt8 := word (UInt32.ofNat (kernelStates.idxOf state))

def shown (proc : Pid → Proc) : List Proc := ((List.finRange NPROC).map proc).filter (·.state ≠ .unused)

def Tells (info : ProcInfo) (p : Proc) : Prop :=
  info.pid = p.pid ∧ info.state = UInt32.ofNat (kernelStates.idxOf p.state) ∧ cstr info.name = p.name

theorem cstr_safestrcpy (junk : Nat → UInt8) (p : Proc) :
    cstr (safestrcpy junk p.name 16) = p.name := by
  have hshort := p.short
  obtain ⟨k, hk⟩ : ∃ k, 16 - p.name.length = k + 1 := ⟨15 - p.name.length, by omega⟩
  have htake : p.name.take 15 = p.name := take_of_length_le (by omega)
  simp only [cstr, safestrcpy, Nat.reduceSub, htake, hk, take_succ_cons]
  rw [takeWhile_append_of_pos]
  · simp
  · intro x hx
    have : x ≠ 0 := fun heq => p.nonzero (heq ▸ hx)
    simpa using this

theorem getprocsFrom_tells (junk : Nat → Nat → UInt8) (ps : List Proc) (info : List ProcInfo) :
    ∃ more, getprocsFrom junk info ps = info ++ more ∧ List.Forall₂ Tells more (ps.filter (·.state ≠ .unused)) := by
  induction ps generalizing info with
  | nil => exact ⟨[], by simp [getprocsFrom], .nil⟩
  | cons p ps ih =>
    by_cases hp : p.state = .unused
    · obtain ⟨more, heq, htells⟩ := ih info
      exact ⟨more, by simpa [getprocsFrom, hp] using heq, by simpa [hp] using htells⟩
    · obtain ⟨more, heq, htells⟩ := ih (info ++ [⟨p.pid, UInt32.ofNat (kernelStates.idxOf p.state), safestrcpy (junk info.length) p.name 16⟩])
      refine ⟨_ :: more, by simpa [getprocsFrom, hp] using heq, ?_⟩
      rw [filter_cons_of_pos (by simpa using hp)]
      exact .cons ⟨rfl, rfl, cstr_safestrcpy _ p⟩ htells

theorem put_line {info : ProcInfo} {p : Proc} (h : Tells info p) :
    put lineFmt [.word info.pid.toUInt32.toUInt64, .str (some (word info.state)), .str (some info.name)] =
      some (line shownWord p) := by
  obtain ⟨hpid, hstate, hname⟩ := h
  obtain ⟨ps, hps⟩ : ∃ ps : List Piece, ps = [.num .int .d info.pid.toUInt32.toUInt64, .text (text "\t"),
    .str (some (word info.state)), .text (text "\t"), .str (some info.name), .text (text "\n")] := ⟨_, rfl⟩
  have hplain : ∀ q ∈ ps, q.Plain := by
    have htext : ∀ s ∈ [text "\t", text "\n"], chr '%' ∉ s ∧ 0 ∉ s := by decide
    simpa [hps, Piece.Plain] using htext
  have hfits : ∀ q ∈ ps, UserFits q := by simp [hps, UserFits]
  have hrun := loop_vprintf.run prints_user hplain 0
  rw [(putAll_exact ps table_upper (.inl rfl) user_cmp).mpr fun q hq => (put_user q).mpr (hfits q hq)] at hrun
  have hfmt : ps.flatMap Piece.fmt = lineFmt := by rw [hps]; rfl
  have hargs : ps.flatMap Piece.args = [.word info.pid.toUInt32.toUInt64, .str (some (word info.state)), .str (some info.name)] := by
    rw [hps]
    rfl
  have hword : ∀ x ∈ word info.state, ¬ x = 0 := by
    unfold word
    split <;> decide +kernel
  rw [hfmt, hargs, Nat.zero_add] at hrun
  rw [put, hrun, hps, Option.map_some, Option.map_some]
  simpa [Piece.usual, value, Kind.base, line, shownWord, ← hpid, ← hstate, ← hname, cstr] using hword

theorem printFrom_tells {infos : List ProcInfo} {ps : List Proc} (h : List.Forall₂ Tells infos ps) :
    printFrom infos = some (ps.flatMap (line shownWord)) := by
  induction h with
  | nil => rfl
  | cons htells _ ih =>
    rw [printFrom, put_line htells, ih]
    rfl

theorem page_right_iff (ps : List Proc) (h : ∀ p ∈ ps, p.state ≠ .unused) :
    page shownWord ps = page rightWord ps ↔ ps = [] := by
  constructor
  · intro heq
    cases ps with
    | nil => rfl
    | cons p ps =>
      simp only [page, flatMap_cons, line, append_assoc, append_cancel_left_eq] at heq
      have hlen : ∀ state, (shownWord state).length = (rightWord state).length := by
        intro state
        cases state <;> decide
      have hword := (append_inj heq (hlen p.state)).1
      have hne : ∀ state, state ≠ .unused → shownWord state ≠ rightWord state := by
        intro state
        cases state <;> decide
      exact absurd hword (hne _ (h p mem_cons_self))
  · rintro rfl
    rfl

theorem getprocs_main (proc : Pid → Proc) (junk : Nat → Nat → UInt8) {copyout : List ProcInfo → Bool}
    (hcopy : ∀ infos, copyout infos = true) :
    ∃ infos, sysGetprocs junk copyout proc = some infos ∧ List.Forall₂ Tells infos (shown proc) ∧
      main (some infos) = some (page shownWord (shown proc)) := by
  obtain ⟨infos, heq, htells⟩ := getprocsFrom_tells junk ((List.finRange NPROC).map proc) []
  refine ⟨infos, ?_, htells, ?_⟩
  · simp [sysGetprocs, heq, hcopy]
  · simp [main, printFrom_tells htells, page, shown]

-- ps shows the right pids and names, and the right words only if there is nothing to show.
theorem ps_shows (proc : Pid → Proc) (junk : Nat → Nat → UInt8) (copyout : List ProcInfo → Bool)
    (hcopy : ∀ infos, copyout infos = true) :
    ∃ infos, sysGetprocs junk copyout proc = some infos ∧ infos.length = (shown proc).length ∧
      List.Forall₂ Tells infos (shown proc) ∧ main (some infos) = some (page shownWord (shown proc)) ∧
      (page shownWord (shown proc) = page rightWord (shown proc) ↔ shown proc = []) := by
  obtain ⟨infos, heq, htells, hmain⟩ := getprocs_main proc junk hcopy
  exact ⟨infos, heq, htells.length_eq, htells, hmain, page_right_iff _ fun p hp => by simpa using (mem_filter.mp hp).2⟩

def idle : Proc := ⟨.unused, 0, [], nofun, by decide⟩

def init : Proc := ⟨.running, 1, text "init", by decide +kernel, by decide +kernel⟩

def sh : Proc := ⟨.sleeping, 2, text "sh", by decide +kernel, by decide +kernel⟩

-- A free slot lies between the processes 1 and 2.
def booted (p : Pid) : Proc := if p = 0 then init else if p = 2 then sh else idle

theorem shown_booted : shown booted = [init, sh] := rfl

theorem ps_shows_booted :
    ∃ infos, sysGetprocs (fun _ _ => 0) (fun _ => true) booted = some infos ∧ infos.length = 2 := by
  obtain ⟨infos, heq, hlen, -⟩ := ps_shows booted (fun _ _ => 0) (fun _ => true) fun _ => rfl
  exact ⟨infos, heq, by rw [hlen, shown_booted]; rfl⟩

-- A running process is shown as a zombie.
theorem not_ps_shows : ∃ infos, sysGetprocs (fun _ _ => 0) (fun _ => true) booted = some infos ∧
    main (some infos) = some (page shownWord [init, sh]) ∧ init.state = .running ∧
    shownWord .running = text "zombie   " ∧ page shownWord [init, sh] ≠ page rightWord [init, sh] := by
  have hcopy : ∀ infos, (fun _ : List ProcInfo => true) infos = true := fun _ => rfl
  obtain ⟨infos, heq, -, hmain⟩ := getprocs_main booted (fun _ _ => 0) hcopy
  rw [shown_booted] at hmain
  refine ⟨infos, heq, hmain, rfl, rfl, fun hpage => ?_⟩
  exact absurd ((page_right_iff [init, sh] (by decide)).mp hpage) (by decide)

end Ps
