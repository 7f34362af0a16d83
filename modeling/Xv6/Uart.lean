import Xv6.Lts
import Xv6.RingBuffer

-- The transmit side of uart.c. The chip and uartputc_sync do not ask for uart_tx_lock, so what
-- its holder does is cut into steps at the accesses to registers.

namespace Uart

open Lts List RingBuffer

abbrev UART_TX_BUF_SIZE : Nat := 32

-- Where the holder of the lock is: at the loop of uartputc, at that of uartstart, or behind a
-- read of LSR there that found THR empty.
inductive Pc where
  | putc (c : UInt8)
  | start
  | send

-- `thr` is what uartstart has written to THR; `asleep` and `woken` are the characters of the
-- processes that sleep in uartputc or have yet to take the lock again. `irq` is raised when THR
-- gets empty, and taken back by a write to THR or a read of ISR.
structure State where
  tx : RingBuffer UInt8 64 UART_TX_BUF_SIZE
  holder : Option Pc
  asleep : List UInt8
  woken : List UInt8
  busy : Bool
  irq : Bool
  thr : List UInt8

inductive Move where
  | uartputc (c : UInt8)
  | wake (c : UInt8)
  | uartintr
  | uartputcSync
  | step
  | sent

def State.step (s : State) : Pc → State × List UInt8
  | .putc c =>
    if s.tx.Full then ({ s with holder := none, asleep := c :: s.asleep }, [])
    else ({ s with tx := s.tx.push c, holder := some .start }, [c])
  | .start =>
    if s.tx.Empty then ({ s with holder := none, irq := false }, [])
    else if s.busy then ({ s with holder := none }, [])
    else ({ s with holder := some .send }, [])
  | .send => (⟨s.tx.pop, some .start, [], s.woken ++ s.asleep, true, false, s.thr ++ [s.tx.head]⟩, [])

-- The events are the characters that uartputc puts into the buffer. uartputc_sync can write at any
-- time, since others may have written to THR after it found THR empty.
def uart : Machine Move State UInt8
  | .step, s => s.holder.map s.step
  | .sent, s => if s.busy then some ({ s with busy := false, irq := true }, []) else none
  | .uartputcSync, s => some ({ s with busy := true, irq := false }, [])
  | .uartputc c, s => if s.holder = none then some ({ s with holder := some (.putc c) }, []) else none
  | .uartintr, s => if s.holder = none then some ({ s with holder := some .start }, []) else none
  | .wake c, s =>
    if s.holder = none ∧ c ∈ s.woken then
      some ({ s with holder := some (.putc c), woken := s.woken.erase c }, [])
    else none

variable (buf : Fin UART_TX_BUF_SIZE → UInt8) (i : BitVec 64) (ms : List Move)

-- The moves that are possible, one after the other, after uartinit and wherever the counters stand.
def trace : List UInt8 × State :=
  ms.foldl (fun r m => match uart m r.2 with
    | some (t, es) => (r.1 ++ es, t)
    | none => r) ([], ⟨⟨buf, i, i⟩, none, [], [], false, false, []⟩)

structure Inv (es : List UInt8) (s : State) : Prop where
  count : s.tx.count ≤ UART_TX_BUF_SIZE
  order : es = s.thr ++ s.tx.contents
  full : s.asleep ≠ [] → s.tx.Full
  send : s.holder = some .send → ¬s.tx.Empty
  going : s.tx.Empty ∨ s.busy ∨ s.irq ∨ s.holder = some .start ∨ s.holder = some .send

variable {es es' : List UInt8} {s t : State}

theorem Inv.step {pc : Pc} (h : Inv es s) (hpc : s.holder = some pc) : Inv (es ++ (s.step pc).2) (s.step pc).1 := by
  unfold State.step
  cases pc with
  | putc c =>
    by_cases hfull : s.tx.Full
    · simp only [if_pos hfull, append_nil]
      exact ⟨h.count, h.order, fun _ => hfull, nofun, by simpa [hpc] using h.going⟩
    have hlt : s.tx.count < UART_TX_BUF_SIZE :=
      Nat.lt_of_le_of_ne h.count fun heq => hfull ((full_iff (by decide)).mpr heq)
    simp only [if_neg hfull]
    refine ⟨?_, ?_, fun hne => absurd (h.full hne) hfull, nofun, by simp⟩
    · rw [count_push (by simp only [UART_TX_BUF_SIZE] at hlt; omega)]
      exact hlt
    · rw [contents_push (by decide) (by decide) hlt, h.order, append_assoc]
  | start =>
    by_cases hempty : s.tx.Empty
    · simp only [if_pos hempty, append_nil]
      exact ⟨h.count, h.order, h.full, nofun, .inl hempty⟩
    by_cases hbusy : s.busy
    · simp only [if_neg hempty, if_pos hbusy, append_nil]
      exact ⟨h.count, h.order, h.full, nofun, .inr (.inl hbusy)⟩
    · simp only [if_neg hempty, if_neg hbusy, append_nil]
      exact ⟨h.count, h.order, h.full, fun _ => hempty, by simp⟩
  | send =>
    have hne : s.tx.count ≠ 0 := fun h0 => h.send hpc (empty_iff.mpr h0)
    have hcount := h.count
    have hpop := count_pop hne
    refine ⟨?_, ?_, fun hnil => absurd rfl hnil, nofun, .inr (.inl rfl)⟩
    · simp only
      omega
    · simp only [append_nil, append_assoc, singleton_append]
      rw [h.order, contents_pop hne]

theorem Inv.move {m : Move} (h : Inv es s) (hm : uart m s = some (t, es')) : Inv (es ++ es') t := by
  have hgoing := h.going
  cases m with
  | step =>
    obtain ⟨pc, hpc, heq⟩ := Option.map_eq_some_iff.mp hm
    have hstep := h.step hpc
    rwa [heq] at hstep
  | sent =>
    obtain ⟨-, hm⟩ := Option.ite_none_right_eq_some.mp hm
    cases hm
    rw [append_nil]
    exact ⟨h.count, h.order, h.full, h.send, .inr (.inr (.inl rfl))⟩
  | uartputcSync =>
    cases hm
    rw [append_nil]
    exact ⟨h.count, h.order, h.full, h.send, .inr (.inl rfl)⟩
  | uartputc c | uartintr | wake c =>
    obtain ⟨hfree, hm⟩ := Option.ite_none_right_eq_some.mp hm
    cases hm
    rw [append_nil]
    exact ⟨h.count, h.order, h.full, nofun, by simp_all⟩

theorem trace_inv : Inv (trace buf i ms).1 (trace buf i ms).2 := by
  refine foldlRecOn (motive := fun r : List UInt8 × State => Inv r.1 r.2) ms _ ?_ fun r h m _ => ?_
  · have hempty : Empty (⟨buf, i, i⟩ : RingBuffer UInt8 64 UART_TX_BUF_SIZE) := rfl
    have hcount := empty_iff.mp hempty
    refine ⟨hcount.trans_le (by decide), ?_, fun hne => absurd rfl hne, nofun, .inl hempty⟩
    rw [contents, hcount]
    rfl
  · cases hm : uart m r.2 with
    | none => exact h
    | some r' => exact h.move hm

-- What uartstart has written to THR and what is in the buffer are the characters that uartputc
-- has put there, in this order.
theorem transmit_in_order : (trace buf i ms).1 = (trace buf i ms).2.thr ++ (trace buf i ms).2.tx.contents ∧
      (trace buf i ms).2.tx.contents.length ≤ UART_TX_BUF_SIZE := by
  have h := trace_inv buf i ms
  refine ⟨h.order, ?_⟩
  rw [contents_length]
  exact h.count

-- A process sleeps in uartputc only while the buffer is full, and nobody leaves characters in it
-- unless an interrupt will come for them.
theorem transmit_goes_on : ((trace buf i ms).2.asleep ≠ [] → (trace buf i ms).2.tx.Full) ∧
      ((trace buf i ms).2.holder = none → ¬(trace buf i ms).2.tx.Empty →
        (trace buf i ms).2.busy ∨ (trace buf i ms).2.irq) := by
  have h := trace_inv buf i ms
  refine ⟨h.full, fun hfree hne => ?_⟩
  have hgoing := h.going
  simpa [hfree, hne] using hgoing

end Uart
