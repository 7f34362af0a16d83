import Xv6.Links
import Xv6.Tiling

-- user/umalloc.c. Addresses are numbers, and memory is seen through its headers. The loops take
-- fuel.

namespace Umalloc

structure Header where
  ptr : Nat
  size : UInt32

-- sizeof(Header)
abbrev HEADER : Nat := 16

structure Heap where
  hdr : Nat → Header
  freep : Nat
  core : List Extent

def Heap.next (h : Heap) (p : Nat) : Nat := (h.hdr p).ptr

def Heap.size (h : Heap) (p : Nat) : UInt32 := (h.hdr p).size

-- p + p->s.size
def Heap.stop (h : Heap) (p : Nat) : Nat := p + HEADER * (h.size p).toNat

def Heap.setPtr (h : Heap) (p q : Nat) : Heap :=
  { h with hdr := Function.update h.hdr p { h.hdr p with ptr := q } }

def Heap.setSize (h : Heap) (p : Nat) (n : UInt32) : Heap :=
  { h with hdr := Function.update h.hdr p { h.hdr p with size := n } }

def Heap.setFreep (h : Heap) (p : Nat) : Heap := { h with freep := p }

def Heap.place (h : Heap) (bp p : Nat) : Bool :=
  (bp > p ∧ bp < h.next p) ∨ (p ≥ h.next p ∧ (bp > p ∨ bp < h.next p))

def joinUpper (h : Heap) (p bp : Nat) : Heap :=
  if h.stop bp = h.next p then
    let h := h.setSize bp (h.size bp + h.size (h.next p))
    h.setPtr bp (h.next (h.next p))
  else h.setPtr bp (h.next p)

def joinLower (h : Heap) (p bp : Nat) : Heap :=
  if h.stop p = bp then
    let h := h.setSize p (h.size p + h.size bp)
    h.setPtr p (h.next bp)
  else h.setPtr p bp

def free (n : Nat) (h : Heap) (ap : Nat) : Option Heap := do
  let bp := ap - HEADER
  let p ← Links.find h.next (h.place bp) n h.freep
  let h := joinUpper h p bp
  let h := joinLower h p bp
  some (h.setFreep p)

abbrev Answers := List (Option Nat)

def morecore (n : Nat) (h : Heap) (nu : UInt32) : Answers → Option (Nat × Heap × Answers)
  | [] => none
  | none :: ans => some (0, h, ans)
  | some p :: ans => do
    let nu := if nu < 4096 then 4096 else nu
    let h := { h with core := ⟨p, nu.toNat * HEADER⟩ :: h.core }
    let h := h.setSize p nu
    let h ← free n h (p + HEADER)
    some (h.freep, h, ans)

-- The block at `p` is large enough: all of it, or its end.
def take (h : Heap) (prevp p : Nat) (nunits : UInt32) : Nat × Heap :=
  if h.size p = nunits then
    let h := h.setPtr prevp (h.next p)
    (p + HEADER, h.setFreep prevp)
  else
    let h := h.setSize p (h.size p - nunits)
    let p := h.stop p
    let h := h.setSize p nunits
    (p + HEADER, h.setFreep prevp)

def search : Nat → Heap → UInt32 → Nat → Nat → Answers → Option (Nat × Heap × Answers)
  | 0, _, _, _, _, _ => none
  | n + 1, h, nunits, prevp, p, ans =>
    if h.size p ≥ nunits then
      let (q, h) := take h prevp p nunits
      some (q, h, ans)
    else if p = h.freep then do
      let (p, h, ans) ← morecore n h nunits ans
      if p = 0 then some (0, h, ans) else search n h nunits p (h.next p) ans
    else search n h nunits p (h.next p) ans

def units (nbytes : UInt32) : Nat := (nbytes.toNat + HEADER - 1) / HEADER + 1

def malloc (base n : Nat) (h : Heap) (nbytes : UInt32) (ans : Answers) : Option (Nat × Heap × Answers) :=
  let nunits := (units nbytes).toUInt32
  let h := if h.freep = 0 then ((h.setFreep base).setPtr base base).setSize base 0 else h
  search n h nunits h.freep (h.next h.freep) ans

inductive Call where
  | malloc (nbytes : UInt32) (ans : Answers)
  | free (ap : Nat)

structure State where
  heap : Heap
  used : List Extent

def perform (base n : Nat) (s : State) : Call → Option (Nat × State)
  | .malloc nbytes ans => do
    let (p, h, _) ← malloc base n s.heap nbytes ans
    if p = 0 then some (0, ⟨h, s.used⟩)
    else some (p, ⟨h, ⟨p - HEADER, HEADER * (h.size (p - HEADER)).toNat⟩ :: s.used⟩)
  | .free ap => do
    let h ← free n s.heap ap
    some (0, ⟨h, s.used.eraseP fun e => e.start + HEADER = ap⟩)

end Umalloc
