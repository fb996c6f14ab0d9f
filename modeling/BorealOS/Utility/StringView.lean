import BorealOS.Library.ByteObject

/-! The string helpers as the source computes them: the C string functions and
`StringView`. Sizes are natural numbers, and a difference that can drop below
zero is taken modulo 2^64. -/
namespace BorealOS.Utility

open ByteObject

/-- A byte string with a terminator, as a literal or the boot loader has it. -/
structure CString where
  text : List UInt8
  unbroken : 0 ∉ text
  small : text.length < 2^63
deriving DecidableEq, Repr

def CString.pointer (string : CString) : Pointer := ⟨string.text ++ [0],0⟩

/-- The loop of `strlen` and of `StringLength` over the bytes ahead. -/
def lengthLoop : List UInt8 → Except Fault Nat
  | [] => throw .outOfBounds
  | byte :: rest => do
    if byte = 0 then return 0
    return (← lengthLoop rest) + 1

/-- The counter of `strlen` is an `int`. -/
def strlen (str : Pointer) : Except Fault (BitVec 32) := do
  return BitVec.ofNat 32 (← lengthLoop str.bytes)

def stringLength (str : Pointer) : Except Fault Nat := lengthLoop str.bytes

def strncmpLoop (s1 s2 : Pointer) : (remaining i : Nat) → Except Fault Int
  | 0, _ => return 0
  | remaining + 1, i => do
    if (← s1.read i) ≠ (← s2.read i) then return ((← s1.read i).toNat : Int) - (← s2.read i).toNat
    if (← s1.read i) = 0 then return 0
    strncmpLoop s1 s2 remaining (i + 1)

def strncmp (s1 s2 : Pointer) (n : Nat) : Except Fault Int := strncmpLoop s1 s2 n 0

structure StringView where
  data : Pointer
  size : Nat
deriving DecidableEq, Repr

namespace StringView

def npos : Nat := 2^64 - 1

def blank : StringView := ⟨⟨[0],0⟩,0⟩

def ofPointer (data : Pointer) : Except Fault StringView := do
  return ⟨data,← stringLength data⟩

def literal (text : List UInt8) : StringView := ⟨⟨text ++ [0],0⟩,text.length⟩

def equal (view other : StringView) : Except Fault Bool := do
  if view.size ≠ other.size then return false
  return (← strncmp view.data other.data view.size) = 0

def substring (view : StringView) (start length : Nat) : StringView :=
  if view.size ≤ start then ⟨view.data.advance view.size,0⟩ else ⟨view.data.advance start,length⟩

def substringFrom (view : StringView) (start : Nat) : StringView :=
  if view.size ≤ start then ⟨view.data.advance view.size,0⟩ else ⟨view.data.advance start,view.size - start⟩

/-- The loop of `CountOf`. A match skips the needle; an empty needle skips nothing,
and then no number of rounds is enough. -/
def countLoop (view needle : StringView) : (rounds i count : Nat) → Except Fault Nat
  | 0, i, count => if i < view.size then throw .endlessLoop else return count
  | rounds + 1, i, count => do
    if view.size ≤ i then return count
    if (← strncmp (view.data.advance i) needle.data needle.size) = 0 then
      countLoop view needle rounds (i + needle.size) (count + 1)
    else countLoop view needle rounds (i + 1) count

def countOf (view needle : StringView) : Except Fault Nat := countLoop view needle view.size 0 0

/-- The loop of `IndexOf` up to the index `last`. The index itself has 64 bits, so
it cannot pass the greatest number. -/
def indexLoop (view needle : StringView) (last : Nat) : (remaining i : Nat) → Except Fault Nat
  | 0, _ => if last = npos then throw .endlessLoop else return npos
  | remaining + 1, i => do
    if (← strncmp (view.data.advance i) needle.data needle.size) = 0 then return i
    indexLoop view needle last remaining (i + 1)

/-- The last index to try is computed modulo 2^64, so a view shorter than the
needle has no last index inside of it. -/
def indexOf (view needle : StringView) : Except Fault Nat :=
  let last := (view.size + 2^64 - needle.size) % 2^64
  indexLoop view needle last (last + 1) 0

end StringView

end BorealOS.Utility
