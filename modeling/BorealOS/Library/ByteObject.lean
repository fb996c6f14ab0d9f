import Mathlib

/-! Reads from and writes to objects made of bytes. A pointer knows the object it points into,
and an access outside of the object is a fault that ends the computation. A loop
that never ends is a fault too. -/
namespace ByteObject

inductive Fault where
  | nullDereference
  | outOfBounds
  | endlessLoop
deriving DecidableEq, Repr

structure Pointer where
  object : List UInt8
  offset : Nat
deriving DecidableEq, Repr

variable {α β : Type}

@[simp] theorem ok_bind (value : α) (next : α → Except Fault β) : (Except.ok value >>= next) = next value := rfl

@[simp] theorem error_bind (fault : Fault) (next : α → Except Fault β) : (Except.error fault >>= next) = .error fault := rfl

@[simp] theorem pure_eq_ok (value : α) : (pure value : Except Fault α) = .ok value := rfl

@[simp] theorem throw_eq_error (fault : Fault) : (throw fault : Except Fault α) = .error fault := rfl

namespace Pointer

def advance (pointer : Pointer) (count : Nat) : Pointer := { pointer with offset := pointer.offset + count }

def bytes (pointer : Pointer) : List UInt8 := pointer.object.drop pointer.offset

def read (pointer : Pointer) (index : Nat) : Except Fault UInt8 :=
  match pointer.object[pointer.offset + index]? with
  | some byte => .ok byte
  | none => .error .outOfBounds

@[simp] theorem bytes_advance (pointer : Pointer) (count : Nat) :
    (pointer.advance count).bytes = pointer.bytes.drop count := by
  simp [bytes,advance,List.drop_drop]

theorem read_of_some {pointer : Pointer} {index : Nat} {byte : UInt8} (here : pointer.bytes[index]? = some byte) :
    pointer.read index = .ok byte := by
  rw [bytes,List.getElem?_drop] at here
  simp [read,here]

theorem read_of_none {pointer : Pointer} {index : Nat} (outside : pointer.bytes[index]? = none) :
    pointer.read index = .error .outOfBounds := by
  rw [bytes,List.getElem?_drop] at outside
  simp [read,outside]

end Pointer

def write (object : List UInt8) (index : Nat) (byte : UInt8) : Except Fault (List UInt8) :=
  if index < object.length then .ok (object.set index byte) else .error .outOfBounds

theorem write_append (front : List UInt8) (old byte : UInt8) (back : List UInt8) :
    write (front ++ old::back) front.length byte = .ok (front ++ byte::back) := by
  simp [write]

end ByteObject
