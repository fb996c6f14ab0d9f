import BorealOS.Library.Execution
import BorealOS.Utility.Formatter

/-! The `Write` functions of `Formatter` as the source computes them. A `Writer` is
seen by the bytes it has received, in order, and a read outside of an object ends
the call. -/
namespace BorealOS.Utility.Formatter

open ByteObject Execution

/-- Code that calls a `Writer`. The state is what the writer has received. -/
abbrev WriterM := EStateM Fault (List UInt8)

def checked {α : Type} (result : Except Fault α) : WriterM α := MonadExcept.ofExcept result

@[simp] theorem checked_ok {α : Type} (value : α) (written : List UInt8) :
    checked (.ok value) written = .ok value written := rfl

@[simp] theorem checked_error {α : Type} (fault : Fault) (written : List UInt8) :
    (checked (.error fault) : WriterM α) written = .error fault written := rfl

/-- `out(str, size)` on a literal as long as the size says. -/
def outText (text : List UInt8) : WriterM Unit := modify (· ++ text)

@[simp] theorem outText_apply (text written : List UInt8) : outText text written = .ok () (written ++ text) := rfl

def out (str : Pointer) (size : Nat) : WriterM Unit :=
  if size ≤ str.bytes.length then outText (str.bytes.take size) else throw .outOfBounds

/-- The bytes of `digits`, with the terminator of the literal. -/
def digits : Pointer :=
  ⟨ascii ['0','1','2','3','4','5','6','7','8','9','A','B','C','D','E','F'] ++ [0],0⟩

/-- The first comparison is made on `int`, so it holds of the control characters too. -/
def writeChar (value : UInt8) : WriterM Unit :=
  if (value.toNat : Int) - 32 ≤ 94 ∨ value = '\n'.toUInt8 ∨ value = '\t'.toUInt8 ∨ value = '\r'.toUInt8 then
    outText [value]
  else outText (ascii ['?'])

/-- The loop that fills `tmp`, where `room` more digits fit. The digits stored so far
are listed from the last one down. The base is 10 or 16 at every call. -/
def storeDigits (base : Word) : (room : Nat) → (value : Word) → (tmp : List UInt8) → Except Fault (List UInt8)
  | 0, value, tmp => if 0 < value then throw .outOfBounds else return tmp
  | room + 1, value, tmp => do
    if 0 < value then
      let digit ← digits.read (value % base).toNat
      storeDigits base room (value / base) (digit::tmp)
    else return tmp

def writeUnsigned (value base : Word) : WriterM Unit := do
  if value = 0 then writeChar '0'.toUInt8
  else
    let tmp ← checked (storeDigits base 64 value [])
    runAll writeChar tmp

/-- A value of a signed type is given by its bits. -/
def writeSigned (value : Word) : WriterM Unit := do
  if value.toInt < 0 then
    outText (ascii ['-'])
    writeUnsigned (-value) 10
  else writeUnsigned value 10

inductive Value where
  | uint8 (value : BitVec 8)
  | uint16 (value : BitVec 16)
  | uint32 (value : BitVec 32)
  | uint64 (value : Word)
  | pointer (value : Word)
  | int8 (value : BitVec 8)
  | int16 (value : BitVec 16)
  | int32 (value : BitVec 32)
  | int64 (value : Word)
  | float (bits : BitVec 32)
  | double (bits : Word)
  | bool (value : Bool)
  | char (value : UInt8)
  | string (value : Pointer)
  | view (value : StringView)

/-- What `WriteFloat` and `WriteDouble` do is left open. -/
structure FloatWriter where
  writeFloat : BitVec 32 → WriterM Unit
  writeDouble : Word → WriterM Unit

def writeValue (floats : FloatWriter) : Value → WriterM Unit
  | .uint8 value => writeUnsigned (value.zeroExtend 64) 10
  | .uint16 value => writeUnsigned (value.zeroExtend 64) 10
  | .uint32 value => writeUnsigned (value.zeroExtend 64) 10
  | .uint64 value => writeUnsigned value 10
  | .pointer value => do
    outText (ascii ['0','x'])
    writeUnsigned value 16
  | .int8 value => writeSigned (value.signExtend 64)
  | .int16 value => writeSigned (value.signExtend 64)
  | .int32 value => writeSigned (value.signExtend 64)
  | .int64 value => writeSigned value
  | .float bits => floats.writeFloat bits
  | .double bits => floats.writeDouble bits
  | .bool value => outText (if value then ascii ['t','r','u','e'] else ascii ['f','a','l','s','e'])
  | .char value => writeChar value
  | .string value => do
    let size ← checked (strlen value)
    out value (size.signExtend 64).toNat
  | .view value => out value.data value.size

end BorealOS.Utility.Formatter
