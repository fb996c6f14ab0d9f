import BorealOS.Threading.Sections

/-! The serial port: the registers of the device as `outb` and `inb` see them, the
configuration that `Initialize` writes, and `Write`, which hands over one byte whenever
the transmit buffer is empty. The device sends what it holds at times of its own. -/
namespace BorealOS.IO

open Threading

/-- The line settings under which a byte is sent: the divisor of the clock, and the word
length, parity and stop bits of the line control register. -/
structure LineSettings where
  divisor : BitVec 16
  format : BitVec 7
deriving DecidableEq, Repr

/-- The registers of the device, the bytes its buffer holds, what it has sent, and what
it has received. -/
structure UART where
  interruptEnable : UInt8
  divisorLow : UInt8
  divisorHigh : UInt8
  fifoControl : UInt8
  lineControl : UInt8
  modemControl : UInt8
  holding : List UInt8
  sent : List (LineSettings × UInt8)
  received : List UInt8
deriving DecidableEq, Repr

namespace UART

/-- Bit 7 of the line control register puts the divisor in place of the first two
registers. -/
def divisorLatch (uart : UART) : Bool := uart.lineControl.toBitVec.getLsbD 7

def settings (uart : UART) : LineSettings :=
  ⟨uart.divisorHigh.toBitVec ++ uart.divisorLow.toBitVec,uart.lineControl.toBitVec.setWidth 7⟩

/-- The buffer holds sixteen bytes, or one while bit 0 of the FIFO control is clear. -/
def depth (uart : UART) : Nat := if uart.fifoControl.toBitVec.getLsbD 0 then 16 else 1

/-- A byte that finds the buffer full is lost. Bit 2 of the FIFO control empties it. -/
def outb (uart : UART) (offset : Nat) (value : UInt8) : UART :=
  match offset with
  | 0 =>
    if uart.divisorLatch then { uart with divisorLow := value }
    else if uart.holding.length < uart.depth then { uart with holding := uart.holding ++ [value] }
    else uart
  | 1 => if uart.divisorLatch then { uart with divisorHigh := value } else { uart with interruptEnable := value }
  | 2 =>
    { uart with fifoControl := value, holding := if value.toBitVec.getLsbD 2 then [] else uart.holding }
  | 3 => { uart with lineControl := value }
  | 4 => { uart with modemControl := value }
  | _ => uart

/-- The line status: bit 0 for received data and bits 5 and 6 for an empty buffer. -/
def lineStatus (uart : UART) : UInt8 :=
  (if uart.received = [] then 0 else 0x01) ||| (if uart.holding = [] then 0x60 else 0)

end UART

/-- What the device does by itself. -/
inductive LineEvent where
  | shift
  | receive (byte : UInt8)
deriving DecidableEq, Repr

def UART.step (uart : UART) : LineEvent → Option UART
  | .shift =>
    match uart.holding with
    | [] => none
    | byte :: later => some { uart with holding := later, sent := uart.sent ++ [(uart.settings,byte)] }
  | .receive byte => some { uart with received := uart.received ++ [byte] }

namespace Serial

def transmitEmpty (uart : UART) : UInt8 := uart.lineStatus &&& 0x20

def available (uart : UART) : UInt8 := uart.lineStatus &&& 0x01

/-- The loop of `PortExists`, with the retries it has left. -/
def portExists (uart : UART) : Nat → Bool
  | 0 => false
  | retries + 1 => if transmitEmpty uart ≠ 0 then true else portExists uart retries

/-- The registers after `Initialize`, and the entry that `portsInitStatus` gets. -/
def initializePort (uart : UART) : UART × Bool :=
  let uart := uart.outb 1 0x00
  let uart := uart.outb 3 0x80
  let uart := uart.outb 0 0x03
  let uart := uart.outb 1 0x00
  let uart := uart.outb 3 0x03
  let uart := uart.outb 2 0xC7
  let uart := uart.outb 4 0x0B
  (uart,portExists uart 1000)

/-- Where the loop of `Write` is: before the test of the transmit buffer, or before the
`outb` of a byte. -/
inductive WritePoint where
  | poll (left : List UInt8)
  | send (byte : UInt8) (left : List UInt8)
deriving DecidableEq, Repr

def WritePoint.advance (point : WritePoint) (uart : UART) : Option (WritePoint × UART) :=
  match point with
  | .poll [] => none
  | .poll (byte :: left) => some (if transmitEmpty uart = 0 then .poll (byte :: left) else .send byte left,uart)
  | .send byte left => some (.poll left,uart.outb 0 byte)

/-- `Write` of a port that is initialised; its argument is the bytes of `data`. -/
def writeBody : Exclusive.Body (List UInt8) WritePoint UART Unit where
  start := .poll
  advance := WritePoint.advance
  answer
    | .poll [] => some ()
    | _ => none

end Serial

end BorealOS.IO
