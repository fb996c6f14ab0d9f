import BorealOS.Threading.Stack
import BorealOS.Utility.Formatter

/-! Logging as the source does it. `LOG_MESSAGE` has `LogFmt` write the prefix and the
text of a message while it holds the log lock, and writes the end of the line after
the lock is given back. The serial port has a lock of its own, so what one call of
`Core::Write` hands over arrives whole; everything else mixes in any order. -/
namespace BorealOS.Logging

open Threading Utility.Formatter

inductive LogLevel where
  | debug
  | info
  | warning
  | error
  | fatal
deriving DecidableEq, Repr

def LogLevel.toNat : LogLevel → Nat
  | .debug => 0
  | .info => 1
  | .warning => 2
  | .error => 3
  | .fatal => 4

def logMessage (minimumLogLevel level : LogLevel) : Bool :=
  if LogLevel.error.toNat ≤ level.toNat then true
  else if minimumLogLevel.toNat ≤ level.toNat then true
  else false

/-- The colours of `ANSI::Colors::Foreground` by their last digit. -/
def foreground (digit : Char) : List UInt8 := ascii ['\x1b','[','3',digit,'m']

def LogLevel.color : LogLevel → List UInt8
  | .debug => foreground '6'
  | .info => foreground '2'
  | .warning => foreground '3'
  | .error => foreground '1'
  | .fatal => foreground '1'

def defaultColor : List UInt8 := foreground '7'

def LogLevel.levelStr : LogLevel → List UInt8
  | .debug => ascii ['D','E','B','U','G']
  | .info => ascii ['I','N','F','O']
  | .warning => ascii ['W','A','R','N','I','N','G']
  | .error => ascii ['E','R','R','O','R']
  | .fatal => ascii ['F','A','T','A','L']

/-- One use of `LOG_MESSAGE`: its level, the text of its place in the source, and what
`Format` hands to the writer, call by call. -/
structure Message where
  level : LogLevel
  file : List UInt8
  text : List (List UInt8)
deriving DecidableEq, Repr

/-- What `LogFmt` hands to the writer, call by call. -/
def Message.chunks (message : Message) : List (List UInt8) :=
  [ascii ['['],message.level.color,message.level.levelStr,defaultColor,ascii [']',' '],message.file,ascii [' ','-',' ']] ++
    message.text

def lineEnd : List UInt8 := ascii ['\n','\r']

def Message.record (message : Message) : List UInt8 := message.chunks.flatten ++ lineEnd

/-- How far a context is with a message: nothing to log, or the calls of the writer
that `LogFmt` has still to make. -/
inductive Stage where
  | idle
  | logging (message : Message) (left : List (List UInt8))
deriving DecidableEq, Repr

/-- The steps of a context: it calls `LOG_MESSAGE`, `LogFmt` asks for the lock, writes
and ends its scope, and the end of the line is written. -/
inductive LogEvent where
  | call (message : Message)
  | lock
  | write
  | unlock
  | endLine
  | proceed
  | changeFlag (interrupts : Bool)
  | interrupt
  | resume
deriving DecidableEq, Repr

/-- The step of the threads that belongs to a step of the running context, and what
the port receives. -/
def translate (minimumLogLevel : LogLevel) (context : Context Unit Stage) :
    LogEvent → Option (Event Unit Stage × List UInt8)
  | .call message =>
    if context.task = .idle ∧ logMessage minimumLogLevel message.level then
      some (.work (.logging message message.chunks),[])
    else none
  | .lock =>
    match context.task with
    | .logging _ (_ :: _) => if context.sections = [] then some (.enter (),[]) else none
    | _ => none
  | .write =>
    match context.task with
    | .logging message (chunk :: left) =>
      if context.sections ≠ [] then some (.work (.logging message left),chunk) else none
    | _ => none
  | .unlock =>
    match context.task with
    | .logging _ [] => some (.exit,[])
    | _ => none
  | .endLine =>
    match context.task with
    | .logging _ [] => if context.sections = [] then some (.work .idle,lineEnd) else none
    | _ => none
  | .proceed => some (.proceed,[])
  | .changeFlag interrupts => if context.task = .idle then some (.changeFlag interrupts,[]) else none
  | .interrupt => some (.interrupt .idle,[])
  | .resume => if context.task = .idle then some (.resume,[]) else none

/-- The processors, the bytes that the debug port has received, and the messages in
the order of their calls with the place of the caller. -/
structure LogMachine (Id : Type) where
  threads : Machine Id Unit Stage
  port : List UInt8
  issued : List ((Id × Nat) × Message)

namespace LogMachine
variable {Id : Type}

def called (place : Id × Nat) : LogEvent → List ((Id × Nat) × Message)
  | .call message => [(place,message)]
  | _ => []

def step [DecidableEq Id] (minimumLogLevel : LogLevel) (log : LogMachine Id) (label : Id × LogEvent) :
    Option (LogMachine Id) := do
  let (event,bytes) ← translate minimumLogLevel (log.threads.processors label.1).running label.2
  let threads ← log.threads.step true (label.1,event)
  return ⟨threads,log.port ++ bytes,log.issued ++ called (log.threads.top label.1) label.2⟩

structure Initial (log : LogMachine Id) : Prop where
  threads : log.threads.Initial
  idle : ∀ id, (log.threads.processors id).running.task = .idle
  port : log.port = []
  issued : log.issued = []

end LogMachine

end BorealOS.Logging
