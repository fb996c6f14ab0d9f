import BorealOS.Utility.Formatter

/-! The kernel's command line as the source takes it apart: `SplitArguments`,
`Initialize` and the four instances of `GetValue`. The calls of
`LOG_ERROR` are the list of the identifiers they report. -/
namespace BorealOS.Utility

open ByteObject

def space : UInt8 := ' '.toUInt8

def quotation : UInt8 := '"'.toUInt8

def equals : UInt8 := '='.toUInt8

namespace StringView

def contentsLoop (view : StringView) : (remaining i : Nat) → Except Fault (List UInt8)
  | 0, _ => return []
  | remaining + 1, i => return (← view.data.read i) :: (← contentsLoop view remaining (i + 1))

def contents (view : StringView) : Except Fault (List UInt8) := contentsLoop view view.size 0

end StringView

/-- A slot of the output array is written. Without an array there is nothing to do. -/
def storeArgument (out : Option (List StringView)) (count : Nat) (argument : StringView) :
    Except Fault (Option (List StringView)) :=
  match out with
  | none => return none
  | some slots => if count < slots.length then return some (slots.set count argument) else throw .outOfBounds

/-- The inner loop of `SplitArguments`: it passes the spaces from `pos` on, of which there
are at most `remaining`. -/
def skipSpaces (src : StringView) : (remaining pos : Nat) → Except Fault Nat
  | 0, pos => do
    if ← (src.substring pos 1).equal (.literal [space]) then throw .endlessLoop
    else return pos
  | remaining + 1, pos => do
    if ← (src.substring pos 1).equal (.literal [space]) then skipSpaces src remaining (pos + 1)
    else return pos

structure SplitState (σ : Type) where
  count : Nat
  pos : Nat
  previouspos : Nat
  out : σ

/-! What the writes to `out` do is a parameter. The code stores into its array; the same
code can also list its writes. -/

section Store
variable {σ : Type} (store : σ → Nat → StringView → Except Fault σ)

/-- The branch of the loop that ends an argument at a space outside of quotes. -/
def endArgument (src : StringView) (s : SplitState σ) (quotes : Bool) : Except Fault (SplitState σ) := do
  if (← (src.substring s.pos 1).equal (.literal [space])) && !quotes then
    let out ← store s.out s.count (src.substring s.previouspos (s.pos - s.previouspos))
    let pos ← skipSpaces src (src.size - (s.pos + 1)) (s.pos + 1)
    return { count := s.count + 1, pos := pos, previouspos := s.pos + 1, out := out }
  return s

/-- The outer loop of `SplitArguments`, with a bound on its rounds. -/
def splitLoop (src : StringView) : (rounds : Nat) → SplitState σ → (quotes : Bool) → Except Fault (Nat × σ)
  | 0, s, _ => if src.size < s.pos then return (s.count,s.out) else throw .endlessLoop
  | rounds + 1, s, quotes => do
    if src.size < s.pos then return (s.count,s.out)
    if s.pos = src.size then
      return (s.count,← store s.out s.count (src.substring s.previouspos (s.pos - s.previouspos)))
    let s ← endArgument store src s quotes
    let quote ← (src.substring s.pos 1).equal (.literal [quotation])
    splitLoop src rounds { s with pos := s.pos + 1 } (if quote then !quotes else quotes)

/-- Each round moves `pos` on, so `src.size + 1` rounds are enough. -/
def splitInto (src : StringView) (out : σ) : Except Fault (Nat × σ) := do
  let (count,out) ← splitLoop store src (src.size + 1) ⟨0,0,0,out⟩ false
  return (count + 1,out)

end Store

def splitArguments (src : StringView) (out : Option (List StringView)) : Except Fault (Nat × Option (List StringView)) :=
  splitInto storeArgument src out

/-- The count and the writes of `SplitArguments`, each with its index. -/
def splitWrites (src : StringView) : Except Fault (Nat × List (Nat × StringView)) :=
  splitInto (fun writes count argument => return writes ++ [(count,argument)]) src []

/-- The counting pass, and the filling pass over an array of that many blank views. -/
def arguments (cmdline : StringView) : Except Fault (List StringView) := do
  let (argCount,_) ← splitArguments cmdline none
  let (_,args) ← splitArguments cmdline (some (List.replicate argCount .blank))
  return args.getD []

def hasIdentifier (ident : StringView) : List StringView → Except Fault Bool
  | [] => return false
  | other :: array => do
    if ← other.equal ident then return true
    hasIdentifier ident array

/-- The identifier that `Initialize` takes from an argument. -/
def identifierOf (arg : StringView) : Except Fault StringView := do
  if 0 < (← arg.countOf (.literal [equals])) then
    return arg.substring 0 (← arg.indexOf (.literal [equals]))
  return arg

/-- The loop of `Initialize`, which answers the identifiers that occur again. -/
def checkIdentifiers (uniqueIdentifiers : List StringView) : List StringView → Except Fault (List (List UInt8))
  | [] => return []
  | arg :: args => do
    let ident ← identifierOf arg
    if ← hasIdentifier ident uniqueIdentifiers then
      return (← ident.contents) :: (← checkIdentifiers uniqueIdentifiers args)
    checkIdentifiers (uniqueIdentifiers ++ [ident]) args

structure CommandLineExtractor where
  response : Option CString
  hasCommandLine : Bool
deriving DecidableEq, Repr

namespace CommandLineExtractor

def cmdline (extractor : CommandLineExtractor) : Except Fault StringView :=
  match extractor.response with
  | none => throw .nullDereference
  | some line => StringView.ofPointer line.pointer

def isSilent : Option CString → Except Fault Bool
  | none => return true
  | some line => return (← strlen line.pointer) = 0

/-- `Initialize` with the response of the boot loader. A silent response does not end
the call, and the flag is set again at the end. -/
def initializeFrom (response : Option CString) : Except Fault (CommandLineExtractor × List (List UInt8)) := do
  let extractor : CommandLineExtractor := { response := response, hasCommandLine := !(← isSilent response) }
  let (argCount,_) ← splitArguments (← extractor.cmdline) none
  let (_,args) ← splitArguments (← extractor.cmdline) (some (List.replicate argCount .blank))
  let reported ← checkIdentifiers [] (args.getD [])
  return ({ extractor with hasCommandLine := true },reported)

/-- The frame of the four instances of `GetValue` around their loops. -/
def search {α : Type} (loop : StringView → List StringView → Except Fault (Option α))
    (extractor : CommandLineExtractor) (identifier : StringView) : Except Fault (Option α) := do
  if !extractor.hasCommandLine then return none
  loop identifier (← arguments (← extractor.cmdline))

def valueOf (arg : StringView) : Except Fault StringView := do
  return arg.substringFrom (((← arg.indexOf (.literal [equals])) + 1) % 2^64)

def boolLoop (identifier : StringView) : List StringView → Except Fault (Option Bool)
  | [] => return some false
  | arg :: args => do
    if ← arg.equal identifier then return some true
    let ident := arg.substring 0 (← arg.indexOf (.literal [equals]))
    if !(← ident.equal identifier) then boolLoop identifier args
    else
      if 0 < (← arg.countOf (.literal [equals])) then
        let (parsed,value) ← Formatter.parseBool (← valueOf arg) false
        return if parsed then some value else none
      else boolLoop identifier args

def integerLoop {α : Type} [Inhabited α] (parse : StringView → α → Except Fault (Bool × α)) (identifier : StringView) :
    List StringView → Except Fault (Option α)
  | [] => return none
  | arg :: args => do
    if (← arg.indexOf (.literal [equals])) = StringView.npos then integerLoop parse identifier args
    else
      let ident := arg.substring 0 (← arg.indexOf (.literal [equals]))
      if !(← ident.equal identifier) then integerLoop parse identifier args
      else
        if 0 < (← arg.countOf (.literal [equals])) then
          let (parsed,value) ← parse (← valueOf arg) default
          return if parsed then some value else none
        else integerLoop parse identifier args

def stringLoop (identifier : StringView) : List StringView → Except Fault (Option StringView)
  | [] => return none
  | arg :: args => do
    if (← arg.indexOf (.literal [equals])) = StringView.npos then stringLoop identifier args
    else
      let ident := arg.substring 0 (← arg.indexOf (.literal [equals]))
      if !(← ident.equal identifier) then stringLoop identifier args
      else
        let value ← valueOf arg
        let value := if ← (value.substring 0 1).equal (.literal [quotation]) then
            value.substring 1 ((value.size + 2^64 - 2) % 2^64)
          else value
        return if 0 < value.size then some value else none

def getValueBool : CommandLineExtractor → StringView → Except Fault (Option Bool) := search boolLoop

def getValueUInt64 : CommandLineExtractor → StringView → Except Fault (Option Word) :=
  search (integerLoop Formatter.parseUInt64)

def getValueInt64 : CommandLineExtractor → StringView → Except Fault (Option Int) :=
  search (integerLoop Formatter.parseInt64)

def getValueStringView : CommandLineExtractor → StringView → Except Fault (Option StringView) := search stringLoop

end CommandLineExtractor

end BorealOS.Utility
