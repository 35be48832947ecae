import ClientHints.CommandLine.Options
import ClientHints.Schema.Basic

set_option autoImplicit false

namespace ClientHints

namespace CommandLine

inductive Source where
  | standardInput
  | file (path : String)
deriving DecidableEq, Repr

-- A dash stands for standard input, and an empty path for nothing.
def Source.ofPath? (path : String) : Option Source :=
  if path = "" then none else if path = "-" then some .standardInput else some (.file path)

structure Conversion where
  format : Format
  source : Source
  pretty : Bool
  capacity : UInt32
  inputSize : Option UInt64
deriving DecidableEq, Repr

inductive Command where
  | convert (conversion : Conversion)
  | encode (source : Source)
  | hints (json : Bool)
  | version
deriving DecidableEq, Repr

def natural? (digits : List Char) : Option Nat :=
  if digits.isEmpty then none
  else digits.foldlM
    (fun value c => if c.isDigit then some (value * 10 + (c.toNat - '0'.toNat)) else none) 0

def unsigned? : List Char → Option Nat
  | '+' :: digits => natural? digits
  | digits => natural? digits

def signed? : List Char → Option Int
  | '-' :: digits => (natural? digits).map fun n => -Int.ofNat n
  | digits => (unsigned? digits).map Int.ofNat

def capacity? (text : String) : Option UInt32 :=
  match signed? text.toList with
  | some n => if 0 ≤ n && n.toNat < UInt32.size then some (UInt32.ofNat n.toNat) else none
  | none => none

def inputSize? (text : String) : Option UInt64 :=
  match unsigned? text.toList with
  | some n => if n < UInt64.size then some (UInt64.ofNat n) else none
  | none => none

def inputOption : OptionName := ⟨"input", some 'i', true⟩

def conversionOptions : List OptionName :=
  [⟨"format", some 'f', true⟩, inputOption, ⟨"pretty", none, false⟩,
    ⟨"capacity", none, true⟩, ⟨"max-input-bytes", none, true⟩]

def source? (given : Given) : Option Source :=
  Source.ofPath? ((given.value? inputOption.name).getD "-")

def conversion? (given : Given) : Option Conversion := do
  let format ← given.value? "format"
  let format ← Format.all.find? fun known => known.name == format
  let source ← source? given
  let capacity ← match given.value? "capacity" with
    | some text => capacity? text
    | none => some 16
  let inputSize ← match given.value? "max-input-bytes" with
    | some text => (inputSize? text).map some
    | none => some none
  return ⟨format, source, given.has "pretty", capacity, inputSize⟩

def asksVersion (text : String) : Bool :=
  text == "--version" || ['-', 'V'].isPrefixOf text.toList

def Command.ofArguments? : List String → Option Command
  | [] => none
  | "transform" :: arguments => do
    let given ← scan conversionOptions arguments
    let conversion ← conversion? given
    return .convert conversion
  | "encode" :: arguments => do
    let given ← scan [inputOption] arguments
    let source ← source? given
    return .encode source
  | "hints" :: arguments => do
    let given ← scan [⟨"json", none, false⟩] arguments
    return .hints (given.has "json")
  | other :: _ => if asksVersion other then some .version else none

end CommandLine

end ClientHints
