import ClientHints.Text

set_option autoImplicit false

namespace ClientHints.Json

inductive Reason where
  | endInList
  | endInObject
  | endInString
  | endInValue
  | expectedColon
  | expectedCommaOrBracket
  | expectedCommaOrBrace
  | expectedIdent
  | expectedValue
  | invalidEscape
  | invalidNumber
  | outOfRange
  | invalidUnicode
  | controlCharacter
  | keyNotString
  | loneSurrogate
  | trailingComma
  | trailingCharacters
  | unfinishedPair
  | tooDeep
deriving DecidableEq, Repr

def Reason.text : Reason → String
  | .endInList => "EOF while parsing a list"
  | .endInObject => "EOF while parsing an object"
  | .endInString => "EOF while parsing a string"
  | .endInValue => "EOF while parsing a value"
  | .expectedColon => "expected `:`"
  | .expectedCommaOrBracket => "expected `,` or `]`"
  | .expectedCommaOrBrace => "expected `,` or `\x7d`"
  | .expectedIdent => "expected ident"
  | .expectedValue => "expected value"
  | .invalidEscape => "invalid escape"
  | .invalidNumber => "invalid number"
  | .outOfRange => "number out of range"
  | .invalidUnicode => "invalid unicode code point"
  | .controlCharacter => "control character (\\u0000-\\u001F) found while parsing a string"
  | .keyNotString => "key must be a string"
  | .loneSurrogate => "lone leading surrogate in hex escape"
  | .trailingComma => "trailing comma"
  | .trailingCharacters => "trailing characters"
  | .unfinishedPair => "unexpected end of hex escape"
  | .tooDeep => "recursion limit exceeded"

structure Place where
  line : Nat
  column : Nat
deriving DecidableEq, Repr

namespace Place

def start : Place := ⟨1, 0⟩

def next (place : Place) (b : UInt8) : Place :=
  if b = 0x0A then ⟨place.line + 1, 0⟩ else ⟨place.line, place.column + 1⟩

def after (octets : Bytes) : Place :=
  octets.foldl next start

end Place

-- A reason, how many octets of the text lie behind the fault, and by how many columns its place is
-- moved back within its line.
structure Fault where
  reason : Reason
  behind : Nat
  back : Nat
deriving DecidableEq, Repr

def Fault.place (fault : Fault) (text : Bytes) : Place :=
  let place := Place.after (text.take (text.length - fault.behind))
  { place with column := place.column - fault.back }

end ClientHints.Json
