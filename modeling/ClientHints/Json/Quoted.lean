import ClientHints.Json.Fault

/-!
Strings of a JSON text, octet by octet after the opening quote. What the string spells is collected as
octets, escapes being replaced by their characters, and is checked as UTF-8 at the closing quote.
-/

set_option autoImplicit false

namespace ClientHints.Json

inductive Quoted.Stage where
  | plain
  | escape
  -- Within the four digits of an escape, those read standing newest first; `high` is the first half
  -- of a surrogate pair, if that was read before.
  | hex (high : Option Nat) (digits : List UInt8)
  | pairBackslash (high : Nat)
  | pairLetter (high : Nat)
deriving DecidableEq, Repr

structure Quoted where
  -- What the string spells so far, newest octet first.
  content : Bytes
  stage : Quoted.Stage
deriving DecidableEq, Repr

namespace Quoted

inductive Step where
  | more (q : Quoted)
  | closed (text : String)
  | refused (reason : Reason) (back : Nat)

def start : Quoted := ⟨[], .plain⟩

def escaped? (b : UInt8) : Option UInt8 :=
  if b = 0x22 then some 0x22
  else if b = 0x5C then some 0x5C
  else if b = 0x2F then some 0x2F
  else if b = 0x62 then some 0x08
  else if b = 0x66 then some 0x0C
  else if b = 0x6E then some 0x0A
  else if b = 0x72 then some 0x0D
  else if b = 0x74 then some 0x09
  else none

def hexDigit? (b : UInt8) : Option Nat :=
  if 0x30 ≤ b && b ≤ 0x39 then some (b.toNat - 0x30)
  else if 0x41 ≤ b && b ≤ 0x46 then some (b.toNat - 0x37)
  else if 0x61 ≤ b && b ≤ 0x66 then some (b.toNat - 0x57)
  else none

def hexValue? : List UInt8 → Option Nat
  | [] => some 0
  | b :: rest => do
    let above ← hexValue? rest
    let digit ← hexDigit? b
    pure (above * 16 + digit)

def push (content : Bytes) (point : Nat) : Quoted :=
  ⟨(String.utf8EncodeChar (Char.ofNat point)).reverse ++ content, .plain⟩

def unit (content : Bytes) (high : Option Nat) (value : Nat) : Step :=
  let isHigh := 0xD800 ≤ value && value ≤ 0xDBFF
  let isLow := 0xDC00 ≤ value && value ≤ 0xDFFF
  match high with
  | none =>
    if isLow then .refused .loneSurrogate 0
    else if isHigh then .more ⟨content, .pairBackslash value⟩
    else .more (push content value)
  | some first =>
    if isLow then .more (push content (0x10000 + (first - 0xD800) * 0x400 + (value - 0xDC00)))
    else .refused .loneSurrogate 0

-- A fault is placed before the octets that cannot be read.
def close (content : Bytes) : Step :=
  match Utf8.decode content.reverse with
  | .ok text => .closed text
  | .error readable => .refused .invalidUnicode (content.length - readable)

def step (q : Quoted) (b : UInt8) : Step :=
  match q.stage with
  | .plain =>
    if b = 0x22 then close q.content
    else if b = 0x5C then .more { q with stage := .escape }
    else if b < 0x20 then .refused .controlCharacter 0
    else .more { q with content := b :: q.content }
  | .escape =>
    if b = 0x75 then .more { q with stage := .hex none [] }
    else match escaped? b with
      | some plain => .more ⟨plain :: q.content, .plain⟩
      | none => .refused .invalidEscape 0
  | .hex high digits =>
    if digits.length < 3 then .more { q with stage := .hex high (b :: digits) }
    else match hexValue? (b :: digits) with
      | some value => unit q.content high value
      | none => .refused .invalidEscape 0
  | .pairBackslash high =>
    if b = 0x5C then .more { q with stage := .pairLetter high }
    else .refused .unfinishedPair 0
  | .pairLetter high =>
    if b = 0x75 then .more { q with stage := .hex (some high) [] }
    else .refused .unfinishedPair 0

end Quoted

end ClientHints.Json
