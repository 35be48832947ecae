import ClientHints.Json.Value
import ClientHints.Text
import Mathlib.Data.Nat.Digits.Defs

/-!
JSON texts as a grammar over octets, and what they mean. A text is the writing of a tree whose objects
hold all members that stand there, in the order in which they stand there; the tree that such a writing
settles to has one member for each key, the last one.
-/

set_option autoImplicit false

namespace ClientHints.Json

namespace Grammar

def IsSpacing (octets : Bytes) : Prop :=
  ∀ b ∈ octets, b = 0x20 ∨ b = 0x09 ∨ b = 0x0A ∨ b = 0x0D

section Strings

def shortEscapes : List (UInt8 × Char) :=
  [(0x22, '"'), (0x5C, '\\'), (0x2F, '/'), (0x62, '\x08'), (0x66, '\x0c'), (0x6E, '\n'), (0x72, '\r'), (0x74, '\t')]

def WritesHexDigit (b : UInt8) (value : Nat) : Prop :=
  value < 16 ∧ (b.toNat = (Nat.digitChar value).toNat ∨ b.toNat = (Nat.digitChar value).toUpper.toNat)

inductive WritesUnit : Bytes → Nat → Prop where
  | digits {a b c d : UInt8} {w x y z : Nat} (first : WritesHexDigit a w) (second : WritesHexDigit b x)
      (third : WritesHexDigit c y) (fourth : WritesHexDigit d z) :
      WritesUnit [a, b, c, d] (((w * 16 + x) * 16 + y) * 16 + z)

def IsHighSurrogate (unit : Nat) : Prop := 0xD800 ≤ unit ∧ unit ≤ 0xDBFF

def IsLowSurrogate (unit : Nat) : Prop := 0xDC00 ≤ unit ∧ unit ≤ 0xDFFF

inductive WritesChar : Bytes → Char → Prop where
  | plain (c : Char) (visible : 0x20 ≤ c.toNat) (noQuote : c ≠ '"') (noBackslash : c ≠ '\\') :
      WritesChar (String.utf8EncodeChar c) c
  | short {letter : UInt8} {c : Char} (known : (letter, c) ∈ shortEscapes) : WritesChar [0x5C, letter] c
  | unit {digits : Bytes} {value : Nat} (written : WritesUnit digits value) (noHigh : ¬IsHighSurrogate value)
      (noLow : ¬IsLowSurrogate value) : WritesChar ([0x5C, 0x75] ++ digits) (Char.ofNat value)
  | pair {digits others : Bytes} {high low : Nat} (first : WritesUnit digits high) (second : WritesUnit others low)
      (isHigh : IsHighSurrogate high) (isLow : IsLowSurrogate low) :
      WritesChar ([0x5C, 0x75] ++ digits ++ [0x5C, 0x75] ++ others)
        (Char.ofNat (0x10000 + (high - 0xD800) * 0x400 + (low - 0xDC00)))

inductive WritesChars : Bytes → List Char → Prop where
  | nil : WritesChars [] []
  | cons {front rest : Bytes} {c : Char} {chars : List Char} (first : WritesChar front c)
      (others : WritesChars rest chars) : WritesChars (front ++ rest) (c :: chars)

inductive WritesString : Bytes → String → Prop where
  | quoted {octets : Bytes} {chars : List Char} (inside : WritesChars octets chars) :
      WritesString ([0x22] ++ octets ++ [0x22]) (String.ofList chars)

end Strings

section Literals

inductive WritesDigits : Bytes → List Nat → Prop where
  | digits {values : List Nat} (nonempty : values ≠ []) (bounds : ∀ value ∈ values, value < 10) :
      WritesDigits (values.map fun value => UInt8.ofNat (0x30 + value)) values

inductive WritesSign : Bytes → Bool → Prop where
  | none : WritesSign [] false
  | minus : WritesSign [0x2D] true

-- A zero stands first only if it stands alone.
inductive WritesWhole : Bytes → List Nat → Prop where
  | digits {octets : Bytes} {values : List Nat} (written : WritesDigits octets values)
      (leading : values.head? = some 0 → values = [0]) : WritesWhole octets values

inductive WritesFraction : Bytes → List Nat → Prop where
  | none : WritesFraction [] []
  | point {octets : Bytes} {values : List Nat} (written : WritesDigits octets values) :
      WritesFraction ([0x2E] ++ octets) values

inductive WritesPower : Bytes → Option (Bool × Nat) → Prop where
  | none : WritesPower [] none
  | power {mark : UInt8} {sign octets : Bytes} {negative : Bool} {values : List Nat} (marked : mark = 0x65 ∨ mark = 0x45)
      (signed : WritesSign sign negative ∨ sign = [0x2B] ∧ negative = false) (written : WritesDigits octets values) :
      WritesPower ([mark] ++ sign ++ octets) (some (negative, Nat.ofDigits 10 values.reverse))

inductive WritesLiteral : Bytes → Literal → Prop where
  | parts {sign whole fraction power : Bytes} {negative : Bool} {before after : List Nat} {exponent : Option (Bool × Nat)}
      (signed : WritesSign sign negative) (first : WritesWhole whole before) (second : WritesFraction fraction after)
      (third : WritesPower power exponent) :
      WritesLiteral (sign ++ whole ++ fraction ++ power) ⟨negative, before.reverse, after.reverse, exponent⟩

end Literals

end Grammar

namespace Literal

def amount (l : Literal) : Nat :=
  Nat.ofDigits 10 l.whole

def integer (l : Literal) : Int :=
  if l.negative then -(l.amount : Int) else l.amount

-- A whole number of a machine word, written as one. Zero with a minus sign is none.
structure IsInteger (l : Literal) : Prop where
  noFraction : l.fraction = []
  noPower : l.power = none
  least : -2 ^ 63 ≤ l.integer
  greatest : l.integer < 2 ^ 64
  noMinusZero : l.negative = true → l.integer ≠ 0

def convert? (l : Literal) : Option Number :=
  if l.overflows then none else l.float?

inductive Denotes (l : Literal) : Number → Prop where
  | integer (exact : l.IsInteger) : Denotes l (.whole l.integer)
  | converted {number : Number} (other : ¬l.IsInteger) (found : l.convert? = some number) : Denotes l number

end Literal

namespace Grammar

mutual

inductive WritesValue : Bytes → Json → Prop where
  | null : WritesValue [0x6E, 0x75, 0x6C, 0x6C] .null
  | yes : WritesValue [0x74, 0x72, 0x75, 0x65] (.bool true)
  | no : WritesValue [0x66, 0x61, 0x6C, 0x73, 0x65] (.bool false)
  | number {octets : Bytes} {l : Literal} {number : Number} (written : WritesLiteral octets l)
      (denoted : l.Denotes number) : WritesValue octets (.number number)
  | string {octets : Bytes} {text : String} (written : WritesString octets text) : WritesValue octets (.string text)
  | emptyArray {spacing : Bytes} (blank : IsSpacing spacing) : WritesValue ([0x5B] ++ spacing ++ [0x5D]) (.array [])
  | array {octets : Bytes} {items : List Json} (written : WritesItems octets items) :
      WritesValue ([0x5B] ++ octets ++ [0x5D]) (.array items)
  | emptyObject {spacing : Bytes} (blank : IsSpacing spacing) : WritesValue ([0x7B] ++ spacing ++ [0x7D]) (.object [])
  | object {octets : Bytes} {members : List (String × Json)} (written : WritesMembers octets members) :
      WritesValue ([0x7B] ++ octets ++ [0x7D]) (.object members)

inductive WritesItem : Bytes → Json → Prop where
  | spaced {before octets after : Bytes} {value : Json} (left : IsSpacing before) (written : WritesValue octets value)
      (right : IsSpacing after) : WritesItem (before ++ octets ++ after) value

inductive WritesItems : Bytes → List Json → Prop where
  | one {octets : Bytes} {value : Json} (written : WritesItem octets value) : WritesItems octets [value]
  | more {front octets : Bytes} {items : List Json} {value : Json} (others : WritesItems front items)
      (written : WritesItem octets value) : WritesItems (front ++ [0x2C] ++ octets) (items ++ [value])

inductive WritesMember : Bytes → String × Json → Prop where
  | keyed {before name after octets : Bytes} {key : String} {value : Json} (left : IsSpacing before)
      (named : WritesString name key) (right : IsSpacing after) (written : WritesItem octets value) :
      WritesMember (before ++ name ++ after ++ [0x3A] ++ octets) (key, value)

inductive WritesMembers : Bytes → List (String × Json) → Prop where
  | one {octets : Bytes} {member : String × Json} (written : WritesMember octets member) : WritesMembers octets [member]
  | more {front octets : Bytes} {members : List (String × Json)} {member : String × Json}
      (others : WritesMembers front members) (written : WritesMember octets member) :
      WritesMembers (front ++ [0x2C] ++ octets) (members ++ [member])

end

end Grammar

-- One member for each key, in the order of the keys: the last one that was written with it.
structure Members.IsLatest (written members : List (String × Json)) : Prop where
  ordered : members.Pairwise fun earlier later => earlier.1 < later.1
  latest : ∀ key, members.lookup key = written.reverse.lookup key

mutual

inductive Settles : Json → Json → Prop where
  | null : Settles .null .null
  | bool (value : Bool) : Settles (.bool value) (.bool value)
  | number (value : Number) : Settles (.number value) (.number value)
  | string (value : String) : Settles (.string value) (.string value)
  | array {written items : List Json} (each : SettlesItems written items) : Settles (.array written) (.array items)
  | object {written settled members : List (String × Json)} (each : SettlesMembers written settled)
      (latest : Members.IsLatest settled members) : Settles (.object written) (.object members)

inductive SettlesItems : List Json → List Json → Prop where
  | nil : SettlesItems [] []
  | cons {written value : Json} {others items : List Json} (first : Settles written value)
      (rest : SettlesItems others items) : SettlesItems (written :: others) (value :: items)

inductive SettlesMembers : List (String × Json) → List (String × Json) → Prop where
  | nil : SettlesMembers [] []
  | cons {key : String} {written value : Json} {others members : List (String × Json)} (first : Settles written value)
      (rest : SettlesMembers others members) : SettlesMembers ((key, written) :: others) ((key, value) :: members)

end

end ClientHints.Json
