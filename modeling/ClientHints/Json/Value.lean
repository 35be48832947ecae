import ClientHints.Json.Scalar

/-!
The tree of a JSON document. The members of an object stand in the order of their keys, one member to
a key; `Members.ofList` makes them so, the last of several members with one key taking the place.
-/

set_option autoImplicit false

namespace ClientHints

inductive Json where
  | null
  | bool (value : Bool)
  | number (value : Json.Number)
  | string (value : String)
  | array (items : List Json)
  | object (members : List (String × Json))

namespace Json

abbrev Members := List (String × Json)

inductive Kind where
  | null
  | boolean
  | number
  | string
  | array
  | object
deriving DecidableEq, Repr

def Kind.name : Kind → String
  | .null => "null"
  | .boolean => "boolean"
  | .number => "number"
  | .string => "string"
  | .array => "array"
  | .object => "object"

def kind : Json → Kind
  | .null => .null
  | .bool _ => .boolean
  | .number _ => .number
  | .string _ => .string
  | .array _ => .array
  | .object _ => .object

def isNull : Json → Bool
  | .null => true
  | _ => false

def string? : Json → Option String
  | .string text => some text
  | _ => none

def bool? : Json → Option Bool
  | .bool value => some value
  | _ => none

def items? : Json → Option (List Json)
  | .array items => some items
  | _ => none

def members? : Json → Option Members
  | .object members => some members
  | _ => none

namespace Members

def insert (key : String) (value : Json) : Members → Members
  | [] => [(key, value)]
  | (other, old) :: rest =>
    if key < other then (key, value) :: (other, old) :: rest
    else if key = other then (key, value) :: rest
    else (other, old) :: insert key value rest

def ofList (members : List (String × Json)) : Members :=
  members.foldl (fun sorted member => insert member.1 member.2 sorted) []

def get? (key : String) (members : Members) : Option Json :=
  members.lookup key

def keys (members : Members) : List String :=
  members.map Prod.fst

end Members

def get? (key : String) : Json → Option Json
  | .object members => Members.get? key members
  | _ => none

def follow? (value : Json) : List String → Option Json
  | [] => some value
  | key :: keys => match value.get? key with
    | some inner => inner.follow? keys
    | none => none

mutual

def depth : Json → Nat
  | .array items => 1 + depthOfItems items
  | .object members => 1 + depthOfMembers members
  | _ => 0

def depthOfItems : List Json → Nat
  | [] => 0
  | item :: rest => max item.depth (depthOfItems rest)

def depthOfMembers : List (String × Json) → Nat
  | [] => 0
  | (_, value) :: rest => max value.depth (depthOfMembers rest)

end

mutual

def same : Json → Json → Bool
  | .null, .null => true
  | .bool a, .bool b => a == b
  | .number a, .number b => a.same b
  | .string a, .string b => a == b
  | .array a, .array b => sameItems a b
  | .object a, .object b => sameMembers a b
  | _, _ => false

def sameItems : List Json → List Json → Bool
  | [], [] => true
  | a :: xs, b :: ys => same a b && sameItems xs ys
  | _, _ => false

def sameMembers : List (String × Json) → List (String × Json) → Bool
  | [], [] => true
  | (k, a) :: xs, (l, b) :: ys => k == l && same a b && sameMembers xs ys
  | _, _ => false

end

def octetsMessage : String :=
  "invalid type: byte array, expected any JSON value"

def ofScalar? : Scalar → Option Json
  | .unit => some .null
  | .absent => some .null
  | .float word => match Binary64.ofBits? word with
    | some x => some (.number (.float x))
    | none => some .null
  | .whole value => some (.number (.whole value))
  | .text value => some (.string value)
  | .char value => some (.string (String.ofList [value]))
  | .octets => none

end Json

end ClientHints
