import ClientHints.Json.Value

set_option autoImplicit false

namespace ClientHints

inductive Path where
  | root
  | member (parent : Path) (name : String)
  | item (parent : Path) (index : Nat)
deriving DecidableEq, Repr

namespace Path

def text : Path → String
  | .root => "$"
  | .member .root name => name
  | .member parent name => parent.text ++ "." ++ name
  | .item parent index => parent.text ++ "[" ++ toString index ++ "]"

end Path

inductive Expectation where
  | object
  | array
  | string
  | printable
  | boolean
  | objectOrString
  | arrayOrString
  | zeroOrOne
deriving DecidableEq, Repr

def Expectation.text : Expectation → String
  | .object => "object"
  | .array => "array"
  | .string => "string"
  | .printable => "sf-string"
  | .boolean => "boolean"
  | .objectOrString => "object or string"
  | .arrayOrString => "array or string"
  | .zeroOrOne => "0 or 1"

structure ShapeFault where
  path : Path
  expected : Expectation
  found : Option Json.Kind
deriving DecidableEq, Repr

def ShapeFault.message (fault : ShapeFault) : String :=
  let found := match fault.found with
    | some kind => kind.name
    | none => "nothing"
  "Unexpected shape for '" ++ fault.path.text ++ "': expected " ++ fault.expected.text ++ ", found "
    ++ found

end ClientHints
