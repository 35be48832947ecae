import ClientHints.Base64.Codec
import ClientHints.Json.Reader
import ClientHints.Schema.Path

set_option autoImplicit false

namespace ClientHints

structure Limits where
  -- The greatest size of a text in octets.
  inputSize : UInt64
  nestingDepth : UInt64
deriving DecidableEq, Repr

namespace Limits

def standard : Limits := ⟨65536, 16⟩

def unbounded : Limits := ⟨18446744073709551615, 18446744073709551615⟩

end Limits

inductive Resource where
  | inputSize
  | nestingDepth
deriving DecidableEq, Repr

def Resource.text : Resource → String
  | .inputSize => "input size"
  | .nestingDepth => "nesting depth"

inductive Rejection where
  | malformedJson (reason : Json.Reason) (place : Json.Place)
  | malformedBase64 (fault : Base64.Fault)
  | unexpectedShape (fault : ShapeFault)
  | resourceLimit (resource : Resource) (actual : Nat) (limit : UInt64)
deriving DecidableEq, Repr

namespace Rejection

def code : Rejection → String
  | .malformedJson _ _ => "MALFORMED_JSON"
  | .malformedBase64 _ => "MALFORMED_BASE64"
  | .unexpectedShape _ => "UNEXPECTED_SHAPE"
  | .resourceLimit _ _ _ => "RESOURCE_LIMIT"

def message : Rejection → String
  | .malformedJson reason place =>
    let line := toString place.line
    let column := toString place.column
    "Malformed JSON at line " ++ line ++ ", column " ++ column ++ ": " ++ reason.text ++ " at line "
      ++ line ++ " column " ++ column
  | .malformedBase64 fault => "Malformed Base64: " ++ fault.message
  | .unexpectedShape fault => fault.message
  | .resourceLimit resource actual limit =>
    "Resource limit exceeded: " ++ resource.text ++ " is " ++ toString actual ++ ", limit is "
      ++ toString limit.toNat

end Rejection

namespace Document

def checkSize (limits : Limits) (size : Nat) : Except Rejection Unit :=
  if limits.inputSize.toNat < size then .error (.resourceLimit .inputSize size limits.inputSize)
  else .ok ()

def checkDepth (limits : Limits) (document : Json) : Except Rejection Json :=
  if limits.nestingDepth.toNat < document.depth then
    .error (.resourceLimit .nestingDepth document.depth limits.nestingDepth)
  else .ok document

def parse (text : Bytes) : Except Rejection Json :=
  match Json.read text with
  | .ok document => .ok document
  | .error fault => .error (.malformedJson fault.reason (fault.place text))

def load (limits : Limits) (text : Bytes) : Except Rejection Json := do
  checkSize limits text.length
  let document ← parse text
  checkDepth limits document

end Document

end ClientHints
