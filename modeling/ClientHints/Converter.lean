import ClientHints.Document
import ClientHints.Schema.Basic

set_option autoImplicit false

namespace ClientHints

inductive Event where
  | ignored (schema : Format) (member : String)
  | converted (format : Format) (entries : Nat)
  | rejected (format : Format) (rejection : Rejection)
deriving DecidableEq, Repr

namespace Event

inductive Level where
  | trace
  | debug
deriving DecidableEq, Repr

def level : Event → Level
  | .ignored _ _ => .trace
  | .converted _ _ => .debug
  | .rejected _ _ => .debug

def message : Event → String
  | .ignored _ _ => "ignoring unrecognized hint"
  | .converted _ _ => "client hints transformed"
  | .rejected _ _ => "client hints rejected"

inductive Detail where
  | text (value : String)
  | count (value : Nat)
deriving DecidableEq, Repr

def fields : Event → List (String × Detail)
  | .ignored schema member => [("format", .text schema.name), ("key", .text member)]
  | .converted format entries => [("format", .text format.name), ("entries", .count entries)]
  | .rejected format rejection =>
    [("format", .text format.name), ("code", .text rejection.code), ("error", .text rejection.message)]

end Event

structure Outcome where
  evidence : Evidence
  rejection : Option Rejection
  events : List Event
deriving DecidableEq, Repr

structure Converter where
  -- How many entries to make room for; it changes no result.
  capacity : UInt32
  limits : Limits
deriving DecidableEq, Repr

namespace Converter

def standard : Converter := ⟨0, Limits.standard⟩

def version : String := "0.1.0"

def decodeBase64 (text : Bytes) : Except Rejection Bytes :=
  match Base64.decode text with
  | .ok octets => .ok octets
  | .error fault => .error (.malformedBase64 fault)

def document (c : Converter) (format : Format) (input : Bytes) : Except Rejection Json :=
  match format with
  | .ghev | .sua => Document.load c.limits input
  | .ghevBase64 => do
    Document.checkSize c.limits input.length
    let text ← decodeBase64 input
    Document.load c.limits text

def ignored (schema : Schema) : Json → List Event
  | .object members => (schema.unknown members).map (Event.ignored schema.format)
  | _ => []

def reject (format : Format) (rejection : Rejection) (evidence : Evidence) : Outcome :=
  ⟨evidence.clear, some rejection, [.rejected format rejection]⟩

def convertInto (c : Converter) (format : Format) (input : String) (evidence : Evidence) : Outcome :=
  let cleared := evidence.clear
  match c.document format (Utf8.encode input) with
  | .error rejection => reject format rejection cleared
  | .ok root =>
    match format.schema.record root cleared with
    | (written, none) =>
      ⟨written, none, ignored format.schema root ++ [.converted format written.size]⟩
    | (written, some fault) => reject format (.unexpectedShape fault) written

def convert (c : Converter) (format : Format) (input : String) : Except Rejection Evidence :=
  let outcome := c.convertInto format input Evidence.empty
  match outcome.rejection with
  | none => .ok outcome.evidence
  | some rejection => .error rejection

end Converter

end ClientHints
