import ClientHints.Schema.Path
import ClientHints.StructuredField

/-!
The shapes that members of a document may have, and the content that is read from them. Every text that
is read is printable, so that it can stand in a header. The first fault ends the reading: items come in
their order, and the brand of an entry before its version.
-/

set_option autoImplicit false

namespace ClientHints

inductive VersionStyle where
  | plain
  | dotted
deriving DecidableEq, Repr

inductive Shape where
  | brands (style : VersionStyle)
  | text
  | boolean
  | strings
  | platform
  | version
  | flag
deriving DecidableEq, Repr

inductive Content where
  | brands (list : List Brand)
  | text (value : String)
  | boolean (value : Bool)
  | strings (list : List String)
  | platform (brand : Brand)
  | version (value : Option String)
deriving DecidableEq, Repr

namespace Schema

abbrev Reading := Except ShapeFault

def mismatch {α : Type} (path : Path) (expected : Expectation) (value : Json) : Reading α :=
  .error ⟨path, expected, some value.kind⟩

def present? (name : String) (members : Json.Members) : Option Json :=
  match members.get? name with
  | some .null => none
  | other => other

def readPrintable (path : Path) (text : String) : Reading String :=
  if StructuredField.isPrintable text then .ok text else .error ⟨path, .printable, some .string⟩

def readText (path : Path) (value : Json) : Reading String :=
  match value with
  | .string text => readPrintable path text
  | .number number => .ok number.text
  | other => mismatch path .string other

def readString (path : Path) (value : Json) : Reading String :=
  match value with
  | .string text => readPrintable path text
  | other => mismatch path .string other

def readItems {α : Type} (read : Path → Json → Reading α) (path : Path) (value : Json) :
    Reading (List α) :=
  match value with
  | .array items => items.zipIdx.mapM fun (item, index) => read (.item path index) item
  | other => mismatch path .array other

def joinComponents (components : List String) : Option String :=
  if components.isEmpty then none else some (".".intercalate components)

def readVersion (style : VersionStyle) (path : Path) (value : Json) : Reading (Option String) :=
  match style, value with
  | .plain, value => (readText path value).map some
  | .dotted, .array items => (readItems readText path (.array items)).map joinComponents
  | .dotted, .string text => (readText path (.string text)).map some
  | .dotted, .number number => (readText path (.number number)).map some
  | .dotted, other => mismatch path .arrayOrString other

def readName (path : Path) : Option Json → Reading String
  | some value => readString path value
  | none => .error ⟨path, .string, none⟩

def readBrand (style : VersionStyle) (path : Path) (value : Json) : Reading Brand :=
  match value with
  | .object members => do
    let name ← readName (.member path "brand") (present? "brand" members)
    let version ← match present? "version" members with
      | some version => readVersion style (.member path "version") version
      | none => .ok none
    .ok ⟨name, version⟩
  | other => mismatch path .object other

def readPlatform (path : Path) (value : Json) : Reading Brand :=
  match value with
  | .string text => (readPrintable path text).map fun name => ⟨name, none⟩
  | .object members => readBrand .dotted path (.object members)
  | other => mismatch path .objectOrString other

def readBoolean (path : Path) (value : Json) : Reading Bool :=
  match value with
  | .bool value => .ok value
  | other => mismatch path .boolean other

def readFlag (path : Path) (value : Json) : Reading Bool :=
  match value with
  | .number (.whole 0) => .ok false
  | .number (.whole 1) => .ok true
  | .number number => mismatch path .zeroOrOne (.number number)
  | other => readBoolean path other

end Schema

def Shape.read (shape : Shape) (path : Path) (value : Json) : Except ShapeFault Content :=
  match shape with
  | .brands style => (Schema.readItems (Schema.readBrand style) path value).map .brands
  | .text => (Schema.readText path value).map .text
  | .boolean => (Schema.readBoolean path value).map .boolean
  | .strings => (Schema.readItems Schema.readString path value).map .strings
  | .platform => (Schema.readPlatform path value).map .platform
  | .version => (Schema.readVersion .dotted path value).map .version
  | .flag => (Schema.readFlag path value).map .boolean

end ClientHints
