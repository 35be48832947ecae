import ClientHints.Hint
import ClientHints.Schema.Shape

/-!
The two documents that carry client hints, as tables: which member has which shape and which hint it
gives. The high-entropy values come from a browser's script interface, the structured user agent from a
bid request. A schema reads a document member by member and stops at the first fault.
-/

set_option autoImplicit false

namespace ClientHints

inductive Format where
  | ghev
  | ghevBase64
  | sua
deriving DecidableEq, Repr

namespace Format

def all : List Format := [.ghev, .ghevBase64, .sua]

def name : Format → String
  | .ghev => "ghev"
  | .ghevBase64 => "ghev-base64"
  | .sua => "sua"

end Format

structure Field where
  member : String
  hint : Hint
  shape : Shape
deriving DecidableEq, Repr

def Content.hints (hint : Hint) : Content → List (Hint × String)
  | .brands list => [(hint, StructuredField.brands list)]
  | .text value => [(hint, StructuredField.string value)]
  | .boolean value => [(hint, StructuredField.boolean value)]
  | .strings list => [(hint, StructuredField.strings list)]
  | .platform brand =>
    (hint, StructuredField.string brand.name) ::
      brand.version.toList.map fun version => (.platformVersion, StructuredField.string version)
  | .version value => value.toList.map fun version => (hint, StructuredField.string version)

def Field.hints (field : Field) (members : Json.Members) : Except ShapeFault (List (Hint × String)) :=
  match Schema.present? field.member members with
  | some value => (field.shape.read (.member .root field.member) value).map (Content.hints field.hint)
  | none => .ok []

structure Schema where
  format : Format
  fields : List Field
  -- Members that are recognized and give no hint.
  unused : List String
deriving DecidableEq, Repr

namespace Schema

def ghev : Schema where
  format := .ghev
  fields := [
    ⟨"brands", .ua, .brands .plain⟩,
    ⟨"fullVersionList", .fullVersionList, .brands .plain⟩,
    ⟨"uaFullVersion", .fullVersion, .text⟩,
    ⟨"platform", .platform, .text⟩,
    ⟨"platformVersion", .platformVersion, .text⟩,
    ⟨"architecture", .arch, .text⟩,
    ⟨"bitness", .bitness, .text⟩,
    ⟨"model", .model, .text⟩,
    ⟨"mobile", .mobile, .boolean⟩,
    ⟨"wow64", .wow64, .boolean⟩,
    ⟨"formFactors", .formFactors, .strings⟩]
  unused := []

-- A version of its own wins over the one that the platform brings along.
def sua : Schema where
  format := .sua
  fields := [
    ⟨"browsers", .fullVersionList, .brands .dotted⟩,
    ⟨"platform", .platform, .platform⟩,
    ⟨"platformVersion", .platformVersion, .version⟩,
    ⟨"architecture", .arch, .text⟩,
    ⟨"bitness", .bitness, .text⟩,
    ⟨"model", .model, .text⟩,
    ⟨"mobile", .mobile, .flag⟩]
  unused := ["source"]

def recognizes (schema : Schema) (member : String) : Bool :=
  schema.fields.any (fun field => field.member == member) || schema.unused.contains member

def unknown (schema : Schema) (members : Json.Members) : List String :=
  members.keys.filter fun member => !schema.recognizes member

def collect (members : Json.Members) : List Field → List (Hint × String) × Option ShapeFault
  | [] => ([], none)
  | field :: rest => match field.hints members with
    | .ok given =>
      let others := collect members rest
      (given ++ others.1, others.2)
    | .error fault => ([], some fault)

def hints (schema : Schema) (document : Json) : List (Hint × String) × Option ShapeFault :=
  match document with
  | .object members => collect members schema.fields
  | other => ([], some ⟨.root, .object, some other.kind⟩)

-- What was given before a fault stays.
def record (schema : Schema) (document : Json) (evidence : Evidence) : Evidence × Option ShapeFault :=
  let given := schema.hints document
  (evidence.extend (given.1.map fun (hint, value) => (hint.evidenceKey, value)), given.2)

end Schema

def Format.schema : Format → Schema
  | .ghev => .ghev
  | .ghevBase64 => .ghev
  | .sua => .sua

end ClientHints
