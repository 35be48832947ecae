import ClientHints.Schema.Basic
import ClientHints.Proofs.Except
import ClientHints.Proofs.StructuredField.Printable

set_option autoImplicit false

namespace ClientHints

namespace Schema

inductive Spells : Json → String → Prop where
  | string (text : String) (printable : Printable text) : Spells (.string text) text
  | number (number : Json.Number) : Spells (.number number) number.text

inductive SpellsString : Json → String → Prop where
  | string (text : String) (printable : Printable text) : SpellsString (.string text) text

inductive Lists {α : Type} (means : Json → α → Prop) : Json → List α → Prop where
  | array {items : List Json} {list : List α} (each : List.Forall₂ means items list) :
      Lists means (.array items) list

-- An array of components is one version, unless it is empty; then it is none.
inductive SpellsVersion : VersionStyle → Json → Option String → Prop where
  | text {style : VersionStyle} {value : Json} {text : String} (spelled : Spells value text) :
      SpellsVersion style value (some text)
  | empty : SpellsVersion .dotted (.array []) none
  | components {items : List Json} {parts : List String} (each : List.Forall₂ Spells items parts)
      (nonempty : items ≠ []) : SpellsVersion .dotted (.array items) (some (".".intercalate parts))

inductive CarriesVersion (style : VersionStyle) : Option Json → Option String → Prop where
  | absent : CarriesVersion style none none
  | present {value : Json} {version : Option String} (spelled : SpellsVersion style value version) :
      CarriesVersion style (some value) version

inductive NamesBrand (style : VersionStyle) : Json → Brand → Prop where
  | object {members : Json.Members} {name : String} {version : Option String}
      (named : present? "brand" members = some (.string name)) (printable : Printable name)
      (versioned : CarriesVersion style (present? "version" members) version) :
      NamesBrand style (.object members) ⟨name, version⟩

inductive NamesPlatform : Json → Brand → Prop where
  | string (name : String) (printable : Printable name) : NamesPlatform (.string name) ⟨name, none⟩
  | object {value : Json} {brand : Brand} (named : NamesBrand .dotted value brand) : NamesPlatform value brand

inductive IsBoolean : Json → Bool → Prop where
  | bool (value : Bool) : IsBoolean (.bool value) value

inductive IsFlag : Json → Bool → Prop where
  | bool (value : Bool) : IsFlag (.bool value) value
  | zero : IsFlag (.number (.whole 0)) false
  | one : IsFlag (.number (.whole 1)) true

end Schema

open Schema

def Shape.Holds (shape : Shape) (value : Json) (content : Content) : Prop :=
  match shape with
  | .brands style => ∃ list, Lists (NamesBrand style) value list ∧ .brands list = content
  | .text => ∃ text, Spells value text ∧ .text text = content
  | .boolean => ∃ flag, IsBoolean value flag ∧ .boolean flag = content
  | .strings => ∃ list, Lists SpellsString value list ∧ .strings list = content
  | .platform => ∃ brand, NamesPlatform value brand ∧ .platform brand = content
  | .version => ∃ version, SpellsVersion .dotted value version ∧ .version version = content
  | .flag => ∃ flag, IsFlag value flag ∧ .boolean flag = content

namespace Schema

theorem read_printable_ok_iff (path : Path) (text result : String) :
    readPrintable path text = .ok result ↔ result = text ∧ Printable text := by
  rw [readPrintable, ← is_printable_iff]
  split
  · rename_i printable
    simp [printable, eq_comm]
  · rename_i unprintable
    simp [unprintable]

theorem read_text_ok_iff (path : Path) (value : Json) (text : String) :
    readText path value = .ok text ↔ Spells value text := by
  cases value with
  | string written =>
    rw [readText, read_printable_ok_iff]
    constructor
    · rintro ⟨rfl, printable⟩
      exact .string text printable
    · intro spelled
      cases spelled with
      | string _ printable => exact ⟨rfl, printable⟩
  | number number =>
    rw [readText, Except.ok.injEq]
    constructor
    · rintro rfl
      exact .number number
    · intro spelled
      cases spelled
      rfl
  | null | bool | array | object => exact ⟨nofun, nofun⟩

theorem read_string_ok_iff (path : Path) (value : Json) (text : String) :
    readString path value = .ok text ↔ SpellsString value text := by
  cases value with
  | string written =>
    rw [readString, read_printable_ok_iff]
    constructor
    · rintro ⟨rfl, printable⟩
      exact .string text printable
    · intro spelled
      cases spelled with
      | string _ printable => exact ⟨rfl, printable⟩
  | null | bool | number | array | object => exact ⟨nofun, nofun⟩

theorem read_items_ok_iff {α : Type} (read : Path → Json → Reading α) (means : Json → α → Prop)
    (each : ∀ path value result, read path value = .ok result ↔ means value result)
    (path : Path) (value : Json) (list : List α) :
    readItems read path value = .ok list ↔ Lists means value list := by
  cases value with
  | array items =>
    rw [readItems, except_map_m_ok_iff]
    simp only [each]
    have indexed : List.Forall₂ (fun (entry : Json × Nat) result => means entry.1 result) items.zipIdx list ↔
        List.Forall₂ means items list := by
      rw [← List.forall₂_map_left_iff (f := Prod.fst), List.zipIdx_map_fst]
    rw [indexed]
    constructor
    · exact .array
    · rintro ⟨listed⟩
      exact listed
  | null | bool | number | string | object => exact ⟨nofun, nofun⟩

theorem join_components (parts : List String) :
    joinComponents parts = if parts = [] then none else some (".".intercalate parts) := by
  cases parts <;> rfl

theorem read_version_ok_iff (style : VersionStyle) (path : Path) (value : Json) (version : Option String) :
    readVersion style path value = .ok version ↔ SpellsVersion style value version := by
  have spelledText : (readText path value).map some = .ok version ↔
      ∃ text, Spells value text ∧ some text = version := by
    simp only [except_map_ok_iff, read_text_ok_iff]
  have plainly : (∃ text, Spells value text ∧ some text = version) → SpellsVersion style value version := by
    rintro ⟨text, spelled, rfl⟩
    exact .text spelled
  cases style with
  | plain =>
    rw [readVersion, spelledText]
    refine ⟨plainly, ?_⟩
    rintro ⟨spelled⟩
    exact ⟨_, spelled, rfl⟩
  | dotted =>
    cases value with
    | array items =>
      rw [readVersion, except_map_ok_iff]
      simp only [read_items_ok_iff readText Spells read_text_ok_iff, join_components]
      constructor
      · rintro ⟨parts, ⟨listed⟩, rfl⟩
        by_cases empty : items = []
        · subst empty
          cases listed
          exact .empty
        · have filled : parts ≠ [] := by
            rintro rfl
            cases listed
            exact empty rfl
          rw [if_neg filled]
          exact .components listed empty
      · intro spelled
        cases spelled with
        | text spelled => cases spelled
        | empty => exact ⟨[], ⟨.nil⟩, rfl⟩
        | components listed nonempty =>
          refine ⟨_, ⟨listed⟩, if_neg ?_⟩
          rintro rfl
          cases listed
          exact nonempty rfl
    | string | number =>
      rw [readVersion, spelledText]
      refine ⟨plainly, ?_⟩
      rintro ⟨spelled⟩
      exact ⟨_, spelled, rfl⟩
    | null | bool | object =>
      refine ⟨nofun, ?_⟩
      rintro ⟨⟨⟩⟩

theorem read_name_ok_iff (path : Path) (value : Option Json) (name : String) :
    readName path value = .ok name ↔ value = some (.string name) ∧ Printable name := by
  cases value with
  | none => exact ⟨nofun, nofun⟩
  | some found =>
    rw [readName, read_string_ok_iff, Option.some.injEq]
    constructor
    · rintro ⟨_, printable⟩
      exact ⟨rfl, printable⟩
    · rintro ⟨rfl, printable⟩
      exact .string name printable

def readCarried (style : VersionStyle) (path : Path) : Option Json → Reading (Option String)
  | some value => readVersion style path value
  | none => .ok none

theorem read_brand_object (style : VersionStyle) (path : Path) (members : Json.Members) :
    readBrand style path (.object members) =
      readName (.member path "brand") (present? "brand" members) >>= fun name =>
        readCarried style (.member path "version") (present? "version" members) >>= fun version =>
          .ok ⟨name, version⟩ := by
  cases found : present? "version" members <;> simp only [readBrand, found, readCarried]

theorem read_carried_ok_iff (style : VersionStyle) (path : Path) (value : Option Json)
    (version : Option String) :
    readCarried style path value = .ok version ↔ CarriesVersion style value version := by
  cases value with
  | none =>
    rw [readCarried, Except.ok.injEq]
    constructor
    · rintro rfl
      exact .absent
    · rintro ⟨⟩
      rfl
  | some found =>
    rw [readCarried, read_version_ok_iff]
    constructor
    · exact .present
    · intro carried
      cases carried with
      | present spelled => exact spelled

theorem read_brand_ok_iff (style : VersionStyle) (path : Path) (value : Json) (brand : Brand) :
    readBrand style path value = .ok brand ↔ NamesBrand style value brand := by
  cases value with
  | object members =>
    simp only [read_brand_object, except_bind_ok_iff, read_name_ok_iff, read_carried_ok_iff]
    constructor
    · rintro ⟨name, ⟨named, printable⟩, version, carried, same⟩
      cases same
      exact .object named printable carried
    · rintro ⟨named, printable, carried⟩
      exact ⟨_, ⟨named, printable⟩, _, carried, rfl⟩
  | null | bool | number | string | array => exact ⟨nofun, nofun⟩

theorem read_platform_ok_iff (path : Path) (value : Json) (brand : Brand) :
    readPlatform path value = .ok brand ↔ NamesPlatform value brand := by
  cases value with
  | string name =>
    simp only [readPlatform, except_map_ok_iff, read_printable_ok_iff]
    constructor
    · rintro ⟨_, ⟨rfl, printable⟩, rfl⟩
      exact .string _ printable
    · intro named
      cases named with
      | string _ printable => exact ⟨name, ⟨rfl, printable⟩, rfl⟩
      | object named => cases named
  | object members =>
    rw [readPlatform, read_brand_ok_iff]
    refine ⟨.object, ?_⟩
    rintro ⟨⟩
    assumption
  | null | bool | number | array =>
    refine ⟨nofun, fun named => ?_⟩
    cases named with
    | object named => cases named

theorem read_boolean_ok_iff (path : Path) (value : Json) (flag : Bool) :
    readBoolean path value = .ok flag ↔ IsBoolean value flag := by
  cases value with
  | bool found =>
    rw [readBoolean, Except.ok.injEq]
    constructor
    · rintro rfl
      exact .bool found
    · rintro ⟨⟩
      rfl
  | null | number | string | array | object => exact ⟨nofun, nofun⟩

theorem read_flag_ok_iff (path : Path) (value : Json) (flag : Bool) :
    readFlag path value = .ok flag ↔ IsFlag value flag := by
  constructor
  · intro accepted
    unfold readFlag at accepted
    split at accepted
    · cases accepted
      exact .zero
    · cases accepted
      exact .one
    · cases accepted
    · rw [read_boolean_ok_iff] at accepted
      cases accepted
      exact .bool flag
  · rintro ⟨⟩ <;> rfl

end Schema

theorem shape_read_ok_iff (shape : Shape) (path : Path) (value : Json) (content : Content) :
    shape.read path value = .ok content ↔ shape.Holds value content := by
  cases shape with
  | brands style => simp only [Shape.read, Shape.Holds, except_map_ok_iff, read_items_ok_iff _ _ (read_brand_ok_iff style)]
  | text => simp only [Shape.read, Shape.Holds, except_map_ok_iff, read_text_ok_iff]
  | boolean => simp only [Shape.read, Shape.Holds, except_map_ok_iff, read_boolean_ok_iff]
  | strings => simp only [Shape.read, Shape.Holds, except_map_ok_iff, read_items_ok_iff _ _ read_string_ok_iff]
  | platform => simp only [Shape.read, Shape.Holds, except_map_ok_iff, read_platform_ok_iff]
  | version => simp only [Shape.read, Shape.Holds, except_map_ok_iff, read_version_ok_iff]
  | flag => simp only [Shape.read, Shape.Holds, except_map_ok_iff, read_flag_ok_iff]

end ClientHints
