import ClientHints.Proofs.Schema.Content

/-!
The documented schemas as rules for the places of a document. A rule asks something of the value at its
place, and has rules for what is inside the value; a violation is a place at which a rule is not met.
-/

set_option autoImplicit false

namespace ClientHints

inductive Step where
  | member (name : String)
  | item (index : Nat)
deriving DecidableEq, Repr

namespace Path

def after (path : Path) : Step → Path
  | .member name => .member path name
  | .item index => .item path index

def extend (path : Path) (steps : List Step) : Path :=
  steps.foldl after path

def steps : Path → List Step
  | .root => []
  | .member parent name => parent.steps ++ [.member name]
  | .item parent index => parent.steps ++ [.item index]

theorem steps_extend (path : Path) (further : List Step) : (path.extend further).steps = path.steps ++ further := by
  induction further generalizing path with
  | nil => exact (List.append_nil _).symm
  | cons step rest ih =>
    have one : (path.after step).steps = path.steps ++ [step] := by cases step <;> rfl
    rw [show path.extend (step :: rest) = (path.after step).extend rest from rfl, ih, one, List.append_assoc]
    rfl

end Path

inductive Rule where
  | document (schema : Schema)
  | shape (shape : Shape)
  | entry (style : VersionStyle)
  | name
deriving DecidableEq, Repr

namespace Rule

def version : VersionStyle → Rule
  | .plain => .shape .text
  | .dotted => .shape .version

def ofString (text : String) : Option Expectation :=
  if StructuredField.isPrintable text then none else some .printable

def misses : Rule → Json → Option Expectation
  | .document _, .object _ => none
  | .document _, _ => some .object
  | .shape (.brands _), .array _ => none
  | .shape (.brands _), _ => some .array
  | .shape .text, .string text => ofString text
  | .shape .text, .number _ => none
  | .shape .text, _ => some .string
  | .shape .boolean, .bool _ => none
  | .shape .boolean, _ => some .boolean
  | .shape .strings, .array _ => none
  | .shape .strings, _ => some .array
  | .shape .platform, .string text => ofString text
  | .shape .platform, .object _ => none
  | .shape .platform, _ => some .objectOrString
  | .shape .version, .array _ => none
  | .shape .version, .string text => ofString text
  | .shape .version, .number _ => none
  | .shape .version, _ => some .arrayOrString
  | .shape .flag, .bool _ => none
  | .shape .flag, .number (.whole 0) => none
  | .shape .flag, .number (.whole 1) => none
  | .shape .flag, .number _ => some .zeroOrOne
  | .shape .flag, _ => some .boolean
  | .entry _, .object _ => none
  | .entry _, _ => some .object
  | .name, .string text => ofString text
  | .name, _ => some .string

inductive Entry : Rule → VersionStyle → Prop where
  | entry (style : VersionStyle) : Entry (.entry style) style
  | platform : Entry (.shape .platform) .dotted

inductive Member : Rule → String → Rule → Prop where
  | field {schema : Schema} {field : Field} (listed : field ∈ schema.fields) :
      Member (.document schema) field.member (.shape field.shape)
  | brand {rule : Rule} {style : VersionStyle} (entry : Entry rule style) : Member rule "brand" .name
  | version {rule : Rule} {style : VersionStyle} (entry : Entry rule style) :
      Member rule "version" (Rule.version style)

inductive Item : Rule → Rule → Prop where
  | brands (style : VersionStyle) : Item (.shape (.brands style)) (.entry style)
  | strings : Item (.shape .strings) .name
  | components : Item (.shape .version) (.shape .text)

end Rule

-- A rule is violated some steps into a value: something is expected there, and a value of another kind or
-- none at all is found. Nothing but a brand has to be there; null counts as absent among members, and as a
-- value among items.
inductive Violates : Rule → Json → List Step → Expectation → Option Json.Kind → Prop where
  | here {rule : Rule} {value : Json} {expected : Expectation} (missed : rule.misses value = some expected) :
      Violates rule value [] expected (some value.kind)
  | missing {rule : Rule} {style : VersionStyle} {members : Json.Members} (entry : rule.Entry style)
      (absent : Schema.present? "brand" members = none) :
      Violates rule (.object members) [.member "brand"] .string none
  | member {rule sub : Rule} {name : String} {members : Json.Members} {value : Json} {steps : List Step}
      {expected : Expectation} {found : Option Json.Kind} (known : rule.Member name sub)
      (present : Schema.present? name members = some value) (inner : Violates sub value steps expected found) :
      Violates rule (.object members) (.member name :: steps) expected found
  | item {rule sub : Rule} {index : Nat} {items : List Json} {value : Json} {steps : List Step}
      {expected : Expectation} {found : Option Json.Kind} (known : rule.Item sub)
      (present : items[index]? = some value) (inner : Violates sub value steps expected found) :
      Violates rule (.array items) (.item index :: steps) expected found

def Json.isScalar : Json → Bool
  | .array _ | .object _ => false
  | _ => true

def Json.reach? : Json → List Step → Option Json
  | value, [] => some value
  | .object members, .member name :: steps => (Members.get? name members).bind fun value => value.reach? steps
  | .array items, .item index :: steps => items[index]?.bind fun value => value.reach? steps
  | _, _ :: _ => none

-- The steps lead to a value of the kind found, or else to a brand that is missing or null.
def Json.Leads (value : Json) (steps : List Step) : Option Json.Kind → Prop
  | some kind => ∃ inside, value.reach? steps = some inside ∧ inside.kind = kind
  | none => ∃ front members, steps = front ++ [.member "brand"] ∧ value.reach? front = some (.object members) ∧
    (Members.get? "brand" members = none ∨ Members.get? "brand" members = some .null)

namespace Rule

theorem member_misses {rule sub : Rule} {name : String} (known : rule.Member name sub) (members : Json.Members) :
    rule.misses (.object members) = none := by
  cases known with
  | field listed => rfl
  | brand entry => cases entry <;> rfl
  | version entry => cases entry <;> rfl

theorem item_misses {rule sub : Rule} (known : rule.Item sub) (items : List Json) :
    rule.misses (.array items) = none := by
  cases known <;> rfl

theorem entry_misses {rule : Rule} {style : VersionStyle} (entry : rule.Entry style) (members : Json.Members) :
    rule.misses (.object members) = none := by
  cases entry <;> rfl

end Rule

section Violations

variable {rule : Rule} {value : Json} {steps : List Step} {expected : Expectation} {found : Option Json.Kind}

theorem violates_missed {wanted : Expectation} (missed : rule.misses value = some wanted)
    (violated : Violates rule value steps expected found) :
    steps = [] ∧ expected = wanted ∧ found = some value.kind := by
  cases violated with
  | here other =>
    rw [missed] at other
    exact ⟨rfl, (Option.some.inj other).symm, rfl⟩
  | missing entry absent =>
    rw [Rule.entry_misses entry] at missed
    cases missed
  | member known present inner =>
    rw [Rule.member_misses known] at missed
    cases missed
  | item known present inner =>
    rw [Rule.item_misses known] at missed
    cases missed

theorem not_violates_scalar (sound : rule.misses value = none) (scalar : value.isScalar = true) :
    ¬ Violates rule value steps expected found := by
  intro violated
  cases violated with
  | here missed =>
    rw [sound] at missed
    cases missed
  | missing entry absent => cases scalar
  | member known present inner => cases scalar
  | item known present inner => cases scalar

theorem violates_items_iff {items : List Json} {sub : Rule} (known : rule.Item sub) :
    Violates rule (.array items) steps expected found ↔
      ∃ entry ∈ items.zipIdx, ∃ rest, steps = .item entry.2 :: rest ∧ Violates sub entry.1 rest expected found := by
  have only {other : Rule} (also : rule.Item other) : other = sub := by cases known <;> cases also <;> rfl
  constructor
  · intro violated
    cases violated with
    | here missed =>
      rw [Rule.item_misses known] at missed
      cases missed
    | item also present inner =>
      rw [only also] at inner
      exact ⟨(_, _), List.mem_zipIdx_iff_getElem?.mpr present, _, rfl, inner⟩
  · rintro ⟨⟨value, index⟩, listed, rest, rfl, inner⟩
    exact .item known (List.mem_zipIdx_iff_getElem?.mp listed) inner

theorem violates_entry_iff {members : Json.Members} {style : VersionStyle} (entry : rule.Entry style) :
    Violates rule (.object members) steps expected found ↔
      ((Schema.present? "brand" members = none ∧ steps = [.member "brand"] ∧ expected = .string ∧ found = none) ∨
        ∃ value ∈ Schema.present? "brand" members, ∃ rest, steps = .member "brand" :: rest ∧
          Violates .name value rest expected found) ∨
      ∃ value ∈ Schema.present? "version" members, ∃ rest, steps = .member "version" :: rest ∧
        Violates (Rule.version style) value rest expected found := by
  have only {other : VersionStyle} (also : rule.Entry other) : other = style := by cases entry <;> cases also <;> rfl
  constructor
  · intro violated
    cases violated with
    | here missed =>
      rw [Rule.entry_misses entry] at missed
      cases missed
    | missing _ absent => exact .inl (.inl ⟨absent, rfl, rfl, rfl⟩)
    | member known present inner =>
      cases known with
      | field listed => cases entry
      | brand _ => exact .inl (.inr ⟨_, present, _, rfl, inner⟩)
      | version also =>
        rw [only also] at inner
        exact .inr ⟨_, present, _, rfl, inner⟩
  · rintro ((⟨absent, rfl, rfl, rfl⟩ | ⟨value, present, rest, rfl, inner⟩) | ⟨value, present, rest, rfl, inner⟩)
    · exact .missing entry absent
    · exact .member (.brand entry) present inner
    · exact .member (.version entry) present inner

theorem violates_document_iff {schema : Schema} {members : Json.Members} :
    Violates (.document schema) (.object members) steps expected found ↔
      ∃ field ∈ schema.fields, ∃ value ∈ Schema.present? field.member members, ∃ rest,
        steps = .member field.member :: rest ∧ Violates (.shape field.shape) value rest expected found := by
  constructor
  · intro violated
    cases violated with
    | here missed => cases missed
    | missing entry absent => cases entry
    | member known present inner =>
      cases known with
      | field listed => exact ⟨_, listed, _, present, _, rfl, inner⟩
      | brand entry => cases entry
      | version entry => cases entry
  · rintro ⟨field, listed, value, present, rest, rfl, inner⟩
    exact .member (.field listed) present inner

theorem present_get {name : String} {members : Json.Members} {value : Json}
    (present : Schema.present? name members = some value) : members.get? name = some value := by
  unfold Schema.present? at present
  split at present
  · cases present
  · exact present

theorem absent_get {name : String} {members : Json.Members} (absent : Schema.present? name members = none) :
    members.get? name = none ∨ members.get? name = some .null := by
  unfold Schema.present? at absent
  split at absent
  · rename_i null
    exact .inr null
  · exact .inl absent

theorem leads_onward {inside : Json} {step : Step} {rest : List Step} (leads : inside.Leads rest found)
    (onward : ∀ rest, value.reach? (step :: rest) = inside.reach? rest) : value.Leads (step :: rest) found := by
  cases found with
  | some kind =>
    obtain ⟨last, reached, same⟩ := leads
    exact ⟨last, (onward rest).trans reached, same⟩
  | none =>
    obtain ⟨front, members, rfl, reached, absent⟩ := leads
    exact ⟨step :: front, members, rfl, (onward front).trans reached, absent⟩

theorem violates_leads (violated : Violates rule value steps expected found) : value.Leads steps found := by
  induction violated with
  | here missed => exact ⟨_, rfl, rfl⟩
  | missing entry absent => exact ⟨[], _, rfl, rfl, absent_get absent⟩
  | member known present inner ih =>
    refine leads_onward ih fun rest => ?_
    rw [Json.reach?, present_get present, Option.bind_some]
  | item known present inner ih =>
    refine leads_onward ih fun rest => ?_
    rw [Json.reach?, present, Option.bind_some]

end Violations

end ClientHints
