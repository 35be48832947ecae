import ClientHints.Proofs.Schema.Violation

set_option autoImplicit false

namespace ClientHints

open Violations

namespace Schema

section Document

def Conforms (schema : Schema) (root : Json) : Prop :=
  ∃ members, root = .object members ∧ ∀ field ∈ schema.fields, ∀ value ∈ present? field.member members,
    ∃ content, field.shape.Holds value content

def rank (schema : Schema) : Step → Nat
  | .member name => (schema.fields.map Field.member ++ ["brand", "version"]).idxOf name
  | .item index => index

theorem collect_fault (members : Json.Members) (fields : List Field) :
    (collect members fields).2 = fields.findSome? fun field => faultOf (field.hints members) := by
  induction fields with
  | nil => rfl
  | cons field rest ih =>
    rw [collect, List.findSome?_cons]
    cases field.hints members with
    | ok given => exact ih
    | error fault => rfl

theorem field_fault_none_iff (field : Field) (members : Json.Members) :
    faultOf (field.hints members) = none ↔
      ∀ value ∈ present? field.member members, ∃ content, field.shape.Holds value content := by
  unfold Field.hints
  cases present? field.member members with
  | none => simp [faultOf]
  | some value =>
    simp only [fault_of_map, Option.mem_some_iff, forall_eq', ← shape_read_ok_iff _ (.member .root field.member)]
    cases field.shape.read (.member .root field.member) value <;> simp [faultOf]

theorem record_fault (schema : Schema) (root : Json) (evidence : Evidence) :
    (schema.record root evidence).2 = (schema.hints root).2 := rfl

theorem fault_none_iff (schema : Schema) (root : Json) : (schema.hints root).2 = none ↔ schema.Conforms root := by
  cases root with
  | object members =>
    simp only [hints, collect_fault, List.findSome?_eq_none_iff, field_fault_none_iff]
    constructor
    · exact fun sound => ⟨members, rfl, sound⟩
    · rintro ⟨_, same, sound⟩
      cases same
      exact sound
  | null | bool | number | string | array =>
    refine ⟨nofun, ?_⟩
    rintro ⟨_, ⟨⟩, _⟩

variable {rank : Step → Nat} (ranks : Ranks rank)
include ranks

theorem field_judged (field : Field) (members : Json.Members) :
    Judged rank (fun steps expected found => ∃ value ∈ present? field.member members,
      under (.member field.member) (Violates (.shape field.shape) value) steps expected found) .root
      (faultOf (field.hints members)) := by
  unfold Field.hints
  cases present? field.member members with
  | none => rintro _ _ _ ⟨_, ⟨⟩, _⟩
  | some value =>
    simp only [fault_of_map]
    refine judged_congr (judged_under (shape_follows ranks field.shape (Path.root.after (.member field.member)) value)) ?_
    intro steps expected found
    simp

theorem document_judged (schema : Schema)
    (apart : schema.fields.Pairwise fun a b => rank (.member a.member) < rank (.member b.member)) (root : Json) :
    Judged rank (Violates (.document schema) root) .root (schema.hints root).2 := by
  cases root with
  | object members =>
    rw [hints, collect_fault]
    have judged : Judged rank (fun steps expected found => ∃ field ∈ schema.fields, ∃ value ∈ present? field.member members,
        under (.member field.member) (Violates (.shape field.shape) value) steps expected found) .root
        (schema.fields.findSome? fun field => faultOf (field.hints members)) := by
      apply judged_each
      · exact fun field _ => field_judged ranks field members
      · refine apart.imp ?_
        rintro a b before _ _ _ _ _ _ ⟨_, _, first⟩ ⟨_, _, second⟩
        exact ahead_under before _ _ _ _ _ _ first second
    exact judged_congr judged fun _ _ _ => violates_document_iff
  | null | bool | number | string | array => exact judged_miss rfl

end Document

section Keys

variable {value : Json} {steps : List Step} {expected : Expectation} {found : Option Json.Kind}

inductive InEntry : List Step → Prop where
  | brand : InEntry [.member "brand"]
  | version : InEntry [.member "version"]
  | component (index : Nat) : InEntry [.member "version", .item index]

theorem name_steps (violated : Violates .name value steps expected found) : steps = [] := by
  cases violated with
  | here missed => rfl
  | missing entry absent => cases entry
  | member known present inner => cases known <;> rename_i entry <;> cases entry
  | item known present inner => cases known

theorem text_steps (violated : Violates (.shape .text) value steps expected found) : steps = [] := by
  cases violated with
  | here missed => rfl
  | missing entry absent => cases entry
  | member known present inner => cases known <;> rename_i entry <;> cases entry
  | item known present inner => cases known

theorem version_steps {style : VersionStyle} (violated : Violates (Rule.version style) value steps expected found) :
    steps = [] ∨ ∃ index, steps = [.item index] := by
  cases style with
  | plain => exact .inl (text_steps violated)
  | dotted =>
    cases violated with
    | here missed => exact .inl rfl
    | missing entry absent => cases entry
    | member known present inner => cases known <;> rename_i entry <;> cases entry
    | item known present inner =>
      cases known
      rw [text_steps inner]
      exact .inr ⟨_, rfl⟩

theorem entry_steps {rule : Rule} {style : VersionStyle} (entry : rule.Entry style)
    (violated : Violates rule value steps expected found) : steps = [] ∨ InEntry steps := by
  cases violated with
  | here missed => exact .inl rfl
  | missing _ absent => exact .inr .brand
  | member known present inner =>
    cases known with
    | field listed => cases entry
    | brand _ =>
      rw [name_steps inner]
      exact .inr .brand
    | version _ =>
      rcases version_steps inner with rfl | ⟨index, rfl⟩
      · exact .inr .version
      · exact .inr (.component index)
  | item known present inner => cases known <;> cases entry

theorem shape_steps {shape : Shape} (violated : Violates (.shape shape) value steps expected found) :
    steps = [] ∨ (∃ index, steps = [.item index]) ∨ InEntry steps ∨ ∃ index rest, steps = .item index :: rest ∧ InEntry rest := by
  cases violated with
  | here missed => exact .inl rfl
  | missing entry absent => exact .inr (.inr (.inl .brand))
  | member known present inner =>
    have entry : (Rule.shape shape).Entry .dotted := by cases known <;> rename_i entry <;> cases entry <;> exact .platform
    exact (entry_steps entry (.member known present inner)).imp_right fun inside => .inr (.inl inside)
  | item known present inner =>
    cases known with
    | brands style =>
      rcases entry_steps (.entry style) inner with rfl | inside
      · exact .inr (.inl ⟨_, rfl⟩)
      · exact .inr (.inr (.inr ⟨_, _, rfl, inside⟩))
    | strings =>
      rw [name_steps inner]
      exact .inr (.inl ⟨_, rfl⟩)
    | components =>
      rw [text_steps inner]
      exact .inr (.inl ⟨_, rfl⟩)

inductive Key : List Step → String → Prop where
  | root : Key [] "$"
  | member (name : String) : Key [.member name] name
  | item (name : String) (i : Nat) : Key [.member name, .item i] (name ++ "[" ++ toString i ++ "]")
  | itemBrand (name : String) (i : Nat) :
      Key [.member name, .item i, .member "brand"] (name ++ "[" ++ toString i ++ "].brand")
  | itemVersion (name : String) (i : Nat) :
      Key [.member name, .item i, .member "version"] (name ++ "[" ++ toString i ++ "].version")
  | itemComponent (name : String) (i j : Nat) :
      Key [.member name, .item i, .member "version", .item j]
        (name ++ "[" ++ toString i ++ "].version[" ++ toString j ++ "]")
  | brand (name : String) : Key [.member name, .member "brand"] (name ++ ".brand")
  | version (name : String) : Key [.member name, .member "version"] (name ++ ".version")
  | component (name : String) (j : Nat) :
      Key [.member name, .member "version", .item j] (name ++ ".version[" ++ toString j ++ "]")

theorem violates_key {schema : Schema} {root : Json} (violated : Violates (.document schema) root steps expected found) :
    Key steps (Path.root.extend steps).text := by
  cases violated with
  | here missed => exact .root
  | missing entry absent => cases entry
  | item known present inner => cases known
  | member known present inner =>
    cases known with
    | brand entry => cases entry
    | version entry => cases entry
    | field listed =>
      rename_i field
      rcases shape_steps inner with rfl | ⟨i, rfl⟩ | inside | ⟨i, rest, rfl, inside⟩
      · exact .member field.member
      · exact .item field.member i
      · have text (name : String) : (Path.root.extend [.member field.member, .member name]).text =
            field.member ++ ("." ++ name) := String.append_assoc
        cases inside with
        | brand => exact text "brand" ▸ .brand field.member
        | version => exact text "version" ▸ .version field.member
        | component j =>
          have longer : (Path.root.extend [.member field.member, .member "version", .item j]).text =
              field.member ++ ".version[" ++ toString j ++ "]" := by
            change (Path.root.extend [.member field.member, .member "version"]).text ++ "[" ++ toString j ++ "]" = _
            have bracket : field.member ++ ("." ++ "version") ++ "[" = field.member ++ ".version[" := String.append_assoc
            rw [text, bracket]
          exact longer ▸ .component field.member j
      · have text (name : String) : (Path.root.extend [.member field.member, .item i, .member name]).text =
            field.member ++ "[" ++ toString i ++ ("]" ++ ("." ++ name)) := by
          change field.member ++ "[" ++ toString i ++ "]" ++ "." ++ name = _
          simp only [String.append_assoc]
        cases inside with
        | brand => exact text "brand" ▸ .itemBrand field.member i
        | version => exact text "version" ▸ .itemVersion field.member i
        | component j =>
          have longer : (Path.root.extend [.member field.member, .item i, .member "version", .item j]).text =
              field.member ++ "[" ++ toString i ++ "].version[" ++ toString j ++ "]" := by
            change (Path.root.extend [.member field.member, .item i, .member "version"]).text ++ "[" ++ toString j ++ "]" = _
            have bracket : field.member ++ "[" ++ toString i ++ ("]" ++ ("." ++ "version")) ++ "[" =
                field.member ++ "[" ++ toString i ++ "].version[" := String.append_assoc
            rw [text, bracket]
          exact longer ▸ .itemComponent field.member i j

end Keys

theorem format_ranks (format : Format) : Ranks format.schema.rank where
  items := fun _ _ before => before
  entry := by cases format <;> decide

theorem format_fields_apart (format : Format) : format.schema.fields.Pairwise fun a b =>
    format.schema.rank (.member a.member) < format.schema.rank (.member b.member) := by
  cases format <;> decide

theorem conforms_iff_not_violates (format : Format) (root : Json) :
    format.schema.Conforms root ↔
      ∀ steps expected found, ¬ Violates (.document format.schema) root steps expected found := by
  have judged := document_judged (format_ranks format) format.schema (format_fields_apart format) root
  rw [← fault_none_iff]
  cases reported : (format.schema.hints root).2 with
  | none =>
    rw [reported] at judged
    exact ⟨fun _ => judged, fun _ => rfl⟩
  | some fault =>
    rw [reported] at judged
    obtain ⟨steps, -, violated, -⟩ := judged
    exact ⟨nofun, fun silent => absurd violated (silent steps fault.expected fault.found)⟩

theorem record_reports_first_violation (format : Format) (root : Json) (evidence : Evidence) :
    ((format.schema.record root evidence).2 = none ↔ format.schema.Conforms root) ∧
    (¬ format.schema.Conforms root → ∃ fault steps, (format.schema.record root evidence).2 = some fault ∧
      fault.path = Path.root.extend steps ∧ Key steps fault.path.text ∧ root.Leads steps fault.found ∧
      First format.schema.rank (Violates (.document format.schema) root) steps fault.expected fault.found) := by
  rw [record_fault]
  refine ⟨fault_none_iff format.schema root, fun faulty => ?_⟩
  have judged := document_judged (format_ranks format) format.schema (format_fields_apart format) root
  cases reported : (format.schema.hints root).2 with
  | none => exact absurd ((fault_none_iff format.schema root).mp reported) faulty
  | some fault =>
    rw [reported] at judged
    obtain ⟨steps, located, first⟩ := judged
    refine ⟨fault, steps, rfl, located, ?_, violates_leads first.1, first⟩
    rw [located]
    exact violates_key first.1

-- The second entry has no brand.
def namelessEntry : Json := .object [
  ("browsers", .array [.object [("brand", .string "x")], .object [("version", .string "1")]]),
  ("mobile", .string "?1")]

theorem nameless_entry_is_reported :
    ¬ sua.Conforms namelessEntry ∧
      ∃ fault steps, (sua.record namelessEntry .empty).2 = some fault ∧ fault.path.text = "browsers[1].brand" ∧
        First sua.rank (Violates (.document sua) namelessEntry) steps fault.expected fault.found := by
  obtain ⟨accepts, rejects⟩ := record_reports_first_violation .sua namelessEntry .empty
  have report : (sua.record namelessEntry .empty).2 =
      some ⟨.member (.item (.member .root "browsers") 1) "brand", .string, none⟩ := rfl
  have faulty : ¬ sua.Conforms namelessEntry := fun conforms => by
    have silent : (sua.record namelessEntry .empty).2 = none := accepts.mpr conforms
    rw [report] at silent
    cases silent
  obtain ⟨fault, steps, given, -, -, -, first⟩ := rejects faulty
  have same := Option.some.inj (report.symm.trans given)
  exact ⟨faulty, fault, steps, given, by rw [← same]; decide, first⟩

end Schema

end ClientHints
