import ClientHints.Proofs.Json.Settled
import ClientHints.Proofs.Schema.Partial

set_option autoImplicit false

namespace ClientHints

namespace Schema

-- Entries of one brand and version. Members with other names do not count, and null counts as none.
inductive SameEntry : Json → Json → Prop where
  | equal (value : Json) : SameEntry value value
  | object {members others : Json.Members} (brand : present? "brand" members = present? "brand" others)
      (version : present? "version" members = present? "version" others) : SameEntry (.object members) (.object others)

inductive SameEntries : Json → Json → Prop where
  | equal (value : Json) : SameEntries value value
  | array {items others : List Json} (each : List.Forall₂ SameEntry items others) :
      SameEntries (.array items) (.array others)

def entryEssence : Json → Json
  | .object members => .object (stated "brand" (present? "brand" members) ++ stated "version" (present? "version" members))
  | other => other

end Schema

def Shape.Same : Shape → Json → Json → Prop
  | .brands _ => Schema.SameEntries
  | .platform => Schema.SameEntry
  | .text | .boolean | .strings | .version | .flag => Eq

def Shape.essence : Shape → Json → Json
  | .brands _, .array items => .array (items.map Schema.entryEssence)
  | .platform, value => Schema.entryEssence value
  | _, value => value

namespace Schema

def Agree (schema : Schema) (members others : Json.Members) : Prop :=
  ∀ field ∈ schema.fields, Option.Rel field.shape.Same (present? field.member members) (present? field.member others)

def essence (schema : Schema) (members : Json.Members) : Json.Members :=
  schema.fields.filterMap fun field =>
    (present? field.member members).map fun value => (field.member, field.shape.essence value)

section Reading

theorem read_brand_same {value other : Json} (same : SameEntry value other) (style : VersionStyle) (path : Path) :
    readBrand style path value = readBrand style path other := by
  cases same with
  | equal => rfl
  | object brand version => rw [read_brand_object, read_brand_object, brand, version]

theorem read_platform_same {value other : Json} (same : SameEntry value other) (path : Path) :
    readPlatform path value = readPlatform path other := by
  cases same with
  | equal => rfl
  | object brand version => exact read_brand_same (.object brand version) .dotted path

theorem each_read_same {α : Type} {same : Json → Json → Prop} {read : Path → Json → Reading α} {items others : List Json}
    (each : List.Forall₂ same items others)
    (agree : ∀ path value other, same value other → read path value = read path other) (path : Path) (index : Nat) :
    (items.zipIdx index).mapM (fun (item, index) => read (.item path index) item) =
      (others.zipIdx index).mapM (fun (item, index) => read (.item path index) item) := by
  induction each generalizing index with
  | nil => rfl
  | cons first _ ih =>
    rw [List.zipIdx_cons, List.zipIdx_cons, List.mapM_cons, List.mapM_cons, ih]
    dsimp only
    rw [agree _ _ _ first]

theorem shape_read_same {shape : Shape} {value other : Json} (same : shape.Same value other) (path : Path) :
    shape.read path value = shape.read path other := by
  cases shape with
  | brands style =>
    cases same with
    | equal => rfl
    | array each =>
      have items := each_read_same each (fun path _ _ same => read_brand_same same style path) path 0
      rw [Shape.read, Shape.read, readItems, readItems, items]
  | platform => rw [Shape.read, Shape.read, read_platform_same same]
  | text | boolean | strings | version | flag => rw [show value = other from same]

section Agreeing

variable {schema : Schema} {members others : Json.Members} (agree : schema.Agree members others)
include agree

theorem field_hints_agree {field : Field} (listed : field ∈ schema.fields) :
    field.hints members = field.hints others := by
  have related := agree field listed
  unfold Field.hints
  generalize present? field.member members = value at related ⊢
  generalize present? field.member others = other at related ⊢
  cases related with
  | none => rfl
  | some same => simp only [shape_read_same same]

theorem record_agree (e : Evidence) : schema.record (.object members) e = schema.record (.object others) e := by
  have given : schema.hints (.object members) = schema.hints (.object others) :=
    collect_congr fun _ listed => field_hints_agree agree listed
  rw [record, record, given]

end Agreeing

end Reading

section Essence

theorem present_not_null (name : String) (members : Json.Members) : present? name members ≠ some .null := by
  unfold present?
  split
  · nofun
  · assumption

theorem present_of_get {name : String} {members : Json.Members} {value : Option Json} (found : members.get? name = value)
    (filled : value ≠ some .null) : present? name members = value := by
  unfold present?
  split
  · rename_i null
    exact absurd (found.symm.trans null) filled
  · exact found

theorem entry_essence_same (value : Json) : SameEntry (entryEssence value) value := by
  cases value with
  | object members =>
    refine .object (present_of_get ?_ (present_not_null _ _)) (present_of_get ?_ (present_not_null _ _))
    · simp [Json.Members.get?, List.lookup_append, lookup_stated]
    · simp [Json.Members.get?, List.lookup_append, lookup_stated]
  | null | bool | number | string | array => exact .equal _

theorem shape_essence_same (shape : Shape) (value : Json) : shape.Same (shape.essence value) value := by
  cases shape with
  | brands style =>
    cases value with
    | array items => exact .array (List.forall₂_map_left_iff.mpr (List.forall₂_same.mpr fun item _ => entry_essence_same item))
    | null | bool | number | string | object => exact .equal _
  | platform => exact entry_essence_same value
  | text | boolean | strings | version | flag => rfl

theorem shape_essence_filled (shape : Shape) {value : Json} (filled : value ≠ .null) : shape.essence value ≠ .null := by
  cases value with
  | null => exact absurd rfl filled
  | array items => cases shape <;> nofun
  | bool | number | string | object => cases shape <;> nofun

theorem lookup_fields {fields : List Field} (apart : (fields.map Field.member).Nodup) (said : Field → Option Json)
    {field : Field} (listed : field ∈ fields) :
    (fields.filterMap fun field => (said field).map fun value => (field.member, value)).lookup field.member =
      said field := by
  induction fields with
  | nil => cases listed
  | cons head rest ih =>
    obtain ⟨absent, restApart⟩ := List.nodup_cons.mp apart
    have missing : (rest.filterMap fun field => (said field).map fun value => (field.member, value)).lookup head.member =
        none := by
      refine Evidence.lookup_absent fun member => absent ?_
      obtain ⟨entry, inside, same⟩ := List.mem_map.mp member
      obtain ⟨other, otherListed, given⟩ := List.mem_filterMap.mp inside
      obtain ⟨value, -, rfl⟩ := Option.map_eq_some_iff.mp given
      exact same ▸ List.mem_map_of_mem otherListed
    rcases List.mem_cons.mp listed with rfl | later
    · cases given : said field <;> simp [given, missing]
    · have other : field.member ≠ head.member := fun same => absent (same ▸ List.mem_map_of_mem later)
      cases given : said head <;> simp [given, ih restApart later, Evidence.lookup_entry, other]

theorem essence_agrees {schema : Schema} (apart : (schema.fields.map Field.member).Nodup) (members : Json.Members) :
    schema.Agree (schema.essence members) members := by
  intro field listed
  have found : (schema.essence members).get? field.member = (present? field.member members).map field.shape.essence := by
    rw [← lookup_fields apart (fun field => (present? field.member members).map field.shape.essence) listed]
    simp only [essence, Json.Members.get?, Option.map_map, Function.comp_def]
  cases given : present? field.member members with
  | none =>
    rw [given] at found
    rw [present_of_get found nofun]
    exact .none
  | some value =>
    have filled : value ≠ .null := fun null => present_not_null field.member members (null ▸ given)
    rw [given] at found
    rw [present_of_get found fun null => shape_essence_filled field.shape filled (Option.some.inj null)]
    exact .some (shape_essence_same field.shape value)

theorem present_of_list (name : String) (listed : Json.Members) :
    present? name (Json.Members.ofList listed) = present? name listed.reverse := by
  rw [present?, Json.Members.get_of_list]
  rfl

theorem essence_of_list (schema : Schema) (listed : Json.Members) :
    schema.essence (.ofList listed) = schema.essence listed.reverse := by
  simp only [essence, present_of_list]

end Essence

end Schema

end ClientHints
