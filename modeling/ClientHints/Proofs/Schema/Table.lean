import ClientHints.Proofs.Schema.Agreement

set_option autoImplicit false

namespace ClientHints

def Shape.isSingle : Shape → Bool
  | .platform | .version => false
  | .brands _ | .text | .boolean | .strings | .flag => true

namespace Schema

def table (schema : Schema) : List String :=
  schema.fields.map Field.member ++ schema.unused

example : sua.table =
    ["browsers", "platform", "platformVersion", "architecture", "bitness", "model", "mobile", "source"] := rfl

theorem recognizes_iff (schema : Schema) (name : String) : schema.recognizes name = true ↔ name ∈ schema.table := by
  simp only [recognizes, table, Bool.or_eq_true, List.any_eq_true, beq_iff_eq, List.contains_iff_mem, List.mem_append,
    List.mem_map]

theorem recognizes_eq (schema : Schema) (name : String) : schema.recognizes name = schema.table.contains name := by
  rw [Bool.eq_iff_iff, recognizes_iff, List.contains_iff_mem]

theorem mem_unknown_iff (schema : Schema) (members : Json.Members) (name : String) :
    name ∈ schema.unknown members ↔ name ∈ members.keys ∧ name ∉ schema.table := by
  rw [unknown, List.mem_filter, ← recognizes_iff]
  simp

def meets (members : Json.Members) (field : Field) : Bool :=
  (present? field.member members).isSome

section Hints

variable {members : Json.Members}

theorem holds_hint {shape : Shape} {value : Json} {content : Content} (single : shape.isSingle)
    (held : shape.Holds value content) (hint : Hint) : (content.hints hint).map Prod.fst = [hint] := by
  cases shape with
  | platform | version => cases single
  | brands | text | boolean | strings | flag =>
    obtain ⟨said, -, rfl⟩ := held
    rfl

theorem field_hint {field : Field} {given : List (Hint × String)} (single : field.shape.isSingle)
    (read : field.hints members = .ok given) : given.map Prod.fst = if meets members field then [field.hint] else [] := by
  obtain ⟨content, held, rfl⟩ := (field_hints_ok_iff field members given).mp read
  unfold meets
  generalize present? field.member members = value at held ⊢
  cases held with
  | none => rfl
  | some held => exact holds_hint single held field.hint

theorem collect_hints {fields : List Field} {given : List (Hint × String)} (single : ∀ field ∈ fields, field.shape.isSingle)
    (sound : collect members fields = (given, none)) : given.map Prod.fst = (fields.filter (meets members)).map Field.hint := by
  induction fields generalizing given with
  | nil =>
    cases sound
    rfl
  | cons field rest ih =>
    obtain ⟨first, others, read, below, rfl⟩ := (collect_cons_ok_iff members field rest given).mp sound
    rw [List.forall_mem_cons] at single
    rw [List.map_append, field_hint single.1 read, ih single.2 below]
    by_cases met : meets members field
    · rw [if_pos met, List.filter_cons_of_pos met]
      rfl
    · rw [if_neg met, List.filter_cons_of_neg met]
      rfl

theorem extend_size (given : List (Hint × String)) (distinct : (given.map Prod.fst).Nodup) :
    (Evidence.empty.extend (given.map Evidence.hintEntry)).size = given.length := by
  have keys : ((given.map Evidence.hintEntry).map Prod.fst).Nodup := by
    have apart := distinct.map fun _ _ => Hint.eq_of_evidence_key
    rw [List.map_map] at apart ⊢
    exact apart
  have written := congrArg List.length (Evidence.of_list_keys (given.map Evidence.hintEntry))
  rw [Evidence.erase_dups_of_nodup _ keys, Evidence.keys, List.length_map, List.length_map, List.length_map] at written
  exact written

theorem record_size {schema : Schema} {m : Evidence} (single : ∀ field ∈ schema.fields, field.shape.isSingle)
    (distinct : (schema.fields.map Field.hint).Nodup) (accepted : schema.record (.object members) .empty = (m, none)) :
    m.size = schema.fields.countP (meets members) := by
  obtain ⟨rfl, sound⟩ := Prod.mk.inj accepted
  have given := collect_hints single (Prod.ext rfl sound)
  have apart : ((schema.fields.filter (meets members)).map Field.hint).Nodup :=
    distinct.sublist (List.filter_sublist.map Field.hint)
  have size := extend_size _ (given ▸ apart)
  have counted := congrArg List.length given
  rw [List.length_map, List.length_map, ← List.countP_eq_length_filter] at counted
  exact size.trans counted

end Hints

section Counting

theorem count_parts {α : Type} (known null : α → Bool) (items : List α) :
    items.length = (items.countP fun item => known item && !null item) + (items.countP fun item => !known item) +
      items.countP fun item => known item && null item := by
  induction items with
  | nil => rfl
  | cons item rest ih =>
    simp only [List.length_cons, List.countP_cons, ih]
    cases known item <;> cases null item <;> simp <;> omega

variable {members : Json.Members} (distinct : members.keys.Nodup)
include distinct

theorem present_iff_mem (name : String) :
    (present? name members).isSome ↔ ∃ value, (name, value) ∈ members ∧ value.isNull = false := by
  have found (value : Json) := Evidence.mem_lookup_iff distinct name value
  simp only [found]
  unfold present? Json.Members.get?
  cases members.lookup name with
  | none => simp
  | some value => cases value <;> simp [Json.isNull]

-- Fields that are met and members that are known and not null are paired off by their names.
theorem count_met {fields : List Field} (apart : (fields.map Field.member).Nodup) : fields.countP (meets members) =
    members.countP fun member => (fields.map Field.member).contains member.1 && !member.2.isNull := by
  have names : ((fields.filter (meets members)).map Field.member).Perm
      ((members.filter fun member => (fields.map Field.member).contains member.1 && !member.2.isNull).map Prod.fst) := by
    refine (List.perm_ext_iff_of_nodup (apart.sublist (List.filter_sublist.map _))
      (distinct.sublist (List.filter_sublist.map _))).mpr fun name => ?_
    simp only [List.mem_map, List.mem_filter, Bool.and_eq_true, List.contains_iff_mem, Bool.not_eq_eq_eq_not, Bool.not_true,
      meets, present_iff_mem distinct]
    constructor
    · rintro ⟨field, ⟨listed, value, inside, filled⟩, rfl⟩
      exact ⟨_, ⟨inside, ⟨field, listed, rfl⟩, filled⟩, rfl⟩
    · rintro ⟨⟨_, value⟩, ⟨inside, ⟨field, listed, rfl⟩, filled⟩, rfl⟩
      exact ⟨field, ⟨listed, value, inside, filled⟩, rfl⟩
  simpa only [List.length_map, ← List.countP_eq_length_filter] using names.length_eq

theorem count_members {schema : Schema} {m : Evidence} (single : ∀ field ∈ schema.fields, field.shape.isSingle)
    (hints : (schema.fields.map Field.hint).Nodup) (names : (schema.fields.map Field.member).Nodup)
    (used : schema.unused = []) (accepted : schema.record (.object members) .empty = (m, none)) :
    members.length = m.size + (schema.unknown members).length +
      members.countP fun member => schema.table.contains member.1 && member.2.isNull := by
  have known : schema.fields.map Field.member = schema.table := by rw [table, used, List.append_nil]
  have met := (record_size single hints accepted).trans (count_met distinct names)
  rw [known] at met
  have passed : (schema.unknown members).length = members.countP fun member => !schema.table.contains member.1 := by
    simp only [unknown, Json.Members.keys, recognizes_eq, ← List.countP_eq_length_filter, List.countP_map]
    rfl
  rw [met, passed]
  exact count_parts (fun member => schema.table.contains member.1) (fun member => member.2.isNull) members

end Counting

end Schema

end ClientHints
