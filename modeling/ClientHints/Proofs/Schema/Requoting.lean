import ClientHints.Proofs.Json.Nesting
import ClientHints.Proofs.Schema.Agreement
import ClientHints.Proofs.Schema.Rule

set_option autoImplicit false

namespace ClientHints

namespace Rule

inductive TakesText : Rule → Prop where
  | text : TakesText (.shape .text)
  | version : TakesText (.shape .version)

theorem entry_member {rule sub : Rule} {style : VersionStyle} {name : String} (entry : rule.Entry style)
    (known : rule.Member name sub) : name = "brand" ∧ sub = .name ∨ name = "version" ∧ sub = Rule.version style := by
  cases known with
  | field => cases entry
  | brand => exact .inl ⟨rfl, rfl⟩
  | version also => cases entry <;> cases also <;> exact .inr ⟨rfl, rfl⟩

theorem document_member {schema : Schema} {name : String} {sub : Rule} (known : Rule.Member (.document schema) name sub) :
    ∃ field ∈ schema.fields, name = field.member ∧ sub = .shape field.shape := by
  cases known with
  | field listed => exact ⟨_, listed, rfl, rfl⟩
  | brand entry | version entry => cases entry

theorem shape_member {shape : Shape} {name : String} {sub : Rule} (known : Rule.Member (.shape shape) name sub) :
    shape = .platform := by
  cases known with
  | brand entry | version entry =>
    cases entry
    rfl

end Rule

mutual

inductive Requoted : Rule → Json → Json → Prop where
  | same {rule : Rule} (value : Json) : Requoted rule value value
  | quoted {rule : Rule} (takes : rule.TakesText) (n : Int) :
      Requoted rule (.number (.whole n)) (.string (Json.Number.whole n).text)
  | unquoted {rule : Rule} (takes : rule.TakesText) (n : Int) :
      Requoted rule (.string (Json.Number.whole n).text) (.number (.whole n))
  | array {rule sub : Rule} {items others : List Json} (known : rule.Item sub) (each : RequotedItems sub items others) :
      Requoted rule (.array items) (.array others)
  | object {rule : Rule} {members others : Json.Members} (each : RequotedMembers rule members others) :
      Requoted rule (.object members) (.object others)

inductive RequotedItems : Rule → List Json → List Json → Prop where
  | nil {rule : Rule} : RequotedItems rule [] []
  | cons {rule : Rule} {value other : Json} {items others : List Json} (first : Requoted rule value other)
      (rest : RequotedItems rule items others) : RequotedItems rule (value :: items) (other :: others)

inductive RequotedMember : Rule → String → Json → Json → Prop where
  | known {rule sub : Rule} {name : String} {value other : Json} (known : rule.Member name sub)
      (inside : Requoted sub value other) : RequotedMember rule name value other
  | kept {rule : Rule} {name : String} (value : Json) : RequotedMember rule name value value

inductive RequotedMembers : Rule → Json.Members → Json.Members → Prop where
  | nil {rule : Rule} : RequotedMembers rule [] []
  | cons {rule : Rule} {name : String} {value other : Json} {members others : Json.Members}
      (first : RequotedMember rule name value other) (rest : RequotedMembers rule members others) :
      RequotedMembers rule ((name, value) :: members) ((name, other) :: others)

end

section Lists

variable {rule : Rule}

theorem requoted_items_concat {front others : List Json} {value other : Json} (each : RequotedItems rule front others)
    (last : Requoted rule value other) : RequotedItems rule (front ++ [value]) (others ++ [other]) := by
  induction front generalizing others with
  | nil =>
    cases each
    exact .cons last .nil
  | cons head rest ih =>
    cases each with
    | cons first below => exact .cons first (ih below)

theorem requoted_members_concat {front others : Json.Members} {name : String} {value other : Json}
    (each : RequotedMembers rule front others) (last : RequotedMember rule name value other) :
    RequotedMembers rule (front ++ [(name, value)]) (others ++ [(name, other)]) := by
  induction front generalizing others with
  | nil =>
    cases each
    exact .cons last .nil
  | cons head rest ih =>
    cases each with
    | cons first below => exact .cons first (ih below)

theorem requoted_each {items others : List Json} (each : RequotedItems rule items others) :
    List.Forall₂ (Requoted rule) items others := by
  induction items generalizing others with
  | nil =>
    cases each
    exact .nil
  | cons head rest ih =>
    cases each with
    | cons first below => exact .cons first (ih below)

end Lists

mutual

theorem requoted_depth {rule : Rule} {value other : Json} : Requoted rule value other → other.depth = value.depth
  | .same _ => rfl
  | .quoted _ _ => rfl
  | .unquoted _ _ => rfl
  | .array _ each => congrArg (1 + ·) (requoted_items_depth each)
  | .object each => congrArg (1 + ·) (requoted_members_depth each)

theorem requoted_items_depth {rule : Rule} {items others : List Json} :
    RequotedItems rule items others → Json.depthOfItems others = Json.depthOfItems items
  | .nil => rfl
  | .cons first rest => congrArg₂ max (requoted_depth first) (requoted_items_depth rest)

theorem requoted_member_depth {rule : Rule} {name : String} {value other : Json} :
    RequotedMember rule name value other → other.depth = value.depth
  | .known _ inside => requoted_depth inside
  | .kept _ => rfl

theorem requoted_members_depth {rule : Rule} {members others : Json.Members} :
    RequotedMembers rule members others → Json.depthOfMembers others = Json.depthOfMembers members
  | .nil => rfl
  | .cons first rest => congrArg₂ max (requoted_member_depth first) (requoted_members_depth rest)

end

section Settling

variable {rule : Rule} {members others : Json.Members}

theorem requoted_insert {name : String} {value other : Json} (first : RequotedMember rule name value other)
    (each : RequotedMembers rule members others) :
    RequotedMembers rule (Json.Members.insert name value members) (Json.Members.insert name other others) := by
  induction members generalizing others with
  | nil =>
    cases each
    exact .cons first .nil
  | cons head rest ih =>
    cases each with
    | @cons _ key old new _ otherRest held below =>
      unfold Json.Members.insert
      by_cases less : name < key
      · rw [if_pos less, if_pos less]
        exact .cons first (.cons held below)
      · rw [if_neg less, if_neg less]
        by_cases again : name = key
        · subst again
          rw [if_pos rfl, if_pos rfl]
          exact .cons first below
        · rw [if_neg again, if_neg again]
          exact .cons held (ih below)

-- The induction is on the members still to come, with those already in their places.
theorem requoted_fold {sorted otherSorted : Json.Members} (placed : RequotedMembers rule sorted otherSorted)
    (each : RequotedMembers rule members others) :
    RequotedMembers rule (members.foldl (fun sorted member => Json.Members.insert member.1 member.2 sorted) sorted)
      (others.foldl (fun sorted member => Json.Members.insert member.1 member.2 sorted) otherSorted) := by
  induction members generalizing others sorted otherSorted with
  | nil =>
    cases each
    exact placed
  | cons head rest ih =>
    cases each with
    | cons first below =>
      rw [List.foldl_cons, List.foldl_cons]
      exact ih (requoted_insert first placed) below

theorem requoted_get (each : RequotedMembers rule members others) (name : String) :
    Option.Rel (RequotedMember rule name) (members.get? name) (others.get? name) := by
  induction members generalizing others with
  | nil =>
    cases each
    exact .none
  | cons head rest ih =>
    cases each with
    | cons first below =>
      rw [Json.Members.get_entry, Json.Members.get_entry]
      split
      · rename_i hit
        subst hit
        exact .some first
      · exact ih below

end Settling

mutual

theorem requoted_settles {rule : Rule} {written rewritten value : Json} :
    Requoted rule written rewritten → Json.Settles written value →
      ∃ other, Json.Settles rewritten other ∧ Requoted rule value other
  | .same _, settles => ⟨value, settles, .same value⟩
  | .quoted takes n, .number _ => ⟨_, .string _, .quoted takes n⟩
  | .unquoted takes n, .string _ => ⟨_, .number _, .unquoted takes n⟩
  | .array known each, .array settles => by
    obtain ⟨others, resettles, same⟩ := requoted_items_settle each settles
    exact ⟨.array others, .array resettles, .array known same⟩
  | .object each, .object settles latest => by
    obtain ⟨others, resettles, same⟩ := requoted_members_settle each settles
    rw [(Json.Members.is_latest_iff _ _).mp latest]
    exact ⟨.object (Json.Members.ofList others), .object resettles ((Json.Members.is_latest_iff _ _).mpr rfl),
      .object (requoted_fold .nil same)⟩

theorem requoted_items_settle {rule : Rule} {written rewritten items : List Json} :
    RequotedItems rule written rewritten → Json.SettlesItems written items →
      ∃ others, Json.SettlesItems rewritten others ∧ RequotedItems rule items others
  | .nil, .nil => ⟨[], .nil, .nil⟩
  | .cons first rest, .cons head tail => by
    obtain ⟨other, settles, same⟩ := requoted_settles first head
    obtain ⟨others, each, below⟩ := requoted_items_settle rest tail
    exact ⟨other :: others, .cons settles each, .cons same below⟩

theorem requoted_member_settles {rule : Rule} {name : String} {written rewritten value : Json} :
    RequotedMember rule name written rewritten → Json.Settles written value →
      ∃ other, Json.Settles rewritten other ∧ RequotedMember rule name value other
  | .known known inside, settles => by
    obtain ⟨other, resettles, same⟩ := requoted_settles inside settles
    exact ⟨other, resettles, .known known same⟩
  | .kept _, settles => ⟨value, settles, .kept value⟩

theorem requoted_members_settle {rule : Rule} {written rewritten members : Json.Members} :
    RequotedMembers rule written rewritten → Json.SettlesMembers written members →
      ∃ others, Json.SettlesMembers rewritten others ∧ RequotedMembers rule members others
  | .nil, .nil => ⟨[], .nil, .nil⟩
  | .cons first rest, .cons head tail => by
    obtain ⟨other, settles, same⟩ := requoted_member_settles first head
    obtain ⟨others, each, below⟩ := requoted_members_settle rest tail
    exact ⟨(_, other) :: others, .cons settles each, .cons same below⟩

end

namespace Schema

section Reading

theorem null_requoted {rule : Rule} {value other : Json} (requoted : Requoted rule value other) :
    value = .null ↔ other = .null := by
  cases requoted with
  | same => rfl
  | quoted | unquoted | array | object => exact ⟨nofun, nofun⟩

theorem null_member_requoted {rule : Rule} {name : String} {value other : Json}
    (requoted : RequotedMember rule name value other) : value = .null ↔ other = .null := by
  cases requoted with
  | known _ inside => exact null_requoted inside
  | kept => rfl

theorem requoted_present {rule : Rule} {members others : Json.Members} (each : RequotedMembers rule members others)
    (name : String) : Option.Rel (RequotedMember rule name) (present? name members) (present? name others) := by
  have looked := requoted_get each name
  unfold present?
  generalize members.get? name = value at looked ⊢
  generalize others.get? name = other at looked ⊢
  cases looked with
  | none => exact .none
  | @some value other requoted =>
    have null := null_member_requoted requoted
    by_cases absent : value = .null
    · rw [absent, null.mp absent]
      exact .none
    · have filled := null.not.mp absent
      split
      · rename_i same
        exact absurd (Option.some.inj same) absent
      · split
        · rename_i same
          exact absurd (Option.some.inj same) filled
        · exact .some requoted

theorem integer_read (path : Path) (n : Int) :
    readText path (.string (Json.Number.whole n).text) = readText path (.number (.whole n)) :=
  (read_text_ok_iff path _ _).mpr (.string _ (printable_int n))

theorem text_requoted {value other : Json} (requoted : Requoted (.shape .text) value other) (path : Path) :
    readText path value = readText path other := by
  cases requoted with
  | same | object => rfl
  | quoted _ n => exact (integer_read path n).symm
  | unquoted _ n => exact integer_read path n
  | array known => cases known

theorem version_requoted {value other : Json} (requoted : Requoted (.shape .version) value other) (path : Path) :
    readVersion .dotted path value = readVersion .dotted path other := by
  cases requoted with
  | same | object => rfl
  | quoted _ n => exact congrArg (Except.map some) (integer_read path n).symm
  | unquoted _ n => exact congrArg (Except.map some) (integer_read path n)
  | array known each =>
    cases known
    have items := each_read_same (requoted_each each) (fun path _ _ same => text_requoted same path) path 0
    rw [readVersion, readVersion, readItems, readItems, items]

theorem styled_requoted {style : VersionStyle} {value other : Json} (requoted : Requoted (Rule.version style) value other)
    (path : Path) : readVersion style path value = readVersion style path other := by
  cases style with
  | plain => exact congrArg (Except.map some) (text_requoted requoted path)
  | dotted => exact version_requoted requoted path

theorem requoted_members_only {rule : Rule} {value other : Json} (requoted : Requoted rule value other)
    (noText : ¬rule.TakesText) (noItems : ∀ sub, ¬rule.Item sub) : value = other ∨
      ∃ members others, value = .object members ∧ other = .object others ∧ RequotedMembers rule members others := by
  cases requoted with
  | same => exact .inl rfl
  | quoted takes | unquoted takes => exact absurd takes noText
  | array known => exact absurd known (noItems _)
  | object each => exact .inr ⟨_, _, rfl, rfl, each⟩

theorem name_requoted {value other : Json} (requoted : Requoted .name value other) (path : Path) :
    readString path value = readString path other := by
  rcases requoted_members_only requoted nofun nofun with rfl | ⟨members, others, rfl, rfl, -⟩
  · rfl
  · rfl

theorem brand_requoted {rule : Rule} {style : VersionStyle} (entry : rule.Entry style) {members others : Json.Members}
    (each : RequotedMembers rule members others) (path : Path) :
    readBrand style path (.object members) = readBrand style path (.object others) := by
  have named := requoted_present each "brand"
  have versioned := requoted_present each "version"
  have names : readName (.member path "brand") (present? "brand" members) =
      readName (.member path "brand") (present? "brand" others) := by
    generalize present? "brand" members = value at named ⊢
    generalize present? "brand" others = other at named ⊢
    cases named with
    | none => rfl
    | some requoted =>
      cases requoted with
      | kept => rfl
      | known known inside =>
        rcases Rule.entry_member entry known with ⟨-, rfl⟩ | ⟨other, -⟩
        · exact name_requoted inside _
        · exact absurd other (by decide)
  have versions : readCarried style (.member path "version") (present? "version" members) =
      readCarried style (.member path "version") (present? "version" others) := by
    generalize present? "version" members = value at versioned ⊢
    generalize present? "version" others = other at versioned ⊢
    cases versioned with
    | none => rfl
    | some requoted =>
      cases requoted with
      | kept => rfl
      | known known inside =>
        rcases Rule.entry_member entry known with ⟨other, -⟩ | ⟨-, rfl⟩
        · exact absurd other (by decide)
        · exact styled_requoted inside _
  rw [read_brand_object, read_brand_object, names, versions]

theorem entry_requoted {style : VersionStyle} {value other : Json} (requoted : Requoted (.entry style) value other)
    (path : Path) : readBrand style path value = readBrand style path other := by
  rcases requoted_members_only requoted nofun nofun with rfl | ⟨members, others, rfl, rfl, each⟩
  · rfl
  · exact brand_requoted (.entry style) each path

theorem platform_requoted {value other : Json} (requoted : Requoted (.shape .platform) value other) (path : Path) :
    readPlatform path value = readPlatform path other := by
  rcases requoted_members_only requoted nofun nofun with rfl | ⟨members, others, rfl, rfl, each⟩
  · rfl
  · exact brand_requoted .platform each path

theorem items_requoted {α : Type} {rule : Rule} {read : Path → Json → Reading α} {value other : Json}
    (requoted : Requoted rule value other) (noText : ¬rule.TakesText)
    (agree : ∀ sub, rule.Item sub → ∀ path value other, Requoted sub value other → read path value = read path other)
    (path : Path) : readItems read path value = readItems read path other := by
  cases requoted with
  | same | object => rfl
  | quoted takes | unquoted takes => exact absurd takes noText
  | array known each => exact each_read_same (requoted_each each) (agree _ known) path 0

theorem shape_requoted {shape : Shape} {value other : Json} (requoted : Requoted (.shape shape) value other) (path : Path) :
    shape.read path value = shape.read path other := by
  cases shape with
  | text => exact congrArg (Except.map Content.text) (text_requoted requoted path)
  | version => exact congrArg (Except.map Content.version) (version_requoted requoted path)
  | platform => exact congrArg (Except.map Content.platform) (platform_requoted requoted path)
  | brands style =>
    refine congrArg (Except.map Content.brands) (items_requoted requoted nofun (fun sub known path value other inner => ?_) path)
    cases known
    exact entry_requoted inner path
  | strings =>
    refine congrArg (Except.map Content.strings) (items_requoted requoted nofun (fun sub known path value other inner => ?_) path)
    cases known
    exact name_requoted inner path
  | boolean | flag =>
    rcases requoted_members_only requoted nofun nofun with rfl | ⟨members, others, rfl, rfl, -⟩
    · rfl
    · rfl

end Reading

theorem field_requoted {format : Format} {members others : Json.Members}
    (each : RequotedMembers (.document format.schema) members others) {field : Field} (listed : field ∈ format.schema.fields) :
    field.hints members = field.hints others := by
  have present := requoted_present each field.member
  unfold Field.hints
  generalize present? field.member members = value at present ⊢
  generalize present? field.member others = other at present ⊢
  cases present with
  | none => rfl
  | some requoted =>
    cases requoted with
    | kept => rfl
    | known known inside =>
      obtain ⟨same, alsoListed, named, rfl⟩ := Rule.document_member known
      obtain rfl : field = same := List.inj_on_of_nodup_map (format_members_apart format) listed alsoListed named
      simp only [shape_requoted inside]

theorem record_requoted {format : Format} {root other : Json} (requoted : Requoted (.document format.schema) root other)
    (e : Evidence) : format.schema.record root e = format.schema.record other e := by
  rcases requoted_members_only requoted nofun nofun with rfl | ⟨members, others, rfl, rfl, each⟩
  · rfl
  · have given : format.schema.hints (.object members) = format.schema.hints (.object others) :=
      collect_congr fun _ listed => field_requoted each listed
    rw [record, record, given]

end Schema

end ClientHints
