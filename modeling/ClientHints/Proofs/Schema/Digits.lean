import ClientHints.Proofs.Json.Integer
import ClientHints.Proofs.Schema.PlatformVersion
import ClientHints.Proofs.Schema.Requoting

set_option autoImplicit false

namespace ClientHints

-- A value at a place where a text is taken, some steps into another one.
inductive HoldsText : Rule → Json → List Step → Json → Prop where
  | here {rule : Rule} {value : Json} (takes : rule.TakesText) : HoldsText rule value [] value
  | member {rule sub : Rule} {name : String} {members : Json.Members} {value inside : Json} {steps : List Step}
      (known : rule.Member name sub) (found : members.get? name = some value) (inner : HoldsText sub value steps inside) :
      HoldsText rule (.object members) (.member name :: steps) inside
  | item {rule sub : Rule} {index : Nat} {items : List Json} {value inside : Json} {steps : List Step}
      (known : rule.Item sub) (found : items[index]? = some value) (inner : HoldsText sub value steps inside) :
      HoldsText rule (.array items) (.item index :: steps) inside

def StandsIn (text value : List Char) : Prop :=
  ∃ left right, ∃ opening ∈ ['"', '.'], ∃ closing ∈ ['"', '.'], value = left ++ opening :: (text ++ closing :: right)

section Rendering

theorem intercalate_around {α : Type} (separator : List α) {parts : List (List α)} {part : List α} (listed : part ∈ parts) :
    ∃ front back, separator.intercalate parts = front ++ part ++ back ∧
      (front = [] ∨ ∃ more, front = more ++ separator) ∧ (back = [] ∨ ∃ more, back = separator ++ more) := by
  induction parts with
  | nil => cases listed
  | cons first rest ih =>
    cases rest with
    | nil =>
      obtain rfl := List.mem_singleton.mp listed
      exact ⟨[], [], by simp [List.intercalate], .inl rfl, .inl rfl⟩
    | cons second rest =>
      rw [List.intercalate_cons_cons]
      rcases List.mem_cons.mp listed with rfl | later
      · exact ⟨[], _, by rw [List.nil_append, List.append_assoc], .inl rfl, .inr ⟨_, rfl⟩⟩
      · obtain ⟨front, back, around, before, after⟩ := ih later
        refine ⟨first ++ separator ++ front, back, by rw [around]; simp, .inr ?_, after⟩
        rcases before with rfl | ⟨more, rfl⟩
        · exact ⟨first, by simp⟩
        · exact ⟨first ++ separator ++ more, by simp⟩

def IsComponent (text version : String) : Prop :=
  ∃ parts : List String, text ∈ parts ∧ version = ".".intercalate parts

theorem component_self (text : String) : IsComponent text text :=
  ⟨[text], List.mem_singleton_self text, by rw [String.intercalate_singleton]⟩

open StructuredField

theorem escape_append (front back : List Char) : escape (front ++ back) = escape front ++ escape back :=
  List.flatMap_append

theorem escape_plain {chars : List Char} (plain : ∀ c ∈ chars, c ≠ '"' ∧ c ≠ '\\') : escape chars = chars := by
  induction chars with
  | nil => rfl
  | cons c rest ih =>
    obtain ⟨⟨quote, backslash⟩, others⟩ := List.forall_mem_cons.mp plain
    rw [escape_cons, ih others, if_neg (by simp [quote, backslash])]
    rfl

theorem quoted_component {text version : String} (plain : ∀ c ∈ text.toList, c ≠ '"' ∧ c ≠ '\\')
    (component : IsComponent text version) : StandsIn text.toList (quote version.toList) := by
  obtain ⟨parts, listed, rfl⟩ := component
  obtain ⟨front, back, around, before, after⟩ :=
    intercalate_around ".".toList (List.mem_map_of_mem (f := String.toList) listed)
  rw [String.toList_intercalate, around, quote, escape_append, escape_append, escape_plain plain]
  rcases before with rfl | ⟨more, rfl⟩ <;> rcases after with rfl | ⟨others, rfl⟩
  · exact ⟨[], [], '"', by simp, '"', by simp, by simp [escape]⟩
  · exact ⟨[], escape others ++ ['"'], '"', by simp, '.', by simp, by simp [escape]⟩
  · exact ⟨'"' :: escape more, [], '.', by simp, '"', by simp, by simp [escape]⟩
  · exact ⟨'"' :: escape more, escape others ++ ['"'], '.', by simp, '.', by simp, by simp [escape]⟩

theorem stands_within {text value : List Char} (stands : StandsIn text value) (front back : List Char) :
    StandsIn text (front ++ value ++ back) := by
  obtain ⟨left, right, opening, isOpening, closing, isClosing, rfl⟩ := stands
  exact ⟨front ++ left, right ++ back, opening, isOpening, closing, isClosing, by simp⟩

theorem brands_component {text version : String} {list : List Brand} {brand : Brand}
    (plain : ∀ c ∈ text.toList, c ≠ '"' ∧ c ≠ '\\') (listed : brand ∈ list) (versioned : brand.version = some version)
    (component : IsComponent text version) : StandsIn text.toList (brands list).toList := by
  have entry := stands_within (quoted_component plain component) (quote brand.name.toList ++ [';', 'v', '=']) []
  obtain ⟨front, back, around, -, -⟩ := intercalate_around [',', ' '] (List.mem_map_of_mem (f := brandEntry) listed)
  rw [brands, String.toList_ofList, join, around]
  refine stands_within ?_ front back
  simpa [brandEntry, versioned] using entry

end Rendering

namespace Schema

section Reading

variable {n : Int} {steps : List Step}

theorem name_holds_no_text {value inside : Json} : ¬HoldsText .name value steps inside := by
  intro held
  cases held with
  | here takes => cases takes
  | member known => cases known with
    | brand entry | version entry => cases entry
  | item known => cases known

theorem held_present {rule : Rule} {name : String} {members : Json.Members} {value : Json}
    (found : members.get? name = some value) (held : HoldsText rule value steps (.number (.whole n))) :
    present? name members = some value := by
  refine present_of_get found fun null => ?_
  obtain rfl := Option.some.inj null
  cases held

theorem text_held {value : Json} {text : String} (held : HoldsText (.shape .text) value steps (.number (.whole n)))
    (spelled : Spells value text) : text = (Json.Number.whole n).text := by
  cases held with
  | here =>
    cases spelled
    rfl
  | member known => cases Rule.shape_member known
  | item known => cases known

theorem each_has_one {α β : Type} {means : α → β → Prop} {items : List α} {list : List β}
    (each : List.Forall₂ means items list) {item : α} (listed : item ∈ items) : ∃ meant ∈ list, means item meant := by
  induction each with
  | nil => cases listed
  | @cons _ meant _ list first _ ih =>
    rcases List.mem_cons.mp listed with rfl | later
    · exact ⟨meant, List.mem_cons_self, first⟩
    · obtain ⟨other, inside, means⟩ := ih later
      exact ⟨other, List.mem_cons_of_mem _ inside, means⟩

theorem version_held {value : Json} {version : Option String}
    (held : HoldsText (.shape .version) value steps (.number (.whole n))) (spelled : SpellsVersion .dotted value version) :
    ∃ found, version = some found ∧ IsComponent (Json.Number.whole n).text found := by
  cases held with
  | here =>
    cases spelled with
    | text spelled =>
      cases spelled
      exact ⟨_, rfl, component_self _⟩
  | member known => cases Rule.shape_member known
  | item known found inner =>
    cases known
    have listed := List.mem_of_getElem? found
    cases spelled with
    | text spelled => cases spelled
    | empty => cases listed
    | components each =>
      obtain ⟨part, inside, spelledPart⟩ := each_has_one each listed
      obtain rfl := text_held inner spelledPart
      exact ⟨_, rfl, _, inside, rfl⟩

theorem styled_held {style : VersionStyle} {value : Json} {version : Option String}
    (held : HoldsText (Rule.version style) value steps (.number (.whole n))) (spelled : SpellsVersion style value version) :
    ∃ found, version = some found ∧ IsComponent (Json.Number.whole n).text found := by
  cases style with
  | dotted => exact version_held held spelled
  | plain =>
    cases spelled with
    | text spelled =>
      obtain rfl := text_held held spelled
      exact ⟨_, rfl, component_self _⟩

theorem entry_held {rule : Rule} {style : VersionStyle} (entry : rule.Entry style) {value : Json} {brand : Brand}
    (held : HoldsText rule value steps (.number (.whole n))) (named : NamesBrand style value brand) :
    ∃ found, brand.version = some found ∧ IsComponent (Json.Number.whole n).text found ∧
      ∃ rest, steps = .member "version" :: rest := by
  cases named with
  | object _ _ versioned =>
    cases held with
    | member known found inner =>
      rcases Rule.entry_member entry known with ⟨rfl, rfl⟩ | ⟨rfl, rfl⟩
      · exact absurd inner name_holds_no_text
      · rw [held_present found inner] at versioned
        cases versioned with
        | present spelled =>
          obtain ⟨version, same, component⟩ := styled_held inner spelled
          exact ⟨version, same, component, _, rfl⟩

end Reading

section Telling

theorem integer_unescaped (n : Int) : ∀ c ∈ (Json.Number.whole n).text.toList, c ≠ '"' ∧ c ≠ '\\' :=
  fun c member => (Json.integer_plain n c member).2

theorem string_stands {n : Int} {version : String} (component : IsComponent (Json.Number.whole n).text version) :
    StandsIn (Json.Number.whole n).text.toList (StructuredField.string version).toList := by
  rw [StructuredField.string, String.toList_ofList]
  exact quoted_component (integer_unescaped n) component

variable {n : Int} {steps : List Step} {members : Json.Members} {name : String} {value : Json}
  (found : members.get? name = some value)
include found

theorem text_told {text : Option String} (said : Option.Rel Spells (present? name members) text)
    (held : HoldsText (.shape .text) value steps (.number (.whole n))) :
    ∃ rendered, text.map StructuredField.string = some rendered ∧
      StandsIn (Json.Number.whole n).text.toList rendered.toList := by
  rw [held_present found held] at said
  cases said with
  | some spelled =>
    obtain rfl := text_held held spelled
    exact ⟨_, rfl, string_stands (component_self _)⟩

theorem brands_told {style : VersionStyle} {list : Option (List Brand)}
    (said : Option.Rel (Lists (NamesBrand style)) (present? name members) list)
    (held : HoldsText (.shape (.brands style)) value steps (.number (.whole n))) :
    ∃ rendered, list.map StructuredField.brands = some rendered ∧
      StandsIn (Json.Number.whole n).text.toList rendered.toList := by
  rw [held_present found held] at said
  cases said with
  | some listed =>
    cases held with
    | here takes => cases takes
    | member known => cases Rule.shape_member known
    | item known entryFound inner =>
      cases known
      cases listed with
      | array each =>
        obtain ⟨brand, inside, named⟩ := each_has_one each (List.mem_of_getElem? entryFound)
        obtain ⟨version, versioned, component, -⟩ := entry_held (.entry style) inner named
        exact ⟨_, rfl, brands_component (integer_unescaped n) inside versioned component⟩

theorem version_told {version : Option String} (said : CarriesVersion .dotted (present? name members) version)
    (held : HoldsText (.shape .version) value steps (.number (.whole n))) :
    ∃ rendered, version.map StructuredField.string = some rendered ∧
      StandsIn (Json.Number.whole n).text.toList rendered.toList := by
  rw [held_present found held] at said
  cases said with
  | present spelled =>
    obtain ⟨version, rfl, component⟩ := version_held held spelled
    exact ⟨_, rfl, string_stands component⟩

theorem platform_told {brand : Option Brand} (said : Option.Rel NamesPlatform (present? name members) brand)
    (held : HoldsText (.shape .platform) value steps (.number (.whole n))) :
    (∃ rest, steps = .member "version" :: rest) ∧ ∃ version, brand.bind Brand.version = some version ∧
      StandsIn (Json.Number.whole n).text.toList (StructuredField.string version).toList := by
  rw [held_present found held] at said
  cases said with
  | some named =>
    cases named with
    | string => cases held
    | object named =>
      obtain ⟨version, versioned, component, onward⟩ := entry_held .platform held named
      exact ⟨onward, version, versioned, string_stands component⟩

end Telling

section Documents

def Tells (p : Profile) (n : Int) : Prop :=
  ∃ hint rendered, p.header hint = some rendered ∧ StandsIn (Json.Number.whole n).text.toList rendered.toList

variable {n : Int} {steps : List Step} {members : Json.Members} {p : Profile}

theorem shape_holds_no_text {shape : Shape} (other : shape ∈ [.boolean, .strings, .flag]) {value inside : Json} :
    ¬HoldsText (.shape shape) value steps inside := by
  intro held
  cases held with
  | here takes => cases takes <;> exact absurd other (by decide)
  | member known =>
    obtain rfl := Rule.shape_member known
    exact absurd other (by decide)
  | item known _ inner => cases known with
    | brands => simp at other
    | strings => exact name_holds_no_text inner
    | components => exact absurd other (by decide)

theorem ghev_tells (document : GhevDocument members p)
    (held : HoldsText (.document ghev) (.object members) steps (.number (.whole n))) : Tells p n := by
  cases held with
  | member known found inner =>
    obtain ⟨field, listed, rfl, rfl⟩ := Rule.document_member known
    simp only [ghev, List.mem_cons, List.not_mem_nil, or_false] at listed
    rcases listed with rfl | rfl | rfl | rfl | rfl | rfl | rfl | rfl | rfl | rfl | rfl
    · exact ⟨.ua, brands_told found document.ua inner⟩
    · exact ⟨.fullVersionList, brands_told found document.fullVersionList inner⟩
    · exact ⟨.fullVersion, text_told found document.fullVersion inner⟩
    · exact ⟨.platform, text_told found document.platform inner⟩
    · exact ⟨.platformVersion, text_told found document.platformVersion inner⟩
    · exact ⟨.arch, text_told found document.arch inner⟩
    · exact ⟨.bitness, text_told found document.bitness inner⟩
    · exact ⟨.model, text_told found document.model inner⟩
    · exact absurd inner (shape_holds_no_text (by decide))
    · exact absurd inner (shape_holds_no_text (by decide))
    · exact absurd inner (shape_holds_no_text (by decide))

-- The version that a platform brings along is told only if there is none next to it.
theorem sua_tells {brand : Option Brand} {own : Option String} (document : SuaDocument members brand own p)
    (held : HoldsText (.document sua) (.object members) steps (.number (.whole n)))
    (lasting : steps.take 2 = [.member "platform", .member "version"] → explicitVersion? members = none) : Tells p n := by
  cases held with
  | member known found inner =>
    obtain ⟨field, listed, rfl, rfl⟩ := Rule.document_member known
    simp only [sua, List.mem_cons, List.not_mem_nil, or_false] at listed
    rcases listed with rfl | rfl | rfl | rfl | rfl | rfl | rfl
    · exact ⟨.fullVersionList, brands_told found document.fullVersionList inner⟩
    · obtain ⟨⟨rest, rfl⟩, version, versioned, stands⟩ := platform_told found document.named inner
      have own : own = none := (carried_version_text document.versioned).symm.trans (lasting rfl)
      refine ⟨.platformVersion, StructuredField.string version, ?_, stands⟩
      rw [Profile.header, document.platformVersion, own, versioned]
      rfl
    · obtain ⟨rendered, told, stands⟩ := version_told found document.versioned inner
      refine ⟨.platformVersion, rendered, ?_, stands⟩
      rw [← told, Profile.header, document.platformVersion]
      cases own with
      | none => cases told
      | some version => rfl
    · exact ⟨.arch, text_told found document.arch inner⟩
    · exact ⟨.bitness, text_told found document.bitness inner⟩
    · exact ⟨.model, text_told found document.model inner⟩
    · exact absurd inner (shape_holds_no_text (by decide))

theorem record_tells {format : Format} {m : Evidence} (accepted : format.schema.record (.object members) .empty = (m, none))
    (held : HoldsText (.document format.schema) (.object members) steps (.number (.whole n)))
    (lasting : steps.take 2 = [.member "platform", .member "version"] → explicitVersion? members = none) :
    ∃ hint value, m.get? (Hint.evidenceKey hint) = some value ∧
      StandsIn (Json.Number.whole n).text.toList value.toList := by
  obtain ⟨_, p, object, described, rfl⟩ := (record_ok_iff format (.object members) m).mp accepted
  obtain rfl := Json.object.inj object
  have tells : Tells p n := by
    cases format with
    | ghev | ghevBase64 => exact ghev_tells described held
    | sua =>
      obtain ⟨brand, own, document⟩ := described
      exact sua_tells document held lasting
  obtain ⟨hint, value, told, stands⟩ := tells
  exact ⟨hint, value, (Evidence.get_of_hints p.header hint).trans told, stands⟩

end Documents

end Schema

end ClientHints
