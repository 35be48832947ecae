import ClientHints.Proofs.Schema.Profile

set_option autoImplicit false

namespace ClientHints

structure Profile.IsPrintable (p : Profile) : Prop where
  ua : ∀ list ∈ p.ua, ∀ brand ∈ list, PrintableBrand brand
  fullVersionList : ∀ list ∈ p.fullVersionList, ∀ brand ∈ list, PrintableBrand brand
  fullVersion : ∀ text ∈ p.fullVersion, Printable text
  platform : ∀ text ∈ p.platform, Printable text
  platformVersion : ∀ text ∈ p.platformVersion, Printable text
  arch : ∀ text ∈ p.arch, Printable text
  bitness : ∀ text ∈ p.bitness, Printable text
  model : ∀ text ∈ p.model, Printable text
  formFactors : ∀ list ∈ p.formFactors, ∀ text ∈ list, Printable text

namespace Schema

theorem spells_printable {value : Json} {text : String} (spelled : Spells value text) : Printable text := by
  cases spelled with
  | string _ printable => exact printable
  | number number => exact printable_number number

theorem each_of_all_two {α β : Type} {means : α → β → Prop} {sound : β → Prop} {items : List α} {list : List β}
    (related : List.Forall₂ means items list) (each : ∀ item b, means item b → sound b) : ∀ b ∈ list, sound b := by
  induction related with
  | nil => nofun
  | cons first _ ih => exact List.forall_mem_cons.mpr ⟨each _ _ first, ih⟩

theorem lists_each {α : Type} {means : Json → α → Prop} {sound : α → Prop} {value : Json} {list : List α}
    (listed : Lists means value list) (each : ∀ item a, means item a → sound a) : ∀ a ∈ list, sound a := by
  cases listed with
  | array related => exact each_of_all_two related each

theorem spells_version_printable {style : VersionStyle} {value : Json} {version : Option String}
    (spelled : SpellsVersion style value version) : ∀ text ∈ version, Printable text := by
  cases spelled with
  | text spelled =>
    rintro _ ⟨⟩
    exact spells_printable spelled
  | empty => nofun
  | components each _ =>
    rintro _ ⟨⟩
    exact printable_intercalate "." _ (by decide) (each_of_all_two each fun _ _ => spells_printable)

theorem carries_version_printable {style : VersionStyle} {value : Option Json} {version : Option String}
    (carried : CarriesVersion style value version) : ∀ text ∈ version, Printable text := by
  cases carried with
  | absent => nofun
  | present spelled => exact spells_version_printable spelled

theorem names_brand_printable {style : VersionStyle} {value : Json} {brand : Brand}
    (named : NamesBrand style value brand) : PrintableBrand brand := by
  cases named with
  | object _ printable versioned => exact ⟨printable, carries_version_printable versioned⟩

theorem names_platform_printable {value : Json} {brand : Brand} (named : NamesPlatform value brand) :
    PrintableBrand brand := by
  cases named with
  | string _ printable => exact ⟨printable, nofun⟩
  | object named => exact names_brand_printable named

theorem rel_sound {α : Type} {means : Json → α → Prop} {sound : α → Prop} {value : Option Json} {said : Option α}
    (related : Option.Rel means value said) (each : ∀ item a, means item a → sound a) : ∀ a ∈ said, sound a := by
  cases related with
  | none => nofun
  | some meant =>
    rintro _ ⟨⟩
    exact each _ _ meant

section Members

variable {value : Option Json}

theorem text_member_printable {text : Option String} (said : Option.Rel Spells value text) :
    ∀ found ∈ text, Printable found :=
  rel_sound said fun _ _ => spells_printable

theorem brands_member_printable {style : VersionStyle} {list : Option (List Brand)}
    (said : Option.Rel (Lists (NamesBrand style)) value list) : ∀ found ∈ list, ∀ brand ∈ found, PrintableBrand brand :=
  rel_sound said fun _ _ listed => lists_each listed fun _ _ => names_brand_printable

theorem strings_member_printable {list : Option (List String)} (said : Option.Rel (Lists SpellsString) value list) :
    ∀ found ∈ list, ∀ text ∈ found, Printable text := by
  refine rel_sound said fun _ _ listed => lists_each listed fun _ _ spelled => ?_
  cases spelled with
  | string _ printable => exact printable

end Members

theorem ghev_document_printable {members : Json.Members} {p : Profile} (document : GhevDocument members p) :
    p.IsPrintable where
  ua := brands_member_printable document.ua
  fullVersionList := brands_member_printable document.fullVersionList
  fullVersion := text_member_printable document.fullVersion
  platform := text_member_printable document.platform
  platformVersion := text_member_printable document.platformVersion
  arch := text_member_printable document.arch
  bitness := text_member_printable document.bitness
  model := text_member_printable document.model
  formFactors := strings_member_printable document.formFactors

theorem sua_document_printable {members : Json.Members} {brand : Option Brand} {own : Option String} {p : Profile}
    (document : SuaDocument members brand own p) : p.IsPrintable := by
  have named : ∀ found ∈ brand, PrintableBrand found :=
    rel_sound document.named fun _ _ => names_platform_printable
  refine ⟨?_, brands_member_printable document.fullVersionList, ?_, ?_, ?_, text_member_printable document.arch,
    text_member_printable document.bitness, text_member_printable document.model, ?_⟩
  · rw [document.ua]
    nofun
  · rw [document.fullVersion]
    nofun
  · rw [document.platform]
    intro text given
    obtain ⟨found, member, rfl⟩ := Option.map_eq_some_iff.mp given
    exact (named found member).name
  · rw [document.platformVersion]
    intro text given
    rcases Option.or_eq_some_iff.mp given with own | ⟨-, carried⟩
    · exact carries_version_printable document.versioned text own
    · obtain ⟨found, member, version⟩ := Option.bind_eq_some_iff.mp carried
      exact (named found member).version text version
  · rw [document.formFactors]
    nofun

end Schema

theorem describes_printable {format : Format} {members : Json.Members} {p : Profile}
    (described : format.Describes members p) : p.IsPrintable := by
  cases format with
  | ghev | ghevBase64 => exact Schema.ghev_document_printable described
  | sua =>
    obtain ⟨brand, own, document⟩ := described
    exact Schema.sua_document_printable document

end ClientHints
