import ClientHints.Proofs.Evidence.Hints
import ClientHints.Proofs.Schema.Content

/-!
Profiles of user agents. A document that its schema accepts has a profile, which tells of each hint what
the document says; the evidence that is recorded from the document is the evidence of its profile.
-/

set_option autoImplicit false

namespace ClientHints

structure Profile where
  ua : Option (List Brand)
  fullVersionList : Option (List Brand)
  fullVersion : Option String
  platform : Option String
  platformVersion : Option String
  arch : Option String
  bitness : Option String
  model : Option String
  mobile : Option Bool
  wow64 : Option Bool
  formFactors : Option (List String)
deriving DecidableEq, Repr

namespace Profile

def header (p : Profile) : Hint → Option String
  | .ua => p.ua.map StructuredField.brands
  | .fullVersionList => p.fullVersionList.map StructuredField.brands
  | .fullVersion => p.fullVersion.map StructuredField.string
  | .platform => p.platform.map StructuredField.string
  | .platformVersion => p.platformVersion.map StructuredField.string
  | .arch => p.arch.map StructuredField.string
  | .bitness => p.bitness.map StructuredField.string
  | .model => p.model.map StructuredField.string
  | .mobile => p.mobile.map StructuredField.boolean
  | .wow64 => p.wow64.map StructuredField.boolean
  | .formFactors => p.formFactors.map StructuredField.strings

def evidence (p : Profile) : Evidence :=
  .ofHints p.header

end Profile

namespace Schema

structure GhevDocument (members : Json.Members) (p : Profile) : Prop where
  ua : Option.Rel (Lists (NamesBrand .plain)) (present? "brands" members) p.ua
  fullVersionList :
    Option.Rel (Lists (NamesBrand .plain)) (present? "fullVersionList" members) p.fullVersionList
  fullVersion : Option.Rel Spells (present? "uaFullVersion" members) p.fullVersion
  platform : Option.Rel Spells (present? "platform" members) p.platform
  platformVersion : Option.Rel Spells (present? "platformVersion" members) p.platformVersion
  arch : Option.Rel Spells (present? "architecture" members) p.arch
  bitness : Option.Rel Spells (present? "bitness" members) p.bitness
  model : Option.Rel Spells (present? "model" members) p.model
  mobile : Option.Rel IsBoolean (present? "mobile" members) p.mobile
  wow64 : Option.Rel IsBoolean (present? "wow64" members) p.wow64
  formFactors : Option.Rel (Lists SpellsString) (present? "formFactors" members) p.formFactors

-- A structured user agent. Its platform may bring a version along, over which one of its own wins.
structure SuaDocument (members : Json.Members) (brand : Option Brand) (own : Option String)
    (p : Profile) : Prop where
  ua : p.ua = none
  fullVersionList : Option.Rel (Lists (NamesBrand .dotted)) (present? "browsers" members) p.fullVersionList
  fullVersion : p.fullVersion = none
  named : Option.Rel NamesPlatform (present? "platform" members) brand
  platform : p.platform = brand.map Brand.name
  versioned : CarriesVersion .dotted (present? "platformVersion" members) own
  platformVersion : p.platformVersion = own.or (brand.bind Brand.version)
  arch : Option.Rel Spells (present? "architecture" members) p.arch
  bitness : Option.Rel Spells (present? "bitness" members) p.bitness
  model : Option.Rel Spells (present? "model" members) p.model
  mobile : Option.Rel IsFlag (present? "mobile" members) p.mobile
  wow64 : p.wow64 = none
  formFactors : p.formFactors = none

end Schema

def Format.Describes (format : Format) (members : Json.Members) (p : Profile) : Prop :=
  match format with
  | .ghev | .ghevBase64 => Schema.GhevDocument members p
  | .sua => ∃ brand own, Schema.SuaDocument members brand own p

namespace Schema

def stated {κ α : Type} (key : κ) (value : Option α) : List (κ × α) :=
  (value.map fun given => (key, given)).toList

theorem lookup_stated {κ α : Type} [DecidableEq κ] (key query : κ) (value : Option α) :
    (stated key value).lookup query = if query = key then value else none := by
  cases value with
  | none => simp [stated]
  | some given => simp [stated, Evidence.lookup_entry]

theorem reverse_stated {κ α : Type} (key : κ) (value : Option α) : (stated key value).reverse = stated key value := by
  cases value <;> rfl

theorem stated_sublist {κ α : Type} (key : κ) (value : Option α) : ((stated key value).map Prod.fst).Sublist [key] := by
  cases value <;> simp [stated]

theorem rel_holds_iff {α : Type} (shape : Shape) (means : Json → α → Prop) (form : α → Content)
    (holds : ∀ value content, shape.Holds value content ↔ ∃ a, means value a ∧ form a = content)
    (value : Option Json) (content : Option Content) :
    Option.Rel shape.Holds value content ↔ ∃ a, Option.Rel means value a ∧ a.map form = content := by
  cases value with
  | none =>
    constructor
    · rintro ⟨⟩
      exact ⟨none, .none, rfl⟩
    · rintro ⟨_, ⟨⟩, rfl⟩
      exact .none
  | some found =>
    constructor
    · intro held
      cases held with
      | some held =>
        obtain ⟨a, meant, rfl⟩ := (holds found _).mp held
        exact ⟨some a, .some meant, rfl⟩
    · rintro ⟨_, meant, rfl⟩
      cases meant with
      | some meant => exact .some ((holds found _).mpr ⟨_, meant, rfl⟩)

theorem field_hints_ok_iff (field : Field) (members : Json.Members) (given : List (Hint × String)) :
    field.hints members = .ok given ↔
      ∃ content, Option.Rel field.shape.Holds (present? field.member members) content ∧
        content.elim [] (Content.hints field.hint) = given := by
  unfold Field.hints
  cases present? field.member members with
  | none =>
    simp only [Except.ok.injEq]
    constructor
    · rintro rfl
      exact ⟨none, .none, rfl⟩
    · rintro ⟨_, ⟨⟩, rfl⟩
      rfl
  | some value =>
    simp only [except_map_ok_iff, shape_read_ok_iff]
    constructor
    · rintro ⟨content, held, rfl⟩
      exact ⟨some content, .some held, rfl⟩
    · rintro ⟨_, held, rfl⟩
      cases held with
      | some held => exact ⟨_, held, rfl⟩

theorem collect_cons_ok_iff (members : Json.Members) (field : Field) (rest : List Field)
    (given : List (Hint × String)) :
    collect members (field :: rest) = (given, none) ↔ ∃ first others, field.hints members = .ok first ∧
      collect members rest = (others, none) ∧ first ++ others = given := by
  rw [collect]
  cases field.hints members with
  | error fault => simp
  | ok first =>
    obtain ⟨others, fault⟩ := collect members rest
    simp [Prod.ext_iff, eq_comm, and_comm]

theorem collect_nil_ok_iff (members : Json.Members) (given : List (Hint × String)) :
    collect members [] = (given, none) ↔ [] = given := by
  simp [collect]

variable {members : Json.Members} {name : String} {hint : Hint} {given : List (Hint × String)}

theorem field_stated_iff {α : Type} (shape : Shape) (means : Json → α → Prop) (form : α → Content)
    (render : α → String)
    (holds : ∀ value content, shape.Holds value content ↔ ∃ a, means value a ∧ form a = content)
    (rendered : ∀ a, (form a).hints hint = [(hint, render a)]) :
    Field.hints ⟨name, hint, shape⟩ members = .ok given ↔
      ∃ a, Option.Rel means (present? name members) a ∧ stated hint (a.map render) = given := by
  have elim (a : Option α) : (a.map form).elim [] (Content.hints hint) = stated hint (a.map render) := by
    cases a with
    | none => rfl
    | some a => exact rendered a
  simp only [field_hints_ok_iff, rel_holds_iff shape means form holds]
  constructor
  · rintro ⟨_, ⟨a, meant, rfl⟩, rfl⟩
    exact ⟨a, meant, (elim a).symm⟩
  · rintro ⟨a, meant, rfl⟩
    exact ⟨_, ⟨a, meant, rfl⟩, elim a⟩

theorem brands_ok_iff {style : VersionStyle} :
    Field.hints ⟨name, hint, .brands style⟩ members = .ok given ↔
      ∃ list, Option.Rel (Lists (NamesBrand style)) (present? name members) list ∧
        stated hint (list.map StructuredField.brands) = given :=
  field_stated_iff _ _ .brands _ (fun _ _ => Iff.rfl) fun _ => rfl

theorem text_ok_iff :
    Field.hints ⟨name, hint, .text⟩ members = .ok given ↔
      ∃ text, Option.Rel Spells (present? name members) text ∧
        stated hint (text.map StructuredField.string) = given :=
  field_stated_iff _ _ .text _ (fun _ _ => Iff.rfl) fun _ => rfl

theorem boolean_ok_iff :
    Field.hints ⟨name, hint, .boolean⟩ members = .ok given ↔
      ∃ flag, Option.Rel IsBoolean (present? name members) flag ∧
        stated hint (flag.map StructuredField.boolean) = given :=
  field_stated_iff _ _ .boolean _ (fun _ _ => Iff.rfl) fun _ => rfl

theorem strings_ok_iff :
    Field.hints ⟨name, hint, .strings⟩ members = .ok given ↔
      ∃ list, Option.Rel (Lists SpellsString) (present? name members) list ∧
        stated hint (list.map StructuredField.strings) = given :=
  field_stated_iff _ _ .strings _ (fun _ _ => Iff.rfl) fun _ => rfl

theorem flag_ok_iff :
    Field.hints ⟨name, hint, .flag⟩ members = .ok given ↔
      ∃ flag, Option.Rel IsFlag (present? name members) flag ∧
        stated hint (flag.map StructuredField.boolean) = given :=
  field_stated_iff _ _ .boolean _ (fun _ _ => Iff.rfl) fun _ => rfl

theorem platform_ok_iff :
    Field.hints ⟨name, hint, .platform⟩ members = .ok given ↔
      ∃ brand, Option.Rel NamesPlatform (present? name members) brand ∧
        stated hint (brand.map fun named => StructuredField.string named.name) ++
          stated .platformVersion ((brand.bind Brand.version).map StructuredField.string) = given := by
  have elim (brand : Option Brand) : (brand.map Content.platform).elim [] (Content.hints hint) =
      stated hint (brand.map fun named => StructuredField.string named.name) ++
        stated .platformVersion ((brand.bind Brand.version).map StructuredField.string) := by
    obtain _ | ⟨_, _ | version⟩ := brand <;> rfl
  simp only [field_hints_ok_iff, rel_holds_iff .platform NamesPlatform .platform fun _ _ => Iff.rfl]
  constructor
  · rintro ⟨_, ⟨brand, named, rfl⟩, rfl⟩
    exact ⟨brand, named, (elim brand).symm⟩
  · rintro ⟨brand, named, rfl⟩
    exact ⟨_, ⟨brand, named, rfl⟩, elim brand⟩

theorem carries_version_iff (value : Option Json) (version : Option String) :
    CarriesVersion .dotted value version ↔ ∃ read, Option.Rel (SpellsVersion .dotted) value read ∧ read.join = version := by
  constructor
  · rintro ⟨⟩
    · exact ⟨none, .none, rfl⟩
    · rename_i spelled
      exact ⟨some version, .some spelled, rfl⟩
  · rintro ⟨_, ⟨⟩, rfl⟩
    · rename_i spelled
      exact .present spelled
    · exact .absent

theorem version_ok_iff :
    Field.hints ⟨name, hint, .version⟩ members = .ok given ↔
      ∃ version, CarriesVersion .dotted (present? name members) version ∧
        stated hint (version.map StructuredField.string) = given := by
  have elim (read : Option (Option String)) : (read.map Content.version).elim [] (Content.hints hint) =
      stated hint (read.join.map StructuredField.string) := by
    obtain _ | _ | version := read <;> rfl
  simp only [field_hints_ok_iff, carries_version_iff,
    rel_holds_iff .version (SpellsVersion .dotted) .version fun _ _ => Iff.rfl]
  constructor
  · rintro ⟨_, ⟨read, spelled, rfl⟩, rfl⟩
    exact ⟨_, ⟨read, spelled, rfl⟩, (elim read).symm⟩
  · rintro ⟨_, ⟨read, spelled, rfl⟩, rfl⟩
    exact ⟨_, ⟨read, spelled, rfl⟩, elim read⟩

theorem ghev_collect_iff :
    collect members ghev.fields = (given, none) ↔
      ∃ p, GhevDocument members p ∧ Hint.all.flatMap (fun hint => stated hint (p.header hint)) = given := by
  simp only [ghev, collect_cons_ok_iff, collect_nil_ok_iff, brands_ok_iff, text_ok_iff, boolean_ok_iff,
    strings_ok_iff]
  constructor
  · intro accepted
    obtain ⟨_, _, ⟨ua, uaMeant, rfl⟩, accepted, rfl⟩ := accepted
    obtain ⟨_, _, ⟨fullVersionList, fullVersionListMeant, rfl⟩, accepted, rfl⟩ := accepted
    obtain ⟨_, _, ⟨fullVersion, fullVersionMeant, rfl⟩, accepted, rfl⟩ := accepted
    obtain ⟨_, _, ⟨platform, platformMeant, rfl⟩, accepted, rfl⟩ := accepted
    obtain ⟨_, _, ⟨platformVersion, platformVersionMeant, rfl⟩, accepted, rfl⟩ := accepted
    obtain ⟨_, _, ⟨arch, archMeant, rfl⟩, accepted, rfl⟩ := accepted
    obtain ⟨_, _, ⟨bitness, bitnessMeant, rfl⟩, accepted, rfl⟩ := accepted
    obtain ⟨_, _, ⟨model, modelMeant, rfl⟩, accepted, rfl⟩ := accepted
    obtain ⟨_, _, ⟨mobile, mobileMeant, rfl⟩, accepted, rfl⟩ := accepted
    obtain ⟨_, _, ⟨wow64, wow64Meant, rfl⟩, accepted, rfl⟩ := accepted
    obtain ⟨_, _, ⟨formFactors, formFactorsMeant, rfl⟩, accepted, rfl⟩ := accepted
    subst accepted
    exact ⟨⟨ua, fullVersionList, fullVersion, platform, platformVersion, arch, bitness, model, mobile, wow64,
      formFactors⟩, ⟨uaMeant, fullVersionListMeant, fullVersionMeant, platformMeant, platformVersionMeant,
      archMeant, bitnessMeant, modelMeant, mobileMeant, wow64Meant, formFactorsMeant⟩, rfl⟩
  · rintro ⟨p, document, rfl⟩
    refine ⟨_, _, ⟨_, document.ua, rfl⟩, ?_, rfl⟩
    refine ⟨_, _, ⟨_, document.fullVersionList, rfl⟩, ?_, rfl⟩
    refine ⟨_, _, ⟨_, document.fullVersion, rfl⟩, ?_, rfl⟩
    refine ⟨_, _, ⟨_, document.platform, rfl⟩, ?_, rfl⟩
    refine ⟨_, _, ⟨_, document.platformVersion, rfl⟩, ?_, rfl⟩
    refine ⟨_, _, ⟨_, document.arch, rfl⟩, ?_, rfl⟩
    refine ⟨_, _, ⟨_, document.bitness, rfl⟩, ?_, rfl⟩
    refine ⟨_, _, ⟨_, document.model, rfl⟩, ?_, rfl⟩
    refine ⟨_, _, ⟨_, document.mobile, rfl⟩, ?_, rfl⟩
    refine ⟨_, _, ⟨_, document.wow64, rfl⟩, ?_, rfl⟩
    refine ⟨_, _, ⟨_, document.formFactors, rfl⟩, ?_, rfl⟩
    rfl

-- The version that the platform brings along is given before the document's own.
def suaGiven (brand : Option Brand) (own : Option String) (p : Profile) : List (Hint × String) :=
  stated Hint.fullVersionList (p.header .fullVersionList) ++
    (stated Hint.platform (brand.map fun named => StructuredField.string named.name) ++
      stated Hint.platformVersion ((brand.bind Brand.version).map StructuredField.string) ++
    (stated Hint.platformVersion (own.map StructuredField.string) ++
    (stated Hint.arch (p.header .arch) ++ (stated Hint.bitness (p.header .bitness) ++
    (stated Hint.model (p.header .model) ++ (stated Hint.mobile (p.header .mobile) ++ []))))))

theorem sua_collect_iff :
    collect members sua.fields = (given, none) ↔
      ∃ brand own p, SuaDocument members brand own p ∧ suaGiven brand own p = given := by
  simp only [sua, collect_cons_ok_iff, collect_nil_ok_iff, brands_ok_iff, platform_ok_iff, version_ok_iff,
    text_ok_iff, flag_ok_iff]
  constructor
  · intro accepted
    obtain ⟨_, _, ⟨browsers, browsersMeant, rfl⟩, accepted, rfl⟩ := accepted
    obtain ⟨_, _, ⟨brand, brandMeant, rfl⟩, accepted, rfl⟩ := accepted
    obtain ⟨_, _, ⟨own, ownMeant, rfl⟩, accepted, rfl⟩ := accepted
    obtain ⟨_, _, ⟨arch, archMeant, rfl⟩, accepted, rfl⟩ := accepted
    obtain ⟨_, _, ⟨bitness, bitnessMeant, rfl⟩, accepted, rfl⟩ := accepted
    obtain ⟨_, _, ⟨model, modelMeant, rfl⟩, accepted, rfl⟩ := accepted
    obtain ⟨_, _, ⟨mobile, mobileMeant, rfl⟩, accepted, rfl⟩ := accepted
    subst accepted
    refine ⟨brand, own, ⟨none, browsers, none, brand.map Brand.name, own.or (brand.bind Brand.version), arch,
      bitness, model, mobile, none, none⟩, ⟨rfl, browsersMeant, rfl, brandMeant, rfl, ownMeant, rfl, archMeant,
      bitnessMeant, modelMeant, mobileMeant, rfl, rfl⟩, rfl⟩
  · rintro ⟨brand, own, p, document, rfl⟩
    refine ⟨_, _, ⟨_, document.fullVersionList, rfl⟩, ?_, rfl⟩
    refine ⟨_, _, ⟨_, document.named, rfl⟩, ?_, rfl⟩
    refine ⟨_, _, ⟨_, document.versioned, rfl⟩, ?_, rfl⟩
    refine ⟨_, _, ⟨_, document.arch, rfl⟩, ?_, rfl⟩
    refine ⟨_, _, ⟨_, document.bitness, rfl⟩, ?_, rfl⟩
    refine ⟨_, _, ⟨_, document.model, rfl⟩, ?_, rfl⟩
    refine ⟨_, _, ⟨_, document.mobile, rfl⟩, ?_, rfl⟩
    rfl

theorem flat_map_stated_sublist (hints : List Hint) (said : Hint → Option String) :
    ((hints.flatMap fun hint => stated hint (said hint)).map Prod.fst).Sublist hints := by
  induction hints with
  | nil => exact .slnil
  | cons hint rest ih =>
    rw [List.flatMap_cons, List.map_append]
    exact (stated_sublist hint (said hint)).append ih

theorem lookup_flat_map_stated (hints : List Hint) (said : Hint → Option String) (query : Hint)
    (distinct : hints.Nodup) (listed : query ∈ hints) :
    (hints.flatMap fun hint => stated hint (said hint)).reverse.lookup query = said query := by
  induction hints with
  | nil => cases listed
  | cons hint rest ih =>
    obtain ⟨absent, restDistinct⟩ := List.nodup_cons.mp distinct
    rw [List.flatMap_cons, List.reverse_append, List.lookup_append, reverse_stated, lookup_stated]
    by_cases first : query = hint
    · subst first
      have missing : (rest.flatMap fun hint => stated hint (said hint)).reverse.lookup query = none := by
        refine Evidence.lookup_absent fun member => absent ?_
        rw [List.map_reverse] at member
        exact (flat_map_stated_sublist rest said).mem (List.mem_reverse.mp member)
      rw [missing, if_pos rfl]
      rfl
    · rw [ih restDistinct ((List.mem_cons.mp listed).resolve_left first), if_neg first]
      exact Option.or_none

theorem ghev_given_evidence (p : Profile) :
    Evidence.empty.extend ((Hint.all.flatMap fun hint => stated hint (p.header hint)).map Evidence.hintEntry) =
      p.evidence := by
  rw [Evidence.extend_hints]
  · unfold Profile.evidence
    congr 1
    funext hint
    exact lookup_flat_map_stated _ _ hint Hint.all_nodup hint.mem_all
  · apply List.Pairwise.sublist (flat_map_stated_sublist Hint.all p.header)
    exact Hint.all_ascending.imp fun before => Nat.le_of_lt before

theorem sua_given_sublist (brand : Option Brand) (own : Option String) (p : Profile) :
    ((suaGiven brand own p).map Prod.fst).Sublist
      [.fullVersionList, .platform, .platformVersion, .platformVersion, .arch, .bitness, .model, .mobile] := by
  simp only [suaGiven, List.map_append]
  apply (stated_sublist Hint.fullVersionList _).append
  apply ((stated_sublist Hint.platform _).append (stated_sublist Hint.platformVersion _)).append
  apply (stated_sublist Hint.platformVersion _).append
  apply (stated_sublist Hint.arch _).append
  apply (stated_sublist Hint.bitness _).append
  apply (stated_sublist Hint.model _).append
  exact (stated_sublist Hint.mobile _).append .slnil

theorem sua_given_evidence (brand : Option Brand) (own : Option String) (p : Profile)
    (document : SuaDocument members brand own p) :
    Evidence.empty.extend ((suaGiven brand own p).map Evidence.hintEntry) = p.evidence := by
  rw [Evidence.extend_hints]
  · unfold Profile.evidence
    congr 1
    funext hint
    cases hint <;> simp [suaGiven, List.lookup_append, reverse_stated, lookup_stated, Profile.header,
      document.ua, document.fullVersion, document.platform, document.platformVersion, document.wow64,
      document.formFactors, Option.map_or, Option.map_bind, Function.comp_def]
  · apply List.Pairwise.sublist (sua_given_sublist brand own p)
    decide

theorem hints_ok_iff (schema : Schema) (root : Json) (given : List (Hint × String)) :
    schema.hints root = (given, none) ↔
      ∃ members, root = .object members ∧ collect members schema.fields = (given, none) := by
  cases root with
  | object members => simp [hints]
  | null | bool | number | string | array => simp [hints]

theorem record_ok_iff (format : Format) (root : Json) (m : Evidence) :
    format.schema.record root .empty = (m, none) ↔
      ∃ members p, root = .object members ∧ format.Describes members p ∧ m = p.evidence := by
  have recorded : format.schema.record root .empty = (m, none) ↔
      ∃ given, format.schema.hints root = (given, none) ∧ Evidence.empty.extend (given.map Evidence.hintEntry) = m := by
    simp only [record, Prod.ext_iff]
    constructor
    · rintro ⟨written, sound⟩
      exact ⟨_, ⟨rfl, sound⟩, written⟩
    · rintro ⟨_, ⟨rfl, sound⟩, written⟩
      exact ⟨written, sound⟩
  have ghev : (∃ given, Schema.ghev.hints root = (given, none) ∧
      Evidence.empty.extend (given.map Evidence.hintEntry) = m) ↔
      ∃ members p, root = .object members ∧ GhevDocument members p ∧ m = p.evidence := by
    simp only [hints_ok_iff, ghev_collect_iff]
    constructor
    · rintro ⟨_, ⟨members, rfl, p, document, rfl⟩, rfl⟩
      exact ⟨members, p, rfl, document, ghev_given_evidence p⟩
    · rintro ⟨members, p, rfl, document, rfl⟩
      exact ⟨_, ⟨members, rfl, p, document, rfl⟩, ghev_given_evidence p⟩
  have sua : (∃ given, Schema.sua.hints root = (given, none) ∧
      Evidence.empty.extend (given.map Evidence.hintEntry) = m) ↔
      ∃ members p, root = .object members ∧ (∃ brand own, SuaDocument members brand own p) ∧ m = p.evidence := by
    simp only [hints_ok_iff, sua_collect_iff]
    constructor
    · rintro ⟨_, ⟨members, rfl, brand, own, p, document, rfl⟩, rfl⟩
      exact ⟨members, p, rfl, ⟨brand, own, document⟩, sua_given_evidence brand own p document⟩
    · rintro ⟨members, p, rfl, ⟨brand, own, document⟩, rfl⟩
      exact ⟨_, ⟨members, rfl, brand, own, p, document, rfl⟩, sua_given_evidence brand own p document⟩
  rw [recorded]
  cases format with
  | ghev => exact ghev
  | ghevBase64 => exact ghev
  | sua => exact sua

end Schema

end ClientHints
