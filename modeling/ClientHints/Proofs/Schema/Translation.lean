import ClientHints.Proofs.Json.Members
import ClientHints.Proofs.Schema.Printable

set_option autoImplicit false

namespace ClientHints

def Profile.common (p : Profile) : Profile :=
  { p with ua := none, fullVersion := none, wow64 := none, formFactors := none }

namespace Schema

section Definitions

open Json

def componentText : Json → String
  | .string text => text
  | .number found => found.text
  | _ => ""

def versionText? : Json → Option String
  | .null => none
  | .array [] => none
  | .array components => some (".".intercalate (components.map componentText))
  | other => some (componentText other)

def brandToGhev : Json → Json
  | .object members => match (Members.get? "version" members).bind versionText? with
    | some text => .object (Members.insert "version" (.string text) members)
    | none => .object (Members.drop ["version"] members)
  | other => other

def listToGhev : Json → Json
  | .array items => .array (items.map brandToGhev)
  | other => other

def platformName? : Json → Option Json
  | .object members => Members.get? "brand" members
  | other => some other

def platformVersion? : Json → Option String
  | .object members => (Members.get? "version" members).bind versionText?
  | _ => none

def flagToBoolean : Json → Json
  | .number (.whole 0) => .bool false
  | .number (.whole 1) => .bool true
  | other => other

def toGhev (members : Members) : Members :=
  stated "architecture" (members.get? "architecture") ++
    stated "bitness" (members.get? "bitness") ++
    stated "fullVersionList" ((members.get? "browsers").map listToGhev) ++
    stated "mobile" ((members.get? "mobile").map flagToBoolean) ++
    stated "model" (members.get? "model") ++
    stated "platform" ((members.get? "platform").bind platformName?) ++
    stated "platformVersion" ((((members.get? "platformVersion").bind versionText?).or
      ((members.get? "platform").bind platformVersion?)).map .string)

def toSua (members : Members) : Members :=
  let others := Members.drop ["browsers", "fullVersionList"] members
  match members.get? "fullVersionList" with
  | some list => Members.insert "browsers" list others
  | none => others

end Definitions

section Presence

def unlessNull : Option Json → Option Json
  | some .null => none
  | other => other

theorem present_eq (name : String) (members : Json.Members) :
    present? name members = unlessNull (members.get? name) := rfl

theorem unless_null_map (f : Json → Json) (keeps : ∀ value, f value = .null ↔ value = .null) (value : Option Json) :
    unlessNull (value.map f) = (unlessNull value).map f := by
  cases value with
  | none => rfl
  | some found =>
    by_cases null : found = .null
    · subst null
      simp [unlessNull, (keeps .null).mpr rfl]
    · have image : f found ≠ .null := fun same => null ((keeps found).mp same)
      have kept (v : Json) (filled : v ≠ .null) : unlessNull (some v) = some v := by
        cases v <;> first | rfl | exact absurd rfl filled
      rw [Option.map_some, kept _ image, kept _ null, Option.map_some]

theorem unless_null_strings (text : Option String) : unlessNull (text.map .string) = text.map .string := by
  cases text <;> rfl

theorem rel_map {α : Type} {first second : Json → α → Prop} (f : Json → Json) {value : Option Json} {a : Option α}
    (related : Option.Rel first value a) (carried : ∀ value a, first value a → second (f value) a) :
    Option.Rel second (value.map f) a := by
  cases related with
  | none => exact .none
  | some meant => exact .some (carried _ _ meant)

theorem rel_imp {α : Type} {first second : Json → α → Prop} {value : Option Json} {a : Option α}
    (related : Option.Rel first value a) (carried : ∀ value a, first value a → second value a) :
    Option.Rel second value a := by
  simpa using rel_map id related carried

end Presence

section Versions

theorem component_text {value : Json} {text : String} (spelled : Spells value text) : componentText value = text := by
  cases spelled <;> rfl

theorem component_texts {items : List Json} {parts : List String} (each : List.Forall₂ Spells items parts) :
    items.map componentText = parts := by
  induction each with
  | nil => rfl
  | cons first _ ih => rw [List.map_cons, component_text first, ih]

theorem version_text {value : Json} {version : Option String} (spelled : SpellsVersion .dotted value version) :
    versionText? value = version := by
  cases spelled with
  | text spelled => cases spelled <;> rfl
  | empty => rfl
  | components each nonempty =>
    rename_i items parts
    cases items with
    | nil => exact absurd rfl nonempty
    | cons first rest => rw [versionText?, component_texts each]; nofun

theorem carried_version_text {value : Option Json} {version : Option String}
    (carried : CarriesVersion .dotted (unlessNull value) version) : value.bind versionText? = version := by
  cases value with
  | none =>
    cases carried
    rfl
  | some found =>
    cases found with
    | null =>
      cases carried
      rfl
    | bool | number | string | array | object =>
      cases carried with
      | present spelled => exact version_text spelled

theorem texts_spell {text : Option String} (printable : ∀ found ∈ text, Printable found) :
    Option.Rel Spells (text.map .string) text := by
  cases text with
  | none => exact .none
  | some found => exact .some (.string found (printable found rfl))

end Versions

section ToGhev

theorem brand_to_ghev {value : Json} {brand : Brand} (named : NamesBrand .dotted value brand) :
    NamesBrand .plain (brandToGhev value) brand := by
  have printable := (names_brand_printable named).version
  cases named with
  | object named namePrintable versioned =>
    rename_i members name version
    have text := carried_version_text versioned
    cases version with
    | none =>
      simp only [brandToGhev, text]
      refine .object (by simpa [present_eq, Json.Members.get_drop] using named) namePrintable ?_
      simp only [present_eq, Json.Members.get_drop]
      exact .absent
    | some found =>
      simp only [brandToGhev, text]
      refine .object (by simpa [present_eq, Json.Members.get_insert] using named) namePrintable ?_
      simp only [present_eq, Json.Members.get_insert]
      exact .present (.text (.string found (printable found rfl)))

theorem list_to_ghev {value : Json} {list : List Brand} (listed : Lists (NamesBrand .dotted) value list) :
    Lists (NamesBrand .plain) (listToGhev value) list := by
  cases listed with
  | array each =>
    refine .array ?_
    rw [List.forall₂_map_left_iff]
    exact each.imp fun _ _ => brand_to_ghev

theorem flag_to_boolean {value : Json} {flag : Bool} (said : IsFlag value flag) : IsBoolean (flagToBoolean value) flag := by
  cases said <;> exact .bool _

theorem platform_to_ghev {value : Option Json} {brand : Option Brand}
    (named : Option.Rel NamesPlatform (unlessNull value) brand) :
    Option.Rel Spells (unlessNull (value.bind platformName?)) (brand.map Brand.name) ∧
      value.bind platformVersion? = brand.bind Brand.version := by
  cases value with
  | none =>
    cases named
    exact ⟨.none, rfl⟩
  | some found =>
    cases found with
    | null =>
      cases named
      exact ⟨.none, rfl⟩
    | string name =>
      cases named with
      | some named =>
        cases named with
        | string _ printable => exact ⟨.some (.string name printable), rfl⟩
        | object named => cases named
    | object members =>
      cases named with
      | some named =>
        cases named with
        | object named =>
          cases named with
          | object named printable versioned =>
            refine ⟨?_, carried_version_text versioned⟩
            change Option.Rel Spells (present? "brand" members) _
            rw [named]
            exact .some (.string _ printable)
    | bool | number | array =>
      cases named with
      | some named =>
        cases named with
        | object named => cases named

section Members

variable (members : Json.Members)

theorem get_to_ghev (name : String) : (toGhev members).get? name =
    if name = "architecture" then members.get? "architecture"
    else if name = "bitness" then members.get? "bitness"
    else if name = "fullVersionList" then (members.get? "browsers").map listToGhev
    else if name = "mobile" then (members.get? "mobile").map flagToBoolean
    else if name = "model" then members.get? "model"
    else if name = "platform" then (members.get? "platform").bind platformName?
    else if name = "platformVersion" then (((members.get? "platformVersion").bind versionText?).or
      ((members.get? "platform").bind platformVersion?)).map .string
    else none := by
  simp only [toGhev, Json.Members.get?, List.lookup_append, lookup_stated]
  repeat' split
  all_goals simp_all

end Members

theorem document_to_ghev {members : Json.Members} {brand : Option Brand} {own : Option String} {p : Profile}
    (document : SuaDocument members brand own p) : GhevDocument (toGhev members) p := by
  have keepsList (value : Json) : listToGhev value = .null ↔ value = .null := by cases value <;> simp [listToGhev]
  have keepsFlag (value : Json) : flagToBoolean value = .null ↔ value = .null := by
    unfold flagToBoolean
    split <;> simp
  obtain ⟨named, version⟩ := platform_to_ghev document.named
  constructor
  case ua => simp [present_eq, get_to_ghev, document.ua, unlessNull]
  case fullVersionList =>
    simp only [present_eq, get_to_ghev, String.reduceEq, ite_true, ite_false, unless_null_map _ keepsList]
    exact rel_map listToGhev document.fullVersionList fun _ _ => list_to_ghev
  case fullVersion => simp [present_eq, get_to_ghev, document.fullVersion, unlessNull]
  case platform =>
    simp only [present_eq, get_to_ghev, String.reduceEq, ite_true, ite_false, document.platform]
    exact named
  case platformVersion =>
    simp only [present_eq, get_to_ghev, String.reduceEq, ite_true, ite_false, unless_null_strings,
      carried_version_text document.versioned, version, ← document.platformVersion]
    exact texts_spell (sua_document_printable document).platformVersion
  case arch => simpa [present_eq, get_to_ghev] using document.arch
  case bitness => simpa [present_eq, get_to_ghev] using document.bitness
  case model => simpa [present_eq, get_to_ghev] using document.model
  case mobile =>
    simp only [present_eq, get_to_ghev, String.reduceEq, ite_true, ite_false, unless_null_map _ keepsFlag]
    exact rel_map flagToBoolean document.mobile fun _ _ => flag_to_boolean
  case wow64 => simp [present_eq, get_to_ghev, document.wow64, unlessNull]
  case formFactors => simp [present_eq, get_to_ghev, document.formFactors, unlessNull]

end ToGhev

section ToSua

theorem get_to_sua (members : Json.Members) (name : String) : (toSua members).get? name =
    if name = "browsers" then members.get? "fullVersionList"
    else if name = "fullVersionList" then none
    else members.get? name := by
  unfold toSua
  cases found : members.get? "fullVersionList" with
  | none => simp only [Json.Members.get_drop]; grind
  | some list => simp only [Json.Members.get_insert, Json.Members.get_drop]; grind

theorem carried_to_sua {value : Option Json} {version : Option String} (carried : CarriesVersion .plain value version) :
    CarriesVersion .dotted value version := by
  cases carried with
  | absent => exact .absent
  | present spelled =>
    cases spelled with
    | text spelled => exact .present (.text spelled)

theorem brand_to_sua {value : Json} {brand : Brand} (named : NamesBrand .plain value brand) :
    NamesBrand .dotted value brand := by
  cases named with
  | object named printable versioned => exact .object named printable (carried_to_sua versioned)

theorem platform_to_sua {value : Option Json} {name : Option String} (spelled : Option.Rel Spells value name)
    (text : ∀ found ∈ value, ∃ written, found = .string written) :
    Option.Rel NamesPlatform value (name.map fun given => ⟨given, none⟩) := by
  cases spelled with
  | none => exact .none
  | some spelled =>
    obtain ⟨_, rfl⟩ := text _ rfl
    cases spelled with
    | string _ printable => exact .some (.string _ printable)

theorem version_to_sua {value : Option Json} {version : Option String} (spelled : Option.Rel Spells value version) :
    CarriesVersion .dotted value version := by
  cases spelled with
  | none => exact .absent
  | some spelled => exact .present (.text spelled)

theorem document_to_sua {members : Json.Members} {p : Profile} (document : GhevDocument members p)
    (text : ∀ found ∈ present? "platform" members, ∃ written, found = .string written) :
    SuaDocument (toSua members) (p.platform.map fun given => ⟨given, none⟩) p.platformVersion p.common := by
  have kept (name : String) (browsers : name ≠ "browsers") (list : name ≠ "fullVersionList") :
      present? name (toSua members) = present? name members := by
    simp only [present_eq, get_to_sua, if_neg browsers, if_neg list]
  have renamed : present? "browsers" (toSua members) = present? "fullVersionList" members := by
    simp [present_eq, get_to_sua]
  constructor
  case ua | fullVersion | wow64 | formFactors => rfl
  case fullVersionList =>
    rw [renamed]
    refine rel_imp document.fullVersionList fun _ _ listed => ?_
    cases listed with
    | array each => exact .array (each.imp fun _ _ => brand_to_sua)
  case named =>
    rw [kept "platform" (by decide) (by decide)]
    exact platform_to_sua document.platform text
  case platform => cases found : p.platform <;> simp [Profile.common, found]
  case versioned =>
    rw [kept "platformVersion" (by decide) (by decide)]
    exact version_to_sua document.platformVersion
  case platformVersion => cases found : p.platform <;> simp [Profile.common, found]
  case arch =>
    rw [kept "architecture" (by decide) (by decide)]
    exact document.arch
  case bitness =>
    rw [kept "bitness" (by decide) (by decide)]
    exact document.bitness
  case model =>
    rw [kept "model" (by decide) (by decide)]
    exact document.model
  case mobile =>
    rw [kept "mobile" (by decide) (by decide)]
    exact rel_imp document.mobile fun _ _ ⟨flag⟩ => .bool flag

end ToSua

theorem common_evidence (p : Profile) :
    p.common.evidence = p.evidence.without [.ua, .fullVersion, .wow64, .formFactors] := by
  rw [Profile.evidence, Profile.evidence, Evidence.of_hints_without]
  congr 1
  funext hint
  cases hint <;> rfl

theorem schemas_agree :
    (∀ members m, sua.record (.object members) .empty = (m, none) →
      ghev.record (.object (toGhev members)) .empty = (m, none)) ∧
    ∀ members g, (∀ found ∈ present? "platform" members, ∃ written, found = .string written) →
      ghev.record (.object members) .empty = (g, none) →
      sua.record (.object (toSua members)) .empty = (g.without [.ua, .fullVersion, .wow64, .formFactors], none) := by
  constructor
  · intro members m accepted
    obtain ⟨_, p, same, ⟨brand, own, document⟩, rfl⟩ := (record_ok_iff .sua _ m).mp accepted
    obtain rfl := Json.object.inj same
    exact (record_ok_iff .ghev _ _).mpr ⟨_, p, rfl, document_to_ghev document, rfl⟩
  · intro members g text accepted
    obtain ⟨_, p, same, document, rfl⟩ := (record_ok_iff .ghev _ g).mp accepted
    obtain rfl := Json.object.inj same
    rw [← common_evidence]
    exact (record_ok_iff .sua _ _).mpr ⟨_, p.common, rfl, ⟨_, _, document_to_sua document text⟩, rfl⟩

def dottedMembers : Json.Members := [
  ("browsers", .array [.object [("brand", .string "x"), ("version", .array [.number (.whole 1), .string "2"])]]),
  ("platform", .object [("brand", .string "y"), ("version", .string "3")]),
  ("platformVersion", .array [])]

def dottedEvidence : Evidence := ⟨[
  ("header.sec-ch-ua-full-version-list", "\"x\";v=\"1.2\""),
  ("header.sec-ch-ua-platform", "\"y\""),
  ("header.sec-ch-ua-platform-version", "\"3\"")]⟩

theorem schemas_agree_on_dotted_versions :
    ghev.record (.object (toGhev dottedMembers)) .empty = (dottedEvidence, none) ∧
      sua.record (.object (toSua (toGhev dottedMembers))) .empty =
        (dottedEvidence.without [.ua, .fullVersion, .wow64, .formFactors], none) := by
  have translated := schemas_agree.1 dottedMembers dottedEvidence (by decide)
  have platform : present? "platform" (toGhev dottedMembers) = some (.string "y") := rfl
  refine ⟨translated, schemas_agree.2 (toGhev dottedMembers) dottedEvidence ?_ translated⟩
  rw [platform]
  rintro _ ⟨⟩
  exact ⟨"y", rfl⟩

-- Nothing in a structured user agent gives the other hints that are left out.
theorem renaming_drops_wow64 :
    ¬ ∀ members g, (∀ found ∈ present? "platform" members, ∃ written, found = .string written) →
      ghev.record (.object members) .empty = (g, none) →
      sua.record (.object (toSua members)) .empty = (g.without [.ua, .fullVersion], none) := by
  intro agree
  have outcome := agree [("wow64", .bool true)] ⟨[("header.sec-ch-ua-wow64", "?1")]⟩ nofun (by decide)
  exact absurd outcome (by decide)

end Schema

end ClientHints
