import ClientHints.Proofs.Schema.Translation

set_option autoImplicit false

namespace ClientHints

namespace Evidence

theorem of_hints_adjacent {first second : Hint} (front back : List Hint) (listed : Hint.all = front ++ first :: second :: back)
    (said : Hint → Option String) {value other : String} (given : said first = some value) (also : said second = some other) :
    ∃ before after, (ofHints said).entries =
      before ++ (first.evidenceKey, value) :: (second.evidenceKey, other) :: after := by
  simp only [ofHints, listed, List.filterMap_append, List.filterMap_cons, given, also, Option.map_some]
  exact ⟨_, _, rfl⟩

end Evidence

namespace Schema

section Versions

variable (members : Json.Members)

def explicitVersion? : Option String :=
  (members.get? "platformVersion").bind versionText?

def carried? : Option Json :=
  (members.get? "platform").bind (Json.get? "version")

def carriedVersion? : Option String :=
  (carried? members).bind versionText?

-- A version that is not empty: there is a text, a number, or a component.
def filledText? : Json → Option String
  | .string "" => none
  | other => versionText? other

def filledVersion? : Option String :=
  (carried? members).bind filledText?

theorem filled_text_eq {value : Json} (filled : value ≠ .string "") : filledText? value = versionText? value := by
  unfold filledText?
  split
  · exact absurd rfl filled
  · rfl

theorem filled_version_eq (filled : carried? members ≠ some (.string "")) : filledVersion? members = carriedVersion? members := by
  unfold filledVersion? carriedVersion?
  cases carried : carried? members with
  | none => rfl
  | some value => exact filled_text_eq fun empty => filled (empty ▸ carried)

theorem empty_text_carried (empty : carried? members = some (.string "")) :
    carriedVersion? members = some "" ∧ filledVersion? members = none := by
  rw [carriedVersion?, filledVersion?, empty]
  exact ⟨rfl, rfl⟩

theorem carried_version_eq : carriedVersion? members = (members.get? "platform").bind platformVersion? := by
  unfold carriedVersion? carried?
  cases members.get? "platform" with
  | none => rfl
  | some platform => cases platform <;> rfl

end Versions

theorem document_resolves {members : Json.Members} {brand : Option Brand} {own : Option String} {p : Profile}
    (document : SuaDocument members brand own p) :
    p.platformVersion = (explicitVersion? members).or (carriedVersion? members) := by
  rw [document.platformVersion, ← carried_version_text document.versioned, ← (platform_to_ghev document.named).2,
    carried_version_eq]
  rfl

theorem platform_version_resolves {root : Json} {m : Evidence} (accepted : sua.record root .empty = (m, none)) :
    ∃ members, root = .object members ∧
      m.get? Hint.platformVersion.evidenceKey =
        ((explicitVersion? members).or (carriedVersion? members)).map StructuredField.string ∧
      (m.get? Hint.platformVersion.evidenceKey =
          ((explicitVersion? members).or (filledVersion? members)).map StructuredField.string ↔
        ¬(explicitVersion? members = none ∧ carried? members = some (.string ""))) ∧
      m.keys.Nodup ∧
      ∀ name version, m.get? Hint.platform.evidenceKey = some name →
        m.get? Hint.platformVersion.evidenceKey = some version →
        ∃ before after, m.entries =
          before ++ (Hint.platform.evidenceKey, name) :: (Hint.platformVersion.evidenceKey, version) :: after := by
  obtain ⟨members, p, rfl, ⟨brand, own, document⟩, rfl⟩ := (record_ok_iff .sua root m).mp accepted
  have resolved : p.evidence.get? Hint.platformVersion.evidenceKey =
      ((explicitVersion? members).or (carriedVersion? members)).map StructuredField.string := by
    rw [Profile.evidence, Evidence.get_of_hints, Profile.header, document_resolves document]
  refine ⟨members, rfl, resolved, ?_, Evidence.of_hints_keys_nodup p.header, fun name version named versioned => ?_⟩
  · rw [resolved]
    constructor
    · rintro same ⟨none, empty⟩
      obtain ⟨carried, filled⟩ := empty_text_carried members empty
      rw [none, carried, filled] at same
      cases same
    · intro usual
      cases explicit : explicitVersion? members with
      | some own => rfl
      | none => rw [filled_version_eq members fun empty => usual ⟨explicit, empty⟩]
  · rw [Profile.evidence, Evidence.get_of_hints] at named versioned
    exact Evidence.of_hints_adjacent [.ua, .fullVersionList, .fullVersion] _ rfl p.header named versioned

-- It has no version of its own, and components make up the one that its platform carries.
def dottedPlatform : Json.Members := [
  ("model", .string "m"),
  ("platform", .object [("brand", .string "Windows"), ("version", .array [.number (.whole 10), .string "0"])]),
  ("platformVersion", .array [])]

theorem dotted_platform_resolves :
    (sua.record (.object dottedPlatform) .empty).1.get? Hint.platformVersion.evidenceKey = some "\"10.0\"" ∧
      ∃ before after, (sua.record (.object dottedPlatform) .empty).1.entries =
        before ++ ("header.sec-ch-ua-platform", "\"Windows\"") :: ("header.sec-ch-ua-platform-version", "\"10.0\"") :: after := by
  have accepted : sua.record (.object dottedPlatform) .empty = ((sua.record (.object dottedPlatform) .empty).1, none) := rfl
  obtain ⟨members, object, resolved, -, -, adjacent⟩ := platform_version_resolves accepted
  obtain rfl := Json.object.inj object
  exact ⟨resolved, adjacent _ _ rfl resolved⟩

-- The version of the platform is empty, and it is given all the same.
theorem empty_version_is_given :
    ¬∀ members m, sua.record (.object members) .empty = (m, none) → m.get? Hint.platformVersion.evidenceKey =
      ((explicitVersion? members).or (filledVersion? members)).map StructuredField.string := by
  intro documented
  have given := documented [("platform", .object [("brand", .string "Linux"), ("version", .string "")])] _ rfl
  have absent : (none : Option String) ≠ some "\"\"" := nofun
  exact absent given.symm

end Schema

end ClientHints
