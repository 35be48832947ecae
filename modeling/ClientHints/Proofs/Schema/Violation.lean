import ClientHints.Proofs.Schema.Verdict

set_option autoImplicit false

namespace ClientHints

open Violations

-- Later items have a higher rank, and a version has one than a brand.
structure Ranks (rank : Step → Nat) : Prop where
  items : ∀ i j, i < j → rank (.item i) < rank (.item j)
  entry : rank (.member "brand") < rank (.member "version")

namespace Schema

section Readers

variable {rank : Step → Nat} {path : Path} {rule : Rule} {value : Json}

def Follows {α : Type} (rank : Step → Nat) (rule : Rule) (read : Path → Json → Reading α) : Prop :=
  ∀ path value, Judged rank (Violates rule value) path (faultOf (read path value))

theorem judged_miss {expected : Expectation} (missed : rule.misses value = some expected) :
    Judged rank (Violates rule value) path (some ⟨path, expected, some value.kind⟩) := by
  refine ⟨[], rfl, .here missed, ?_⟩
  intro others wanted kind also
  exact .inl (violates_missed missed also)

theorem judged_scalar (sound : rule.misses value = none) (scalar : value.isScalar = true) :
    Judged rank (Violates rule value) path none :=
  fun _ _ _ => not_violates_scalar sound scalar

theorem judged_printable (text : String) (asks : rule.misses (.string text) = Rule.ofString text) :
    Judged rank (Violates rule (.string text)) path (faultOf (readPrintable path text)) := by
  unfold readPrintable
  unfold Rule.ofString at asks
  split
  · rename_i printable
    rw [if_pos printable] at asks
    exact judged_scalar asks rfl
  · rename_i unprintable
    rw [if_neg unprintable] at asks
    exact judged_miss asks

theorem text_follows : Follows rank (.shape .text) readText := by
  intro path value
  cases value with
  | string text => exact judged_printable text rfl
  | number number => exact judged_scalar rfl rfl
  | null | bool | array | object => exact judged_miss rfl

theorem string_follows : Follows rank .name readString := by
  intro path value
  cases value with
  | string text => exact judged_printable text rfl
  | null | bool | number | array | object => exact judged_miss rfl

theorem boolean_follows : Follows rank (.shape .boolean) readBoolean := by
  intro path value
  cases value with
  | bool flag => exact judged_scalar rfl rfl
  | null | number | string | array | object => exact judged_miss rfl

theorem flag_follows : Follows rank (.shape .flag) readFlag := by
  intro path value
  cases value with
  | bool flag => exact judged_scalar rfl rfl
  | null | string | array | object => exact judged_miss rfl
  | number number =>
    by_cases zero : number = .whole 0
    · subst zero
      exact judged_scalar rfl rfl
    · by_cases one : number = .whole 1
      · subst one
        exact judged_scalar rfl rfl
      · have missed : Rule.misses (.shape .flag) (.number number) = some .zeroOrOne := by
          unfold Rule.misses
          split <;> simp_all
        have refused : readFlag path (.number number) = mismatch path .zeroOrOne (.number number) := by
          unfold readFlag
          split <;> simp_all
        rw [refused]
        exact judged_miss missed

theorem name_judged (path : Path) (value : Option Json) :
    Judged rank (fun steps expected found =>
      (value = none ∧ steps = [.member "brand"] ∧ expected = .string ∧ found = none) ∨
        ∃ inside ∈ value, under (.member "brand") (Violates .name inside) steps expected found) path
      (faultOf (readName (.member path "brand") value)) := by
  cases value with
  | none =>
    refine ⟨[.member "brand"], rfl, .inl ⟨rfl, rfl, rfl, rfl⟩, ?_⟩
    rintro others wanted kind (⟨-, rfl, rfl, rfl⟩ | ⟨_, ⟨⟩, _⟩)
    exact .inl ⟨rfl, rfl, rfl⟩
  | some inside =>
    refine judged_congr (judged_under (string_follows (path.after (.member "brand")) inside)) ?_
    intro steps expected found
    simp

variable (ranks : Ranks rank)
include ranks

theorem items_judged {α : Type} {sub : Rule} {read : Path → Json → Reading α} (known : rule.Item sub)
    (follows : Follows rank sub read) (items : List Json) :
    Judged rank (Violates rule (.array items)) path (faultOf (readItems read path (.array items))) := by
  rw [readItems, fault_of_map_m]
  have increasing : items.zipIdx.Pairwise fun a b => a.2 < b.2 := by
    rw [← List.pairwise_map (f := Prod.snd), List.zipIdx_map_snd]
    exact List.pairwise_lt_range'
  have judged : Judged rank (fun steps expected found => ∃ entry ∈ items.zipIdx,
      under (.item entry.2) (Violates sub entry.1) steps expected found) path
      (items.zipIdx.findSome? fun entry => faultOf (read (.item path entry.2) entry.1)) := by
    apply judged_each
    · exact fun entry _ => judged_under (follows _ _)
    · exact increasing.imp fun before => ahead_under (ranks.items _ _ before)
  exact judged_congr judged fun _ _ _ => violates_items_iff known

theorem items_follow {α : Type} {sub : Rule} {read : Path → Json → Reading α} (known : rule.Item sub)
    (asks : ∀ value, (∀ items, value ≠ .array items) → rule.misses value = some .array)
    (follows : Follows rank sub read) : Follows rank rule (readItems read) := by
  intro path value
  cases value with
  | array items => exact items_judged ranks known follows items
  | null | bool | number | string | object => exact judged_miss (asks _ nofun)

theorem version_follows (style : VersionStyle) : Follows rank (Rule.version style) (readVersion style) := by
  intro path value
  cases style with
  | plain =>
    simp only [readVersion, fault_of_map]
    exact text_follows path value
  | dotted =>
    cases value with
    | array items =>
      simp only [readVersion, fault_of_map]
      exact items_judged ranks .components text_follows items
    | string text =>
      simp only [readVersion, fault_of_map]
      exact judged_printable text rfl
    | number number => exact judged_scalar rfl rfl
    | null | bool | object => exact judged_miss rfl

theorem carried_judged (style : VersionStyle) (path : Path) (value : Option Json) :
    Judged rank (fun steps expected found =>
      ∃ inside ∈ value, under (.member "version") (Violates (Rule.version style) inside) steps expected found) path
      (faultOf (readCarried style (.member path "version") value)) := by
  cases value with
  | none => rintro _ _ _ ⟨_, ⟨⟩, _⟩
  | some inside =>
    refine judged_congr (judged_under (version_follows ranks style (path.after (.member "version")) inside)) ?_
    intro steps expected found
    simp

theorem entry_judged {style : VersionStyle} (entry : rule.Entry style) (members : Json.Members) :
    Judged rank (Violates rule (.object members)) path (faultOf (readBrand style path (.object members))) := by
  have carried := carried_judged ranks style path (present? "version" members)
  have afterwards (name : String) : faultOf (readCarried style (.member path "version") (present? "version" members) >>=
      fun version => .ok (⟨name, version⟩ : Brand)) =
      faultOf (readCarried style (.member path "version") (present? "version" members)) := by
    cases readCarried style (.member path "version") (present? "version" members) <;> rfl
  have ahead : Ahead rank (fun steps expected found =>
      (present? "brand" members = none ∧ steps = [.member "brand"] ∧ expected = .string ∧ found = none) ∨
        ∃ inside ∈ present? "brand" members, under (.member "brand") (Violates .name inside) steps expected found)
      fun steps expected found => ∃ inside ∈ present? "version" members,
        under (.member "version") (Violates (Rule.version style) inside) steps expected found := by
    rintro _ _ _ _ _ _ first ⟨_, _, others, rfl, -⟩
    rcases first with ⟨-, rfl, -, -⟩ | ⟨_, _, rest, rfl, -⟩
    · exact List.cons_lt_cons_iff.mpr (.inl ranks.entry)
    · exact List.cons_lt_cons_iff.mpr (.inl ranks.entry)
  rw [read_brand_object, fault_of_bind _ afterwards]
  exact judged_congr (judged_union (name_judged path (present? "brand" members)) carried ahead) fun _ _ _ =>
    violates_entry_iff entry

theorem brand_follows (style : VersionStyle) : Follows rank (.entry style) (readBrand style) := by
  intro path value
  cases value with
  | object members => exact entry_judged ranks (.entry style) members
  | null | bool | number | string | array => exact judged_miss rfl

theorem platform_follows : Follows rank (.shape .platform) readPlatform := by
  intro path value
  cases value with
  | string text =>
    simp only [readPlatform, fault_of_map]
    exact judged_printable text rfl
  | object members => exact entry_judged ranks .platform members
  | null | bool | number | array => exact judged_miss rfl

theorem shape_follows (shape : Shape) : Follows rank (.shape shape) shape.read := by
  intro path value
  cases shape with
  | brands style =>
    simp only [Shape.read, fault_of_map]
    exact items_follow ranks (.brands style) (fun value _ => by cases value <;> simp_all [Rule.misses])
      (brand_follows ranks style) path value
  | text =>
    simp only [Shape.read, fault_of_map]
    exact text_follows path value
  | boolean =>
    simp only [Shape.read, fault_of_map]
    exact boolean_follows path value
  | strings =>
    simp only [Shape.read, fault_of_map]
    exact items_follow ranks .strings (fun value _ => by cases value <;> simp_all [Rule.misses]) string_follows path value
  | platform =>
    simp only [Shape.read, fault_of_map]
    exact platform_follows ranks path value
  | version =>
    simp only [Shape.read, fault_of_map]
    exact version_follows ranks .dotted path value
  | flag =>
    simp only [Shape.read, fault_of_map]
    exact flag_follows path value

end Readers

end Schema

end ClientHints
