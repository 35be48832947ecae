import ClientHints.Evidence.Basic
import Mathlib.Data.List.Basic
import Mathlib.Data.List.Nodup

set_option autoImplicit false

namespace ClientHints

section Slicing

-- The text without its first octets. There is none if they end within a character, or if there are not so many.
def Utf8.dropOctets? (count : Nat) (text : String) : Option String :=
  if whole : (String.Pos.Raw.mk count).IsValid text then some (text.sliceFrom (text.pos ⟨count⟩ whole)).copy else none

theorem Utf8.drop_octets_iff (count : Nat) (text right : String) :
    dropOctets? count text = some right ↔ ∃ left, text = left ++ right ∧ left.utf8ByteSize = count := by
  unfold dropOctets?
  constructor
  · intro cut
    split at cut
    · rename_i whole
      obtain rfl := Option.some.inj cut
      have split := (text.pos ⟨count⟩ whole).splits
      exact ⟨_, split.eq_append, congrArg String.Pos.Raw.byteIdx split.offset_eq_rawEndPos.symm⟩
    · cases cut
  · rintro ⟨left, rfl, rfl⟩
    have whole : (String.Pos.Raw.mk left.utf8ByteSize).IsValid (left ++ right) :=
      String.Pos.Raw.isValid_iff_exists_append.mpr ⟨left, right, rfl, rfl⟩
    have split : ((left ++ right).pos ⟨left.utf8ByteSize⟩ whole).Splits left right := ⟨rfl, rfl⟩
    rw [dif_pos whole, (String.Pos.splits _).eq_right split]

end Slicing

theorem find_iff_of_unique {α : Type} {holds : α → Bool} {items : List α} (listed : ∀ item, item ∈ items)
    (unique : ∀ a b, holds a = true → holds b = true → a = b) (item : α) :
    items.find? holds = some item ↔ holds item = true := by
  constructor
  · exact List.find?_some
  · intro held
    obtain ⟨found, hit⟩ := Option.isSome_iff_exists.mp (List.find?_isSome.mpr ⟨item, listed item, held⟩)
    rw [hit, unique found item (List.find?_some hit) held]

namespace Origin

theorem mem_all (origin : Origin) : origin ∈ all := by
  cases origin <;> decide

def Names (origin : Origin) (key field : String) : Prop :=
  field ≠ "" ∧ key = origin.mark ++ field

theorem field_iff (origin : Origin) (key field : String) : origin.field? key = some field ↔ origin.Names key field := by
  have text (c : Char) (rest : List Char) : String.ofList (c :: rest) ≠ "" := by simp
  unfold field? Names
  constructor
  · intro found
    split at found
    · rename_i c rest cut
      obtain rfl := Option.some.inj found
      rw [List.isPrefixOf?_eq_some_iff_append_eq] at cut
      refine ⟨text c rest, String.toList_inj.mp ?_⟩
      rw [← cut, String.toList_append, String.toList_ofList]
    · cases found
  · rintro ⟨filled, rfl⟩
    have cut : origin.mark.toList.isPrefixOf? (origin.mark ++ field).toList = some field.toList := by
      rw [List.isPrefixOf?_eq_some_iff_append_eq, String.toList_append]
    obtain ⟨c, rest, spelled⟩ := List.exists_cons_of_ne_nil (mt String.toList_eq_nil_iff.mp filled)
    simp only [cut, spelled]
    rw [← spelled, String.ofList_toList]

variable {key : String}

theorem names_origin {a b : Origin} {first second : String} (left : a.Names key first) (right : b.Names key second) :
    a = b := by
  have initials : (all.map fun origin => origin.mark.toList.head?).Nodup := by decide
  have initial (origin : Origin) (field : String) : (origin.mark ++ field).toList.head? = origin.mark.toList.head? := by
    have filled : origin.mark.toList ≠ [] := by cases origin <;> decide
    rw [String.toList_append, List.head?_append_of_ne_nil _ filled]
  apply List.inj_on_of_nodup_map initials a.mem_all b.mem_all
  rw [← initial a first, ← initial b second, ← left.2, ← right.2]

theorem names_sliced {origin : Origin} {field : String} (named : origin.Names key field) :
    Utf8.dropOctets? origin.mark.utf8ByteSize key = some field :=
  (Utf8.drop_octets_iff _ _ _).mpr ⟨origin.mark, named.2, rfl⟩

def Marks (origin : Origin) (key : String) : Prop :=
  ∃ field, origin.Names key field

theorem field_some_iff (origin : Origin) (key : String) : (origin.field? key).isSome = true ↔ origin.Marks key := by
  simp only [Option.isSome_iff_exists, field_iff, Marks]

theorem field_none_iff (origin : Origin) (key : String) : origin.field? key = none ↔ ¬origin.Marks key := by
  rw [← field_some_iff, Option.not_isSome_iff_eq_none]

instance (origin : Origin) (key : String) : Decidable (origin.Marks key) :=
  decidable_of_iff _ (field_some_iff origin key)

theorem of_key_iff (origin : Origin) (key : String) : ofKey? key = some origin ↔ origin.Marks key := by
  rw [ofKey?, find_iff_of_unique mem_all, field_some_iff]
  intro a b first second
  obtain ⟨_, left⟩ := (field_some_iff a key).mp first
  obtain ⟨_, right⟩ := (field_some_iff b key).mp second
  exact names_origin left right

def entry (origin : Origin) (given : String × String) : String × String :=
  (origin.mark ++ given.1, given.2)

end Origin

namespace Evidence

structure Divided (e : Evidence) : Prop where
  marked : ∀ origin : Origin, (e.fields origin).map origin.entry = e.entries.filter fun entry => origin.Marks entry.1
  -- Behind the octets of the mark there is always a text, and it is the field.
  sliced : ∀ origin : Origin, (e.fields origin).map (fun given => (some given.1, given.2)) =
    (e.entries.filter fun entry => Origin.ofKey? entry.1 = some origin).map fun entry =>
      (Utf8.dropOctets? origin.mark.utf8ByteSize entry.1, entry.2)
  filled : ∀ origin : Origin, ∀ given ∈ e.fields origin, given.1 ≠ ""
  distinct : ∀ origin : Origin, ((e.fields origin).map Prod.fst).Nodup
  apart : ∀ a b : Origin, a ≠ b → ((e.fields a).map a.entry).Disjoint ((e.fields b).map b.entry)
  unmarked : ∀ entry ∈ e.entries,
    (∀ origin : Origin, entry ∉ (e.fields origin).map origin.entry) ↔ Origin.ofKey? entry.1 = none

theorem mem_fields (e : Evidence) (origin : Origin) (given : String × String) :
    given ∈ e.fields origin ↔ given.1 ≠ "" ∧ origin.entry given ∈ e.entries := by
  obtain ⟨field, value⟩ := given
  simp only [fields, List.mem_filterMap, Option.map_eq_some_iff, Prod.mk.injEq, Origin.field_iff, Origin.Names]
  constructor
  · rintro ⟨⟨_, _⟩, inside, _, ⟨filled, rfl⟩, rfl, rfl⟩
    exact ⟨filled, inside⟩
  · rintro ⟨filled, inside⟩
    exact ⟨_, inside, field, ⟨filled, rfl⟩, rfl, rfl⟩

theorem fields_cons (entry : String × String) (rest : List (String × String)) (origin : Origin) :
    (Evidence.mk (entry :: rest)).fields origin = match origin.field? entry.1 with
      | some field => (field, entry.2) :: (Evidence.mk rest).fields origin
      | none => (Evidence.mk rest).fields origin := by
  unfold fields
  rw [List.filterMap_cons]
  cases origin.field? entry.1 <;> rfl

theorem map_fields {β : Type} (e : Evidence) (origin : Origin) (fromField fromEntry : String × String → β)
    (same : ∀ field value, field ≠ "" → fromField (field, value) = fromEntry (origin.mark ++ field, value)) :
    (e.fields origin).map fromField = (e.entries.filter fun entry => origin.Marks entry.1).map fromEntry := by
  obtain ⟨entries⟩ := e
  induction entries with
  | nil => rfl
  | cons entry rest ih =>
    obtain ⟨key, value⟩ := entry
    rw [fields_cons, List.filter_cons]
    by_cases marked : origin.Marks key
    · obtain ⟨field, filled, rfl⟩ := marked
      have found := (origin.field_iff _ field).mpr ⟨filled, rfl⟩
      have marks : origin.Marks (origin.mark ++ field) := ⟨field, filled, rfl⟩
      simp only [found, marks, decide_true, if_true, List.map_cons, ih, same field value filled]
    · have missing := (origin.field_none_iff key).mpr marked
      simp only [missing, marked, decide_false, Bool.false_eq_true, if_false, ih]

theorem fields_marked (e : Evidence) (origin : Origin) :
    (e.fields origin).map origin.entry = e.entries.filter fun entry => origin.Marks entry.1 := by
  rw [map_fields e origin origin.entry id fun _ _ _ => rfl, List.map_id]

theorem fields_sliced (e : Evidence) (origin : Origin) : (e.fields origin).map (fun given => (some given.1, given.2)) =
    (e.entries.filter fun entry => Origin.ofKey? entry.1 = some origin).map fun entry =>
      (Utf8.dropOctets? origin.mark.utf8ByteSize entry.1, entry.2) := by
  simp only [Origin.of_key_iff]
  apply map_fields
  intro field value filled
  have named : origin.Names (origin.mark ++ field) field := ⟨filled, rfl⟩
  rw [Origin.names_sliced named]

theorem fields_distinct {e : Evidence} (distinct : e.keys.Nodup) (origin : Origin) :
    ((e.fields origin).map Prod.fst).Nodup := by
  have keys : ((e.fields origin).map Prod.fst).map (origin.mark ++ ·) =
      (e.entries.filter fun entry => origin.Marks entry.1).map Prod.fst := by
    rw [← fields_marked, List.map_map, List.map_map]
    rfl
  have whole : (((e.fields origin).map Prod.fst).map (origin.mark ++ ·)).Nodup := by
    rw [keys]
    exact distinct.sublist (List.filter_sublist.map Prod.fst)
  exact whole.of_map _

theorem divided {e : Evidence} (distinct : e.keys.Nodup) : e.Divided where
  marked := fields_marked e
  sliced := fields_sliced e
  filled origin given inside := ((mem_fields e origin given).mp inside).1
  distinct := fields_distinct distinct
  apart a b other := by
    rw [fields_marked, fields_marked, List.disjoint_left]
    intro entry first second
    obtain ⟨_, left⟩ := of_decide_eq_true (List.mem_filter.mp first).2
    obtain ⟨_, right⟩ := of_decide_eq_true (List.mem_filter.mp second).2
    exact other (Origin.names_origin left right)
  unmarked entry inside := by
    have without : Origin.ofKey? entry.1 = none ↔ ∀ origin : Origin, ¬origin.Marks entry.1 := by
      simp only [Option.eq_none_iff_forall_ne_some, ne_eq, Origin.of_key_iff]
    simp only [without, fields_marked, List.mem_filter, inside, true_and, decide_eq_true_eq]

end Evidence

end ClientHints
