import ClientHints.Json.Scalar
import ClientHints.Proofs.StructuredField.Parsing
import ClientHints.Proofs.Text.Utf8

set_option autoImplicit false

namespace ClientHints

def Visible (c : Char) : Prop :=
  0x20 ≤ c.toNat ∧ c.toNat ≤ 0x7E

instance (c : Char) : Decidable (Visible c) :=
  inferInstanceAs (Decidable (_ ∧ _))

def Printable (text : String) : Prop :=
  ∀ c ∈ text.toList, Visible c

theorem is_printable_iff (text : String) : StructuredField.isPrintable text = true ↔ Printable text := by
  simp [StructuredField.isPrintable, Printable, Visible]

instance (text : String) : Decidable (Printable text) :=
  decidable_of_iff _ (is_printable_iff text)

theorem printable_octets (text : String) (printable : Printable text) :
    ∀ b ∈ Utf8.encode text, 0x20 ≤ b ∧ b ≤ 0x7E := by
  have ascii : ∀ c ∈ text.toList, c.toNat < 0x80 := fun c member => by
    have bound := (printable c member).2
    omega
  rw [Utf8.encode_eq_spell, Utf8.spell_ascii text.toList ascii]
  intro b member
  obtain ⟨c, inside, rfl⟩ := List.mem_map.mp member
  obtain ⟨low, high⟩ := printable c inside
  have same : (UInt8.ofNat c.toNat).toNat = c.toNat := UInt8.toNat_ofNat_of_lt' (Nat.lt_of_le_of_lt high (by decide))
  rw [UInt8.le_iff_toNat_le, UInt8.le_iff_toNat_le, same]
  exact ⟨low, high⟩

theorem printable_append (left right : String) (before : Printable left) (after : Printable right) :
    Printable (left ++ right) := by
  simpa only [Printable, String.toList_append] using List.forall_mem_append.mpr ⟨before, after⟩

theorem printable_intercalate (separator : String) (parts : List String) (between : Printable separator)
    (each : ∀ part ∈ parts, Printable part) : Printable (separator.intercalate parts) := by
  induction parts with
  | nil =>
    rw [String.intercalate_nil]
    decide
  | cons first rest ih =>
    have below := ih fun part member => each part (List.mem_cons_of_mem first member)
    have start := each first List.mem_cons_self
    cases rest with
    | nil => rwa [String.intercalate_singleton]
    | cons second rest =>
      rw [String.intercalate_cons_cons]
      exact printable_append _ _ (printable_append _ _ start between) below

section Numbers

theorem visible_digits (n : Nat) : ∀ c ∈ Nat.toDigits 10 n, Visible c := by
  intro c member
  obtain ⟨low, high⟩ := Char.isDigit_iff_toNat.mp (Nat.isDigit_of_mem_toDigits (by decide) (by decide) member)
  change 48 ≤ c.toNat at low
  change c.toNat ≤ 57 at high
  exact ⟨by omega, by omega⟩

theorem printable_nat (n : Nat) : Printable (toString n) := by
  unfold Printable
  rw [Nat.toString_eq_ofList_toDigits, String.toList_ofList]
  exact visible_digits n

theorem printable_int (n : Int) : Printable (toString n) := by
  cases n with
  | ofNat n => exact printable_nat n
  | negSucc n => exact printable_append "-" (toString (n + 1)) (by decide) (printable_nat (n + 1))

open Decimal

theorem visible_zeros (count : Nat) : ∀ c ∈ zeros count, Visible c := by
  intro c member
  rw [List.eq_of_mem_replicate member]
  decide

theorem visible_positional (digits : List Char) (exponent : Int) (visible : ∀ c ∈ digits, Visible c) :
    ∀ c ∈ positional digits exponent, Visible c := by
  have zero : Visible '0' := by decide
  have point : Visible '.' := by decide
  simp only [positional]
  split
  · simpa [zero, point, or_imp, forall_and] using ⟨visible_zeros _, visible⟩
  · split
    · simpa [zero, point, or_imp, forall_and] using ⟨visible, visible_zeros _⟩
    · intro c member
      rw [List.mem_append, List.mem_cons] at member
      rcases member with before | rfl | after
      · exact visible c (List.mem_of_mem_take before)
      · exact point
      · exact visible c (List.mem_of_mem_drop after)

theorem visible_scientific (digits : List Char) (exponent : Int) (visible : ∀ c ∈ digits, Visible c) :
    ∀ c ∈ scientific digits exponent, Visible c := by
  have letter : Visible 'e' := by decide
  have point : Visible '.' := by decide
  have sign : Visible (if exponent < 0 then '-' else '+') := by split <;> decide
  have magnitude := printable_nat exponent.natAbs
  simp only [scientific, List.forall_mem_append, List.forall_mem_cons]
  refine ⟨?_, letter, sign, magnitude⟩
  split
  · rename_i first second others
    simp only [List.forall_mem_cons] at visible ⊢
    exact ⟨visible.1, point, visible.2⟩
  · exact visible

theorem visible_significant (n : Nat) : ∀ c ∈ significant (Nat.toDigits 10 n), Visible c := by
  intro c member
  rw [significant, List.mem_reverse] at member
  exact visible_digits n c (List.mem_reverse.mp ((List.dropWhile_sublist _).mem member))

theorem printable_float (layout : Layout) (x : Binary64) : Printable (layout.write x) := by
  have magnitude (d : Decimal) : ∀ c ∈ layout.magnitude d, Visible c := by
    simp only [Layout.magnitude]
    split
    · simp only [List.forall_mem_cons]
      exact ⟨by decide, by decide, by decide, nofun⟩
    · split
      · exact visible_positional _ _ (visible_significant _)
      · exact visible_scientific _ _ (visible_significant _)
  unfold Printable
  rw [Layout.write, String.toList_ofList]
  split
  · exact List.forall_mem_cons.mpr ⟨by decide, magnitude _⟩
  · exact magnitude _

theorem printable_number (number : Json.Number) : Printable number.text := by
  cases number with
  | whole n => exact printable_int n
  | float x => exact printable_float _ x

end Numbers

section Written

open StructuredField

theorem visible_quote (chars : List Char) (visible : ∀ c ∈ chars, Visible c) : ∀ c ∈ quote chars, Visible c := by
  have mark : Visible '"' := by decide
  have backslash : Visible '\\' := by decide
  simp only [quote, List.forall_mem_cons, List.forall_mem_append]
  refine ⟨mark, ?_, mark, fun c member => absurd member List.not_mem_nil⟩
  intro c member
  obtain ⟨d, inside, written⟩ := List.mem_flatMap.mp member
  split at written
  · rcases List.mem_cons.mp written with rfl | rest
    · exact backslash
    · exact List.mem_singleton.mp rest ▸ visible d inside
  · exact List.mem_singleton.mp written ▸ visible d inside

theorem visible_join (entries : List (List Char)) (visible : ∀ entry ∈ entries, ∀ c ∈ entry, Visible c) :
    ∀ c ∈ join entries, Visible c := by
  induction entries with
  | nil => nofun
  | cons first rest ih =>
    have below := ih fun entry member => visible entry (List.mem_cons_of_mem first member)
    have start := visible first List.mem_cons_self
    cases rest with
    | nil => simpa [join, List.intercalate] using start
    | cons second rest =>
      rw [join_cons]
      simp only [List.forall_mem_append, List.forall_mem_cons]
      exact ⟨start, by decide, by decide, below⟩

theorem printable_string (text : String) (printable : Printable text) : Printable (string text) := by
  unfold Printable
  rw [string, String.toList_ofList]
  exact visible_quote text.toList printable

theorem printable_boolean (flag : Bool) : Printable (boolean flag) := by
  cases flag <;> decide

theorem printable_strings (list : List String) (printable : ∀ text ∈ list, Printable text) :
    Printable (strings list) := by
  unfold Printable
  rw [strings, String.toList_ofList]
  apply visible_join
  intro entry member
  obtain ⟨text, inside, rfl⟩ := List.mem_map.mp member
  exact visible_quote text.toList (printable text inside)

structure PrintableBrand (brand : Brand) : Prop where
  name : Printable brand.name
  version : ∀ text ∈ brand.version, Printable text

theorem printable_brands (list : List Brand) (printable : ∀ brand ∈ list, PrintableBrand brand) :
    Printable (brands list) := by
  unfold Printable
  rw [brands, String.toList_ofList]
  apply visible_join
  intro entry member
  obtain ⟨⟨name, version⟩, inside, rfl⟩ := List.mem_map.mp member
  have quoted := visible_quote name.toList (printable _ inside).name
  cases version with
  | none => simpa [brandEntry] using quoted
  | some text =>
    have carried := visible_quote text.toList ((printable _ inside).version text rfl)
    simp only [brandEntry, List.forall_mem_append, List.forall_mem_cons]
    exact ⟨quoted, by decide, by decide, by decide, carried⟩

end Written

end ClientHints
