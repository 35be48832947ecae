import ClientHints.CommandLine.Session
import Mathlib.Data.List.Basic

set_option autoImplicit false

namespace ClientHints.CommandLine

section Numbers

theorem natural_of_digits (n : Nat) : natural? (Nat.toDigits 10 n) = some n := by
  have fold (digits : List Char) (value : Nat) (each : ∀ c ∈ digits, c.isDigit = true) :
      digits.foldlM (fun value c => if c.isDigit then some (value * 10 + (c.toNat - '0'.toNat)) else none) value =
        some (Nat.ofDigitChars 10 digits value) := by
    induction digits generalizing value with
    | nil => rfl
    | cons c rest ih =>
      obtain ⟨digit, others⟩ := List.forall_mem_cons.mp each
      simp only [List.foldlM_cons, if_pos digit, Option.bind_eq_bind, Option.bind_some, ih _ others, Nat.ofDigitChars,
        List.foldl_cons, Nat.mul_comm]
  have digits : ∀ c ∈ Nat.toDigits 10 n, c.isDigit = true := fun c => Nat.isDigit_of_mem_toDigits (by decide) (by decide)
  have filled : (Nat.toDigits 10 n).isEmpty = false := by simp [Nat.toDigits_ne_nil]
  rw [natural?, filled, if_neg (by decide), fold _ 0 digits, Nat.ofDigitChars_toDigits (by decide) (by decide)]

theorem digits_cons (n : Nat) : ∃ c rest, Nat.toDigits 10 n = c :: rest ∧ c ≠ '-' ∧ c ≠ '+' := by
  obtain ⟨c, rest, shape⟩ := List.exists_cons_of_ne_nil (Nat.toDigits_ne_nil (n := n) (b := 10))
  have digit : c.isDigit = true :=
    Nat.isDigit_of_mem_toDigits (by decide) (by decide) (shape ▸ List.mem_cons_self)
  refine ⟨c, rest, shape, ?_, ?_⟩ <;> rintro rfl <;> exact absurd digit (by decide)

theorem unsigned_of_digits (n : Nat) : unsigned? (Nat.toDigits 10 n) = some n := by
  obtain ⟨c, rest, shape, -, plus⟩ := digits_cons n
  have natural := natural_of_digits n
  rw [shape] at natural ⊢
  unfold unsigned?
  split
  · rename_i same
    exact absurd (List.cons.inj same).1 plus
  · exact natural

theorem signed_of_digits (n : Nat) : signed? (Nat.toDigits 10 n) = some (n : Int) := by
  obtain ⟨c, rest, shape, minus, -⟩ := digits_cons n
  have unsigned := unsigned_of_digits n
  rw [shape] at unsigned ⊢
  unfold signed?
  split
  · rename_i same
    exact absurd (List.cons.inj same).1 minus
  · rw [unsigned]
    rfl

theorem capacity_of_text (n : UInt32) : capacity? (toString n.toNat) = some n := by
  have bound : n.toNat < UInt32.size := n.toNat_lt
  rw [capacity?, Nat.toString_eq_ofList_toDigits, String.toList_ofList, signed_of_digits]
  simp [bound]

theorem input_size_of_text (n : UInt64) : inputSize? (toString n.toNat) = some n := by
  have bound : n.toNat < UInt64.size := n.toNat_lt
  rw [inputSize?, Nat.toString_eq_ofList_toDigits, String.toList_ofList, unsigned_of_digits]
  simp [bound]

theorem number_is_value (n : Nat) : isValue (toString n) = true := by
  obtain ⟨c, rest, shape, minus, -⟩ := digits_cons n
  rw [isValue, Nat.toString_eq_ofList_toDigits, String.toList_ofList, shape]
  split
  · rename_i same
    exact absurd (List.cons.inj same).1 minus
  · rfl

end Numbers

theorem option_with_value {known : List OptionName} {given : Given} {text value : String} (option : OptionName)
    (read : Argument.read text = .long option.name none)
    (listed : known.find? (fun other => other.name == option.name) = some option) (takes : option.takesValue = true)
    (new : given.has option.name = false) (plain : isValue value = true) :
    [text, value].foldlM (Scan.step known) (.ready given) = some (.ready ((option.name, value) :: given)) := by
  have waits : Scan.step known (.ready given) text = some (.waiting option.name given) := by
    simp [Scan.step, read, listed, Scan.accept, new, takes]
  have ready : Scan.step known (.waiting option.name given) value = some (.ready ((option.name, value) :: given)) :=
    if_pos plain
  simp [waits, ready]

section Parts

def sourceGiven : Source → Given
  | .standardInput => []
  | .file path => [("input", path)]

def sizeGiven (size : Option UInt64) : Given :=
  size.toList.map fun size => ("max-input-bytes", toString size.toNat)

def layoutGiven (pretty : Bool) : Given :=
  if pretty then [("pretty", "")] else []

def sourceArguments : Source → List String
  | .standardInput => []
  | .file path => ["--input=" ++ path]

def sizeArguments : Option UInt64 → List String
  | some size => ["--max-input-bytes", toString size.toNat]
  | none => []

def layoutArguments (pretty : Bool) : List String :=
  if pretty then ["--pretty"] else []

variable {given : Given}

theorem source_scanned (source : Source) (new : given.has "input" = false) :
    (sourceArguments source).foldlM (Scan.step conversionOptions) (.ready given) =
      some (.ready (sourceGiven source ++ given)) := by
  cases source with
  | standardInput => rfl
  | file path =>
    have read : Argument.read ("--input=" ++ path) = .long "input" (some path) := by
      simp [Argument.read, String.toList_append, assigned?]
    have listed : conversionOptions.find? (fun option => option.name == "input") = some inputOption := rfl
    have accepted : Scan.accept inputOption (some path) given = some (.ready (("input", path) :: given)) := by
      simp [Scan.accept, inputOption, new]
    simp [sourceArguments, sourceGiven, Scan.step, read, listed, accepted]

theorem size_scanned (size : Option UInt64) (new : given.has "max-input-bytes" = false) :
    (sizeArguments size).foldlM (Scan.step conversionOptions) (.ready given) =
      some (.ready (sizeGiven size ++ given)) := by
  cases size with
  | none => rfl
  | some size => exact option_with_value ⟨"max-input-bytes", none, true⟩ rfl rfl rfl new (number_is_value _)

theorem layout_scanned (pretty : Bool) (new : given.has "pretty" = false) :
    (layoutArguments pretty).foldlM (Scan.step conversionOptions) (.ready given) =
      some (.ready (layoutGiven pretty ++ given)) := by
  cases pretty with
  | false => rfl
  | true =>
    have accepted : Scan.accept ⟨"pretty", none, false⟩ none given = some (.ready (("pretty", "") :: given)) := by
      simp [Scan.accept, new]
    have step : Scan.step conversionOptions (.ready given) "--pretty" = some (.ready (("pretty", "") :: given)) := accepted
    simp [layoutArguments, layoutGiven, step]

end Parts

-- A source that a path can name: a path is not empty, and a dash is not read as one.
def Source.IsNamed (source : Source) : Prop :=
  ∀ path, source = .file path → path ≠ "" ∧ path ≠ "-"

namespace Conversion

variable (conversion : Conversion)

def options : List String :=
  ["--format", conversion.format.name] ++ ["--capacity", toString conversion.capacity.toNat] ++
    layoutArguments conversion.pretty ++ sizeArguments conversion.inputSize ++ sourceArguments conversion.source

def arguments : List String :=
  "transform" :: conversion.options

def given : Given :=
  sourceGiven conversion.source ++ (sizeGiven conversion.inputSize ++ (layoutGiven conversion.pretty ++
    [("capacity", toString conversion.capacity.toNat), ("format", conversion.format.name)]))

theorem options_scanned : scan conversionOptions conversion.options = some conversion.given := by
  have named : isValue conversion.format.name = true := by cases conversion.format <;> rfl
  have first : ["--format", conversion.format.name].foldlM (Scan.step conversionOptions) (.ready []) = _ :=
    option_with_value ⟨"format", some 'f', true⟩ rfl rfl rfl rfl named
  have second : ["--capacity", toString conversion.capacity.toNat].foldlM (Scan.step conversionOptions)
      (.ready [("format", conversion.format.name)]) = _ :=
    option_with_value ⟨"capacity", none, true⟩ rfl rfl rfl rfl (number_is_value _)
  simp only [scan, options, List.foldlM_append, first, second, Option.bind_eq_bind, Option.bind_some]
  rw [layout_scanned, Option.bind_some, size_scanned, Option.bind_some, source_scanned]
  · rfl
  · cases conversion.pretty <;> cases conversion.inputSize <;> rfl
  · cases conversion.pretty <;> rfl
  · rfl

theorem given_values : conversion.given.value? "format" = some conversion.format.name ∧
    conversion.given.value? "capacity" = some (toString conversion.capacity.toNat) ∧
    conversion.given.value? "max-input-bytes" = (conversion.inputSize.map fun size => toString size.toNat) ∧
    conversion.given.has "pretty" = conversion.pretty := by
  obtain ⟨format, _ | path, _ | _, capacity, _ | size⟩ := conversion <;> exact ⟨rfl, rfl, rfl, rfl⟩

theorem given_source (named : conversion.source.IsNamed) : source? conversion.given = some conversion.source := by
  obtain ⟨format, _ | path, pretty, capacity, size⟩ := conversion
  · cases pretty <;> cases size <;> rfl
  · obtain ⟨filled, noDash⟩ := named path rfl
    have shown : (given ⟨format, .file path, pretty, capacity, size⟩).value? "input" = some path := rfl
    simp [source?, inputOption, shown, Source.ofPath?, filled, noDash]

theorem given_converts (named : conversion.source.IsNamed) : conversion? conversion.given = some conversion := by
  have known : Format.all.find? (fun other => other.name == conversion.format.name) = some conversion.format := by
    cases conversion.format <;> rfl
  obtain ⟨saysFormat, saysCapacity, saysSize, saysLayout⟩ := conversion.given_values
  simp only [conversion?, saysFormat, saysCapacity, saysSize, saysLayout, conversion.given_source named, known,
    capacity_of_text, Option.bind_eq_bind, Option.bind_some]
  obtain ⟨format, source, pretty, capacity, _ | size⟩ := conversion
  · rfl
  · change (Option.map some (inputSize? (toString size.toNat))).bind _ = _
    rw [input_size_of_text]
    rfl

theorem arguments_parse (named : conversion.source.IsNamed) :
    Command.ofArguments? conversion.arguments = some (.convert conversion) := by
  simp only [arguments, Command.ofArguments?, options_scanned, conversion.given_converts named, Option.bind_eq_bind,
    Option.bind_some]
  rfl

end Conversion

end ClientHints.CommandLine
