import ClientHints.Json.Numeral
import ClientHints.Proofs.Json.Literal
import ClientHints.Proofs.Text.Utf8

/-!
Number literals are read as they are written. An exponent that is out of range is refused at the digit that
makes it so, which no later digit could mend.
-/

set_option autoImplicit false

namespace ClientHints.Json

open Grammar

namespace Numeral

section Digits

def digitOctet (value : Nat) : UInt8 := UInt8.ofNat (0x30 + value)

theorem digit_iff (b : UInt8) (value : Nat) : digit? b = some value ↔ value < 10 ∧ b = digitOctet value := by
  constructor
  · have table : ∀ b value, value ∈ digit? b → value < 10 ∧ b = digitOctet value :=
      Utf8.octet_forall (by decide +kernel)
    exact table b value
  · rintro ⟨bound, rfl⟩
    have table : ∀ value < 10, digit? (digitOctet value) = some value := by decide
    exact table value bound

theorem digits_one {value : Nat} (bound : value < 10) : WritesDigits [digitOctet value] [value] :=
  .digits (List.cons_ne_nil value []) (by simpa using bound)

theorem digits_more {octets : Bytes} {values : List Nat} {value : Nat} (written : WritesDigits octets values)
    (bound : value < 10) : WritesDigits (octets ++ [digitOctet value]) (values ++ [value]) := by
  obtain ⟨nonempty, bounds⟩ := written
  have longer : WritesDigits ((values ++ [value]).map digitOctet) (values ++ [value]) :=
    .digits (by simp) (List.forall_mem_append.mpr ⟨bounds, by simpa using bound⟩)
  rwa [List.map_append] at longer

theorem whole_more {octets : Bytes} {values : List Nat} {value : Nat} (written : WritesWhole octets values)
    (leading : values.head? ≠ some 0) (bound : value < 10) :
    WritesWhole (octets ++ [digitOctet value]) (values ++ [value]) := by
  obtain ⟨written, -⟩ := written
  have nonempty : values ≠ [] := by
    obtain ⟨nonempty, -⟩ := written
    exact nonempty
  refine .digits (digits_more written bound) fun zero => ?_
  rw [List.head?_append_of_ne_nil values nonempty] at zero
  exact absurd zero leading

end Digits

section Soundness

inductive Follows : Numeral → Bytes → Prop where
  | sign {sign : Bytes} {negative : Bool} (signed : WritesSign sign negative) : Follows (start negative) sign
  | zero {sign whole : Bytes} {negative : Bool} (signed : WritesSign sign negative) (first : WritesWhole whole [0]) :
      Follows ⟨.zero, ⟨negative, [0], [], none⟩⟩ (sign ++ whole)
  | whole {sign whole : Bytes} {negative : Bool} {before : List Nat} (signed : WritesSign sign negative)
      (first : WritesWhole whole before) (leading : before.head? ≠ some 0) :
      Follows ⟨.whole, ⟨negative, before.reverse, [], none⟩⟩ (sign ++ whole)
  | point {sign whole : Bytes} {negative : Bool} {before : List Nat} (signed : WritesSign sign negative)
      (first : WritesWhole whole before) :
      Follows ⟨.point, ⟨negative, before.reverse, [], none⟩⟩ (sign ++ whole ++ [0x2E])
  | fraction {sign whole digits : Bytes} {negative : Bool} {before after : List Nat} (signed : WritesSign sign negative)
      (first : WritesWhole whole before) (second : WritesDigits digits after) :
      Follows ⟨.fraction, ⟨negative, before.reverse, after.reverse, none⟩⟩ (sign ++ whole ++ ([0x2E] ++ digits))
  | mark {front : Bytes} {l : Literal} {mark : UInt8} (written : WritesLiteral front l) (noPower : l.power = none)
      (marked : mark = 0x65 ∨ mark = 0x45) : Follows ⟨.mark, l⟩ (front ++ [mark])
  | markSign {front below : Bytes} {l : Literal} {mark : UInt8} {small : Bool} (written : WritesLiteral front l)
      (noPower : l.power = none) (marked : mark = 0x65 ∨ mark = 0x45)
      (signed : WritesSign below small ∨ below = [0x2B] ∧ small = false) :
      Follows ⟨.markSign, { l with power := some (small, 0) }⟩ (front ++ ([mark] ++ below))
  | power {front below digits : Bytes} {l : Literal} {mark : UInt8} {small : Bool} {values : List Nat}
      (written : WritesLiteral front l) (noPower : l.power = none) (marked : mark = 0x65 ∨ mark = 0x45)
      (signed : WritesSign below small ∨ below = [0x2B] ∧ small = false) (third : WritesDigits digits values) :
      Follows ⟨.power, { l with power := some (small, Nat.ofDigits 10 values.reverse) }⟩
        (front ++ ([mark] ++ below ++ digits))

theorem literal_of_whole {sign whole : Bytes} {negative : Bool} {before : List Nat} (signed : WritesSign sign negative)
    (first : WritesWhole whole before) : WritesLiteral (sign ++ whole) ⟨negative, before.reverse, [], none⟩ := by
  have written := WritesLiteral.parts signed first .none .none
  rwa [List.append_nil, List.append_nil] at written

theorem literal_of_fraction {sign whole digits : Bytes} {negative : Bool} {before after : List Nat}
    (signed : WritesSign sign negative) (first : WritesWhole whole before) (second : WritesDigits digits after) :
    WritesLiteral (sign ++ whole ++ ([0x2E] ++ digits)) ⟨negative, before.reverse, after.reverse, none⟩ := by
  have written := WritesLiteral.parts signed first (.point second) .none
  rwa [List.append_nil] at written

theorem literal_of_power {front power : Bytes} {l : Literal} {exponent : Option (Bool × Nat)}
    (written : WritesLiteral front l) (noPower : l.power = none) (third : WritesPower power exponent) :
    WritesLiteral (front ++ power) { l with power := exponent } := by
  obtain ⟨signed, first, second, empty⟩ := written
  cases noPower
  cases empty
  rw [List.append_nil]
  exact .parts signed first second third

theorem is_mark_iff (b : UInt8) : isMark b = true ↔ b = 0x65 ∨ b = 0x45 := by
  simp [isMark]

theorem after_whole_follows {sign whole : Bytes} {negative : Bool} {before : List Nat} {b : UInt8} {next : Numeral}
    (signed : WritesSign sign negative) (first : WritesWhole whole before)
    (taken : afterWhole ⟨negative, before.reverse, [], none⟩ b = .more next) : next.Follows (sign ++ whole ++ [b]) := by
  unfold afterWhole at taken
  split at taken
  · rename_i point
    cases taken
    subst point
    exact .point signed first
  · split at taken
    · rename_i marked
      cases taken
      exact .mark (literal_of_whole signed first) rfl ((is_mark_iff b).mp marked)
    · cases taken

section Power

variable {front below digits : Bytes} {l : Literal} {mark : UInt8} {small : Bool} (written : WritesLiteral front l)
  (noPower : l.power = none) (marked : mark = 0x65 ∨ mark = 0x45)
include written noPower marked

theorem after_mark_follows {b : UInt8} {next : Numeral} (taken : afterMark l b = .more next) :
    next.Follows (front ++ [mark] ++ [b]) := by
  rw [List.append_assoc]
  unfold afterMark at taken
  split at taken
  · rename_i plus
    cases taken
    subst plus
    exact .markSign written noPower marked (.inr ⟨rfl, rfl⟩)
  · split at taken
    · rename_i minus
      cases taken
      subst minus
      exact .markSign written noPower marked (.inl .minus)
    · cases taken

theorem power_digit_follows {values : List Nat} {value : Nat} {longer : Literal} {next : Numeral}
    (signed : WritesSign below small ∨ below = [0x2B] ∧ small = false)
    (third : WritesDigits (digits ++ [digitOctet value]) (values ++ [value])) (taken : powerDigit longer value = .more next)
    (same : ∀ exponent, { longer with power := exponent } = { l with power := exponent })
    (magnitude : longer.power.getD (false, 0) = (small, Nat.ofDigits 10 values.reverse)) :
    next.Follows (front ++ ([mark] ++ below ++ (digits ++ [digitOctet value]))) := by
  have reached := Follows.power written noPower marked signed third
  rw [List.reverse_append, List.reverse_singleton, List.singleton_append, Nat.ofDigits_cons, Nat.add_comm, Nat.mul_comm,
    ← same] at reached
  simp only [powerDigit, magnitude] at taken
  split at taken
  · cases taken
  · cases taken
    exact reached

end Power

theorem sign_follows {sign : Bytes} {negative : Bool} {value : Nat} {next : Numeral} (signed : WritesSign sign negative)
    (bound : value < 10) (stepped : (start negative).step (digitOctet value) = .more next) :
    next.Follows (sign ++ [digitOctet value]) := by
  have known := (digit_iff (digitOctet value) value).mpr ⟨bound, rfl⟩
  have first : WritesWhole [digitOctet value] [value] := .digits (digits_one bound) (by simp)
  cases value with
  | zero =>
    simp only [step, start, known] at stepped
    cases stepped
    exact .zero signed first
  | succ value =>
    simp only [step, start, known] at stepped
    cases stepped
    exact .whole signed first (by simp)

theorem digit_follows {n next : Numeral} {octets : Bytes} {value : Nat} (follows : n.Follows octets) (bound : value < 10)
    (stepped : n.step (digitOctet value) = .more next) : next.Follows (octets ++ [digitOctet value]) := by
  have known := (digit_iff (digitOctet value) value).mpr ⟨bound, rfl⟩
  cases follows with
  | sign signed => exact sign_follows signed bound stepped
  | zero signed first => simp [step, known] at stepped
  | whole signed first leading =>
    simp only [step, known] at stepped
    cases stepped
    have reached := Follows.whole signed (whole_more first leading bound) (by
      obtain ⟨⟨nonempty, -⟩, -⟩ := first
      rwa [List.head?_append_of_ne_nil _ nonempty])
    rw [List.reverse_append] at reached
    rw [List.append_assoc]
    exact reached
  | point signed first =>
    simp only [step, known] at stepped
    cases stepped
    rw [List.append_assoc]
    exact .fraction signed first (digits_one bound)
  | fraction signed first second =>
    simp only [step, known] at stepped
    cases stepped
    have reached := Follows.fraction signed first (digits_more second bound)
    rw [List.reverse_append] at reached
    rw [List.append_assoc, List.append_assoc [0x2E]]
    exact reached
  | mark written noPower marked =>
    simp only [step, known] at stepped
    have third : WritesDigits ([] ++ [digitOctet value]) ([] ++ [value]) := digits_one bound
    have reached := power_digit_follows written noPower marked (.inl .none) third stepped (fun _ => rfl)
      (by rw [noPower]; rfl)
    rw [List.append_assoc]
    exact reached
  | markSign written noPower marked signed =>
    simp only [step, known] at stepped
    have third : WritesDigits ([] ++ [digitOctet value]) ([] ++ [value]) := digits_one bound
    have reached := power_digit_follows written noPower marked signed third stepped (fun _ => rfl) rfl
    rw [List.append_assoc]
    exact reached
  | power written noPower marked signed third =>
    simp only [step, known] at stepped
    have reached := power_digit_follows written noPower marked signed (digits_more third bound) stepped (fun _ => rfl) rfl
    rw [List.append_assoc, List.append_assoc]
    exact reached

theorem follows_more {n next : Numeral} {octets : Bytes} {b : UInt8} (follows : n.Follows octets)
    (stepped : n.step b = .more next) : next.Follows (octets ++ [b]) := by
  cases known : digit? b with
  | some value =>
    obtain ⟨bound, rfl⟩ := (digit_iff b value).mp known
    exact digit_follows follows bound stepped
  | none =>
    cases follows with
    | sign signed => simp [step, start, known] at stepped
    | zero signed first =>
      simp only [step, known] at stepped
      exact after_whole_follows signed first stepped
    | whole signed first leading =>
      simp only [step, known] at stepped
      exact after_whole_follows signed first stepped
    | point signed first => simp [step, known] at stepped
    | fraction signed first second =>
      simp only [step, known] at stepped
      split at stepped
      · rename_i marked
        cases stepped
        exact .mark (literal_of_fraction signed first second) rfl ((is_mark_iff b).mp marked)
      · cases stepped
    | mark written noPower marked =>
      simp only [step, known] at stepped
      exact after_mark_follows written noPower marked stepped
    | markSign written noPower marked signed => simp [step, known] at stepped
    | power written noPower marked signed third => simp [step, known] at stepped

theorem follows_literal {n : Numeral} {octets : Bytes} {number : Number} (follows : n.Follows octets)
    (finished : n.finish = .ok number) : WritesLiteral octets n.literal ∧ n.literal.Denotes number := by
  have denoted : n.literal.Denotes number := by
    unfold finish at finished
    split at finished
    all_goals first
      | cases finished
      | split at finished
        · rename_i found
          cases finished
          exact (Literal.number_iff _).mp found
        · cases finished
  refine ⟨?_, denoted⟩
  cases follows with
  | sign signed => cases finished
  | zero signed first => exact literal_of_whole signed first
  | whole signed first leading => exact literal_of_whole signed first
  | point signed first => cases finished
  | fraction signed first second => exact literal_of_fraction signed first second
  | mark written noPower marked => cases finished
  | markSign written noPower marked signed => cases finished
  | power written noPower marked signed third => exact literal_of_power written noPower (.power marked signed third)

end Soundness

section Completeness

def more? (n : Numeral) (b : UInt8) : Option Numeral :=
  match n.step b with
  | .more next => some next
  | _ => none

theorem more_iff {n next : Numeral} {b : UInt8} : n.more? b = some next ↔ n.step b = .more next := by
  unfold more?
  split
  · rename_i found stepped
    simp [stepped]
  · rename_i other
    exact ⟨nofun, fun stepped => absurd stepped (other next)⟩

theorem digit_known {value : Nat} (bound : value < 10) : digit? (digitOctet value) = some value :=
  (digit_iff (digitOctet value) value).mpr ⟨bound, rfl⟩

section Runs

variable {values : List Nat} (bounds : ∀ value ∈ values, value < 10)
include bounds

theorem whole_digits_lead (l : Literal) :
    (values.map digitOctet).foldlM more? ⟨.whole, l⟩ = some ⟨.whole, { l with whole := values.reverse ++ l.whole }⟩ := by
  induction values generalizing l with
  | nil => rfl
  | cons value rest ih =>
    rw [List.forall_mem_cons] at bounds
    have taken : more? ⟨.whole, l⟩ (digitOctet value) = some ⟨.whole, { l with whole := value :: l.whole }⟩ := by
      simp only [more?, step, digit_known bounds.1]
    rw [List.map_cons, List.foldlM_cons, taken, List.reverse_cons, List.append_assoc]
    exact ih bounds.2 { l with whole := value :: l.whole }

theorem fraction_digits_lead (l : Literal) :
    (values.map digitOctet).foldlM more? ⟨.fraction, l⟩ =
      some ⟨.fraction, { l with fraction := values.reverse ++ l.fraction }⟩ := by
  induction values generalizing l with
  | nil => rfl
  | cons value rest ih =>
    rw [List.forall_mem_cons] at bounds
    have taken : more? ⟨.fraction, l⟩ (digitOctet value) = some ⟨.fraction, { l with fraction := value :: l.fraction }⟩ := by
      simp only [more?, step, digit_known bounds.1]
    rw [List.map_cons, List.foldlM_cons, taken, List.reverse_cons, List.append_assoc]
    exact ih bounds.2 { l with fraction := value :: l.fraction }

end Runs

theorem overflows_mono (l : Literal) {small : Bool} {magnitude larger : Nat} (le : magnitude ≤ larger)
    (calm : { l with power := some (small, larger) }.overflows = false) :
    { l with power := some (small, magnitude) }.overflows = false := by
  cases small with
  | true => rfl
  | false =>
    simp only [Literal.overflows, Bool.and_eq_false_iff, decide_eq_false_iff_not] at calm ⊢
    exact calm.imp_left fun within beyond => within (Nat.lt_of_lt_of_le beyond le)

theorem power_digit_leads {l : Literal} {small : Bool} {magnitude value : Nat}
    (stands : l.power.getD (false, 0) = (small, magnitude))
    (calm : { l with power := some (small, magnitude * 10 + value) }.overflows = false) :
    powerDigit l value = .more ⟨.power, { l with power := some (small, magnitude * 10 + value) }⟩ := by
  simp only [powerDigit, stands, calm]
  rfl

theorem power_digits_lead {values : List Nat} (bounds : ∀ value ∈ values, value < 10) {l : Literal} {small : Bool}
    {magnitude : Nat} (stands : l.power = some (small, magnitude))
    (calm : { l with power := some (small, Literal.valueFrom magnitude values) }.overflows = false) :
    (values.map digitOctet).foldlM more? ⟨.power, l⟩ =
      some ⟨.power, { l with power := some (small, Literal.valueFrom magnitude values) }⟩ := by
  induction values generalizing l magnitude with
  | nil =>
    obtain ⟨_, _, _, _⟩ := l
    cases stands
    rfl
  | cons value rest ih =>
    rw [List.forall_mem_cons] at bounds
    have first := overflows_mono l (Literal.value_from_le (magnitude * 10 + value) rest) calm
    have taken := power_digit_leads (by rw [stands]; rfl) first
    have more : more? ⟨.power, l⟩ (digitOctet value) =
        some ⟨.power, { l with power := some (small, magnitude * 10 + value) }⟩ := by
      simp only [more?, step, digit_known bounds.1, taken]
    rw [List.map_cons, List.foldlM_cons, more]
    exact ih bounds.2 rfl calm

inductive Part.Ends : Part → Prop where
  | zero : Ends .zero
  | whole : Ends .whole
  | fraction : Ends .fraction
  | power : Ends .power

theorem finish_ends {n : Numeral} {number : Number} (ends : n.part.Ends) (denoted : n.literal.Denotes number) :
    n.finish = .ok number := by
  have found := (Literal.number_iff number).mpr denoted
  obtain ⟨part, literal⟩ := n
  cases ends <;> simp only [finish, found]

theorem ended {n : Numeral} {b : UInt8} (ends : n.part.Ends) (noDigit : digit? b = none) (noPoint : b ≠ 0x2E)
    (noMark : isMark b = false) : n.step b = .ended := by
  obtain ⟨part, literal⟩ := n
  cases ends <;> simp [step, noDigit, afterWhole, noPoint, noMark]

theorem whole_leads {octets : Bytes} {values : List Nat} (written : WritesWhole octets values) (negative : Bool) :
    ∃ part, (part = .zero ∨ part = .whole) ∧
      octets.foldlM more? (start negative) = some ⟨part, ⟨negative, values.reverse, [], none⟩⟩ := by
  obtain ⟨⟨nonempty, bounds⟩, leading⟩ := written
  cases values with
  | nil => exact absurd rfl nonempty
  | cons value rest =>
    rw [List.forall_mem_cons] at bounds
    have known := digit_known bounds.1
    cases value with
    | zero =>
      obtain ⟨-, rfl⟩ := List.cons.inj (leading rfl)
      exact ⟨.zero, .inl rfl, rfl⟩
    | succ value =>
      have taken : more? (start negative) (digitOctet (value + 1)) = some ⟨.whole, ⟨negative, [value + 1], [], none⟩⟩ := by
        simp only [more?, step, start, known]
      refine ⟨.whole, .inr rfl, ?_⟩
      have others := whole_digits_lead bounds.2 ⟨negative, [value + 1], [], none⟩
      rw [List.reverse_cons]
      change (digitOctet (value + 1) :: rest.map digitOctet).foldlM more? (start negative) = _
      rw [List.foldlM_cons, taken]
      exact others

theorem fraction_leads {octets : Bytes} {after : List Nat} (written : WritesFraction octets after) {part : Part}
    (stands : part = .zero ∨ part = .whole) (negative : Bool) (whole : List Nat) :
    ∃ last, (last = .zero ∨ last = .whole ∨ last = .fraction) ∧
      octets.foldlM more? ⟨part, ⟨negative, whole, [], none⟩⟩ = some ⟨last, ⟨negative, whole, after.reverse, none⟩⟩ := by
  cases written with
  | none => exact ⟨part, stands.imp_right .inl, rfl⟩
  | point written =>
    obtain ⟨nonempty, bounds⟩ := written
    refine ⟨.fraction, .inr (.inr rfl), ?_⟩
    cases after with
    | nil => exact absurd rfl nonempty
    | cons value rest =>
      rw [List.forall_mem_cons] at bounds
      have point : more? ⟨part, ⟨negative, whole, [], none⟩⟩ 0x2E = some ⟨.point, ⟨negative, whole, [], none⟩⟩ := by
        obtain rfl | rfl := stands <;> rfl
      have taken : more? ⟨.point, ⟨negative, whole, [], none⟩⟩ (digitOctet value) =
          some ⟨.fraction, ⟨negative, whole, [value], none⟩⟩ := by
        simp only [more?, step, digit_known bounds.1]
      have others := fraction_digits_lead bounds.2 ⟨negative, whole, [value], none⟩
      rw [List.reverse_cons]
      change (0x2E :: digitOctet value :: rest.map digitOctet).foldlM more? _ = _
      rw [List.foldlM_cons, point, Option.bind_eq_bind, Option.bind_some, List.foldlM_cons, taken]
      exact others

theorem exponent_leads {octets : Bytes} {values : List Nat} (written : WritesDigits octets values) {part : Part}
    (stands : part = .mark ∨ part = .markSign) {l : Literal} {small : Bool} (started : l.power.getD (false, 0) = (small, 0))
    (calm : { l with power := some (small, Nat.ofDigits 10 values.reverse) }.overflows = false) :
    octets.foldlM more? ⟨part, l⟩ =
      some ⟨.power, { l with power := some (small, Nat.ofDigits 10 values.reverse) }⟩ := by
  obtain ⟨nonempty, bounds⟩ := written
  have amount := Literal.value_from_reverse values.reverse
  rw [List.reverse_reverse] at amount
  rw [← amount] at calm ⊢
  cases values with
  | nil => exact absurd rfl nonempty
  | cons value rest =>
    rw [List.forall_mem_cons] at bounds
    have first := overflows_mono l (Literal.value_from_le (0 * 10 + value) rest) calm
    have taken := power_digit_leads started first
    have more : more? ⟨part, l⟩ (digitOctet value) = some ⟨.power, { l with power := some (small, 0 * 10 + value) }⟩ := by
      obtain rfl | rfl := stands <;> simp only [more?, step, digit_known bounds.1, taken]
    change (digitOctet value :: rest.map digitOctet).foldlM more? _ = _
    rw [List.foldlM_cons, more]
    exact power_digits_lead bounds.2 rfl calm

theorem power_leads {octets : Bytes} {exponent : Option (Bool × Nat)} (written : WritesPower octets exponent)
    {part : Part} (stands : part = .zero ∨ part = .whole ∨ part = .fraction) {l : Literal} (noPower : l.power = none)
    (calm : { l with power := exponent }.overflows = false) :
    ∃ last, last.Ends ∧ octets.foldlM more? ⟨part, l⟩ = some ⟨last, { l with power := exponent }⟩ := by
  cases written with
  | none =>
    obtain ⟨_, _, _, _⟩ := l
    cases noPower
    refine ⟨part, ?_, rfl⟩
    obtain rfl | rfl | rfl := stands
    · exact .zero
    · exact .whole
    · exact .fraction
  | power marked signed written =>
    rename_i mark sign digits small values
    have entered : more? ⟨part, l⟩ mark = some ⟨.mark, l⟩ := by
      obtain rfl | rfl := marked <;> obtain rfl | rfl | rfl := stands <;> rfl
    refine ⟨.power, .power, ?_⟩
    rw [List.foldlM_append, List.foldlM_append, List.foldlM_cons, entered]
    obtain unsigned | ⟨rfl, rfl⟩ := signed
    · cases unsigned with
      | none => exact exponent_leads written (.inl rfl) (by rw [noPower]; rfl) calm
      | minus => exact exponent_leads written (.inr rfl) (l := { l with power := some (true, 0) }) rfl calm
    · exact exponent_leads written (.inr rfl) (l := { l with power := some (false, 0) }) rfl calm

theorem literal_leads {octets : Bytes} {l : Literal} {number : Number} (written : WritesLiteral octets l)
    (denoted : l.Denotes number) :
    ∃ sign rest last, octets = sign ++ rest ∧ WritesSign sign l.negative ∧
      rest.foldlM more? (start l.negative) = some ⟨last, l⟩ ∧ last.Ends := by
  obtain ⟨signed, first, second, third⟩ := written
  rename_i sign whole fraction power negative before after exponent
  have calm : Literal.overflows ⟨negative, before.reverse, after.reverse, exponent⟩ = false := by
    have found := (Literal.number_iff number).mpr denoted
    unfold Literal.number? at found
    split at found
    · cases found
    · rename_i calm
      simpa using calm
  obtain ⟨one, standsOne, leadsOne⟩ := whole_leads first negative
  obtain ⟨two, standsTwo, leadsTwo⟩ := fraction_leads second standsOne negative before.reverse
  obtain ⟨last, ends, leads⟩ := power_leads third standsTwo (l := ⟨negative, before.reverse, after.reverse, none⟩) rfl calm
  refine ⟨sign, whole ++ fraction ++ power, last, by simp, signed, ?_, ends⟩
  rw [List.foldlM_append, List.foldlM_append, leadsOne]
  simp only [Option.bind_eq_bind, Option.bind_some, leadsTwo, leads]

end Completeness

end Numeral

end ClientHints.Json
