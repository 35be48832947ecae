import ClientHints.Proofs.Json.Quoted
import ClientHints.Proofs.Json.Settled

/-!
How deeply a text is nested, counted on its octets alone: every bracket outside of strings opens or closes an
array or object. On a text that writes a tree the count never rises above the depth of that tree, and reaches it.
-/

set_option autoImplicit false

namespace ClientHints.Json

namespace Nesting

open Grammar

inductive Zone where
  | outside
  | inside
  | escaped
deriving DecidableEq, Repr

structure Scan where
  opened : Nat
  zone : Zone
deriving DecidableEq, Repr

def Scan.step (scan : Scan) (b : UInt8) : Scan :=
  match scan.zone with
  | .outside =>
    if b = 0x22 then ⟨scan.opened, .inside⟩
    else if b = 0x5B ∨ b = 0x7B then ⟨scan.opened + 1, .outside⟩
    else if b = 0x5D ∨ b = 0x7D then ⟨scan.opened - 1, .outside⟩
    else scan
  | .inside =>
    if b = 0x22 then ⟨scan.opened, .outside⟩
    else if b = 0x5C then ⟨scan.opened, .escaped⟩
    else scan
  | .escaped => ⟨scan.opened, .inside⟩

def Scan.run (scan : Scan) (octets : Bytes) : Scan :=
  octets.foldl step scan

def opened (octets : Bytes) : Nat :=
  (Scan.run ⟨0, .outside⟩ octets).opened

def peak (scan : Scan) : Bytes → Nat
  | [] => scan.opened
  | b :: rest => max scan.opened (peak (scan.step b) rest)

theorem run_append (scan : Scan) (front back : Bytes) : scan.run (front ++ back) = (scan.run front).run back :=
  List.foldl_append

theorem run_one (scan : Scan) (b : UInt8) : scan.run [b] = scan.step b := rfl

theorem opened_le_peak (scan : Scan) (octets : Bytes) : scan.opened ≤ peak scan octets := by
  cases octets with
  | nil => exact le_rfl
  | cons b rest => exact le_max_left _ _

theorem peak_append (scan : Scan) (front back : Bytes) :
    peak scan (front ++ back) = max (peak scan front) (peak (scan.run front) back) := by
  induction front generalizing scan with
  | nil => exact (max_eq_right (opened_le_peak scan back)).symm
  | cons b rest ih =>
    change max scan.opened (peak (scan.step b) (rest ++ back)) = _
    rw [ih, ← max_assoc]
    rfl

theorem peak_le_iff (scan : Scan) (octets : Bytes) (bound : Nat) :
    peak scan octets ≤ bound ↔ ∀ front, front <+: octets → (scan.run front).opened ≤ bound := by
  induction octets generalizing scan with
  | nil => simp [peak, Scan.run]
  | cons b rest ih =>
    simp only [peak, max_le_iff, ih, List.prefix_cons_iff]
    constructor
    · rintro ⟨here, later⟩ front (rfl | ⟨shorter, rfl, cut⟩)
      · exact here
      · exact later shorter cut
    · intro bounded
      exact ⟨bounded [] (.inl rfl), fun front cut => bounded (b :: front) (.inr ⟨front, rfl, cut⟩)⟩

-- Octets that lead from one zone to another, close all that they open, and open so many at most.
def Leads (first last : Zone) (octets : Bytes) (inner : Nat) : Prop :=
  ∀ n, Scan.run ⟨n, first⟩ octets = ⟨n, last⟩ ∧ peak ⟨n, first⟩ octets = n + inner

section Leads

variable {first middle last : Zone} {front back : Bytes} {inner other : Nat}

theorem leads_nil (zone : Zone) : Leads zone zone [] 0 := fun _ => ⟨rfl, rfl⟩

theorem leads_one {b : UInt8} (stepped : ∀ n, Scan.step ⟨n, first⟩ b = ⟨n, last⟩) : Leads first last [b] 0 := by
  intro n
  constructor
  · exact stepped n
  · simp only [peak, stepped, max_self, Nat.add_zero]

theorem leads_append (before : Leads first middle front inner) (after : Leads middle last back other) :
    Leads first last (front ++ back) (max inner other) := by
  intro n
  obtain ⟨reached, high⟩ := before n
  obtain ⟨ended, higher⟩ := after n
  constructor
  · rw [run_append, reached, ended]
  · rw [peak_append, high, reached, higher, Nat.add_max_add_left]

theorem leads_after (before : Leads first middle front 0) (after : Leads middle last back inner) :
    Leads first last (front ++ back) inner := by
  simpa using leads_append before after

theorem leads_before (before : Leads first middle front inner) (after : Leads middle last back 0) :
    Leads first last (front ++ back) inner := by
  simpa using leads_append before after

theorem leads_each {zone : Zone} {octets : Bytes} (stays : ∀ b ∈ octets, ∀ n, Scan.step ⟨n, zone⟩ b = ⟨n, zone⟩) :
    Leads zone zone octets 0 := by
  induction octets with
  | nil => exact leads_nil zone
  | cons b rest ih =>
    obtain ⟨here, later⟩ := List.forall_mem_cons.mp stays
    exact leads_after (leads_one here) (ih later)

theorem leads_within {start stop : UInt8} {octets : Bytes} (opens : start = 0x5B ∨ start = 0x7B)
    (closes : stop = 0x5D ∨ stop = 0x7D) (between : Leads .outside .outside octets inner) :
    Leads .outside .outside ([start] ++ octets ++ [stop]) (1 + inner) := by
  intro n
  have entered : Scan.step ⟨n, .outside⟩ start = ⟨n + 1, .outside⟩ := by
    obtain rfl | rfl := opens <;> rfl
  have left : Scan.step ⟨n + 1, .outside⟩ stop = ⟨n, .outside⟩ := by
    obtain rfl | rfl := closes <;> rfl
  obtain ⟨reached, high⟩ := between (n + 1)
  have within : Scan.run ⟨n, .outside⟩ ([start] ++ octets) = ⟨n + 1, .outside⟩ := by
    rw [run_append, run_one, entered, reached]
  constructor
  · rw [run_append, within, run_one, left]
  · rw [peak_append, peak_append, within, run_one, entered, high]
    simp only [peak, entered, left]
    omega

end Leads

section Quiet

theorem outside_stays {octets : Bytes}
    (quiet : ∀ b ∈ octets, b ≠ 0x22 ∧ b ≠ 0x5B ∧ b ≠ 0x7B ∧ b ≠ 0x5D ∧ b ≠ 0x7D) :
    Leads .outside .outside octets 0 := by
  refine leads_each fun b member n => ?_
  obtain ⟨quote, bracket, brace, bracketEnd, braceEnd⟩ := quiet b member
  simp [Scan.step, quote, bracket, brace, bracketEnd, braceEnd]

theorem inside_stays {octets : Bytes} (plain : ∀ b ∈ octets, b ≠ 0x22 ∧ b ≠ 0x5C) : Leads .inside .inside octets 0 := by
  refine leads_each fun b member n => ?_
  obtain ⟨quote, backslash⟩ := plain b member
  simp [Scan.step, quote, backslash]

theorem escape_leads (letter : UInt8) : Leads .inside .inside [0x5C, letter] 0 := by
  have backslash : Leads .inside .escaped [0x5C] 0 := leads_one fun _ => rfl
  have taken : Leads .escaped .inside [letter] 0 := leads_one fun _ => rfl
  exact leads_after backslash taken

theorem unit_leads {octets : Bytes} {value : Nat} (written : WritesUnit octets value) : Leads .inside .inside octets 0 := by
  have plain {b : UInt8} {digit : Nat} (known : WritesHexDigit b digit) : b ≠ 0x22 ∧ b ≠ 0x5C := by
    have table : ∀ b digit, digit ∈ Quoted.hexDigit? b → b ≠ 0x22 ∧ b ≠ 0x5C := Utf8.octet_forall (by decide +kernel)
    exact table b digit ((Quoted.hex_digit_iff b digit).mpr known)
  obtain ⟨first, second, third, fourth⟩ := written
  exact inside_stays (by simp [plain first, plain second, plain third, plain fourth])

theorem char_leads {octets : Bytes} {c : Char} (written : WritesChar octets c) : Leads .inside .inside octets 0 := by
  cases written with
  | plain _ visible noQuote noBackslash =>
    have plain := (Quoted.plain_char_iff c).mpr ⟨visible, noQuote, noBackslash⟩
    exact inside_stays fun b member => ⟨(plain b member).1, (plain b member).2.1⟩
  | short known => exact escape_leads _
  | unit written => exact leads_after (escape_leads 0x75) (unit_leads written)
  | pair high low =>
    exact leads_after (leads_after (leads_after (escape_leads 0x75) (unit_leads high)) (escape_leads 0x75)) (unit_leads low)

theorem chars_lead {octets : Bytes} {chars : List Char} (written : WritesChars octets chars) :
    Leads .inside .inside octets 0 := by
  induction written with
  | nil => exact leads_nil .inside
  | cons first _ ih => exact leads_after (char_leads first) ih

theorem string_leads {octets : Bytes} {text : String} (written : WritesString octets text) :
    Leads .outside .outside octets 0 := by
  obtain ⟨inside⟩ := written
  have quote : Leads .outside .inside [0x22] 0 := leads_one fun _ => rfl
  have unquote : Leads .inside .outside [0x22] 0 := leads_one fun _ => rfl
  exact leads_after (leads_after quote (chars_lead inside)) unquote

theorem digits_lead {octets : Bytes} {values : List Nat} (written : WritesDigits octets values) :
    Leads .outside .outside octets 0 := by
  obtain ⟨-, bounds⟩ := written
  have table : ∀ value < 10, let b := UInt8.ofNat (0x30 + value)
      b ≠ 0x22 ∧ b ≠ 0x5B ∧ b ≠ 0x7B ∧ b ≠ 0x5D ∧ b ≠ 0x7D := by decide
  exact outside_stays (List.forall_mem_map.mpr fun value member => table value (bounds value member))

theorem sign_leads {octets : Bytes} {negative : Bool} (written : WritesSign octets negative) :
    Leads .outside .outside octets 0 := by
  cases written with
  | none => exact leads_nil .outside
  | minus => exact leads_one fun _ => rfl

theorem fraction_leads {octets : Bytes} {values : List Nat} (written : WritesFraction octets values) :
    Leads .outside .outside octets 0 := by
  have point : Leads .outside .outside [0x2E] 0 := leads_one fun _ => rfl
  cases written with
  | none => exact leads_nil .outside
  | point written => exact leads_after point (digits_lead written)

theorem power_leads {octets : Bytes} {power : Option (Bool × Nat)} (written : WritesPower octets power) :
    Leads .outside .outside octets 0 := by
  cases written with
  | none => exact leads_nil .outside
  | power marked signed written =>
    rename_i mark sign _ _ _
    have begun : Leads .outside .outside [mark] 0 := by
      obtain rfl | rfl := marked <;> exact leads_one fun _ => rfl
    have directed : Leads .outside .outside sign 0 := by
      obtain signed | ⟨rfl, -⟩ := signed
      · exact sign_leads signed
      · exact leads_one fun _ => rfl
    exact leads_after (leads_after begun directed) (digits_lead written)

theorem literal_leads {octets : Bytes} {l : Literal} (written : WritesLiteral octets l) :
    Leads .outside .outside octets 0 := by
  obtain ⟨signed, ⟨first, -⟩, second, third⟩ := written
  exact leads_after (leads_after (leads_after (sign_leads signed) (digits_lead first)) (fraction_leads second))
    (power_leads third)

theorem spacing_leads {octets : Bytes} (blank : IsSpacing octets) : Leads .outside .outside octets 0 := by
  refine outside_stays fun b member => ?_
  obtain rfl | rfl | rfl | rfl := blank b member <;> decide

end Quiet

section Trees

theorem word_leads {octets : Bytes} (word : octets.all fun b => 0x61 ≤ b && b ≤ 0x7A) :
    Leads .outside .outside octets 0 := by
  have letters : ∀ b : UInt8, (0x61 ≤ b && b ≤ 0x7A) = true →
      b ≠ 0x22 ∧ b ≠ 0x5B ∧ b ≠ 0x7B ∧ b ≠ 0x5D ∧ b ≠ 0x7D := Utf8.octet_forall (by decide +kernel)
  exact outside_stays fun b member => letters b (List.all_eq_true.mp word b member)

theorem comma_leads : Leads .outside .outside [0x2C] 0 := leads_one fun _ => rfl

theorem colon_leads : Leads .outside .outside [0x3A] 0 := leads_one fun _ => rfl

mutual

theorem value_leads : {octets : Bytes} → {written : Json} → WritesValue octets written →
    Leads .outside .outside octets written.depth
  | _, _, .null => word_leads rfl
  | _, _, .yes => word_leads rfl
  | _, _, .no => word_leads rfl
  | _, _, .number written _ => literal_leads written
  | _, _, .string written => string_leads written
  | _, _, .emptyArray blank => leads_within (.inl rfl) (.inl rfl) (spacing_leads blank)
  | _, _, .array written => leads_within (.inl rfl) (.inl rfl) (items_lead written)
  | _, _, .emptyObject blank => leads_within (.inr rfl) (.inr rfl) (spacing_leads blank)
  | _, _, .object written => leads_within (.inr rfl) (.inr rfl) (members_lead written)

theorem item_leads : {octets : Bytes} → {written : Json} → WritesItem octets written →
    Leads .outside .outside octets written.depth
  | _, _, .spaced left written right =>
    leads_before (leads_after (spacing_leads left) (value_leads written)) (spacing_leads right)

theorem items_lead : {octets : Bytes} → {written : List Json} → WritesItems octets written →
    Leads .outside .outside octets (depthOfItems written)
  | _, _, .one written => by simpa [depthOfItems] using item_leads written
  | _, _, .more others written => by
    simpa [depth_of_items_append, depthOfItems] using
      leads_append (leads_before (items_lead others) comma_leads) (item_leads written)

theorem member_leads : {octets : Bytes} → {written : String × Json} → WritesMember octets written →
    Leads .outside .outside octets written.2.depth
  | _, _, .keyed left named right written =>
    leads_after (leads_after (leads_after (leads_after (spacing_leads left) (string_leads named)) (spacing_leads right))
      colon_leads) (item_leads written)

theorem members_lead : {octets : Bytes} → {written : List (String × Json)} → WritesMembers octets written →
    Leads .outside .outside octets (depthOfMembers written)
  | _, _, .one written => by simpa [depthOfMembers] using member_leads written
  | _, _, .more others written => by
    simpa [depth_of_members_append, depthOfMembers] using
      leads_append (leads_before (members_lead others) comma_leads) (member_leads written)

end

end Trees

theorem written_depth_le_iff {text : Bytes} {written : Json} (listed : WritesItem text written) (bound : Nat) :
    written.depth ≤ bound ↔ ∀ front, front <+: text → opened front ≤ bound := by
  obtain ⟨-, high⟩ := item_leads listed 0
  rw [Nat.zero_add] at high
  rw [← high]
  exact peak_le_iff ⟨0, .outside⟩ text bound

example : opened (Utf8.encode "[\x7b\"[\\\"[\": [], \"") = 2 := by decide +kernel

end Nesting

end ClientHints.Json
