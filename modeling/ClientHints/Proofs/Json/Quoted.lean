import ClientHints.Json.Quoted
import ClientHints.Proofs.Json.Grammar
import ClientHints.Proofs.Text.Utf8

/-!
Strings are read as they are written. Content is collected octet by octet and checked as UTF-8 at the end
only; yet every escape stands for a whole character, and so the octets between two escapes are whole
characters too.
-/

set_option autoImplicit false

namespace ClientHints.Json

open Grammar Utf8

namespace Quoted

section Tables

theorem escaped_known {b plain : UInt8} (known : escaped? b = some plain) :
    ∃ c, (b, c) ∈ shortEscapes ∧ String.utf8EncodeChar c = [plain] := by
  have table : ∀ b plain, plain ∈ escaped? b → ∃ entry ∈ shortEscapes, entry.1 = b ∧ String.utf8EncodeChar entry.2 = [plain] :=
    octet_forall (by decide +kernel)
  obtain ⟨⟨_, c⟩, member, rfl, spelled⟩ := table b plain known
  exact ⟨c, member, spelled⟩

theorem known_escaped {letter : UInt8} {c : Char} (known : (letter, c) ∈ shortEscapes) :
    letter ≠ 0x75 ∧ ∃ plain, escaped? letter = some plain ∧ String.utf8EncodeChar c = [plain] := by
  have table : ∀ entry ∈ shortEscapes,
      entry.1 ≠ 0x75 ∧ (escaped? entry.1).map (fun plain => [plain]) = some (String.utf8EncodeChar entry.2) := by
    decide +kernel
  obtain ⟨apart, found⟩ := table (letter, c) known
  obtain ⟨plain, escaped, spelled⟩ := Option.map_eq_some_iff.mp found
  exact ⟨apart, plain, escaped, spelled.symm⟩

instance (b : UInt8) (value : Nat) : Decidable (WritesHexDigit b value) :=
  inferInstanceAs (Decidable (_ ∧ _))

theorem hex_digit_iff (b : UInt8) (value : Nat) : hexDigit? b = some value ↔ WritesHexDigit b value := by
  constructor
  · intro known
    have table : ∀ b value, value ∈ hexDigit? b → WritesHexDigit b value := octet_forall (by decide +kernel)
    exact table b value known
  · rintro ⟨bound, same⟩
    have table : ∀ value < 16, hexDigit? (UInt8.ofNat (Nat.digitChar value).toNat) = some value ∧
        hexDigit? (UInt8.ofNat (Nat.digitChar value).toUpper.toNat) = some value := by
      decide +kernel
    obtain same | same := same
    · rw [← UInt8.ofNat_toNat (x := b), same]
      exact (table value bound).1
    · rw [← UInt8.ofNat_toNat (x := b), same]
      exact (table value bound).2

theorem hex_value_iff (a b c d : UInt8) (value : Nat) :
    hexValue? [d, c, b, a] = some value ↔ WritesUnit [a, b, c, d] value := by
  simp only [hexValue?, Option.bind_eq_bind, Option.bind_eq_some_iff, Option.pure_def, Option.some.injEq, hex_digit_iff]
  constructor
  · rintro ⟨_, ⟨_, ⟨_, ⟨_, rfl, w, first, rfl⟩, x, second, rfl⟩, y, third, rfl⟩, z, fourth, rfl⟩
    rw [Nat.zero_mul, Nat.zero_add]
    exact .digits first second third fourth
  · rintro ⟨first, second, third, fourth⟩
    rename_i w x y z
    exact ⟨_, ⟨_, ⟨_, ⟨_, rfl, w, first, rfl⟩, x, second, rfl⟩, y, third, rfl⟩, z, fourth, by simp⟩

end Tables

section Plain

def IsPlain (b : UInt8) : Prop := b ≠ 0x22 ∧ b ≠ 0x5C ∧ ¬b < 0x20

theorem is_plain_iff (b : UInt8) : IsPlain b ↔ b.toNat ≠ 0x22 ∧ b.toNat ≠ 0x5C ∧ 0x20 ≤ b.toNat := by
  rw [IsPlain, ne_eq, ne_eq, ← UInt8.toNat_inj, ← UInt8.toNat_inj, UInt8.lt_iff_toNat_lt, Nat.not_lt]
  rfl

theorem plain_char_iff (c : Char) :
    (∀ b ∈ String.utf8EncodeChar c, IsPlain b) ↔ 0x20 ≤ c.toNat ∧ c ≠ '"' ∧ c ≠ '\\' := by
  rw [ne_eq, ne_eq, ← Char.toNat_inj, ← Char.toNat_inj]
  change _ ↔ 0x20 ≤ c.toNat ∧ ¬c.toNat = 0x22 ∧ ¬c.toNat = 0x5C
  by_cases ascii : c.toNat < 0x80
  · rw [encode_char_ascii c ascii, List.forall_mem_singleton, is_plain_iff, UInt8.toNat_ofNat_of_lt' (by change _ < 256; omega)]
    omega
  · have large := encode_char_large (Nat.not_lt.mp ascii)
    refine ⟨fun _ => by omega, fun _ b member => (is_plain_iff b).mpr ?_⟩
    have least := large b member
    omega

theorem plain_writes (chars : List Char) (plain : ∀ b ∈ spell chars, IsPlain b) : WritesChars (spell chars) chars := by
  induction chars with
  | nil => exact .nil
  | cons c rest ih =>
    change ∀ b ∈ String.utf8EncodeChar c ++ spell rest, IsPlain b at plain
    rw [List.forall_mem_append] at plain
    obtain ⟨visible, noQuote, noBackslash⟩ := (plain_char_iff c).mp plain.1
    exact .cons (.plain c visible noQuote noBackslash) (ih plain.2)

end Plain

theorem writes_chars_append {front rest : Bytes} {before after : List Char} (first : WritesChars front before)
    (second : WritesChars rest after) : WritesChars (front ++ rest) (before ++ after) := by
  induction first with
  | nil => exact second
  | cons first _ ih =>
    rw [List.append_assoc]
    exact .cons first ih

section Soundness

-- The octets write the content, whatever plain octets complete its last character.
def Carries (content octets : Bytes) : Prop :=
  ∀ after chars, (∀ b ∈ after, IsPlain b) → spell chars = content.reverse ++ after → WritesChars (octets ++ after) chars

theorem carries_nil : Carries [] [] := by
  intro after chars plain spelled
  obtain rfl : spell chars = after := spelled
  exact plain_writes chars plain

theorem carries_plain {content octets : Bytes} {b : UInt8} (carries : Carries content octets) (plain : IsPlain b) :
    Carries (b :: content) (octets ++ [b]) := by
  intro after chars others spelled
  have longer := carries (b :: after) chars (List.forall_mem_cons.mpr ⟨plain, others⟩) (by simpa using spelled)
  simpa using longer

theorem carries_char {content octets escape : Bytes} {c : Char} (carries : Carries content octets)
    (written : WritesChar escape c) : Carries ((String.utf8EncodeChar c).reverse ++ content) (octets ++ escape) := by
  intro after chars plain spelled
  rw [List.reverse_append, List.reverse_reverse] at spelled
  obtain ⟨left, right, before, rfl, rfl⟩ := spell_cut chars content.reverse after c spelled
  have first := carries [] left (by simp) (by simpa using before.symm)
  rw [List.append_nil] at first
  rw [List.append_assoc]
  exact writes_chars_append first (.cons written (plain_writes right plain))

inductive Stage.Begins : Stage → Bytes → Prop where
  | plain : Begins .plain []
  | escape : Begins .escape [0x5C]
  | hex {digits : Bytes} (short : digits.length ≤ 3) : Begins (.hex none digits) ([0x5C, 0x75] ++ digits.reverse)
  | pairBackslash {first : Bytes} {high : Nat} (written : WritesUnit first high) (isHigh : IsHighSurrogate high) :
      Begins (.pairBackslash high) ([0x5C, 0x75] ++ first)
  | pairLetter {first : Bytes} {high : Nat} (written : WritesUnit first high) (isHigh : IsHighSurrogate high) :
      Begins (.pairLetter high) ([0x5C, 0x75] ++ first ++ [0x5C])
  | pairHex {first digits : Bytes} {high : Nat} (written : WritesUnit first high) (isHigh : IsHighSurrogate high)
      (short : digits.length ≤ 3) :
      Begins (.hex (some high) digits) ([0x5C, 0x75] ++ first ++ [0x5C, 0x75] ++ digits.reverse)

inductive Follows (q : Quoted) : Bytes → Prop where
  | parts {before escape : Bytes} (carries : Carries q.content before) (begun : q.stage.Begins escape) :
      Follows q (before ++ escape)

theorem start_follows : Quoted.start.Follows [] :=
  have reached : Quoted.start.Follows ([] ++ []) := .parts carries_nil .plain
  reached

theorem follows_plain {q : Quoted} {content before octets : Bytes} (carries : Carries content before)
    (stands : q = ⟨content, .plain⟩) (same : octets = before) : q.Follows octets := by
  have reached : (⟨content, .plain⟩ : Quoted).Follows (before ++ []) := .parts carries .plain
  rwa [stands, same, ← List.append_nil before]

theorem pushed_follows {content before escape octets : Bytes} {point : Nat} (carries : Carries content before)
    (written : WritesChar escape (Char.ofNat point)) (same : octets = before ++ escape) :
    (push content point).Follows octets :=
  follows_plain (carries_char carries written) rfl same

theorem unit_follows {content before digits : Bytes} {value : Nat} {next : Quoted} (carries : Carries content before)
    (written : WritesUnit digits value) (taken : unit content none value = .more next) :
    next.Follows (before ++ ([0x5C, 0x75] ++ digits)) := by
  simp only [unit, Bool.and_eq_true, decide_eq_true_eq] at taken
  split at taken
  · cases taken
  · rename_i noLow
    split at taken
    · rename_i isHigh
      cases taken
      exact .parts carries (.pairBackslash written isHigh)
    · rename_i noHigh
      cases taken
      exact pushed_follows carries (.unit written noHigh noLow) rfl

theorem pair_follows {content before first digits : Bytes} {high value : Nat} {next : Quoted}
    (carries : Carries content before) (written : WritesUnit first high) (isHigh : IsHighSurrogate high)
    (second : WritesUnit digits value) (taken : unit content (some high) value = .more next) :
    next.Follows (before ++ ([0x5C, 0x75] ++ first ++ [0x5C, 0x75] ++ digits)) := by
  simp only [unit, Bool.and_eq_true, decide_eq_true_eq] at taken
  split at taken
  · rename_i isLow
    obtain rfl := Step.more.inj taken
    exact pushed_follows carries (.pair written second isHigh isLow) rfl
  · cases taken

theorem hex_value_writes {digits : Bytes} {b : UInt8} {value : Nat} (short : digits.length ≤ 3)
    (filled : ¬digits.length < 3) (known : hexValue? (b :: digits) = some value) :
    WritesUnit (digits.reverse ++ [b]) value := by
  obtain ⟨d, c, a, rfl⟩ := List.length_eq_three.mp (Nat.le_antisymm short (Nat.not_lt.mp filled))
  exact (hex_value_iff a c d b value).mp known

section Inversion

variable {content : Bytes} {b : UInt8} {next : Quoted}

theorem plain_more (stepped : step ⟨content, .plain⟩ b = .more next) :
    b = 0x5C ∧ next = ⟨content, .escape⟩ ∨ IsPlain b ∧ next = ⟨b :: content, .plain⟩ := by
  simp only [step] at stepped
  split at stepped
  · unfold close at stepped
    split at stepped <;> cases stepped
  · rename_i noQuote
    split at stepped
    · rename_i backslash
      exact .inl ⟨backslash, (Step.more.inj stepped).symm⟩
    · rename_i noBackslash
      split at stepped
      · cases stepped
      · rename_i visible
        exact .inr ⟨⟨noQuote, noBackslash, visible⟩, (Step.more.inj stepped).symm⟩

theorem escape_more (stepped : step ⟨content, .escape⟩ b = .more next) :
    b = 0x75 ∧ next = ⟨content, .hex none []⟩ ∨ ∃ plain, escaped? b = some plain ∧ next = ⟨plain :: content, .plain⟩ := by
  simp only [step] at stepped
  split at stepped
  · rename_i letter
    exact .inl ⟨letter, (Step.more.inj stepped).symm⟩
  · split at stepped
    · rename_i plain known
      exact .inr ⟨plain, known, (Step.more.inj stepped).symm⟩
    · cases stepped

theorem hex_more {high : Option Nat} {digits : Bytes} (stepped : step ⟨content, .hex high digits⟩ b = .more next) :
    digits.length < 3 ∧ next = ⟨content, .hex high (b :: digits)⟩ ∨
      ¬digits.length < 3 ∧ ∃ value, hexValue? (b :: digits) = some value ∧ unit content high value = .more next := by
  simp only [step] at stepped
  split at stepped
  · rename_i room
    exact .inl ⟨room, (Step.more.inj stepped).symm⟩
  · rename_i filled
    split at stepped
    · rename_i value known
      exact .inr ⟨filled, value, known, stepped⟩
    · cases stepped

theorem pair_backslash_more {high : Nat} (stepped : step ⟨content, .pairBackslash high⟩ b = .more next) :
    b = 0x5C ∧ next = ⟨content, .pairLetter high⟩ := by
  simp only [step] at stepped
  split at stepped
  · rename_i backslash
    exact ⟨backslash, (Step.more.inj stepped).symm⟩
  · cases stepped

theorem pair_letter_more {high : Nat} (stepped : step ⟨content, .pairLetter high⟩ b = .more next) :
    b = 0x75 ∧ next = ⟨content, .hex (some high) []⟩ := by
  simp only [step] at stepped
  split at stepped
  · rename_i letter
    exact ⟨letter, (Step.more.inj stepped).symm⟩
  · cases stepped

theorem unit_not_closed {high : Option Nat} {value : Nat} {text : String} : unit content high value ≠ .closed text := by
  cases high <;> simp only [unit] <;> repeat' split
  all_goals exact nofun

theorem closed_at_quote {stage : Stage} {text : String} (stepped : step ⟨content, stage⟩ b = .closed text) :
    stage = .plain ∧ b = 0x22 ∧ decode content.reverse = .ok text := by
  cases stage with
  | plain =>
    simp only [step] at stepped
    split at stepped
    · rename_i quote
      unfold close at stepped
      split at stepped
      · rename_i found decoded
        cases stepped
        exact ⟨rfl, quote, decoded⟩
      · cases stepped
    · split at stepped
      · cases stepped
      · split at stepped <;> cases stepped
  | escape =>
    simp only [step] at stepped
    split at stepped
    · cases stepped
    · split at stepped <;> cases stepped
  | hex high digits =>
    simp only [step] at stepped
    split at stepped
    · cases stepped
    · split at stepped
      · exact absurd stepped unit_not_closed
      · cases stepped
  | pairBackslash high | pairLetter high =>
    simp only [step] at stepped
    split at stepped <;> cases stepped

end Inversion

theorem follows_more {q next : Quoted} {octets : Bytes} {b : UInt8} (follows : q.Follows octets)
    (stepped : q.step b = .more next) : next.Follows (octets ++ [b]) := by
  obtain ⟨content, stage⟩ := q
  obtain ⟨carries, begun⟩ := follows
  rw [List.append_assoc]
  cases begun with
  | plain =>
    obtain ⟨rfl, rfl⟩ | ⟨plain, rfl⟩ := plain_more stepped
    · exact .parts carries .escape
    · exact follows_plain (carries_plain carries plain) rfl rfl
  | escape =>
    obtain ⟨rfl, rfl⟩ | ⟨plain, known, rfl⟩ := escape_more stepped
    · have begun : Stage.Begins (.hex none []) [0x5C, 0x75] := .hex (Nat.zero_le 3)
      exact .parts carries begun
    · obtain ⟨c, short, spelled⟩ := escaped_known known
      exact follows_plain (carries_char carries (.short short)) (by rw [spelled]; rfl) rfl
  | hex short =>
    rename_i digits
    rw [List.append_assoc]
    obtain ⟨room, rfl⟩ | ⟨filled, value, known, taken⟩ := hex_more stepped
    · have begun : Stage.Begins (.hex none (b :: digits)) _ := .hex room
      rw [← List.reverse_cons]
      exact .parts carries begun
    · exact unit_follows carries (hex_value_writes short filled known) taken
  | pairBackslash written isHigh =>
    obtain ⟨rfl, rfl⟩ := pair_backslash_more stepped
    exact .parts carries (.pairLetter written isHigh)
  | pairLetter written isHigh =>
    rename_i first high
    obtain ⟨rfl, rfl⟩ := pair_letter_more stepped
    have begun : Stage.Begins (.hex (some high) []) _ := .pairHex written isHigh (Nat.zero_le 3)
    rw [List.reverse_nil, List.append_nil] at begun
    rw [List.append_assoc _ [0x5C]]
    exact .parts carries begun
  | pairHex written isHigh short =>
    rename_i first digits high
    rw [List.append_assoc _ digits.reverse]
    obtain ⟨room, rfl⟩ | ⟨filled, value, known, taken⟩ := hex_more stepped
    · have begun : Stage.Begins (.hex (some high) (b :: digits)) _ := .pairHex written isHigh room
      rw [← List.reverse_cons]
      exact .parts carries begun
    · exact pair_follows carries written isHigh (hex_value_writes short filled known) taken

theorem follows_closed {q : Quoted} {octets : Bytes} {b : UInt8} {text : String} (follows : q.Follows octets)
    (stepped : q.step b = .closed text) : WritesString ([0x22] ++ octets ++ [b]) text := by
  obtain ⟨content, stage⟩ := q
  obtain ⟨carries, begun⟩ := follows
  obtain ⟨rfl, rfl, decoded⟩ := closed_at_quote stepped
  cases begun with
  | plain =>
    have spelled := encode_of_decode decoded
    rw [encode_eq_spell] at spelled
    have written := WritesString.quoted (carries [] text.toList (by simp) (by simpa using spelled))
    rwa [String.ofList_toList] at written

end Soundness

section Completeness

def more? (q : Quoted) (b : UInt8) : Option Quoted :=
  match q.step b with
  | .more next => some next
  | _ => none

theorem more_iff {q next : Quoted} {b : UInt8} : q.more? b = some next ↔ q.step b = .more next := by
  unfold more?
  split
  · rename_i found stepped
    simp [stepped]
  · rename_i other
    exact ⟨nofun, fun stepped => absurd stepped (other next)⟩

theorem plain_leads {octets : Bytes} (plain : ∀ b ∈ octets, IsPlain b) (content : Bytes) :
    octets.foldlM more? ⟨content, .plain⟩ = some ⟨octets.reverse ++ content, .plain⟩ := by
  induction octets generalizing content with
  | nil => rfl
  | cons b rest ih =>
    rw [List.forall_mem_cons] at plain
    obtain ⟨noQuote, noBackslash, visible⟩ := plain.1
    have taken : more? ⟨content, .plain⟩ b = some ⟨b :: content, .plain⟩ := by
      simp only [more?, step, if_neg noQuote, if_neg noBackslash, if_neg visible]
    rw [List.foldlM_cons, taken]
    simpa using ih plain.2 (b :: content)

theorem unit_leads {digits : Bytes} {value : Nat} (written : WritesUnit digits value) (content : Bytes)
    (high : Option Nat) {next : Quoted} (taken : unit content high value = .more next) :
    digits.foldlM more? ⟨content, .hex high []⟩ = some next := by
  cases written with
  | digits first second third fourth =>
    rename_i a b c d w x y z
    have known := (hex_value_iff a b c d _).mpr (.digits first second third fourth)
    simp [more?, step, known, taken]

theorem char_leads {octets : Bytes} {c : Char} (written : WritesChar octets c) (content : Bytes) :
    octets.foldlM more? ⟨content, .plain⟩ = some ⟨(String.utf8EncodeChar c).reverse ++ content, .plain⟩ := by
  cases written with
  | plain _ visible noQuote noBackslash =>
    exact plain_leads ((plain_char_iff c).mpr ⟨visible, noQuote, noBackslash⟩) content
  | short known =>
    obtain ⟨apart, plain, escaped, spelled⟩ := known_escaped known
    simp [more?, step, apart, escaped, spelled]
  | unit written noHigh noLow =>
    rename_i digits value
    unfold IsHighSurrogate at noHigh
    unfold IsLowSurrogate at noLow
    have taken : unit content none value = .more (push content value) := by
      simp only [unit, Bool.and_eq_true, decide_eq_true_eq]
      rw [if_neg noLow, if_neg noHigh]
    have begun : [0x5C, 0x75].foldlM more? ⟨content, .plain⟩ = some ⟨content, .hex none []⟩ := rfl
    rw [List.foldlM_append, begun]
    exact unit_leads written content none taken
  | pair first second isHigh isLow =>
    rename_i digits others high low
    unfold IsHighSurrogate at isHigh
    unfold IsLowSurrogate at isLow
    have halfTaken : unit content none high = .more ⟨content, .pairBackslash high⟩ := by
      have noLow : ¬(0xDC00 ≤ high ∧ high ≤ 0xDFFF) := by omega
      simp only [unit, Bool.and_eq_true, decide_eq_true_eq]
      rw [if_neg noLow, if_pos isHigh]
    have taken : unit content (some high) low =
        .more (push content (0x10000 + (high - 0xD800) * 0x400 + (low - 0xDC00))) := by
      simp only [unit, Bool.and_eq_true, decide_eq_true_eq]
      rw [if_pos isLow]
    have begun : [0x5C, 0x75].foldlM more? ⟨content, .plain⟩ = some ⟨content, .hex none []⟩ := rfl
    have middle : [0x5C, 0x75].foldlM more? ⟨content, .pairBackslash high⟩ = some ⟨content, .hex (some high) []⟩ := rfl
    have half := unit_leads first content none halfTaken
    have whole := unit_leads second content (some high) taken
    simp only [List.foldlM_append, begun, half, middle, whole, Option.bind_eq_bind, Option.bind_some, push]

theorem chars_lead {octets : Bytes} {chars : List Char} (written : WritesChars octets chars) (content : Bytes) :
    octets.foldlM more? ⟨content, .plain⟩ = some ⟨(spell chars).reverse ++ content, .plain⟩ := by
  induction written generalizing content with
  | nil => rfl
  | cons first _ ih =>
    rw [List.foldlM_append, char_leads first]
    simpa [spell] using ih _

theorem closing_quote (chars : List Char) :
    step ⟨(spell chars).reverse, .plain⟩ 0x22 = .closed (String.ofList chars) := by
  simp [step, close, decode_spell]

end Completeness

end Quoted

end ClientHints.Json
