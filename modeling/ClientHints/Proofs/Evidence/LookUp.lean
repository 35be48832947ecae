import ClientHints.Proofs.Evidence.Hints
import ClientHints.Proofs.Evidence.Origin
import Mathlib.Data.List.Forall2

set_option autoImplicit false

namespace ClientHints

section Case

def IsCapitalOf (capital small : Char) : Prop :=
  0x41 ≤ capital.toNat ∧ capital.toNat ≤ 0x5A ∧ small.toNat = capital.toNat + 0x20

def SameLetter (c d : Char) : Prop :=
  c = d ∨ IsCapitalOf c d ∨ IsCapitalOf d c

def SameUpToCase (a b : String) : Prop :=
  List.Forall₂ SameLetter a.toList b.toList

theorem to_lower_nat (c : Char) :
    c.toLower.toNat = if 0x41 ≤ c.toNat ∧ c.toNat ≤ 0x5A then c.toNat + 0x20 else c.toNat := by
  by_cases capital : 0x41 ≤ c.toNat ∧ c.toNat ≤ 0x5A
  · have lowered : c.toLower.val = c.val + 0x20 := congrArg Char.val (dif_pos capital)
    have high : c.val.toNat ≤ 0x5A := capital.2
    have small : c.val.toNat + 0x20 < 2 ^ 32 := by omega
    change c.toLower.val.toNat = _
    rw [if_pos capital, lowered, UInt32.toNat_add]
    exact Nat.mod_eq_of_lt small
  · have kept : c.toLower = c := dif_neg capital
    rw [if_neg capital, kept]

theorem to_lower_iff (c d : Char) : c.toLower = d.toLower ↔ SameLetter c d := by
  rw [SameLetter, IsCapitalOf, IsCapitalOf, ← Char.toNat_inj, ← Char.toNat_inj, to_lower_nat, to_lower_nat]
  split_ifs <;> omega

theorem same_up_to_case_iff (a b : String) :
    SameUpToCase a b ↔ a.toList.map Char.toLower = b.toList.map Char.toLower := by
  have letters : SameLetter = fun c d => c.toLower = d.toLower := by
    funext c d
    exact propext (to_lower_iff c d).symm
  rw [SameUpToCase, letters, ← List.forall₂_eq_eq_eq, List.forall₂_map_left_iff, List.forall₂_map_right_iff]

end Case

namespace Hint

theorem same_header_iff (name header : String) : sameHeader header name = true ↔ SameUpToCase name header := by
  rw [same_up_to_case_iff, sameHeader, beq_iff_eq, eq_comm]

theorem eq_of_header {name : String} {a b : Hint} (first : SameUpToCase name a.headerName)
    (second : SameUpToCase name b.headerName) : a = b := by
  have lowered : (all.map fun hint => hint.headerName.toList.map Char.toLower).Nodup := by decide
  rw [same_up_to_case_iff] at first second
  exact List.inj_on_of_nodup_map lowered a.mem_all b.mem_all (first.symm.trans second)

-- The order in which the table is searched does not matter.
theorem find_header_iff {table : List Hint} (listed : ∀ hint, hint ∈ table) (name : String) (hint : Hint) :
    (table.find? fun hint => sameHeader hint.headerName name) = some hint ↔ SameUpToCase name hint.headerName := by
  rw [find_iff_of_unique listed, same_header_iff]
  intro a b first second
  exact eq_of_header ((same_header_iff _ _).mp first) ((same_header_iff _ _).mp second)

theorem of_header_name_iff (name : String) (hint : Hint) :
    ofHeaderName? name = some hint ↔ SameUpToCase name hint.headerName :=
  find_header_iff mem_all name hint

theorem header_names (hint : Hint) : Origin.header.Names hint.evidenceKey hint.headerName :=
  ⟨by cases hint <;> decide, rfl⟩

theorem of_evidence_key_names {key name : String} (named : Origin.header.Names key name) :
    ofEvidenceKey? key = ofHeaderName? name := by
  rw [ofEvidenceKey?, (Origin.field_iff _ _ _).mpr named]

theorem of_evidence_key_unmarked {key : String} (unmarked : ¬Origin.header.Marks key) : ofEvidenceKey? key = none := by
  rw [ofEvidenceKey?, (Origin.field_none_iff _ _).mpr unmarked]

theorem of_evidence_key_iff (key : String) (hint : Hint) :
    ofEvidenceKey? key = some hint ↔ ∃ name, key = "header." ++ name ∧ SameUpToCase name hint.headerName := by
  constructor
  · intro found
    by_cases marked : Origin.header.Marks key
    · obtain ⟨name, named⟩ := marked
      rw [of_evidence_key_names named, of_header_name_iff] at found
      exact ⟨name, named.2, found⟩
    · cases (of_evidence_key_unmarked marked).symm.trans found
  · rintro ⟨name, rfl, same⟩
    have filled : name ≠ "" := by
      rintro rfl
      have bare : SameUpToCase "" hint.headerName → False := by cases hint <;> exact nofun
      exact bare same
    have named : Origin.header.Names ("header." ++ name) name := ⟨filled, rfl⟩
    rw [of_evidence_key_names named, of_header_name_iff]
    exact same

theorem of_evidence_key_own (hint : Hint) : ofEvidenceKey? hint.evidenceKey = some hint := by
  have itself : SameUpToCase hint.headerName hint.headerName := (same_up_to_case_iff _ _).mpr rfl
  exact (of_evidence_key_iff _ _).mpr ⟨hint.headerName, rfl, itself⟩

theorem of_evidence_key_sliced (key : String) :
    (∃ name, Origin.ofKey? key = some .header ∧ Utf8.dropOctets? Origin.header.mark.utf8ByteSize key = some name ∧
        ofEvidenceKey? key = ofHeaderName? name) ∨
      Origin.ofKey? key ≠ some .header ∧ ofEvidenceKey? key = none := by
  by_cases marked : Origin.header.Marks key
  · obtain ⟨name, named⟩ := marked
    exact .inl ⟨name, (Origin.of_key_iff _ _).mpr ⟨name, named⟩, Origin.names_sliced named, of_evidence_key_names named⟩
  · exact .inr ⟨mt (Origin.of_key_iff _ _).mp marked, of_evidence_key_unmarked marked⟩

end Hint

end ClientHints
