import ClientHints.Proofs.Converter.Result
import ClientHints.Proofs.Evidence.LookUp
import ClientHints.Proofs.Schema.Profile

set_option autoImplicit false

namespace ClientHints

namespace Evidence

theorem of_hints_given (said : Hint → Option String) :
    ∃ given : List (Hint × String), (ofHints said).entries = given.map hintEntry := by
  refine ⟨Hint.all.filterMap fun hint => (said hint).map fun value => (hint, value), ?_⟩
  simp only [ofHints, List.map_filterMap, Option.map_map]
  rfl

variable (given : List (Hint × String))

theorem fields_header : (Evidence.mk (given.map hintEntry)).fields .header =
    given.map fun entry => (entry.1.headerName, entry.2) := by
  have field (hint : Hint) : Origin.header.field? hint.evidenceKey = some hint.headerName :=
    (Origin.field_iff _ _ _).mpr hint.header_names
  unfold fields
  rw [List.filterMap_map, ← List.filterMap_eq_map]
  congr 1
  funext entry
  simp only [Function.comp_apply, hintEntry, field, Option.map_some]

theorem fields_other {origin : Origin} (other : origin ≠ .header) :
    (Evidence.mk (given.map hintEntry)).fields origin = [] := by
  rw [List.eq_nil_iff_forall_not_mem]
  intro entry inside
  obtain ⟨filled, member⟩ := (mem_fields _ _ _).mp inside
  obtain ⟨⟨hint, value⟩, -, same⟩ := List.mem_map.mp member
  obtain ⟨key, -⟩ := Prod.mk.inj same
  exact other (Origin.names_origin ⟨filled, rfl⟩ (key ▸ hint.header_names))

end Evidence

namespace Converter

variable {c : Converter} {format : Format} {input : String} {m : Evidence}

theorem convert_gives (accepted : c.convert format input = .ok m) :
    ∃ given : List (Hint × String), m.entries = given.map Evidence.hintEntry := by
  obtain ⟨root, -, recorded⟩ := (convert_ok_iff c format input m).mp accepted
  obtain ⟨_, p, -, -, rfl⟩ := (Schema.record_ok_iff format root m).mp recorded
  exact Evidence.of_hints_given p.header

theorem origins_divide_evidence :
    (∀ e : Evidence, e.keys.Nodup → e.Divided) ∧
    ∀ (c : Converter) (format : Format) (input : String) (m : Evidence), c.convert format input = .ok m →
      ∃ given : List (Hint × String), m.entries = given.map (fun entry => (entry.1.evidenceKey, entry.2)) ∧
        m.fields .header = given.map (fun entry => (entry.1.headerName, entry.2)) ∧
        ∀ origin, origin ≠ .header → m.fields origin = [] := by
  constructor
  · intro e distinct
    exact Evidence.divided distinct
  · intro c format input m accepted
    obtain ⟨given, entries⟩ := convert_gives accepted
    obtain rfl : m = ⟨given.map Evidence.hintEntry⟩ := congrArg Evidence.mk entries
    exact ⟨given, rfl, Evidence.fields_header given, fun origin => Evidence.fields_other given⟩

def mixedEvidence : Evidence := ⟨[
  ("header.\u00e9", "1"),
  ("query.", "2"),
  ("Header.a", "3"),
  ("cookie.header.a", "4")]⟩

def mobileEvidence : Evidence := ⟨[("header.sec-ch-ua-mobile", "?1")]⟩

theorem mixed_evidence_is_divided :
    mixedEvidence.keys.Nodup ∧ mixedEvidence.Divided ∧
      standard.convert .ghev "\x7b\"mobile\":true\x7d" = .ok mobileEvidence ∧
      ∀ origin, origin ≠ .header → mobileEvidence.fields origin = [] := by
  have distinct : mixedEvidence.keys.Nodup := by decide
  have accepted : standard.convert .ghev "\x7b\"mobile\":true\x7d" = .ok mobileEvidence := rfl
  obtain ⟨_, -, -, others⟩ := origins_divide_evidence.2 _ _ _ _ accepted
  exact ⟨distinct, origins_divide_evidence.1 mixedEvidence distinct, accepted, others⟩

theorem look_up_inverts_table :
    (∀ name hint, Hint.ofHeaderName? name = some hint ↔ SameUpToCase name hint.headerName) ∧
    (∀ key hint, Hint.ofEvidenceKey? key = some hint ↔
      ∃ name, key = "header." ++ name ∧ SameUpToCase name hint.headerName) ∧
    (∀ (name : String) (a b : Hint), SameUpToCase name a.headerName → SameUpToCase name b.headerName → a = b) ∧
    (∀ table : List Hint, (∀ hint, hint ∈ table) → ∀ name,
      (table.find? fun hint => Hint.sameHeader hint.headerName name) = Hint.ofHeaderName? name) ∧
    (∀ hint : Hint, Hint.ofEvidenceKey? hint.evidenceKey = some hint) ∧
    (∀ (c : Converter) (format : Format) (input : String) (m : Evidence), c.convert format input = .ok m →
      ∀ key ∈ m.keys, ∃ hint, Hint.ofEvidenceKey? key = some hint ∧ hint.evidenceKey = key) ∧
    (∀ hint : Hint, Utf8.dropOctets? Origin.header.mark.utf8ByteSize hint.evidenceKey = some hint.headerName) ∧
    ∀ key, (∃ name, Origin.ofKey? key = some .header ∧
        Utf8.dropOctets? Origin.header.mark.utf8ByteSize key = some name ∧
        Hint.ofEvidenceKey? key = Hint.ofHeaderName? name) ∨
      Origin.ofKey? key ≠ some .header ∧ Hint.ofEvidenceKey? key = none := by
  refine ⟨Hint.of_header_name_iff, Hint.of_evidence_key_iff, fun _ _ _ => Hint.eq_of_header, ?_,
    Hint.of_evidence_key_own, ?_, fun hint => Origin.names_sliced hint.header_names, Hint.of_evidence_key_sliced⟩
  · intro table listed name
    apply Option.ext
    intro hint
    rw [Hint.find_header_iff listed, Hint.of_header_name_iff]
  · intro c format input m accepted key member
    obtain ⟨given, entries⟩ := convert_gives accepted
    rw [Evidence.keys, entries, List.map_map] at member
    obtain ⟨⟨hint, _⟩, -, rfl⟩ := List.mem_map.mp member
    exact ⟨hint, Hint.of_evidence_key_own hint, rfl⟩

theorem mobile_is_looked_up :
    standard.convert .ghev "\x7b\"mobile\":true\x7d" = .ok mobileEvidence ∧
      (∃ hint, Hint.ofEvidenceKey? "header.sec-ch-ua-mobile" = some hint ∧
        hint.evidenceKey = "header.sec-ch-ua-mobile") ∧
      Hint.ofEvidenceKey? "header.Sec-CH-UA-Mobile" = some .mobile ∧ Hint.ofHeaderName? "sec-ch-ua\u00e9" = none := by
  have accepted : standard.convert .ghev "\x7b\"mobile\":true\x7d" = .ok mobileEvidence := rfl
  obtain ⟨_, _, _, _, _, found, _⟩ := look_up_inverts_table
  exact ⟨accepted, found _ _ _ _ accepted _ List.mem_cons_self, by decide, by decide⟩

end Converter

end ClientHints
