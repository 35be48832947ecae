import ClientHints.Hint
import ClientHints.Proofs.Evidence.Writing
import Mathlib.Data.List.Induction
import Mathlib.Data.List.Sort

/-!
Evidence that is written hint by hint. If no hint comes after a later one, the evidence is determined by
the value last written for each hint: it lists those values in the order of the table.
-/

set_option autoImplicit false

namespace ClientHints

namespace Hint

def rank (hint : Hint) : Nat :=
  all.idxOf hint

def Before (a b : Hint) : Prop := a.rank < b.rank

instance : Std.Irrefl Before := ⟨fun a => Nat.lt_irrefl a.rank⟩

instance : Std.Antisymm Before := ⟨fun _ _ less more => absurd less (Nat.lt_asymm more)⟩

theorem mem_all (hint : Hint) : hint ∈ all := by
  cases hint <;> decide

theorem all_ascending : all.Pairwise Before := by
  unfold Before
  decide

theorem all_nodup : all.Nodup := by
  decide

theorem eq_of_rank {a b : Hint} (same : a.rank = b.rank) : a = b :=
  (List.idxOf_inj a.mem_all).mp same

theorem eq_of_evidence_key {a b : Hint} (same : a.evidenceKey = b.evidenceKey) : a = b := by
  have distinct : (all.map evidenceKey).Nodup := by decide
  exact List.inj_on_of_nodup_map distinct a.mem_all b.mem_all same

theorem mem_map_evidence_key (hints : List Hint) (hint : Hint) :
    hint.evidenceKey ∈ hints.map evidenceKey ↔ hint ∈ hints :=
  List.mem_map_of_injective fun _ _ => eq_of_evidence_key

end Hint

namespace Evidence

def hintEntry (given : Hint × String) : String × String :=
  (given.1.evidenceKey, given.2)

def ofHints (said : Hint → Option String) : Evidence :=
  ⟨Hint.all.filterMap fun hint => (said hint).map fun value => (hint.evidenceKey, value)⟩

theorem of_hints_keys (said : Hint → Option String) :
    (ofHints said).keys = (Hint.all.filter fun hint => (said hint).isSome).map Hint.evidenceKey := by
  simp only [ofHints, keys]
  induction Hint.all with
  | nil => rfl
  | cons hint rest ih => cases found : said hint <;> simp [found, ih]

theorem of_hints_keys_nodup (said : Hint → Option String) : (ofHints said).keys.Nodup := by
  rw [of_hints_keys]
  exact (Hint.all_nodup.filter _).map fun _ _ => Hint.eq_of_evidence_key

theorem mem_of_hints (said : Hint → Option String) (hint : Hint) (value : String) :
    (hint.evidenceKey, value) ∈ (ofHints said).entries ↔ said hint = some value := by
  simp only [ofHints, List.mem_filterMap, Option.map_eq_some_iff, Prod.mk.injEq]
  constructor
  · rintro ⟨other, -, found, given, same, rfl⟩
    rw [← Hint.eq_of_evidence_key same, given]
  · intro given
    exact ⟨hint, hint.mem_all, value, given, rfl, rfl⟩

theorem get_of_hints (said : Hint → Option String) (hint : Hint) :
    (ofHints said).get? hint.evidenceKey = said hint := by
  apply Option.ext
  intro value
  rw [← mem_entries_iff _ _ _ (of_hints_keys_nodup said), mem_of_hints]

def without (hints : List Hint) (e : Evidence) : Evidence :=
  ⟨e.entries.filter fun entry => !(hints.map Hint.evidenceKey).contains entry.1⟩

theorem of_hints_without (hints : List Hint) (said : Hint → Option String) :
    (ofHints said).without hints = ofHints fun hint => if hint ∈ hints then none else said hint := by
  have listed (hint : Hint) : (hints.map Hint.evidenceKey).contains hint.evidenceKey = decide (hint ∈ hints) := by
    rw [Bool.eq_iff_iff, List.contains_iff_mem, Hint.mem_map_evidence_key, decide_eq_true_iff]
  unfold without ofHints
  congr 1
  induction Hint.all with
  | nil => rfl
  | cons hint rest ih =>
    cases found : said hint with
    | none => simpa only [List.filterMap_cons, found, Option.map_none, ite_self] using ih
    | some value =>
      simp only [List.filterMap_cons, found, Option.map_some, List.filter_cons, listed, ih]
      by_cases member : hint ∈ hints <;> simp [member]

theorem lookup_hint_entries (given : List (Hint × String)) (hint : Hint) :
    (given.map hintEntry).lookup hint.evidenceKey = given.lookup hint := by
  induction given with
  | nil => rfl
  | cons entry rest ih =>
    obtain ⟨other, value⟩ := entry
    simp only [List.map_cons, hintEntry, List.lookup_cons, ih]
    by_cases same : hint = other
    · simp [same]
    · have apart : hint.evidenceKey ≠ other.evidenceKey := fun keys => same (Hint.eq_of_evidence_key keys)
      rw [beq_eq_false_iff_ne.mpr same, beq_eq_false_iff_ne.mpr apart]

-- The induction is on what was written last: a hint that is written again keeps its place, and a new one
-- comes after all others because none of them is later in the table.
theorem extend_hints_keys (given : List (Hint × String))
    (ascending : (given.map Prod.fst).Pairwise fun a b => a.rank ≤ b.rank) :
    ∃ hints : List Hint, hints.Pairwise Hint.Before ∧ (∀ hint, hint ∈ hints ↔ hint ∈ given.map Prod.fst) ∧
      (empty.extend (given.map hintEntry)).keys = hints.map Hint.evidenceKey := by
  induction given using List.reverseRecOn with
  | nil => exact ⟨[], List.Pairwise.nil, by simp, rfl⟩
  | append_singleton earlier last ih =>
    rw [List.map_append, List.pairwise_append] at ascending
    obtain ⟨earlierAscending, -, between⟩ := ascending
    obtain ⟨hints, sorted, members, keys⟩ := ih earlierAscending
    have written : (empty.extend ((earlier ++ [last]).map hintEntry)).keys =
        if last.1 ∈ hints then hints.map Hint.evidenceKey
        else hints.map Hint.evidenceKey ++ [last.1.evidenceKey] := by
      rw [List.map_append, extend_append]
      change ((empty.extend (earlier.map hintEntry)).insert last.1.evidenceKey last.2).2.keys = _
      simp only [insert_keys, keys, Hint.mem_map_evidence_key]
    by_cases again : last.1 ∈ hints
    · refine ⟨hints, sorted, ?_, by rw [written, if_pos again]⟩
      intro hint
      have present : last.1 ∈ earlier.map Prod.fst := (members last.1).mp again
      simp only [members, List.map_append, List.mem_append, List.map_cons, List.map_nil, List.mem_singleton]
      exact ⟨Or.inl, fun either => either.elim id fun same => same ▸ present⟩
    · refine ⟨hints ++ [last.1], ?_, ?_, by rw [written, if_neg again, List.map_append]; rfl⟩
      · rw [List.pairwise_append]
        refine ⟨sorted, List.pairwise_singleton _ _, ?_⟩
        intro hint member final isFinal
        obtain rfl : final = last.1 := by simpa using isFinal
        have notAfter := between hint ((members hint).mp member) last.1 (by simp)
        have apart : hint.rank ≠ last.1.rank := fun same => again (Hint.eq_of_rank same ▸ member)
        exact Nat.lt_of_le_of_ne notAfter apart
      · intro hint
        simp [members]

theorem extend_hints (given : List (Hint × String))
    (ascending : (given.map Prod.fst).Pairwise fun a b => a.rank ≤ b.rank) :
    empty.extend (given.map hintEntry) = ofHints fun hint => given.reverse.lookup hint := by
  obtain ⟨hints, sorted, members, keys⟩ := extend_hints_keys given ascending
  have values (hint : Hint) : (empty.extend (given.map hintEntry)).get? hint.evidenceKey =
      given.reverse.lookup hint := by
    rw [get_extend, ← List.map_reverse, lookup_hint_entries]
    exact Option.or_none
  have sameHints : hints = Hint.all.filter fun hint => (given.reverse.lookup hint).isSome := by
    apply sorted.eq_of_mem_iff (Hint.all_ascending.filter _)
    intro hint
    simp [members, hint.mem_all, List.lookup_isSome_iff]
  apply eq_of_keys_of_get
  · exact extend_keys_nodup _ _ List.nodup_nil
  · rw [keys, of_hints_keys, sameHints]
  · intro key member
    rw [keys] at member
    obtain ⟨hint, -, rfl⟩ := List.mem_map.mp member
    rw [values, get_of_hints]

end Evidence

end ClientHints
