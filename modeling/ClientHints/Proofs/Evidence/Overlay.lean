import ClientHints.Proofs.Evidence.Hints
import ClientHints.Proofs.Evidence.Reading

set_option autoImplicit false

namespace ClientHints.Evidence

theorem erase_dups_append_erase_dups (left right : List String) :
    (left ++ right.eraseDups).eraseDups = (left ++ right).eraseDups := by
  induction right using List.reverseRecOn with
  | nil => rfl
  | append_singleton front last ih =>
    rw [erase_dups_concat, ← List.append_assoc, erase_dups_concat]
    by_cases again : last ∈ front
    · rw [if_pos again, if_pos (List.mem_append_right left again), ih]
    · rw [if_neg again, ← List.append_assoc, erase_dups_concat, ih]
      simp only [List.mem_append, List.mem_eraseDups]

theorem extend_of_list (m : Evidence) (writes : List (String × String)) (distinct : m.keys.Nodup) :
    m.extend (ofList writes).entries = m.extend writes := by
  have lasting : (ofList writes).keys.Nodup := extend_keys_nodup empty writes List.nodup_nil
  apply eq_of_keys_of_get
  · exact extend_keys_nodup m _ distinct
  · have keys : (ofList writes).entries.map Prod.fst = (writes.map Prod.fst).eraseDups := of_list_keys writes
    rw [extend_keys m _ distinct, extend_keys m _ distinct, keys, erase_dups_append_erase_dups]
  · intro key _
    have latest : (ofList writes).entries.lookup key = writes.reverse.lookup key := get_of_list writes key
    rw [get_extend, get_extend, lookup_reverse _ lasting, latest]

theorem contains_insert (e : Evidence) (key value query : String) :
    (e.insert key value).2.contains query = (decide (query = key) || e.contains query) := by
  rw [contains, get_insert]
  by_cases hit : query = key
  · simp [hit]
  · simp [hit, contains]

theorem extend_entries (m : Evidence) (entries : List (String × String)) (distinct : m.keys.Nodup)
    (apart : (entries.map Prod.fst).Nodup) : (m.extend entries).entries =
      m.entries.map (fun entry => (entry.1, (entries.lookup entry.1).getD entry.2)) ++
        entries.filter fun entry => !m.contains entry.1 := by
  induction entries generalizing m with
  | nil => simp [extend]
  | cons entry rest ih =>
    obtain ⟨key, value⟩ := entry
    obtain ⟨absent, restApart⟩ := List.nodup_cons.mp apart
    have missing := lookup_absent absent
    have others : (rest.filter fun entry => !(m.insert key value).2.contains entry.1) =
        rest.filter fun entry => !m.contains entry.1 := by
      refine List.filter_congr fun entry member => ?_
      have other : entry.1 ≠ key := fun same => absent (List.mem_map.mpr ⟨entry, member, same⟩)
      simp [contains_insert, other]
    change ((m.insert key value).2.extend rest).entries = _
    rw [ih _ (insert_keys_nodup m key value distinct) restApart, insert_entries m key value distinct, others]
    by_cases present : m.contains key = true
    · rw [if_pos present, List.map_map, List.filter_cons_of_neg (by simp [present])]
      congr 1
      refine List.map_congr_left fun entry _ => ?_
      by_cases hit : entry.1 = key <;> simp [hit, missing, lookup_entry]
    · rw [if_neg present, List.filter_cons_of_pos (by simpa using present), List.map_append, List.append_assoc]
      have kept : (m.entries.map fun entry => (entry.1, (rest.lookup entry.1).getD entry.2)) =
          m.entries.map fun entry => (entry.1, (((key, value) :: rest).lookup entry.1).getD entry.2) := by
        refine List.map_congr_left fun entry member => ?_
        have other : entry.1 ≠ key := fun same =>
          present ((contains_iff m key).mpr (List.mem_map.mpr ⟨entry, member, same⟩))
        simp [lookup_entry, other]
      rw [kept]
      simp [missing]

structure Overlaid (m e result : Evidence) : Prop where
  others : ∀ (i : Nat) (key value : String), (∀ hint : Hint, hint.evidenceKey ≠ key) →
    m.entries[i]? = some (key, value) → result.entries[i]? = some (key, value)
  hints : ∀ (i : Nat) (hint : Hint) (value : String), m.entries[i]? = some (hint.evidenceKey, value) →
    result.entries[i]? = some (hint.evidenceKey, (e.get? hint.evidenceKey).getD value)
  appended : result.entries.drop m.size = Hint.all.filterMap fun hint =>
    if m.contains hint.evidenceKey then none else (e.get? hint.evidenceKey).map fun value => (hint.evidenceKey, value)

theorem get_of_hints_none (said : Hint → Option String) (key : String) (other : ∀ hint : Hint, hint.evidenceKey ≠ key) :
    (ofHints said).get? key = none := by
  have absent : ¬(ofHints said).contains key = true := by
    rw [contains_iff, of_hints_keys]
    intro member
    obtain ⟨hint, -, same⟩ := List.mem_map.mp member
    exact other hint same
  simpa [contains] using absent

theorem overlaid_of_hints (m : Evidence) (said : Hint → Option String) (distinct : m.keys.Nodup) :
    Overlaid m (ofHints said) (m.extend (ofHints said).entries) := by
  have entries := extend_entries m (ofHints said).entries distinct (of_hints_keys_nodup said)
  have kept (i : Nat) (key value : String) (stood : m.entries[i]? = some (key, value)) :
      (m.extend (ofHints said).entries).entries[i]? = some (key, ((ofHints said).get? key).getD value) := by
    have inside : i < m.entries.length := (List.getElem?_eq_some_iff.mp stood).1
    rw [entries, List.getElem?_append_left (by simpa using inside), List.getElem?_map, stood]
    rfl
  constructor
  case others =>
    intro i key value other stood
    rw [kept i key value stood, get_of_hints_none said key other]
    rfl
  case hints => exact fun i hint value stood => kept i hint.evidenceKey value stood
  case appended =>
    have before : m.size = (m.entries.map fun entry =>
        (entry.1, ((ofHints said).entries.lookup entry.1).getD entry.2)).length := by simp [size]
    rw [entries, before, List.drop_left]
    refine List.filter_filterMap.trans (List.filterMap_congr fun hint _ => ?_)
    rw [get_of_hints]
    cases said hint with
    | none => simp
    | some value => cases present : m.contains hint.evidenceKey <;> simp [present]

end ClientHints.Evidence
