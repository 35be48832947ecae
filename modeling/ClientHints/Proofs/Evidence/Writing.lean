import ClientHints.Evidence.Basic
import Mathlib.Data.List.Nodup

set_option autoImplicit false

namespace ClientHints.Evidence

theorem write_keys (key value : String) (entries : List (String × String)) :
    (write key value entries).2.map Prod.fst =
      if key ∈ entries.map Prod.fst then entries.map Prod.fst else entries.map Prod.fst ++ [key] := by
  induction entries with
  | nil => simp [write]
  | cons entry rest ih =>
    obtain ⟨other, old⟩ := entry
    by_cases same : other = key
    · simp [write, same]
    · simp only [write, if_neg same, List.map_cons, ih, List.mem_cons, Ne.symm same, false_or]
      split <;> rfl

theorem lookup_entry {κ α : Type} [DecidableEq κ] (query key : κ) (value : α) (rest : List (κ × α)) :
    ((key, value) :: rest).lookup query = if query = key then some value else rest.lookup query := by
  rw [List.lookup_cons]
  by_cases hit : query = key
  · simp [hit]
  · simp [hit, beq_eq_false_iff_ne.mpr hit]

theorem lookup_absent {κ α : Type} [DecidableEq κ] {key : κ} {entries : List (κ × α)}
    (absent : key ∉ entries.map Prod.fst) : entries.lookup key = none := by
  rw [List.lookup_eq_none_iff]
  intro entry member
  exact bne_iff_ne.mpr fun same => absent (List.mem_map.mpr ⟨entry, member, same.symm⟩)

theorem lookup_write (key value query : String) (entries : List (String × String)) :
    (write key value entries).2.lookup query =
      if query = key then some value else entries.lookup query := by
  induction entries with
  | nil => simp [write]
  | cons entry rest ih =>
    obtain ⟨other, old⟩ := entry
    by_cases same : other = key
    · by_cases hit : query = key <;> simp [write, lookup_entry, same, hit]
    · simp only [write, if_neg same, lookup_entry, ih]
      by_cases hit : query = key
      · simp [hit, Ne.symm same]
      · simp [hit]

theorem insert_keys (e : Evidence) (key value : String) :
    (e.insert key value).2.keys = if key ∈ e.keys then e.keys else e.keys ++ [key] :=
  write_keys key value e.entries

theorem get_insert (e : Evidence) (key value query : String) :
    (e.insert key value).2.get? query = if query = key then some value else e.get? query :=
  lookup_write key value query e.entries

theorem insert_keys_nodup (e : Evidence) (key value : String) (distinct : e.keys.Nodup) :
    (e.insert key value).2.keys.Nodup := by
  rw [insert_keys]
  split
  · exact distinct
  · rename_i absent
    simpa [List.nodup_append] using ⟨distinct, fun other member same => absent (same ▸ member)⟩

theorem extend_append (e : Evidence) (left right : List (String × String)) :
    e.extend (left ++ right) = (e.extend left).extend right := by
  simp only [extend, List.foldl_append]

theorem get_extend (e : Evidence) (entries : List (String × String)) (query : String) :
    (e.extend entries).get? query = (entries.reverse.lookup query).or (e.get? query) := by
  induction entries generalizing e with
  | nil => rfl
  | cons entry rest ih =>
    obtain ⟨key, value⟩ := entry
    change ((e.insert key value).2.extend rest).get? query = _
    rw [ih, get_insert, List.reverse_cons, List.lookup_append, lookup_entry]
    by_cases hit : query = key <;> simp [hit]

theorem extend_keys_nodup (e : Evidence) (entries : List (String × String)) (distinct : e.keys.Nodup) :
    (e.extend entries).keys.Nodup := by
  induction entries generalizing e with
  | nil => exact distinct
  | cons entry rest ih => exact ih _ (insert_keys_nodup e entry.1 entry.2 distinct)

theorem mem_lookup_iff {κ α : Type} [DecidableEq κ] {entries : List (κ × α)} (distinct : (entries.map Prod.fst).Nodup)
    (key : κ) (value : α) : (key, value) ∈ entries ↔ entries.lookup key = some value := by
  induction entries with
  | nil => simp
  | cons entry rest ih =>
    obtain ⟨other, old⟩ := entry
    obtain ⟨absent, restDistinct⟩ := List.nodup_cons.mp distinct
    rw [List.mem_cons, lookup_entry, ih restDistinct, Prod.mk.injEq]
    by_cases hit : key = other
    · subst hit
      have missing := lookup_absent absent
      simp [missing, eq_comm]
    · simp [hit]

theorem mem_entries_iff (e : Evidence) (key value : String) (distinct : e.keys.Nodup) :
    (key, value) ∈ e.entries ↔ e.get? key = some value :=
  mem_lookup_iff distinct key value

theorem eq_of_keys_of_get (e f : Evidence) (distinct : e.keys.Nodup) (keys : e.keys = f.keys)
    (same : ∀ key ∈ e.keys, e.get? key = f.get? key) : e = f := by
  obtain ⟨left⟩ := e
  obtain ⟨right⟩ := f
  simp only [Evidence.keys, get?] at distinct keys same
  congr 1
  induction left generalizing right with
  | nil => exact (List.map_eq_nil_iff.mp keys.symm).symm
  | cons entry rest ih =>
    cases right with
    | nil => cases keys
    | cons other others =>
      obtain ⟨key, value⟩ := entry
      obtain ⟨otherKey, otherValue⟩ := other
      obtain ⟨rfl, restKeys⟩ := List.cons.inj keys
      obtain ⟨absent, restDistinct⟩ := List.nodup_cons.mp distinct
      have values : value = otherValue := by simpa using same key (by simp)
      have below : rest = others := by
        apply ih restDistinct others restKeys
        intro query member
        have apart : query ≠ key := fun hit => absent (hit ▸ member)
        simpa [lookup_entry, apart] using same query (by simp [member])
      rw [values, below]

end ClientHints.Evidence
