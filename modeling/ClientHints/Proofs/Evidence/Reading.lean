import ClientHints.Proofs.Evidence.Writing
import Mathlib.Data.List.Induction

set_option autoImplicit false

namespace ClientHints.Evidence

section Order

theorem erase_dups_concat (keys : List String) (key : String) :
    (keys ++ [key]).eraseDups = if key ∈ keys then keys.eraseDups else keys.eraseDups ++ [key] := by
  rw [List.eraseDups_append]
  by_cases again : key ∈ keys <;> simp [List.removeAll, again, List.eraseDups_cons]

theorem erase_dups_of_nodup (keys : List String) (distinct : keys.Nodup) : keys.eraseDups = keys := by
  induction keys using List.reverseRecOn with
  | nil => rfl
  | append_singleton front last ih =>
    obtain ⟨frontDistinct, -, apart⟩ := List.nodup_append.mp distinct
    have new : last ∉ front := fun member => apart last member last (List.mem_singleton_self last) rfl
    rw [erase_dups_concat, if_neg new, ih frontDistinct]

theorem erase_dups_ordered (keys : List String) :
    keys.eraseDups.Pairwise fun a b => keys.idxOf a < keys.idxOf b := by
  induction keys using List.reverseRecOn with
  | nil => exact List.Pairwise.nil
  | append_singleton front last ih =>
    have kept (key : String) (member : key ∈ front.eraseDups) : (front ++ [last]).idxOf key = front.idxOf key :=
      List.idxOf_append_of_mem (List.mem_eraseDups.mp member)
    have earlier : front.eraseDups.Pairwise fun a b => (front ++ [last]).idxOf a < (front ++ [last]).idxOf b := by
      refine ih.imp_of_mem fun inA inB before => ?_
      rwa [kept _ inA, kept _ inB]
    rw [erase_dups_concat]
    split
    · exact earlier
    · rename_i new
      refine List.pairwise_append.mpr ⟨earlier, List.pairwise_singleton _ _, fun key member final isFinal => ?_⟩
      obtain rfl := List.mem_singleton.mp isFinal
      have place : (front ++ [final]).idxOf final = front.length := by simp [List.idxOf_append, new]
      rw [kept key member, place]
      exact List.idxOf_lt_length_of_mem (List.mem_eraseDups.mp member)

theorem extend_keys (e : Evidence) (entries : List (String × String)) (distinct : e.keys.Nodup) :
    (e.extend entries).keys = (e.keys ++ entries.map Prod.fst).eraseDups := by
  induction entries using List.reverseRecOn with
  | nil =>
    rw [List.map_nil, List.append_nil, erase_dups_of_nodup e.keys distinct]
    rfl
  | append_singleton front last ih =>
    rw [extend_append]
    change ((e.extend front).insert last.1 last.2).2.keys = _
    rw [insert_keys, ih, List.map_append, List.map_singleton, ← List.append_assoc, erase_dups_concat]
    simp only [List.mem_eraseDups]

end Order

section Writes

structure Remembers (e : Evidence) (writes : List (String × String)) : Prop where
  distinct : e.keys.Nodup
  written : ∀ key, key ∈ e.keys ↔ key ∈ writes.map Prod.fst
  ordered : e.keys.Pairwise fun a b => (writes.map Prod.fst).idxOf a < (writes.map Prod.fst).idxOf b
  latest : ∀ key value, e.get? key = some value ↔
    ∃ before after, writes = before ++ (key, value) :: after ∧ ∀ entry ∈ after, entry.1 ≠ key
  contained : ∀ key, e.contains key = true ↔ ∃ value, (key, value) ∈ writes

theorem of_list_keys (writes : List (String × String)) : (ofList writes).keys = (writes.map Prod.fst).eraseDups :=
  extend_keys empty writes List.nodup_nil

theorem get_of_list (writes : List (String × String)) (key : String) :
    (ofList writes).get? key = writes.reverse.lookup key :=
  (get_extend empty writes key).trans Option.or_none

theorem contains_iff (e : Evidence) (key : String) : e.contains key = true ↔ key ∈ e.keys := by
  rw [contains, get?, List.lookup_isSome_iff, keys, List.mem_map]
  constructor
  · rintro ⟨entry, member, hit⟩
    exact ⟨entry, member, (beq_iff_eq.mp hit).symm⟩
  · rintro ⟨entry, member, rfl⟩
    exact ⟨entry, member, beq_self_eq_true _⟩

theorem lookup_reverse_iff (writes : List (String × String)) (key value : String) :
    writes.reverse.lookup key = some value ↔
      ∃ before after, writes = before ++ (key, value) :: after ∧ ∀ entry ∈ after, entry.1 ≠ key := by
  rw [List.lookup_eq_some_iff]
  constructor
  · rintro ⟨after, before, same, apart⟩
    refine ⟨before.reverse, after.reverse, ?_, fun entry member => ?_⟩
    · rw [← List.reverse_reverse writes, same]
      simp
    · exact Ne.symm (bne_iff_ne.mp (apart entry (List.mem_reverse.mp member)))
  · rintro ⟨before, after, rfl, apart⟩
    refine ⟨after.reverse, before.reverse, by simp, fun entry member => ?_⟩
    exact bne_iff_ne.mpr (Ne.symm (apart entry (List.mem_reverse.mp member)))

theorem of_list_remembers (writes : List (String × String)) : (ofList writes).Remembers writes where
  distinct := extend_keys_nodup empty writes List.nodup_nil
  written key := by rw [of_list_keys, List.mem_eraseDups]
  ordered := by
    rw [of_list_keys]
    exact erase_dups_ordered _
  latest key value := by rw [get_of_list, lookup_reverse_iff]
  contained key := by
    rw [contains_iff, of_list_keys, List.mem_eraseDups, List.mem_map]
    constructor
    · rintro ⟨⟨_, value⟩, member, rfl⟩
      exact ⟨value, member⟩
    · rintro ⟨value, member⟩
      exact ⟨_, member, rfl⟩

end Writes

def Cursor.walk : Nat → Cursor → List (Option (String × String)) × Cursor
  | 0, c => ([], c)
  | times + 1, c =>
    let others := walk times c.next.2
    (c.next.1 :: others.1, others.2)

section Reads

structure ReadsAlike (e : Evidence) : Prop where
  returned : ∀ key value, (e.insert key value).1 = e.get? key
  inserted : ∀ key value, (e.insert key value).2.entries =
    if e.contains key then e.entries.map fun entry => if entry.1 = key then (key, value) else entry
    else e.entries ++ [(key, value)]
  listed : e.entries.unzip = (e.keys, e.values)
  walked : ∀ times, (e.cursor.walk times).1 =
    (e.entries.take times).map some ++ List.replicate (times - e.size) none
  bounded : ∀ times, (e.cursor.walk times).2.bounds = (e.size - times, some (e.size - times))
  collected : ofList e.entries = e
  compared : ∀ other, (e == other) = true ↔ e.entries = other.entries

theorem write_returns (key value : String) (entries : List (String × String)) :
    (write key value entries).1 = entries.lookup key := by
  induction entries with
  | nil => rfl
  | cons entry rest ih =>
    obtain ⟨other, old⟩ := entry
    by_cases same : other = key
    · simp [write, same]
    · simp [write, lookup_entry, same, Ne.symm same, ih]

theorem write_entries (key value : String) (entries : List (String × String)) (distinct : (entries.map Prod.fst).Nodup) :
    (write key value entries).2 =
      if key ∈ entries.map Prod.fst then entries.map fun entry => if entry.1 = key then (key, value) else entry
      else entries ++ [(key, value)] := by
  induction entries with
  | nil => rfl
  | cons entry rest ih =>
    obtain ⟨other, old⟩ := entry
    obtain ⟨absent, restDistinct⟩ := List.nodup_cons.mp distinct
    by_cases same : other = key
    · subst same
      -- No later entry has this key, and so none is changed.
      have others : (rest.map fun entry => if entry.1 = other then (other, value) else entry) = rest := by
        refine (List.map_congr_left fun entry member => if_neg fun hit => ?_).trans (List.map_id rest)
        exact absent (List.mem_map.mpr ⟨entry, member, hit⟩)
      simp [write, others]
    · simp only [write, if_neg same, ih restDistinct, List.map_cons, List.mem_cons, Ne.symm same, false_or]
      split <;> rfl

theorem insert_entries (e : Evidence) (key value : String) (distinct : e.keys.Nodup) :
    (e.insert key value).2.entries =
      if e.contains key then e.entries.map fun entry => if entry.1 = key then (key, value) else entry
      else e.entries ++ [(key, value)] := by
  simp only [contains_iff]
  exact write_entries key value e.entries distinct

theorem walk_given (times : Nat) (c : Cursor) : (c.walk times).1 =
    (c.rest.take times).map some ++ List.replicate (times - c.rest.length) none := by
  induction times generalizing c with
  | zero => simp [Cursor.walk]
  | succ times ih =>
    obtain ⟨_ | ⟨entry, rest⟩⟩ := c
    · simp [Cursor.walk, Cursor.next, ih, List.replicate_succ]
    · simp [Cursor.walk, Cursor.next, ih]

theorem walk_left (times : Nat) (c : Cursor) : (c.walk times).2.rest = c.rest.drop times := by
  induction times generalizing c with
  | zero => rfl
  | succ times ih =>
    obtain ⟨_ | ⟨entry, rest⟩⟩ := c
    · simp [Cursor.walk, Cursor.next, ih]
    · simp [Cursor.walk, Cursor.next, ih]

theorem lookup_reverse (entries : List (String × String)) (distinct : (entries.map Prod.fst).Nodup) (key : String) :
    entries.reverse.lookup key = entries.lookup key := by
  have reversed : (entries.reverse.map Prod.fst).Nodup := by
    rw [List.map_reverse]
    exact List.nodup_reverse.mpr distinct
  apply Option.ext
  intro value
  exact (mem_entries_iff ⟨entries.reverse⟩ key value reversed).symm.trans
    (List.mem_reverse.trans (mem_entries_iff ⟨entries⟩ key value distinct))

theorem of_list_entries (e : Evidence) (distinct : e.keys.Nodup) : ofList e.entries = e := by
  apply eq_of_keys_of_get
  · exact extend_keys_nodup empty e.entries List.nodup_nil
  · rw [of_list_keys]
    exact erase_dups_of_nodup e.keys distinct
  · intro key _
    rw [get_of_list, lookup_reverse e.entries distinct]
    rfl

theorem reads_alike (e : Evidence) (distinct : e.keys.Nodup) : e.ReadsAlike where
  returned key value := write_returns key value e.entries
  inserted key value := insert_entries e key value distinct
  listed := List.unzip_eq_map
  walked times := walk_given times e.cursor
  bounded times := by simp [Cursor.bounds, walk_left, cursor, size]
  collected := of_list_entries e distinct
  compared other := by
    rw [beq_iff_eq]
    exact ⟨congrArg entries, fun same => congrArg Evidence.mk same⟩

end Reads

end ClientHints.Evidence
