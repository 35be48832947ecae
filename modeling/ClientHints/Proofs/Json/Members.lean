import ClientHints.Json.Value
import ClientHints.Proofs.Evidence.Writing

set_option autoImplicit false

namespace ClientHints.Json.Members

open Evidence (lookup_entry)

theorem get_entry (name key : String) (value : Json) (rest : Members) :
    Members.get? name ((key, value) :: rest) = if name = key then some value else rest.get? name :=
  lookup_entry name key value rest

theorem get_insert (name key : String) (value : Json) (members : Members) :
    (insert key value members).get? name = if name = key then some value else members.get? name := by
  induction members with
  | nil => exact get_entry name key value []
  | cons member rest ih =>
    obtain ⟨other, old⟩ := member
    unfold insert
    split
    · exact get_entry name key value _
    · split
      · rename_i same
        subst same
        rw [get_entry, get_entry]
        by_cases hit : name = key <;> simp [hit]
      · rename_i apart
        rw [get_entry, get_entry, ih]
        by_cases hit : name = other
        · simp [hit, Ne.symm apart]
        · simp [hit]

theorem get_filter (name : String) (keep : String → Bool) (members : Members) :
    Members.get? name (members.filter fun member => keep member.1) = if keep name then members.get? name else none := by
  induction members with
  | nil => simp [get?]
  | cons member rest ih =>
    obtain ⟨other, value⟩ := member
    by_cases hit : name = other
    · subst hit
      cases kept : keep name <;> simp [kept, get_entry, ih]
    · cases kept : keep other <;> simp [kept, get_entry, hit, ih]

def drop (names : List String) (members : Members) : Members :=
  members.filter fun member => !names.contains member.1

theorem get_drop (name : String) (names : List String) (members : Members) :
    (drop names members).get? name = if name ∈ names then none else members.get? name := by
  rw [drop, get_filter name (fun other => !names.contains other)]
  by_cases listed : name ∈ names <;> simp [listed]

end ClientHints.Json.Members
