import ClientHints.Proofs.Json.Grammar
import ClientHints.Proofs.Json.Members
import Mathlib.Data.List.Induction
import Mathlib.Data.String.Basic

set_option autoImplicit false

namespace ClientHints.Json

namespace Members

def Ordered (members : Members) : Prop :=
  members.Pairwise fun earlier later => earlier.1 < later.1

theorem insert_keys {key : String} {value : Json} {members : Members} {member : String × Json}
    (inserted : member ∈ insert key value members) : member.1 = key ∨ member ∈ members := by
  induction members with
  | nil =>
    obtain rfl := List.mem_singleton.mp inserted
    exact .inl rfl
  | cons head rest ih =>
    obtain ⟨other, old⟩ := head
    unfold insert at inserted
    split at inserted
    · obtain rfl | inside := List.mem_cons.mp inserted
      · exact .inl rfl
      · exact .inr inside
    · split at inserted
      · obtain rfl | inside := List.mem_cons.mp inserted
        · exact .inl rfl
        · exact .inr (List.mem_cons_of_mem _ inside)
      · obtain rfl | inside := List.mem_cons.mp inserted
        · exact .inr List.mem_cons_self
        · exact (ih inside).imp_right (List.mem_cons_of_mem _)

theorem insert_ordered (key : String) (value : Json) {members : Members} (ordered : members.Ordered) :
    (insert key value members).Ordered := by
  induction members with
  | nil => exact List.pairwise_singleton _ _
  | cons head rest ih =>
    obtain ⟨other, old⟩ := head
    obtain ⟨above, inner⟩ := List.pairwise_cons.mp ordered
    unfold insert
    split
    · rename_i less
      refine List.pairwise_cons.mpr ⟨fun member inside => ?_, ordered⟩
      obtain rfl | inside := List.mem_cons.mp inside
      · exact less
      · exact lt_trans less (above member inside)
    · rename_i notLess
      split
      · rename_i same
        subst same
        exact List.pairwise_cons.mpr ⟨above, inner⟩
      · rename_i apart
        refine List.pairwise_cons.mpr ⟨fun member inside => ?_, ih inner⟩
        obtain same | inside := insert_keys inside
        · exact same ▸ lt_of_le_of_ne (not_lt.mp notLess) (Ne.symm apart)
        · exact above member inside

theorem of_list_append (members : Members) (key : String) (value : Json) :
    ofList (members ++ [(key, value)]) = insert key value (ofList members) := by
  rw [ofList, List.foldl_append]
  rfl

theorem of_list_ordered (members : Members) : (ofList members).Ordered := by
  induction members using List.reverseRecOn with
  | nil => exact List.Pairwise.nil
  | append_singleton front member ih =>
    rw [of_list_append]
    exact insert_ordered member.1 member.2 ih

theorem insert_perm {key : String} (value : Json) {members : Members} (absent : key ∉ members.keys) :
    (insert key value members).Perm ((key, value) :: members) := by
  induction members with
  | nil => exact .refl _
  | cons head rest ih =>
    obtain ⟨other, old⟩ := head
    obtain ⟨apart, below⟩ := not_or.mp (List.mem_cons.not.mp absent)
    unfold insert
    split
    · exact .refl _
    · exact ((ih below).cons (other, old)).trans (.swap (key, value) (other, old) rest)

theorem of_list_perm {members : Members} (distinct : members.keys.Nodup) : (ofList members).Perm members := by
  induction members using List.reverseRecOn with
  | nil => exact .refl _
  | append_singleton front member ih =>
    rw [keys, List.map_append, List.nodup_append] at distinct
    obtain ⟨inner, -, apart⟩ := distinct
    have kept := ih inner
    have absent : member.1 ∉ (ofList front).keys := fun inside =>
      apart _ ((kept.map Prod.fst).mem_iff.mp inside) _ List.mem_cons_self rfl
    rw [of_list_append front member.1 member.2]
    exact (insert_perm member.2 absent).trans ((kept.cons member).trans (List.perm_append_singleton member front).symm)

theorem get_of_list (members : Members) (key : String) : (ofList members).get? key = members.reverse.lookup key := by
  induction members using List.reverseRecOn with
  | nil => rfl
  | append_singleton front member ih =>
    obtain ⟨other, value⟩ := member
    rw [of_list_append, get_insert, ih, List.reverse_append]
    exact (get_entry key other value front.reverse).symm

theorem lookup_above {members : Members} {key : String} (above : ∀ member ∈ members, key < member.1) :
    members.get? key = none := by
  induction members with
  | nil => rfl
  | cons member rest ih =>
    rw [List.forall_mem_cons] at above
    rw [get_entry, if_neg (ne_of_lt above.1)]
    exact ih above.2

theorem eq_of_lookups {left right : Members} (leftOrdered : left.Ordered) (rightOrdered : right.Ordered)
    (same : ∀ key, left.get? key = right.get? key) : left = right := by
  induction left generalizing right with
  | nil =>
    cases right with
    | nil => rfl
    | cons member rest =>
      have found := same member.1
      rw [get_entry, if_pos rfl] at found
      cases found
  | cons first left ih =>
    cases right with
    | nil =>
      have found := same first.1
      rw [get_entry, if_pos rfl] at found
      cases found
    | cons second right =>
      obtain ⟨key, value⟩ := first
      obtain ⟨other, old⟩ := second
      obtain ⟨leftAbove, leftInner⟩ := List.pairwise_cons.mp leftOrdered
      obtain ⟨rightAbove, rightInner⟩ := List.pairwise_cons.mp rightOrdered
      obtain less | rfl | more := lt_trichotomy key other
      · have found := same key
        rw [get_entry, if_pos rfl, get_entry, if_neg (ne_of_lt less),
          lookup_above fun member inside => lt_trans less (rightAbove member inside)] at found
        cases found
      · have values := same key
        rw [get_entry, if_pos rfl, get_entry, if_pos rfl] at values
        obtain rfl := Option.some.inj values
        have others : left = right := ih leftInner rightInner fun name => by
          by_cases hit : name = key
          · rw [hit, lookup_above leftAbove, lookup_above rightAbove]
          · have found := same name
            rwa [get_entry, if_neg hit, get_entry, if_neg hit] at found
        rw [others]
      · have found := same other
        rw [get_entry, if_neg (ne_of_lt more), get_entry, if_pos rfl,
          lookup_above fun member inside => lt_trans more (leftAbove member inside)] at found
        cases found

theorem is_latest_iff (written members : Members) : IsLatest written members ↔ members = ofList written := by
  constructor
  · rintro ⟨ordered, latest⟩
    exact eq_of_lookups ordered (of_list_ordered written) fun key => (latest key).trans (get_of_list written key).symm
  · rintro rfl
    exact ⟨of_list_ordered written, get_of_list written⟩

end Members

theorem depth_of_items_append (front back : List Json) :
    depthOfItems (front ++ back) = max (depthOfItems front) (depthOfItems back) := by
  induction front with
  | nil => simp [depthOfItems]
  | cons item rest ih => simp [depthOfItems, ih, Nat.max_assoc]

theorem depth_of_members_append (front back : List (String × Json)) :
    depthOfMembers (front ++ back) = max (depthOfMembers front) (depthOfMembers back) := by
  induction front with
  | nil => simp [depthOfMembers]
  | cons member rest ih => simp [depthOfMembers, ih, Nat.max_assoc]

theorem settles_items_append {front back frontItems backItems : List Json} (first : SettlesItems front frontItems)
    (second : SettlesItems back backItems) : SettlesItems (front ++ back) (frontItems ++ backItems) := by
  induction front generalizing frontItems with
  | nil =>
    cases first
    exact second
  | cons written rest ih =>
    cases first with
    | cons head tail => exact .cons head (ih tail)

theorem settles_members_append {front back frontMembers backMembers : List (String × Json)}
    (first : SettlesMembers front frontMembers) (second : SettlesMembers back backMembers) :
    SettlesMembers (front ++ back) (frontMembers ++ backMembers) := by
  induction front generalizing frontMembers with
  | nil =>
    cases first
    exact second
  | cons written rest ih =>
    cases first with
    | cons head tail => exact .cons head (ih tail)

theorem settles_items_last {front items : List Json} {written : Json} (each : SettlesItems (front ++ [written]) items) :
    ∃ others value, items = others ++ [value] ∧ SettlesItems front others ∧ Settles written value := by
  induction front generalizing items with
  | nil =>
    cases each with
    | cons first rest =>
      cases rest
      exact ⟨[], _, rfl, .nil, first⟩
  | cons head front ih =>
    cases each with
    | cons first rest =>
      obtain ⟨others, value, rfl, inner, last⟩ := ih rest
      exact ⟨_ :: others, value, rfl, .cons first inner, last⟩

theorem settles_members_last {front members : List (String × Json)} {written : String × Json}
    (each : SettlesMembers (front ++ [written]) members) :
    ∃ others value, members = others ++ [(written.1, value)] ∧ SettlesMembers front others ∧ Settles written.2 value := by
  induction front generalizing members with
  | nil =>
    cases each with
    | cons first rest =>
      cases rest
      exact ⟨[], _, rfl, .nil, first⟩
  | cons head front ih =>
    cases each with
    | cons first rest =>
      obtain ⟨others, value, rfl, inner, last⟩ := ih rest
      exact ⟨_ :: others, value, rfl, .cons first inner, last⟩

mutual

theorem settles_total : (written : Json) → ∃ value, Settles written value
  | .null => ⟨.null, .null⟩
  | .bool value => ⟨.bool value, .bool value⟩
  | .number value => ⟨.number value, .number value⟩
  | .string value => ⟨.string value, .string value⟩
  | .array written => by
    obtain ⟨items, each⟩ := settles_items_total written
    exact ⟨.array items, .array each⟩
  | .object written => by
    obtain ⟨settled, each⟩ := settles_members_total written
    exact ⟨.object (Members.ofList settled), .object each ((Members.is_latest_iff settled _).mpr rfl)⟩

theorem settles_items_total : (written : List Json) → ∃ items, SettlesItems written items
  | [] => ⟨[], .nil⟩
  | written :: others => by
    obtain ⟨value, first⟩ := settles_total written
    obtain ⟨items, rest⟩ := settles_items_total others
    exact ⟨value :: items, .cons first rest⟩

theorem settles_members_total : (written : List (String × Json)) → ∃ members, SettlesMembers written members
  | [] => ⟨[], .nil⟩
  | (key, written) :: others => by
    obtain ⟨value, first⟩ := settles_total written
    obtain ⟨members, rest⟩ := settles_members_total others
    exact ⟨(key, value) :: members, .cons first rest⟩

end

end ClientHints.Json
