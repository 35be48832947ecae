import ClientHints.Proofs.Json.Settled

set_option autoImplicit false

namespace ClientHints.Json

mutual

-- A writing without the members that a later member of the same object with the same key replaces.
def pruned : Json → Json
  | .array items => .array (prunedItems items)
  | .object members => .object (prunedMembers members)
  | scalar => scalar

def prunedItems : List Json → List Json
  | [] => []
  | item :: rest => item.pruned :: prunedItems rest

def prunedMembers : List (String × Json) → List (String × Json)
  | [] => []
  | (key, value) :: rest =>
    if key ∈ rest.map Prod.fst then prunedMembers rest else (key, value.pruned) :: prunedMembers rest

end

section Depth

namespace Members

theorem depth_le_iff {members : Members} (ordered : members.Ordered) (bound : Nat) :
    depthOfMembers members ≤ bound ↔ ∀ key value, members.get? key = some value → value.depth ≤ bound := by
  induction members with
  | nil => simp [depthOfMembers, get?]
  | cons member rest ih =>
    obtain ⟨key, value⟩ := member
    obtain ⟨above, inner⟩ := List.pairwise_cons.mp ordered
    rw [depthOfMembers, max_le_iff, ih inner]
    constructor
    · rintro ⟨here, later⟩ query found known
      rw [get_entry] at known
      split at known
      · cases known
        exact here
      · exact later query found known
    · intro bounded
      refine ⟨bounded key value (by rw [get_entry, if_pos rfl]), fun query found known => bounded query found ?_⟩
      have apart : query ≠ key := by
        rintro rfl
        rw [lookup_above above] at known
        cases known
      rw [get_entry, if_neg apart, known]

theorem latest_none_iff (key : String) (members : Members) :
    members.reverse.lookup key = none ↔ key ∉ members.map Prod.fst := by
  rw [List.lookup_eq_none_iff]
  simp only [List.mem_reverse, bne_iff_ne, List.mem_map, not_exists, not_and, ne_comm]

theorem forall_latest_iff (key : String) (value : Json) (later : Members) (P : Json → Prop) :
    (∀ query found, ((key, value) :: later).reverse.lookup query = some found → P found) ↔
      (key ∉ later.map Prod.fst → P value) ∧ ∀ query found, later.reverse.lookup query = some found → P found := by
  have entry (query : String) : ((key, value) :: later).reverse.lookup query =
      (later.reverse.lookup query).or (if query = key then some value else none) := by
    rw [List.reverse_cons, List.lookup_append]
    exact congrArg _ (get_entry query key value [])
  constructor
  · intro bounded
    constructor
    · intro absent
      have none := (latest_none_iff key later).mpr absent
      exact bounded key value (by rw [entry, none, if_pos rfl]; rfl)
    · intro query found known
      exact bounded query found (by rw [entry, known]; rfl)
  · rintro ⟨here, others⟩ query found known
    rw [entry] at known
    cases replaced : later.reverse.lookup query with
    | some last =>
      rw [replaced] at known
      exact others query found (replaced.trans known)
    | none =>
      rw [replaced, Option.none_or] at known
      split at known
      · rename_i same
        cases known
        exact here ((latest_none_iff key later).mp (same ▸ replaced))
      · cases known

end Members

theorem settles_keys {written settled : List (String × Json)} (each : SettlesMembers written settled) :
    written.map Prod.fst = settled.map Prod.fst := by
  induction written generalizing settled with
  | nil =>
    cases each
    rfl
  | cons member rest ih =>
    cases each with
    | cons _ others => rw [List.map_cons, List.map_cons, ih others]

mutual

theorem settles_depth : {written value : Json} → Settles written value → value.depth = written.pruned.depth
  | _, _, .null => rfl
  | _, _, .bool _ => rfl
  | _, _, .number _ => rfl
  | _, _, .string _ => rfl
  | _, _, .array each => congrArg (1 + ·) (settles_items_depth each)
  | _, _, .object each latest => by
    refine congrArg (1 + ·) (eq_of_forall_ge_iff fun bound => ?_)
    rw [Members.depth_le_iff latest.ordered, settles_members_depth each bound]
    simp only [Members.get?, latest.latest]

theorem settles_items_depth : {written items : List Json} → SettlesItems written items →
    depthOfItems items = depthOfItems (prunedItems written)
  | _, _, .nil => rfl
  | _, _, .cons first rest => by
    rw [depthOfItems, settles_depth first, settles_items_depth rest]
    rfl

theorem settles_members_depth : {written settled : List (String × Json)} → SettlesMembers written settled →
    (bound : Nat) → (depthOfMembers (prunedMembers written) ≤ bound ↔
      ∀ key value, settled.reverse.lookup key = some value → value.depth ≤ bound)
  | _, _, .nil, bound => by simp [prunedMembers, depthOfMembers]
  | _, _, .cons first rest, bound => by
    rename_i key _ value _ _
    rw [Members.forall_latest_iff key value _ (·.depth ≤ bound), ← settles_members_depth rest bound, ← settles_keys rest,
      prunedMembers]
    split
    · rename_i replaced
      simp [replaced]
    · rename_i lasts
      simp [lasts, depthOfMembers, settles_depth first]

end

mutual

theorem pruned_depth_le : (written : Json) → written.pruned.depth ≤ written.depth
  | .null => le_rfl
  | .bool _ => le_rfl
  | .number _ => le_rfl
  | .string _ => le_rfl
  | .array items => Nat.add_le_add_left (pruned_items_depth_le items) 1
  | .object members => Nat.add_le_add_left (pruned_members_depth_le members) 1

theorem pruned_items_depth_le : (items : List Json) → depthOfItems (prunedItems items) ≤ depthOfItems items
  | [] => le_rfl
  | item :: rest => max_le_max (pruned_depth_le item) (pruned_items_depth_le rest)

theorem pruned_members_depth_le : (members : List (String × Json)) →
    depthOfMembers (prunedMembers members) ≤ depthOfMembers members
  | [] => le_rfl
  | (key, value) :: rest => by
    rw [prunedMembers, depthOfMembers]
    split
    · exact le_max_of_le_right (pruned_members_depth_le rest)
    · exact max_le_max (pruned_depth_le value) (pruned_members_depth_le rest)

end

theorem settles_shallow {written value : Json} (settles : Settles written value) : value.depth ≤ written.depth :=
  settles_depth settles ▸ pruned_depth_le written

end Depth

section Cutting

open Grammar

theorem pruned_items_append (front : List Json) (item : Json) :
    prunedItems (front ++ [item]) = prunedItems front ++ [item.pruned] := by
  induction front with
  | nil => rfl
  | cons first rest ih => exact congrArg _ ih

theorem pruned_members_append (front : List (String × Json)) (member : String × Json) :
    prunedMembers (front ++ [member]) =
      (prunedMembers front).filter (fun earlier => earlier.1 ≠ member.1) ++ [(member.1, member.2.pruned)] := by
  induction front with
  | nil => rfl
  | cons first rest ih =>
    obtain ⟨key, value⟩ := first
    rw [List.cons_append, prunedMembers, prunedMembers, ih, List.map_append, List.map_singleton]
    by_cases inside : key ∈ rest.map Prod.fst
    · rw [if_pos inside, if_pos (List.mem_append_left _ inside)]
    · have last : key ∈ rest.map Prod.fst ++ [member.1] ↔ key = member.1 := by
        rw [List.mem_append, List.mem_singleton, or_iff_right inside]
      by_cases same : key = member.1
      · rw [if_neg inside, if_pos (last.mpr same), List.filter_cons_of_neg (by simp [same])]
      · rw [if_neg inside, if_neg (mt last.mp same), List.filter_cons_of_pos (by simp [same]), List.cons_append]

theorem pruned_members_filled {octets : Bytes} {members : List (String × Json)} (written : WritesMembers octets members) :
    prunedMembers members ≠ [] := by
  cases written with
  | one written => exact List.cons_ne_nil _ _
  | more others written =>
    rw [pruned_members_append]
    exact List.append_ne_nil_of_right_ne_nil _ (List.cons_ne_nil _ _)

-- The members are written by what is left of the octets when some of these are cut out.
def Keeps (octets : Bytes) (members : List (String × Json)) : Prop :=
  members = [] ∨ ∃ kept, kept.Sublist octets ∧ WritesMembers kept members

theorem keeps_earlier {front : Bytes} {members : List (String × Json)} (earlier : Keeps front members) (octets : Bytes) :
    Keeps (front ++ [0x2C] ++ octets) members := by
  obtain rfl | ⟨kept, cut, listed⟩ := earlier
  · exact .inl rfl
  · refine .inr ⟨kept, ?_, listed⟩
    rw [List.append_assoc]
    exact cut.trans (List.sublist_append_left _ _)

theorem keeps_more {front octets kept : Bytes} {members : List (String × Json)} {member : String × Json}
    (earlier : Keeps front members) (cut : kept.Sublist octets) (listed : WritesMember kept member) :
    Keeps (front ++ [0x2C] ++ octets) (members ++ [member]) := by
  obtain rfl | ⟨shorter, frontCut, others⟩ := earlier
  · exact .inr ⟨kept, cut.trans (List.sublist_append_right _ _), .one listed⟩
  · exact .inr ⟨_, (frontCut.append (.refl _)).append cut, .more others listed⟩

mutual

theorem value_cut : {octets : Bytes} → {written : Json} → WritesValue octets written →
    ∃ kept, kept.Sublist octets ∧ WritesValue kept written.pruned
  | _, _, .null => ⟨_, .refl _, .null⟩
  | _, _, .yes => ⟨_, .refl _, .yes⟩
  | _, _, .no => ⟨_, .refl _, .no⟩
  | _, _, .number written denoted => ⟨_, .refl _, .number written denoted⟩
  | _, _, .string written => ⟨_, .refl _, .string written⟩
  | _, _, .emptyArray blank => ⟨_, .refl _, .emptyArray blank⟩
  | _, _, .array written => by
    obtain ⟨kept, cut, listed⟩ := items_cut written
    exact ⟨_, ((List.Sublist.refl _).append cut).append (.refl _), .array listed⟩
  | _, _, .emptyObject blank => ⟨_, .refl _, .emptyObject blank⟩
  | _, _, .object written => by
    have cutting := members_cut written fun _ => true
    rw [List.filter_true] at cutting
    obtain none | ⟨kept, cut, listed⟩ := cutting
    · exact absurd none (pruned_members_filled written)
    · exact ⟨_, ((List.Sublist.refl _).append cut).append (.refl _), .object listed⟩

theorem item_cut : {octets : Bytes} → {written : Json} → WritesItem octets written →
    ∃ kept, kept.Sublist octets ∧ WritesItem kept written.pruned
  | _, _, .spaced left written right => by
    obtain ⟨kept, cut, listed⟩ := value_cut written
    exact ⟨_, ((List.Sublist.refl _).append cut).append (.refl _), .spaced left listed right⟩

theorem items_cut : {octets : Bytes} → {written : List Json} → WritesItems octets written →
    ∃ kept, kept.Sublist octets ∧ WritesItems kept (prunedItems written)
  | _, _, .one written => by
    obtain ⟨kept, cut, listed⟩ := item_cut written
    exact ⟨kept, cut, .one listed⟩
  | _, _, .more others written => by
    obtain ⟨front, frontCut, earlier⟩ := items_cut others
    obtain ⟨kept, cut, listed⟩ := item_cut written
    rw [pruned_items_append]
    exact ⟨_, (frontCut.append (.refl _)).append cut, .more earlier listed⟩

theorem member_cut : {octets : Bytes} → {written : String × Json} → WritesMember octets written →
    ∃ kept, kept.Sublist octets ∧ WritesMember kept (written.1, written.2.pruned)
  | _, _, .keyed left named right written => by
    obtain ⟨kept, cut, listed⟩ := item_cut written
    exact ⟨_, (List.Sublist.refl _).append cut, .keyed left named right listed⟩

theorem members_cut : {octets : Bytes} → {written : List (String × Json)} → WritesMembers octets written →
    (wanted : String → Bool) → Keeps octets ((prunedMembers written).filter fun member => wanted member.1)
  | _, _, .one written, wanted => by
    rename_i member
    obtain ⟨kept, cut, listed⟩ := member_cut written
    change Keeps _ ([(member.1, member.2.pruned)].filter fun member => wanted member.1)
    rw [List.filter_singleton]
    cases wanted member.1 with
    | true => exact .inr ⟨kept, cut, .one listed⟩
    | false => exact .inl rfl
  | _, _, .more others written, wanted => by
    rename_i octets _ member
    obtain ⟨kept, cut, listed⟩ := member_cut written
    have earlier := members_cut others fun key => wanted key && key ≠ member.1
    rw [pruned_members_append, List.filter_append, List.filter_filter, List.filter_singleton]
    cases wanted member.1 with
    | true => exact keeps_more earlier cut listed
    | false =>
      rw [cond_false, List.append_nil]
      exact keeps_earlier earlier octets

end

end Cutting

end ClientHints.Json
