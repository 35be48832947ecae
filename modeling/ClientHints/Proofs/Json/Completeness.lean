import ClientHints.Proofs.Json.Soundness

/-!
Every JSON text is read, unless it is nested too deeply. A value that is written hands its tree to the
innermost array or object; a number does so only when the octet after it is seen.
-/

set_option autoImplicit false

namespace ClientHints.Json

open Grammar

namespace Reader

section Feeding

theorem feed_on {state next : State} {front : Bytes} (first : feed state front = .ok next) (rest : Bytes) :
    feed state (front ++ rest) = feed next rest := by
  induction front generalizing state with
  | nil =>
    cases first
    rfl
  | cons b front ih =>
    rw [feed] at first
    rw [List.cons_append, feed]
    split at first
    · exact ih first
    · cases first

theorem feed_append {state next last : State} {front rest : Bytes} (first : feed state front = .ok next)
    (second : feed next rest = .ok last) : feed state (front ++ rest) = .ok last :=
  (feed_on first rest).trans second

theorem feed_cons {state next : State} {b : UInt8} {rest : Bytes} (stepped : step state b = .ok next) :
    feed state (b :: rest) = feed next rest := by
  rw [feed, stepped]

theorem feed_one {state next : State} {b : UInt8} (stepped : step state b = .ok next) : feed state [b] = .ok next :=
  feed_cons stepped

theorem feed_spacing {spacing : Bytes} (blank : IsSpacing spacing) (point : Point) (outer : List Context) :
    feed (.between point outer) spacing = .ok (.between point outer) := by
  induction spacing with
  | nil => rfl
  | cons b rest ih =>
    obtain ⟨space, blank⟩ := List.forall_mem_cons.mp blank
    have passed : step (.between point outer) b = .ok (.between point outer) := by
      obtain rfl | rfl | rfl | rfl := space <;> rfl
    rw [feed_cons passed, ih blank]

end Feeding

-- A state stands at a point, or it will when the octet after a number is seen.
inductive Stands : State → Point → List Context → Prop where
  | between (point : Point) (outer : List Context) : Stands (.between point outer) point outer
  | numeral {n : Numeral} {number : Number} (inner : List Context) (ends : n.part.Ends)
      (denoted : n.literal.Denotes number) :
      Stands (.within (.numeral n) inner) (hand (.number number) inner).1 (hand (.number number) inner).2

section Standing

variable {state : State} {point : Point} {outer : List Context} (stands : Stands state point outer)
include stands

theorem stands_step {b : UInt8} (noDigit : Numeral.digit? b = none) (noPoint : b ≠ 0x2E)
    (noMark : Numeral.isMark b = false) : step state b = pass point outer b := by
  cases stands with
  | between => rfl
  | numeral inner ends denoted =>
    simp only [step, stepNumeral, Numeral.ended ends noDigit noPoint noMark, Numeral.finish_ends ends denoted]

theorem stands_comma : step state 0x2C = mark point outer 0x2C :=
  stands_step stands rfl (by decide) rfl

theorem stands_bracket : step state 0x5D = mark point outer 0x5D :=
  stands_step stands rfl (by decide) rfl

theorem stands_brace : step state 0x7D = mark point outer 0x7D :=
  stands_step stands rfl (by decide) rfl

theorem stands_spacing {spacing : Bytes} (blank : IsSpacing spacing) :
    ∃ last, feed state spacing = .ok last ∧ Stands last point outer := by
  cases spacing with
  | nil => exact ⟨state, rfl, stands⟩
  | cons b rest =>
    obtain ⟨space, blank⟩ := List.forall_mem_cons.mp blank
    refine ⟨.between point outer, ?_, .between point outer⟩
    have passed : step state b = .ok (.between point outer) := by
      obtain rfl | rfl | rfl | rfl := space <;> exact stands_step stands rfl (by decide) rfl
    rw [feed_cons passed, feed_spacing blank]

theorem stands_finish : finish state = finishPoint point := by
  cases stands with
  | between => rfl
  | numeral inner ends denoted => simp only [finish, Numeral.finish_ends ends denoted]

end Standing

section Scalars

theorem begin_visible {outer : List Context} {b : UInt8} {state : State} (begun : begin outer b = .ok state) :
    isSpace b = false ∧ b ≠ 0x5D := by
  constructor
  · by_contra space
    have blank := is_space_spacing (by simpa using space) b (List.mem_singleton_self b)
    obtain rfl | rfl | rfl | rfl := blank <;> cases begun
  · rintro rfl
    cases begun

theorem quoted_feeds {within : Quoted → State} {closed : String → State}
    (steps : ∀ q b, step (within q) b = stepQuoted q b within closed) {octets : Bytes} {q last : Quoted}
    (leads : octets.foldlM Quoted.more? q = some last) : feed (within q) octets = .ok (within last) := by
  induction octets generalizing q with
  | nil =>
    cases leads
    rfl
  | cons b rest ih =>
    rw [List.foldlM_cons, Option.bind_eq_bind, Option.bind_eq_some_iff] at leads
    obtain ⟨next, taken, leads⟩ := leads
    have stepped : step (within q) b = .ok (within next) := by
      rw [steps, stepQuoted, Quoted.more_iff.mp taken]
    rw [feed_cons stepped, ih leads]

theorem string_feeds {within : Quoted → State} {closed : String → State}
    (steps : ∀ q b, step (within q) b = stepQuoted q b within closed) {octets : Bytes} {text : String}
    (written : WritesString octets text) :
    ∃ rest, octets = 0x22 :: rest ∧ feed (within Quoted.start) rest = .ok (closed text) := by
  obtain ⟨inside⟩ := written
  rename_i octets chars
  refine ⟨octets ++ [0x22], rfl, feed_append (quoted_feeds steps (Quoted.chars_lead inside [])) (feed_one ?_)⟩
  rw [steps, List.append_nil, stepQuoted, Quoted.closing_quote]

theorem numeral_feeds {octets : Bytes} {n last : Numeral} (leads : octets.foldlM Numeral.more? n = some last)
    (outer : List Context) : feed (.within (.numeral n) outer) octets = .ok (.within (.numeral last) outer) := by
  induction octets generalizing n with
  | nil =>
    cases leads
    rfl
  | cons b rest ih =>
    rw [List.foldlM_cons, Option.bind_eq_bind, Option.bind_eq_some_iff] at leads
    obtain ⟨next, taken, leads⟩ := leads
    have stepped : step (.within (.numeral n) outer) b = .ok (.within (.numeral next) outer) := by
      rw [step, stepNumeral, Numeral.more_iff.mp taken]
    rw [feed_cons stepped, ih leads]

theorem begin_digit (outer : List Context) {b : UInt8} {n : Numeral} (taken : (Numeral.start false).step b = .more n) :
    begin outer b = .ok (.within (.numeral n) outer) := by
  have table : ∀ b, (Numeral.digit? b).isSome → b ≠ 0x22 ∧ b ≠ 0x5B ∧ b ≠ 0x7B ∧ b ≠ 0x6E ∧ b ≠ 0x74 ∧ b ≠ 0x66 ∧ b ≠ 0x2D :=
    Utf8.octet_forall (by decide +kernel)
  have digit : (Numeral.digit? b).isSome := by
    cases known : Numeral.digit? b with
    | some value => rfl
    | none => simp [Numeral.step, Numeral.start, known] at taken
  obtain ⟨quote, bracket, brace, null, yes, no, minus⟩ := table b digit
  simp only [begin, if_neg quote, if_neg bracket, if_neg brace, if_neg null, if_neg yes, if_neg no, if_neg minus, taken]

theorem literal_feeds {octets : Bytes} {l : Literal} {number : Number} (written : WritesLiteral octets l)
    (denoted : l.Denotes number) (outer : List Context) :
    ∃ b rest state last, octets = b :: rest ∧ begin outer b = .ok state ∧ feed state rest = .ok last ∧
      Stands last (hand (.number number) outer).1 (hand (.number number) outer).2 := by
  obtain ⟨sign, rest, part, rfl, signed, leads, ends⟩ := Numeral.literal_leads written denoted
  generalize l.negative = negative at signed leads
  have stands : Stands (.within (.numeral ⟨part, l⟩) outer) _ _ := .numeral outer ends denoted
  cases signed with
  | none =>
    cases rest with
    | nil =>
      cases leads
      cases ends
    | cons b rest =>
      rw [List.foldlM_cons, Option.bind_eq_bind, Option.bind_eq_some_iff] at leads
      obtain ⟨next, taken, leads⟩ := leads
      exact ⟨b, rest, _, _, rfl, begin_digit outer (Numeral.more_iff.mp taken), numeral_feeds leads outer, stands⟩
  | minus => exact ⟨0x2D, rest, _, _, rfl, rfl, numeral_feeds leads outer, stands⟩

end Scalars

def Awaits (point : Point) (outer inner : List Context) : Prop :=
  ∀ b, b ≠ 0x5D → mark point outer b = begin inner b

theorem awaits_first_item (outer : List Context) : Awaits .firstItem outer (.item [] :: outer) := fun b other => by
  rw [mark, if_neg other]

theorem awaits_next_item (items : List Json) (outer : List Context) :
    Awaits (.nextItem items) outer (.item items :: outer) := fun b other => by
  rw [mark, if_neg other]

theorem awaits_value (outer : List Context) : Awaits .value outer outer := fun _ _ => rfl

theorem feed_begin {point : Point} {outer inner : List Context} {b : UInt8} {state last : State} {rest : Bytes}
    (awaits : Awaits point outer inner) (begun : begin inner b = .ok state) (fed : feed state rest = .ok last) :
    feed (.between point outer) (b :: rest) = .ok last := by
  obtain ⟨visible, other⟩ := begin_visible begun
  have stepped : step (.between point outer) b = .ok state := by
    rw [step, pass, visible, awaits b other]
    exact begun
  rw [feed_cons stepped, fed]

theorem enter_shallow (point : Point) {outer : List Context} {inner : Nat}
    (shallow : outer.length + (1 + inner) ≤ nestingBound) : enter point outer = .ok (.between point outer) := by
  rw [enter, if_pos (by omega)]

section Closing

variable {state : State} {outer : List Context}

theorem close_array {items : List Json} (stands : Stands state (.afterItem items.reverse) outer) :
    feed state [0x5D] = .ok (deliver (.array items) outer) := by
  refine feed_one ((stands_bracket stands).trans ?_)
  change Except.ok (deliver (.array items.reverse.reverse) outer) = _
  rw [List.reverse_reverse]

theorem close_object {settled members : List (String × Json)} (latest : Members.IsLatest settled members)
    (stands : Stands state (.afterMember settled.reverse) outer) :
    feed state [0x7D] = .ok (deliver (.object members) outer) := by
  refine feed_one ((stands_brace stands).trans ?_)
  change Except.ok (deliver (.object (Members.ofList settled.reverse.reverse)) outer) = _
  rw [List.reverse_reverse, (Members.is_latest_iff settled members).mp latest]

end Closing

mutual

theorem value_feeds : {octets : Bytes} → {written : Json} → WritesValue octets written → {value : Json} →
    Settles written value → (outer : List Context) → outer.length + written.depth ≤ nestingBound →
    ∃ b rest state last, octets = b :: rest ∧ begin outer b = .ok state ∧ feed state rest = .ok last ∧
      Stands last (hand value outer).1 (hand value outer).2
  | _, _, .null, _, .null, outer, _ => ⟨_, _, _, _, rfl, rfl, rfl, .between _ _⟩
  | _, _, .yes, _, .bool true, outer, _ => ⟨_, _, _, _, rfl, rfl, rfl, .between _ _⟩
  | _, _, .no, _, .bool false, outer, _ => ⟨_, _, _, _, rfl, rfl, rfl, .between _ _⟩
  | _, _, .number written denoted, _, .number _, outer, _ => literal_feeds written denoted outer
  | _, _, .string written, _, .string _, outer, _ => by
    obtain ⟨rest, rfl, fed⟩ := string_feeds (fun q b => (rfl : step (.within (.string q) outer) b = _)) written
    exact ⟨0x22, rest, _, _, rfl, rfl, fed, .between _ _⟩
  | _, _, .emptyArray blank, _, .array .nil, outer, shallow => by
    have entered := enter_shallow .firstItem shallow
    exact ⟨0x5B, _, _, _, rfl, entered, feed_append (feed_spacing blank _ _) (feed_one rfl), .between _ _⟩
  | _, _, .array written, _, .array each, outer, shallow => by
    obtain ⟨last, fed, stands⟩ := items_feed written each outer shallow
    have entered := enter_shallow .firstItem shallow
    exact ⟨0x5B, _, _, _, rfl, entered, feed_append fed (close_array stands), .between _ _⟩
  | _, _, .emptyObject blank, _, .object .nil latest, outer, shallow => by
    have entered := enter_shallow .firstKey shallow
    obtain rfl := (Members.is_latest_iff [] _).mp latest
    exact ⟨0x7B, _, _, _, rfl, entered, feed_append (feed_spacing blank _ _) (feed_one rfl), .between _ _⟩
  | _, _, .object written, _, .object each latest, outer, shallow => by
    obtain ⟨last, fed, stands⟩ := members_feed written each outer shallow
    have entered := enter_shallow .firstKey shallow
    exact ⟨0x7B, _, _, _, rfl, entered, feed_append fed (close_object latest stands), .between _ _⟩

theorem item_feeds : {octets : Bytes} → {written : Json} → WritesItem octets written → {value : Json} →
    Settles written value → {point : Point} → {outer inner : List Context} → Awaits point outer inner →
    inner.length + written.depth ≤ nestingBound →
    ∃ last, feed (.between point outer) octets = .ok last ∧ Stands last (hand value inner).1 (hand value inner).2
  | _, _, .spaced left written right, _, settles, point, outer, inner, awaits, shallow => by
    obtain ⟨b, rest, state, last, rfl, begun, fed, stands⟩ := value_feeds written settles inner shallow
    obtain ⟨final, spaced, stands⟩ := stands_spacing stands right
    exact ⟨final, feed_append (feed_append (feed_spacing left point outer) (feed_begin awaits begun fed)) spaced, stands⟩

theorem items_feed : {octets : Bytes} → {written : List Json} → WritesItems octets written → {items : List Json} →
    SettlesItems written items → (outer : List Context) → outer.length + (Json.array written).depth ≤ nestingBound →
    ∃ last, feed (.between .firstItem outer) octets = .ok last ∧ Stands last (.afterItem items.reverse) outer
  | _, _, .one written, _, .cons settles .nil, outer, shallow => by
    simp only [depth, depthOfItems] at shallow
    exact item_feeds written settles (awaits_first_item outer) (by simp only [List.length_cons]; omega)
  | _, _, .more others written, _, each, outer, shallow => by
    obtain ⟨items, value, rfl, earlier, settles⟩ := settles_items_last each
    simp only [depth, depth_of_items_append, depthOfItems] at shallow
    obtain ⟨middle, fed, stands⟩ := items_feed others earlier outer (by simp only [depth]; omega)
    obtain ⟨last, more, stands'⟩ := item_feeds written settles (awaits_next_item items.reverse outer)
      (by simp only [List.length_cons]; omega)
    refine ⟨last, feed_append (feed_append fed (feed_one (stands_comma stands))) more, ?_⟩
    rw [List.reverse_append]
    exact stands'

theorem member_feeds : {octets : Bytes} → {written : String × Json} → WritesMember octets written → {value : Json} →
    Settles written.2 value → {point : Point} → {outer : List Context} → {members : List (String × Json)} →
    mark point outer 0x22 = .ok (beginKey members outer) → outer.length + 1 + written.2.depth ≤ nestingBound →
    ∃ last, feed (.between point outer) octets = .ok last ∧ Stands last (.afterMember ((written.1, value) :: members)) outer
  | _, _, .keyed left named right written, _, settles, point, outer, members, opens, shallow => by
    rename_i key _ _
    obtain ⟨rest, rfl, fed⟩ := string_feeds (fun q b => (rfl : step (.within (.key members q) outer) b = _)) named
    have stepped : step (.between point outer) 0x22 = .ok (beginKey members outer) := opens
    have begun : feed (.between point outer) (0x22 :: rest) = .ok (.between (.afterKey members key) outer) :=
      (feed_cons stepped).trans fed
    obtain ⟨last, more, stands⟩ := item_feeds written settles (awaits_value (.member members key :: outer))
      (by simp only [List.length_cons]; omega)
    exact ⟨last, feed_append (feed_append (feed_append (feed_append (feed_spacing left _ _) begun) (feed_spacing right _ _))
      (feed_one rfl)) more, stands⟩

theorem members_feed : {octets : Bytes} → {written : List (String × Json)} → WritesMembers octets written →
    {members : List (String × Json)} → SettlesMembers written members → (outer : List Context) →
    outer.length + (Json.object written).depth ≤ nestingBound →
    ∃ last, feed (.between .firstKey outer) octets = .ok last ∧ Stands last (.afterMember members.reverse) outer
  | _, _, .one written, _, .cons settles .nil, outer, shallow => by
    simp only [depth, depthOfMembers] at shallow
    exact member_feeds written settles rfl (by simpa [Nat.add_assoc] using shallow)
  | _, _, .more others written, _, each, outer, shallow => by
    obtain ⟨members, value, rfl, earlier, settles⟩ := settles_members_last each
    simp only [depth, depth_of_members_append, depthOfMembers] at shallow
    obtain ⟨middle, fed, stands⟩ := members_feed others earlier outer (by simp only [depth]; omega)
    have opens : mark (.nextKey members.reverse) outer 0x22 = .ok (beginKey members.reverse outer) := rfl
    obtain ⟨last, more, stands'⟩ := member_feeds written settles opens (by omega)
    refine ⟨last, feed_append (feed_append fed (feed_one (stands_comma stands))) more, ?_⟩
    rw [List.reverse_append]
    exact stands'

end

end Reader

theorem writes_read {text : Bytes} {written value : Json} (listed : WritesItem text written)
    (settles : Settles written value) (shallow : written.depth ≤ Reader.nestingBound) : read text = .ok value := by
  obtain ⟨last, fed, stands⟩ := Reader.item_feeds listed settles (Reader.awaits_value []) (by simpa using shallow)
  exact (read_ok_iff text value).mpr ⟨last, fed, Reader.stands_finish stands⟩

end ClientHints.Json
