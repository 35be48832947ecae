import ClientHints.Json.Reader
import ClientHints.Proofs.Json.Numeral
import ClientHints.Proofs.Json.Quoted
import ClientHints.Proofs.Json.Settled

/-!
Whatever is read is a JSON text. Each state of the reader says what the octets behind it are: the beginnings
of the arrays and objects that are open, and what is complete within the innermost one.
-/

set_option autoImplicit false

namespace ClientHints.Json

open Grammar

namespace Grammar

theorem spacing_nil : IsSpacing [] := nofun

theorem spacing_append {front back : Bytes} (first : IsSpacing front) (second : IsSpacing back) :
    IsSpacing (front ++ back) :=
  List.forall_mem_append.mpr ⟨first, second⟩

section Spaces

variable {spacing : Bytes} (blank : IsSpacing spacing)
include blank

theorem item_space {octets : Bytes} {value : Json} (written : WritesItem octets value) :
    WritesItem (octets ++ spacing) value := by
  obtain ⟨left, written, right⟩ := written
  rw [List.append_assoc]
  exact .spaced left written (spacing_append right blank)

theorem items_space {octets : Bytes} {items : List Json} (written : WritesItems octets items) :
    WritesItems (octets ++ spacing) items := by
  cases written with
  | one written => exact .one (item_space blank written)
  | more others written =>
    rw [List.append_assoc]
    exact .more others (item_space blank written)

theorem member_space {octets : Bytes} {member : String × Json} (written : WritesMember octets member) :
    WritesMember (octets ++ spacing) member := by
  obtain ⟨left, named, right, written⟩ := written
  rw [List.append_assoc]
  exact .keyed left named right (item_space blank written)

theorem members_space {octets : Bytes} {members : List (String × Json)} (written : WritesMembers octets members) :
    WritesMembers (octets ++ spacing) members := by
  cases written with
  | one written => exact .one (member_space blank written)
  | more others written =>
    rw [List.append_assoc]
    exact .more others (member_space blank written)

end Spaces

end Grammar

namespace Reader

mutual

-- The text before a value, with the contexts that it opens.
inductive Opens : List Context → Bytes → Prop where
  | outermost {spacing : Bytes} (blank : IsSpacing spacing) : Opens [] spacing
  | firstItem {outer : List Context} {octets : Bytes} (opened : OpensBlock 0x5B outer octets) :
      Opens (.item [] :: outer) octets
  | nextItem {outer : List Context} {items : List Json} {octets spacing : Bytes} (held : HoldsItems outer items octets)
      (blank : IsSpacing spacing) : Opens (.item items :: outer) (octets ++ [0x2C] ++ spacing)
  | member {outer : List Context} {members : List (String × Json)} {key : String} {octets spacing : Bytes}
      (held : HoldsKey outer members key octets) (blank : IsSpacing spacing) :
      Opens (.member members key :: outer) (octets ++ [0x3A] ++ spacing)

inductive OpensBlock : UInt8 → List Context → Bytes → Prop where
  | bracket {sign : UInt8} {outer : List Context} {octets spacing : Bytes} (opened : Opens outer octets)
      (room : outer.length < nestingBound) (blank : IsSpacing spacing) :
      OpensBlock sign outer (octets ++ [sign] ++ spacing)

inductive HoldsItems : List Context → List Json → Bytes → Prop where
  | items {outer : List Context} {written items : List Json} {octets others : Bytes} (opened : Opens outer octets)
      (listed : WritesItems others written) (settles : SettlesItems written items.reverse)
      (shallow : outer.length + (.array written : Json).depth ≤ nestingBound) :
      HoldsItems outer items (octets ++ [0x5B] ++ others)

inductive OpensKey : List Context → List (String × Json) → Bytes → Prop where
  | first {outer : List Context} {octets : Bytes} (opened : OpensBlock 0x7B outer octets) : OpensKey outer [] octets
  | next {outer : List Context} {members : List (String × Json)} {octets spacing : Bytes}
      (held : HoldsMembers outer members octets) (blank : IsSpacing spacing) :
      OpensKey outer members (octets ++ [0x2C] ++ spacing)

inductive HoldsKey : List Context → List (String × Json) → String → Bytes → Prop where
  | key {outer : List Context} {members : List (String × Json)} {key : String} {octets name spacing : Bytes}
      (opened : OpensKey outer members octets) (named : WritesString name key) (blank : IsSpacing spacing) :
      HoldsKey outer members key (octets ++ name ++ spacing)

inductive HoldsMembers : List Context → List (String × Json) → Bytes → Prop where
  | members {outer : List Context} {written members : List (String × Json)} {octets others : Bytes}
      (opened : Opens outer octets) (listed : WritesMembers others written)
      (settles : SettlesMembers written members.reverse)
      (shallow : outer.length + (.object written : Json).depth ≤ nestingBound) :
      HoldsMembers outer members (octets ++ [0x7B] ++ others)

end

inductive Reads : State → Bytes → Prop where
  | value {outer : List Context} {octets : Bytes} (opened : Opens outer octets) : Reads (.between .value outer) octets
  | firstItem {outer : List Context} {octets : Bytes} (opened : OpensBlock 0x5B outer octets) :
      Reads (.between .firstItem outer) octets
  | nextItem {outer : List Context} {items : List Json} {octets : Bytes} (opened : Opens (.item items :: outer) octets) :
      Reads (.between (.nextItem items) outer) octets
  | afterItem {outer : List Context} {items : List Json} {octets : Bytes} (held : HoldsItems outer items octets) :
      Reads (.between (.afterItem items) outer) octets
  | firstKey {outer : List Context} {octets : Bytes} (opened : OpensBlock 0x7B outer octets) :
      Reads (.between .firstKey outer) octets
  | nextKey {outer : List Context} {members : List (String × Json)} {octets : Bytes}
      (opened : OpensKey outer members octets) : Reads (.between (.nextKey members) outer) octets
  | afterKey {outer : List Context} {members : List (String × Json)} {key : String} {octets : Bytes}
      (held : HoldsKey outer members key octets) : Reads (.between (.afterKey members key) outer) octets
  | afterMember {outer : List Context} {members : List (String × Json)} {octets : Bytes}
      (held : HoldsMembers outer members octets) : Reads (.between (.afterMember members) outer) octets
  | finished {outer : List Context} {octets : Bytes} {written value : Json} (listed : WritesItem octets written)
      (settles : Settles written value) (shallow : written.depth ≤ nestingBound) :
      Reads (.between (.finished value) outer) octets
  | word {outer : List Context} {octets taken expected : Bytes} {value : Json} (opened : Opens outer octets)
      (written : WritesValue (taken ++ expected) value) (settles : Settles value value) (flat : value.depth = 0) :
      Reads (.within (.word expected value) outer) (octets ++ taken)
  | numeral {outer : List Context} {octets taken : Bytes} {n : Numeral} (opened : Opens outer octets)
      (follows : n.Follows taken) : Reads (.within (.numeral n) outer) (octets ++ taken)
  | string {outer : List Context} {octets taken : Bytes} {q : Quoted} (opened : Opens outer octets)
      (follows : q.Follows taken) : Reads (.within (.string q) outer) (octets ++ ([0x22] ++ taken))
  | key {outer : List Context} {members : List (String × Json)} {octets taken : Bytes} {q : Quoted}
      (opened : OpensKey outer members octets) (follows : q.Follows taken) :
      Reads (.within (.key members q) outer) (octets ++ ([0x22] ++ taken))

theorem is_space_spacing {b : UInt8} (space : isSpace b = true) : IsSpacing [b] := by
  have table : ∀ b, isSpace b = true → b = 0x20 ∨ b = 0x09 ∨ b = 0x0A ∨ b = 0x0D := Utf8.octet_forall (by decide +kernel)
  simpa [IsSpacing] using table b space

section Spaces

variable {outer : List Context} {octets spacing : Bytes} (blank : IsSpacing spacing)
include blank

theorem block_space {sign : UInt8} (opened : OpensBlock sign outer octets) : OpensBlock sign outer (octets ++ spacing) := by
  obtain ⟨opened, room, before⟩ := opened
  rw [List.append_assoc]
  exact .bracket opened room (spacing_append before blank)

theorem opens_space (opened : Opens outer octets) : Opens outer (octets ++ spacing) := by
  cases opened with
  | outermost before => exact .outermost (spacing_append before blank)
  | firstItem opened => exact .firstItem (block_space blank opened)
  | nextItem held before =>
    rw [List.append_assoc]
    exact .nextItem held (spacing_append before blank)
  | member held before =>
    rw [List.append_assoc]
    exact .member held (spacing_append before blank)

theorem opens_key_space {members : List (String × Json)} (opened : OpensKey outer members octets) :
    OpensKey outer members (octets ++ spacing) := by
  cases opened with
  | first opened => exact .first (block_space blank opened)
  | next held before =>
    rw [List.append_assoc]
    exact .next held (spacing_append before blank)

theorem reads_space {point : Point} (reads : Reads (.between point outer) octets) :
    Reads (.between point outer) (octets ++ spacing) := by
  cases reads with
  | value opened => exact .value (opens_space blank opened)
  | firstItem opened => exact .firstItem (block_space blank opened)
  | nextItem opened => exact .nextItem (opens_space blank opened)
  | afterItem held =>
    obtain ⟨opened, listed, settles, shallow⟩ := held
    rw [List.append_assoc]
    exact .afterItem (.items opened (items_space blank listed) settles shallow)
  | firstKey opened => exact .firstKey (block_space blank opened)
  | nextKey opened => exact .nextKey (opens_key_space blank opened)
  | afterKey held =>
    obtain ⟨opened, named, before⟩ := held
    rw [List.append_assoc]
    exact .afterKey (.key opened named (spacing_append before blank))
  | afterMember held =>
    obtain ⟨opened, listed, settles, shallow⟩ := held
    rw [List.append_assoc]
    exact .afterMember (.members opened (members_space blank listed) settles shallow)
  | finished listed settles shallow => exact .finished (item_space blank listed) settles shallow

end Spaces

section Values

variable {outer : List Context} {octets : Bytes}

theorem item_of_value {spacing front : Bytes} {value : Json} (blank : IsSpacing spacing) (written : WritesValue front value) :
    WritesItem (spacing ++ front) value := by
  have item := WritesItem.spaced blank written spacing_nil
  rwa [List.append_nil] at item

section Deliveries

variable {text : Bytes} {written value : Json} (listed : WritesValue text written) (settles : Settles written value)
include listed settles

theorem item_held {items : List Json} (opened : Opens (.item items :: outer) octets)
    (shallow : outer.length + 1 + written.depth ≤ nestingBound) : HoldsItems outer (value :: items) (octets ++ text) := by
  cases opened with
  | firstItem opened =>
    obtain ⟨opened, room, blank⟩ := opened
    have bound : outer.length + (Json.array [written]).depth ≤ nestingBound := by
      simp only [depth, depthOfItems]
      omega
    rw [List.append_assoc]
    exact .items opened (.one (item_of_value blank listed)) (.cons settles .nil) bound
  | nextItem held blank =>
    obtain ⟨opened, others, each, flat⟩ := held
    rename_i earlier _ _
    have both := settles_items_append each (.cons settles .nil)
    rw [← List.reverse_cons] at both
    have bound : outer.length + (Json.array (earlier ++ [written])).depth ≤ nestingBound := by
      simp only [depth, depth_of_items_append, depthOfItems] at flat ⊢
      omega
    have held := HoldsItems.items opened (.more others (item_of_value blank listed)) both bound
    simpa using held

theorem member_held {members : List (String × Json)} {key : String} {spacing : Bytes}
    (held : HoldsKey outer members key octets) (blank : IsSpacing spacing)
    (shallow : outer.length + 1 + written.depth ≤ nestingBound) :
    HoldsMembers outer ((key, value) :: members) (octets ++ [0x3A] ++ spacing ++ text) := by
  obtain ⟨opened, named, after⟩ := held
  have last : SettlesMembers [(key, written)] [(key, value)] := .cons settles .nil
  cases opened with
  | first opened =>
    obtain ⟨opened, room, before⟩ := opened
    have member := WritesMember.keyed before named after (item_of_value blank listed)
    have bound : outer.length + (Json.object [(key, written)]).depth ≤ nestingBound := by
      simp only [depth, depthOfMembers]
      omega
    have held : HoldsMembers outer [(key, value)] _ := .members opened (.one member) last bound
    simpa using held
  | next held before =>
    obtain ⟨opened, others, each, flat⟩ := held
    rename_i earlier _ _
    have member := WritesMember.keyed before named after (item_of_value blank listed)
    have both := settles_members_append each last
    rw [← List.reverse_cons] at both
    have bound : outer.length + (Json.object (earlier ++ [(key, written)])).depth ≤ nestingBound := by
      simp only [depth, depth_of_members_append, depthOfMembers] at flat ⊢
      omega
    have held := HoldsMembers.members opened (.more others member) both bound
    simpa using held

theorem deliver_reads (opened : Opens outer octets) (shallow : outer.length + written.depth ≤ nestingBound) :
    Reads (deliver value outer) (octets ++ text) := by
  cases outer with
  | nil =>
    obtain ⟨blank⟩ := opened
    exact .finished (item_of_value blank listed) settles (by simpa using shallow)
  | cons context outer =>
    cases context with
    | item items => exact .afterItem (item_held listed settles opened shallow)
    | member members key =>
      obtain ⟨⟩ | ⟨⟩ | ⟨⟩ | ⟨held, blank⟩ := opened
      exact .afterMember (member_held listed settles held blank shallow)

end Deliveries

theorem opens_room (opened : Opens outer octets) : outer.length ≤ nestingBound := by
  have block {sign : UInt8} {outer : List Context} {octets : Bytes} (opened : OpensBlock sign outer octets) :
      outer.length + 1 ≤ nestingBound := by
    obtain ⟨-, room, -⟩ := opened
    exact room
  cases opened with
  | outermost blank => exact Nat.zero_le nestingBound
  | firstItem opened => exact block opened
  | nextItem held blank =>
    obtain ⟨-, -, -, shallow⟩ := held
    simp only [depth, List.length_cons] at shallow ⊢
    omega
  | member held blank =>
    obtain ⟨opened, -, -⟩ := held
    cases opened with
    | first opened => exact block opened
    | next held before =>
      obtain ⟨-, -, -, shallow⟩ := held
      simp only [depth, List.length_cons] at shallow ⊢
      omega

end Values

section Steps

variable {outer : List Context} {octets : Bytes} {b : UInt8} {next : State}

theorem block_reads {sign : UInt8} (opened : Opens outer octets) (room : outer.length < nestingBound) :
    OpensBlock sign outer (octets ++ [sign]) := by
  have block : OpensBlock sign outer (octets ++ [sign] ++ []) := .bracket opened room spacing_nil
  rwa [List.append_nil] at block

theorem quote_reads (opened : Opens outer octets) : Reads (.within (.string Quoted.start) outer) (octets ++ [0x22]) :=
  .string opened Quoted.start_follows

theorem key_quote_reads {members : List (String × Json)} (opened : OpensKey outer members octets) :
    Reads (beginKey members outer) (octets ++ [0x22]) :=
  .key opened Quoted.start_follows

theorem enter_reads {point : Point} (opened : Opens outer octets) (stepped : enter point outer = .ok next)
    (reached : OpensBlock b outer (octets ++ [b]) → Reads (.between point outer) (octets ++ [b])) :
    Reads next (octets ++ [b]) := by
  unfold enter at stepped
  split at stepped
  · rename_i room
    cases stepped
    exact reached (block_reads opened room)
  · cases stepped

theorem begin_reads (opened : Opens outer octets) (stepped : begin outer b = .ok next) : Reads next (octets ++ [b]) := by
  unfold begin at stepped
  by_cases quote : b = 0x22
  · rw [if_pos quote] at stepped
    cases stepped
    exact quote ▸ quote_reads opened
  rw [if_neg quote] at stepped
  by_cases bracket : b = 0x5B
  · rw [if_pos bracket] at stepped
    exact enter_reads opened stepped fun block => .firstItem (bracket ▸ block)
  rw [if_neg bracket] at stepped
  by_cases brace : b = 0x7B
  · rw [if_pos brace] at stepped
    exact enter_reads opened stepped fun block => .firstKey (brace ▸ block)
  rw [if_neg brace] at stepped
  by_cases null : b = 0x6E
  · rw [if_pos null] at stepped
    cases stepped
    subst null
    exact .word opened .null .null rfl
  rw [if_neg null] at stepped
  by_cases yes : b = 0x74
  · rw [if_pos yes] at stepped
    cases stepped
    subst yes
    exact .word opened .yes (.bool true) rfl
  rw [if_neg yes] at stepped
  by_cases no : b = 0x66
  · rw [if_pos no] at stepped
    cases stepped
    subst no
    exact .word opened .no (.bool false) rfl
  rw [if_neg no] at stepped
  by_cases minus : b = 0x2D
  · rw [if_pos minus] at stepped
    cases stepped
    subst minus
    exact .numeral opened (.sign .minus)
  rw [if_neg minus] at stepped
  split at stepped
  · rename_i more
    cases stepped
    exact .numeral opened (Numeral.follows_more (.sign .none) more)
  · cases stepped

theorem empty_reads {sign : UInt8} {empty : Json} (opened : OpensBlock sign outer octets)
    (written : ∀ spacing, IsSpacing spacing → WritesValue ([sign] ++ spacing ++ [b]) empty)
    (settles : Settles empty empty) (shallow : empty.depth = 1) : Reads (deliver empty outer) (octets ++ [b]) := by
  obtain ⟨opened, room, blank⟩ := opened
  have reached := deliver_reads (written _ blank) settles opened (by rw [shallow]; exact room)
  simpa using reached

theorem after_item_reads {items : List Json} (held : HoldsItems outer items octets)
    (stepped : mark (.afterItem items) outer b = .ok next) : Reads next (octets ++ [b]) := by
  simp only [mark] at stepped
  split at stepped
  · rename_i comma
    cases stepped
    subst comma
    have awaits := Opens.nextItem held spacing_nil
    rw [List.append_nil] at awaits
    exact .nextItem awaits
  · split at stepped
    · rename_i bracket
      cases stepped
      subst bracket
      obtain ⟨opened, listed, settles, shallow⟩ := held
      have reached := deliver_reads (.array listed) (.array settles) opened shallow
      simpa using reached
    · cases stepped

theorem after_member_reads {members : List (String × Json)} (held : HoldsMembers outer members octets)
    (stepped : mark (.afterMember members) outer b = .ok next) : Reads next (octets ++ [b]) := by
  simp only [mark] at stepped
  split at stepped
  · rename_i comma
    cases stepped
    subst comma
    have awaits := OpensKey.next held spacing_nil
    rw [List.append_nil] at awaits
    exact .nextKey awaits
  · split at stepped
    · rename_i brace
      cases stepped
      subst brace
      obtain ⟨opened, listed, settles, shallow⟩ := held
      have settled := Settles.object settles ((Members.is_latest_iff _ _).mpr rfl)
      have reached := deliver_reads (.object listed) settled opened shallow
      simpa using reached
    · cases stepped

theorem mark_reads {point : Point} (reads : Reads (.between point outer) octets) (stepped : mark point outer b = .ok next) :
    Reads next (octets ++ [b]) := by
  cases reads with
  | value opened => exact begin_reads opened stepped
  | firstItem opened =>
    simp only [mark] at stepped
    split at stepped
    · rename_i bracket
      cases stepped
      subst bracket
      exact empty_reads opened (fun _ blank => .emptyArray blank) (.array .nil) rfl
    · exact begin_reads (.firstItem opened) stepped
  | nextItem opened =>
    simp only [mark] at stepped
    split at stepped
    · cases stepped
    · exact begin_reads opened stepped
  | afterItem held => exact after_item_reads held stepped
  | firstKey opened =>
    simp only [mark] at stepped
    split at stepped
    · rename_i brace
      cases stepped
      subst brace
      have settled := Settles.object .nil ((Members.is_latest_iff [] []).mpr rfl)
      exact empty_reads opened (fun _ blank => .emptyObject blank) settled rfl
    · split at stepped
      · rename_i quote
        cases stepped
        exact quote ▸ key_quote_reads (.first opened)
      · cases stepped
  | nextKey opened =>
    simp only [mark] at stepped
    split at stepped
    · rename_i quote
      cases stepped
      exact quote ▸ key_quote_reads opened
    · split at stepped <;> cases stepped
  | afterKey held =>
    simp only [mark] at stepped
    split at stepped
    · rename_i colon
      cases stepped
      subst colon
      have awaits := Opens.member held spacing_nil
      rw [List.append_nil] at awaits
      exact .value awaits
    · cases stepped
  | afterMember held => exact after_member_reads held stepped
  | finished listed settles shallow => cases stepped

theorem pass_reads {point : Point} (reads : Reads (.between point outer) octets) (stepped : pass point outer b = .ok next) :
    Reads next (octets ++ [b]) := by
  unfold pass at stepped
  split at stepped
  · rename_i space
    cases stepped
    exact reads_space (is_space_spacing space) reads
  · exact mark_reads reads stepped

theorem word_reads {taken expected : Bytes} {value : Json} (opened : Opens outer octets)
    (written : WritesValue (taken ++ expected) value) (settles : Settles value value) (flat : value.depth = 0)
    (stepped : stepWord expected value outer b = .ok next) : Reads next (octets ++ taken ++ [b]) := by
  rw [List.append_assoc]
  unfold stepWord at stepped
  split at stepped
  · cases stepped
  · split at stepped
    · rename_i same
      cases stepped
      subst same
      exact deliver_reads written settles opened (by rw [flat]; exact opens_room opened)
    · cases stepped
  · split at stepped
    · rename_i same
      cases stepped
      subst same
      rw [List.append_cons] at written
      exact .word opened written settles flat
    · cases stepped

theorem numeral_reads {taken : Bytes} {n : Numeral} (opened : Opens outer octets) (follows : n.Follows taken)
    (stepped : stepNumeral n outer b = .ok next) : Reads next (octets ++ taken ++ [b]) := by
  unfold stepNumeral at stepped
  split at stepped
  · rename_i more
    cases stepped
    rw [List.append_assoc]
    exact .numeral opened (Numeral.follows_more follows more)
  · cases stepped
  · split at stepped
    · rename_i found finished
      obtain ⟨written, denoted⟩ := Numeral.follows_literal follows finished
      exact pass_reads (deliver_reads (.number written denoted) (.number found) opened (opens_room opened)) stepped
    · cases stepped

theorem quoted_reads {taken : Bytes} {q : Quoted} {within : Quoted → State} {closed : String → State}
    (follows : q.Follows taken) (stepped : stepQuoted q b within closed = .ok next)
    (inner : ∀ q taken, q.Follows taken → Reads (within q) (octets ++ ([0x22] ++ taken)))
    (complete : ∀ text written, WritesString written text → Reads (closed text) (octets ++ written)) :
    Reads next (octets ++ ([0x22] ++ taken) ++ [b]) := by
  rw [List.append_assoc, List.append_assoc [0x22]]
  unfold stepQuoted at stepped
  split at stepped
  · rename_i more
    cases stepped
    exact inner _ _ (Quoted.follows_more follows more)
  · rename_i ended
    cases stepped
    exact complete _ _ (Quoted.follows_closed follows ended)
  · cases stepped

theorem step_reads {state : State} (reads : Reads state octets) (stepped : step state b = .ok next) :
    Reads next (octets ++ [b]) := by
  cases state with
  | between point outer => exact pass_reads reads stepped
  | within token outer =>
    cases reads with
    | word opened written settles flat => exact word_reads opened written settles flat stepped
    | numeral opened follows => exact numeral_reads opened follows stepped
    | string opened follows =>
      refine quoted_reads follows stepped (fun _ _ follows => .string opened follows) fun text written listed => ?_
      exact deliver_reads (.string listed) (.string text) opened (opens_room opened)
    | key opened follows =>
      refine quoted_reads follows stepped (fun _ _ follows => .key opened follows) fun text written named => ?_
      have held := HoldsKey.key opened named spacing_nil
      rw [List.append_nil] at held
      exact .afterKey held

end Steps

theorem feed_reads {octets text : Bytes} {state last : State} (reads : Reads state octets)
    (fed : feed state text = .ok last) : Reads last (octets ++ text) := by
  induction text generalizing octets state with
  | nil =>
    cases fed
    simpa using reads
  | cons b rest ih =>
    rw [feed] at fed
    split at fed
    · rename_i next stepped
      rw [List.append_cons]
      exact ih (step_reads reads stepped) fed
    · cases fed

theorem finish_point_reads {octets : Bytes} {point : Point} {outer : List Context} {value : Json}
    (reads : Reads (.between point outer) octets) (finished : finishPoint point = .ok value) :
    ∃ written, WritesItem octets written ∧ Settles written value ∧ written.depth ≤ nestingBound := by
  cases reads with
  | finished listed settles shallow =>
    cases finished
    exact ⟨_, listed, settles, shallow⟩
  | _ => cases finished

theorem finish_reads {octets : Bytes} {state : State} {value : Json} (reads : Reads state octets)
    (finished : finish state = .ok value) :
    ∃ written, WritesItem octets written ∧ Settles written value ∧ written.depth ≤ nestingBound := by
  cases state with
  | between point outer => exact finish_point_reads reads finished
  | within token outer =>
    cases reads with
    | numeral opened follows =>
      simp only [finish] at finished
      split at finished
      · rename_i found ended
        obtain ⟨written, denoted⟩ := Numeral.follows_literal follows ended
        exact finish_point_reads (deliver_reads (.number written denoted) (.number found) opened (opens_room opened)) finished
      · cases finished
    | word opened written settles flat => cases finished
    | string opened follows => cases finished
    | key opened follows => cases finished

end Reader

theorem read_ok_iff (text : Bytes) (value : Json) :
    read text = .ok value ↔ ∃ last, Reader.feed Reader.start text = .ok last ∧ Reader.finish last = .ok value := by
  unfold read
  cases Reader.feed Reader.start text with
  | error fault => exact ⟨nofun, nofun⟩
  | ok last =>
    simp only [Except.ok.injEq, exists_eq_left']
    cases Reader.finish last <;> simp

theorem read_writes {text : Bytes} {value : Json} (accepted : read text = .ok value) :
    ∃ written, WritesItem text written ∧ Settles written value ∧ written.depth ≤ Reader.nestingBound := by
  obtain ⟨last, fed, finished⟩ := (read_ok_iff text value).mp accepted
  have start : Reader.Reads Reader.start [] := .value (.outermost spacing_nil)
  exact Reader.finish_reads (Reader.feed_reads start fed) finished

end ClientHints.Json
