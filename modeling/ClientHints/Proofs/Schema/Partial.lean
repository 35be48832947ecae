import ClientHints.Proofs.Evidence.Overlay
import ClientHints.Proofs.Json.Members
import ClientHints.Proofs.Schema.Profile
import ClientHints.Proofs.Schema.Report

set_option autoImplicit false

namespace ClientHints

namespace Json.Members

def keep (names : List String) (members : Members) : Members :=
  members.filter fun member => names.contains member.1

theorem get_keep (name : String) (names : List String) (members : Members) :
    (keep names members).get? name = if name ∈ names then members.get? name else none := by
  rw [keep, get_filter name names.contains]
  simp only [List.contains_iff_mem]

end Json.Members

namespace Schema

section Collecting

variable {members : Json.Members}

theorem field_hints_keep (names : List String) (field : Field) :
    field.hints (Json.Members.keep names members) = if field.member ∈ names then field.hints members else .ok [] := by
  unfold Field.hints present?
  rw [Json.Members.get_keep]
  by_cases listed : field.member ∈ names
  · rw [if_pos listed, if_pos listed]
  · rw [if_neg listed, if_neg listed]

theorem collect_congr {others : Json.Members} {fields : List Field}
    (same : ∀ field ∈ fields, field.hints members = field.hints others) : collect members fields = collect others fields := by
  induction fields with
  | nil => rfl
  | cons field rest ih =>
    rw [List.forall_mem_cons] at same
    rw [collect, collect, same.1, ih same.2]

theorem collect_silent {fields : List Field} (silent : ∀ field ∈ fields, field.hints members = .ok []) :
    collect members fields = ([], none) := by
  induction fields with
  | nil => rfl
  | cons field rest ih =>
    rw [List.forall_mem_cons] at silent
    rw [collect, silent.1, ih silent.2]
    rfl

theorem collect_append {front : List Field} {given : List (Hint × String)} (sound : collect members front = (given, none))
    (back : List Field) : collect members (front ++ back) = (given ++ (collect members back).1, (collect members back).2) := by
  induction front generalizing given with
  | nil =>
    cases sound
    rfl
  | cons field rest ih =>
    obtain ⟨first, others, read, below, rfl⟩ := (collect_cons_ok_iff members field rest given).mp sound
    rw [List.cons_append, collect, read, ih below, List.append_assoc]

theorem collect_stops {fields : List Field} {given : List (Hint × String)} {fault : ShapeFault}
    (stopped : collect members fields = (given, some fault)) : ∃ before field after,
      fields = before ++ field :: after ∧ collect members before = (given, none) ∧ field.hints members = .error fault := by
  induction fields generalizing given with
  | nil => cases stopped
  | cons field rest ih =>
    cases read : field.hints members with
    | error other =>
      rw [collect, read] at stopped
      cases stopped
      exact ⟨[], field, rest, rfl, rfl, read⟩
    | ok first =>
      rw [collect, read] at stopped
      obtain ⟨rfl, failed⟩ := Prod.mk.inj stopped
      obtain ⟨before, other, after, rfl, below, faulty⟩ := ih (Prod.ext rfl failed)
      have sound := (collect_cons_ok_iff members field before _).mpr ⟨first, _, read, below, rfl⟩
      exact ⟨field :: before, other, after, rfl, sound, faulty⟩

theorem collect_keep {before after : List Field} {given : List (Hint × String)}
    (sound : collect members before = (given, none)) (apart : ((before ++ after).map Field.member).Nodup) :
    collect (Json.Members.keep (before.map Field.member) members) (before ++ after) = (given, none) := by
  rw [List.map_append, List.nodup_append] at apart
  have kept : collect (Json.Members.keep (before.map Field.member) members) before = (given, none) := by
    rw [← sound]
    refine collect_congr fun field member => ?_
    rw [field_hints_keep, if_pos (List.mem_map_of_mem member)]
  have silent : collect (Json.Members.keep (before.map Field.member) members) after = ([], none) := by
    refine collect_silent fun field member => ?_
    rw [field_hints_keep, if_neg]
    exact fun inside => apart.2.2 _ inside _ (List.mem_map_of_mem member) rfl
  rw [collect_append kept, silent, List.append_nil]

theorem field_fault_path {field : Field} {fault : ShapeFault} (faulty : field.hints members = .error fault) :
    fault.path.steps.head? = some (.member field.member) := by
  have judged := field_judged (format_ranks .ghev) field members
  rw [faulty] at judged
  obtain ⟨_, located, ⟨value, -, steps, rfl, -⟩, -⟩ := judged
  rw [located, Path.steps_extend]
  rfl

end Collecting

theorem format_members_apart (format : Format) : (format.schema.fields.map Field.member).Nodup := by
  cases format <;> decide

theorem record_stops (format : Format) {members : Json.Members} {e : Evidence} {fault : ShapeFault}
    (stopped : format.schema.record (.object members) .empty = (e, some fault)) : ∃ before field after,
      format.schema.fields = before ++ field :: after ∧ fault.path.steps.head? = some (.member field.member) ∧
      format.schema.record (.object (Json.Members.keep (before.map Field.member) members)) .empty = (e, none) := by
  obtain ⟨rfl, failed⟩ := Prod.mk.inj stopped
  have halted : collect members format.schema.fields = (_, some fault) := Prod.ext rfl failed
  obtain ⟨before, field, after, listed, sound, faulty⟩ := collect_stops halted
  have apart := format_members_apart format
  rw [listed] at apart
  have kept := collect_keep sound apart
  rw [← listed] at kept
  refine ⟨before, field, after, listed, field_fault_path faulty, ?_⟩
  simp only [record, hints, kept]

theorem record_leaves_hints (format : Format) (root : Json) :
    ∃ said, (format.schema.record root .empty).1 = .ofHints said := by
  have sound {root : Json} {e : Evidence} (accepted : format.schema.record root .empty = (e, none)) :
      ∃ said, e = .ofHints said := by
    obtain ⟨members, p, -, -, rfl⟩ := (record_ok_iff format root e).mp accepted
    exact ⟨p.header, rfl⟩
  cases reported : (format.schema.record root .empty).2 with
  | none => exact sound (Prod.ext rfl reported)
  | some fault =>
    cases root with
    | object members =>
      obtain ⟨before, field, after, -, -, kept⟩ := record_stops format (Prod.ext rfl reported)
      exact sound kept
    | null | bool | number | string | array => exact ⟨fun _ => none, rfl⟩

theorem record_extends (format : Format) (root : Json) (m : Evidence) (distinct : m.keys.Nodup) :
    (format.schema.record root m).2 = (format.schema.record root .empty).2 ∧
    (format.schema.record root m).1 = m.extend (format.schema.record root .empty).1.entries ∧
    m.Overlaid (format.schema.record root .empty).1 (format.schema.record root m).1 ∧
    ∀ fault, (format.schema.record root .empty).2 = some fault →
      ((∀ members, root ≠ .object members) → (format.schema.record root .empty).1 = .empty) ∧
      ∀ members, root = .object members → ∃ before field after,
        format.schema.fields = before ++ field :: after ∧
        fault.path.steps.head? = some (.member field.member) ∧
        format.schema.record (.object (Json.Members.keep (before.map Field.member) members)) .empty =
          ((format.schema.record root .empty).1, none) := by
  have extended : (format.schema.record root m).1 = m.extend (format.schema.record root .empty).1.entries :=
    (Evidence.extend_of_list m _ distinct).symm
  refine ⟨rfl, extended, ?_, fun fault reported => ⟨fun scalar => ?_, fun members object => ?_⟩⟩
  · obtain ⟨said, left⟩ := record_leaves_hints format root
    rw [extended, left]
    exact Evidence.overlaid_of_hints m said distinct
  · cases root with
    | object members => exact absurd rfl (scalar members)
    | null | bool | number | string | array => rfl
  · subst object
    exact record_stops format (Prod.ext rfl reported)

-- Its architecture is no text; the version of its platform is written twice before that is found.
def faultyMembers : Json.Members := [
  ("architecture", .bool true),
  ("mobile", .bool true),
  ("platform", .object [("brand", .string "y"), ("version", .string "3")]),
  ("platformVersion", .string "4")]

def earlierEvidence : Evidence := ⟨[
  ("query.x", "1"),
  ("header.sec-ch-ua-platform-version", "\"0\""),
  ("header.sec-ch-ua-mobile", "?0")]⟩

theorem faulty_document_extends :
    (sua.record (.object faultyMembers) earlierEvidence).1.entries = [
      ("query.x", "1"),
      ("header.sec-ch-ua-platform-version", "\"4\""),
      ("header.sec-ch-ua-mobile", "?0"),
      ("header.sec-ch-ua-platform", "\"y\"")] ∧
    ∃ before field after, sua.fields = before ++ field :: after ∧ field.member = "architecture" ∧
      sua.record (.object (Json.Members.keep (before.map Field.member) faultyMembers)) .empty =
        ((sua.record (.object faultyMembers) .empty).1, none) := by
  obtain ⟨-, extended, -, stops⟩ := record_extends .sua (.object faultyMembers) earlierEvidence (by decide)
  have reported : (sua.record (.object faultyMembers) .empty).2 =
      some ⟨.member .root "architecture", .string, some .boolean⟩ := by decide
  obtain ⟨before, field, after, listed, located, kept⟩ := (stops _ reported).2 faultyMembers rfl
  have failing : field.member = "architecture" := (Step.member.inj (Option.some.inj located)).symm
  exact ⟨(congrArg Evidence.entries extended).trans (by decide), before, field, after, listed, failing, kept⟩

end Schema

end ClientHints
