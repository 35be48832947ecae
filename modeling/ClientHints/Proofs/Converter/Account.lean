import ClientHints.Proofs.Converter.Recognition
import ClientHints.Proofs.Schema.Table
import ClientHints.Proofs.Text.Order

set_option autoImplicit false

namespace ClientHints

def Event.Says (event : Event) (level : Level) (message : String) (fields : List (String × Detail)) : Prop :=
  event.level = level ∧ event.message = message ∧ event.fields = fields

namespace Converter

open Json

structure Accounts (format : Format) (members : Members) (entries : Nat) (passed : List Event) (last : Event) : Prop where
  tells : ∃ names : List String,
    (∀ name, name ∈ names ↔ name ∈ members.keys ∧ name ∉ format.schema.table) ∧
    names.Pairwise (fun earlier later => Utf8.encode earlier < Utf8.encode later) ∧
    List.Forall₂ (fun event name => Event.Says event .trace "ignoring unrecognized hint"
      [("format", .text format.schema.format.name), ("key", .text name)]) passed names
  ends : last.Says .debug "client hints transformed" [("format", .text format.name), ("entries", .count entries)]
  counts : format ≠ .sua → members.length = entries + passed.length +
    members.countP fun member => format.schema.table.contains member.1 && member.2.isNull

variable {c : Converter} {format : Format}

theorem document_ordered {input : Bytes} {members : Members} (loaded : c.document format input = .ok (.object members)) :
    members.Ordered := by
  obtain ⟨listed, lists⟩ := document_lists loaded
  rw [document_latest loaded lists]
  exact Members.of_list_ordered listed

theorem unknown_ascending {members : Members} (ordered : members.Ordered) (schema : Schema) :
    (schema.unknown members).Pairwise fun earlier later => Utf8.encode earlier < Utf8.encode later := by
  have keys : members.keys.Pairwise fun earlier later => Utf8.encode earlier < Utf8.encode later :=
    List.pairwise_map.mpr (ordered.imp Utf8.encode_lt)
  exact keys.sublist List.filter_sublist

theorem keys_nodup {members : Members} (ordered : members.Ordered) : members.keys.Nodup :=
  List.pairwise_map.mpr (ordered.imp ne_of_lt)

theorem converted_accounts {members : Members} (ordered : members.Ordered) {m : Evidence}
    (accepted : format.schema.record (.object members) .empty = (m, none)) :
    Accounts format members m.size (ignored format.schema (.object members)) (.converted format m.size) where
  tells := by
    refine ⟨_, Schema.mem_unknown_iff format.schema members, unknown_ascending ordered format.schema, ?_⟩
    exact List.forall₂_map_left_iff.mpr (List.forall₂_same.mpr fun name _ => ⟨rfl, rfl, rfl⟩)
  ends := ⟨rfl, rfl, rfl⟩
  counts values := by
    have distinct := keys_nodup ordered
    cases format with
    | sua => exact absurd rfl values
    | ghev | ghevBase64 =>
      have counted := Schema.count_members distinct (by decide) (by decide) (by decide) rfl accepted
      simpa only [ignored, List.length_map] using counted

def Tells (c : Converter) (format : Format) (input : String) (o : Outcome) (passed : List Event) (last : Event) : Prop :=
  match o.rejection with
  | none => ∃ members, c.document format (Utf8.encode input) = .ok (.object members) ∧
    Accounts format members o.evidence.size passed last
  | some rejection => passed = [] ∧ last.Says .debug "client hints rejected"
    [("format", .text format.name), ("code", .text rejection.code), ("error", .text rejection.message)]

theorem events_account (c : Converter) (format : Format) (input : String) (e : Evidence) :
    ∃ passed last, (c.convertInto format input e).events = passed ++ [last] ∧
      (∀ event ∈ passed, event.level = .trace) ∧ last.level = .debug ∧
      c.Tells format input (c.convertInto format input e) passed last := by
  have cleared : e.clear = .empty := rfl
  simp only [convertInto, cleared, Tells]
  cases loaded : c.document format (Utf8.encode input) with
  | error rejection => exact ⟨[], _, rfl, List.forall_mem_nil _, rfl, rfl, rfl, rfl, rfl⟩
  | ok root =>
    dsimp only
    cases accepted : format.schema.record root .empty with
    | mk written fault =>
      cases fault with
      | some fault => exact ⟨[], _, rfl, List.forall_mem_nil _, rfl, rfl, rfl, rfl, rfl⟩
      | none =>
        obtain ⟨members, -, rfl, -, -⟩ := (Schema.record_ok_iff format root written).mp accepted
        refine ⟨_, _, rfl, ?_, rfl, members, rfl, converted_accounts (document_ordered loaded) accepted⟩
        intro event told
        obtain ⟨name, -, rfl⟩ := List.mem_map.mp told
        rfl

-- One member is null and known, one null and unknown, and one is known to the other schema only.
example : (standard.convertInto .ghevBase64
      (Base64.encodeText (Utf8.encode "\x7b\"z\":null,\"model\":null,\"mobile\":true,\"source\":1\x7d")) .empty).events =
    [.ignored .ghev "source", .ignored .ghev "z", .converted .ghevBase64 1] := rfl

end Converter

end ClientHints
