import ClientHints.Document
import ClientHints.Proofs.Except
import ClientHints.Proofs.Json.Completeness
import ClientHints.Proofs.Json.Nesting
import ClientHints.Proofs.Json.Pruned
import ClientHints.Proofs.Json.Utf8

/-!
A document is loaded exactly if it is a JSON text within limits, and as the tree that this text writes. The limit on
depth is one on the tree: members that a later member with their key replaces may be nested more deeply.
-/

set_option autoImplicit false

namespace ClientHints.Document

open Json Json.Grammar

theorem check_size_ok_iff (limits : Limits) (size : Nat) :
    checkSize limits size = .ok () ↔ size ≤ limits.inputSize.toNat := by
  unfold checkSize
  split
  · rename_i larger
    simp [Nat.not_le.mpr larger]
  · rename_i fits
    simp [Nat.not_lt.mp fits]

theorem check_depth_ok_iff (limits : Limits) (document root : Json) :
    checkDepth limits document = .ok root ↔ document = root ∧ root.depth ≤ limits.nestingDepth.toNat := by
  unfold checkDepth
  split
  · rename_i deeper
    refine ⟨nofun, ?_⟩
    rintro ⟨rfl, shallow⟩
    omega
  · rename_i shallow
    rw [Except.ok.injEq]
    exact ⟨fun same => ⟨same, same ▸ Nat.not_lt.mp shallow⟩, And.left⟩

theorem parse_ok_iff (text : Bytes) (root : Json) : parse text = .ok root ↔ read text = .ok root := by
  unfold parse
  cases read text with
  | ok document => simp
  | error fault => exact ⟨nofun, nofun⟩

theorem load_ok_iff_read (limits : Limits) (text : Bytes) (root : Json) :
    load limits text = .ok root ↔
      text.length ≤ limits.inputSize.toNat ∧ read text = .ok root ∧ root.depth ≤ limits.nestingDepth.toNat := by
  simp only [load, except_bind_ok_iff, parse_ok_iff, check_depth_ok_iff]
  constructor
  · rintro ⟨_, fits, document, found, rfl, shallow⟩
    exact ⟨(check_size_ok_iff limits _).mp fits, found, shallow⟩
  · rintro ⟨fits, found, shallow⟩
    exact ⟨(), (check_size_ok_iff limits _).mpr fits, root, found, rfl, shallow⟩

theorem load_valid {limits : Limits} {octets : Bytes} {root : Json} (loaded : load limits octets = .ok root) :
    Utf8.Valid octets :=
  read_valid ((load_ok_iff_read limits octets root).mp loaded).2.1

theorem load_ok_iff_writes (limits : Limits) (input : Bytes) (root : Json) :
    load limits input = .ok root ↔
      input.length ≤ limits.inputSize.toNat ∧
        (∃ written, WritesItem input written ∧ Settles written root) ∧
        (∀ front, front <+: input → Nesting.opened front ≤ 127) ∧
        root.depth ≤ limits.nestingDepth.toNat := by
  rw [load_ok_iff_read]
  constructor
  · rintro ⟨fits, found, shallow⟩
    obtain ⟨written, listed, settles, bounded⟩ := read_writes found
    exact ⟨fits, ⟨written, listed, settles⟩, (Nesting.written_depth_le_iff listed 127).mp bounded, shallow⟩
  · rintro ⟨fits, ⟨written, listed, settles⟩, bounded, shallow⟩
    exact ⟨fits, writes_read listed settles ((Nesting.written_depth_le_iff listed 127).mpr bounded), shallow⟩

-- Keys are one key when they are equal after unescaping.
example : load .standard (Utf8.encode " \x7b\"a\":[1,-2],\"\\u0061\":\"\\ud83d\\ude00\"\x7d\n") =
    .ok (.object [("a", .string "😀")]) := rfl

section Nesting

theorem read_settled {text : Bytes} {root written value : Json} (found : read text = .ok root)
    (listed : WritesItem text written) (settles : Settles written value) : value = root := by
  obtain ⟨other, otherListed, -, bounded⟩ := read_writes found
  have shallow := (Nesting.written_depth_le_iff listed 127).mpr ((Nesting.written_depth_le_iff otherListed 127).mp bounded)
  have same := writes_read listed settles shallow
  rw [found] at same
  exact (Except.ok.inj same).symm

theorem read_settles {text : Bytes} {root written : Json} (found : read text = .ok root)
    (listed : WritesItem text written) : Settles written root := by
  obtain ⟨value, settles⟩ := settles_total written
  exact read_settled found listed settles ▸ settles

theorem load_bounds_lasting_nesting {limits : Limits} {input : Bytes} {root : Json}
    (loaded : load limits input = .ok root) :
    (∃ written, WritesItem input written) ∧
      ∀ written, WritesItem input written →
        (∃ kept, kept.Sublist input ∧ WritesItem kept written.pruned) ∧
        ∀ kept, WritesItem kept written.pruned →
          ∀ front, front <+: kept → Nesting.opened front ≤ limits.nestingDepth.toNat := by
  obtain ⟨-, found, shallow⟩ := (load_ok_iff_read limits input root).mp loaded
  constructor
  · obtain ⟨written, listed, -⟩ := read_writes found
    exact ⟨written, listed⟩
  · intro written listed
    have depths := settles_depth (read_settles found listed)
    exact ⟨item_cut listed, fun kept keptListed =>
      (Nesting.written_depth_le_iff keptListed _).mp (depths ▸ shallow)⟩

theorem load_replaced_member :
    load ⟨65536, 1⟩ (Utf8.encode "\x7b\"a\":[[]],\"a\":1\x7d") = .ok (.object [("a", .number (.whole 1))]) := rfl

theorem replaced_member_loads :
    (∃ root, load ⟨65536, 1⟩ (Utf8.encode "\x7b\"a\":[[]],\"a\":1\x7d") = .ok root) ∧
      ∃ written kept, WritesItem (Utf8.encode "\x7b\"a\":[[]],\"a\":1\x7d") written ∧
        WritesItem kept written.pruned ∧ ∀ front, front <+: kept → Nesting.opened front ≤ 1 := by
  obtain ⟨⟨written, listed⟩, bounded⟩ := load_bounds_lasting_nesting load_replaced_member
  obtain ⟨⟨kept, -, keptListed⟩, shallow⟩ := bounded written listed
  exact ⟨⟨_, load_replaced_member⟩, written, kept, listed, keptListed, shallow kept keptListed⟩

theorem replaced_member_is_deeper :
    ¬∀ (limits : Limits) (input : Bytes) (root : Json), load limits input = .ok root →
      ∀ front, front <+: input → Nesting.opened front ≤ limits.nestingDepth.toNat := by
  intro bounded
  have inner := bounded _ _ _ load_replaced_member (Utf8.encode "\x7b\"a\":[[") (by decide +kernel)
  exact absurd inner (by decide +kernel)

end Nesting

end ClientHints.Document
