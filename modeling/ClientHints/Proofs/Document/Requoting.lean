import ClientHints.Proofs.Document.Loading
import ClientHints.Proofs.Json.Integer
import ClientHints.Proofs.Schema.Requoting

set_option autoImplicit false

namespace ClientHints

open Json Json.Grammar

mutual

-- A text for another one. At any places where a text is taken, an integer stands for a string of its characters or the
-- other way round; everything else is copied.
inductive RequotesValue : Rule → Bytes → Bytes → Prop where
  | same {rule : Rule} {octets : Bytes} {value : Json} (written : WritesValue octets value) : RequotesValue rule octets octets
  | quoted {rule : Rule} {digits quoted : Bytes} {l : Literal} {text : String} (takes : rule.TakesText)
      (written : WritesLiteral digits l) (exact : l.IsInteger) (spelled : WritesString quoted text)
      (characters : Utf8.encode text = digits) : RequotesValue rule digits quoted
  | unquoted {rule : Rule} {digits quoted : Bytes} {l : Literal} {text : String} (takes : rule.TakesText)
      (written : WritesLiteral digits l) (exact : l.IsInteger) (spelled : WritesString quoted text)
      (characters : Utf8.encode text = digits) : RequotesValue rule quoted digits
  | array {rule sub : Rule} {octets others : Bytes} (known : rule.Item sub) (inside : RequotesItems sub octets others) :
      RequotesValue rule ([0x5B] ++ octets ++ [0x5D]) ([0x5B] ++ others ++ [0x5D])
  | object {rule : Rule} {octets others : Bytes} (inside : RequotesMembers rule octets others) :
      RequotesValue rule ([0x7B] ++ octets ++ [0x7D]) ([0x7B] ++ others ++ [0x7D])

inductive RequotesItem : Rule → Bytes → Bytes → Prop where
  | spaced {rule : Rule} {before octets others after : Bytes} (left : IsSpacing before)
      (inside : RequotesValue rule octets others) (right : IsSpacing after) :
      RequotesItem rule (before ++ octets ++ after) (before ++ others ++ after)

inductive RequotesItems : Rule → Bytes → Bytes → Prop where
  | one {rule : Rule} {octets others : Bytes} (inside : RequotesItem rule octets others) : RequotesItems rule octets others
  | more {rule : Rule} {front octets otherFront others : Bytes} (earlier : RequotesItems rule front otherFront)
      (inside : RequotesItem rule octets others) :
      RequotesItems rule (front ++ [0x2C] ++ octets) (otherFront ++ [0x2C] ++ others)

inductive RequotesMember : Rule → Bytes → Bytes → Prop where
  | known {rule sub : Rule} {before name after octets others : Bytes} {key : String} (left : IsSpacing before)
      (named : WritesString name key) (right : IsSpacing after) (known : rule.Member key sub)
      (inside : RequotesItem sub octets others) :
      RequotesMember rule (before ++ name ++ after ++ [0x3A] ++ octets) (before ++ name ++ after ++ [0x3A] ++ others)
  | kept {rule : Rule} {octets : Bytes} {member : String × Json} (written : WritesMember octets member) :
      RequotesMember rule octets octets

inductive RequotesMembers : Rule → Bytes → Bytes → Prop where
  | one {rule : Rule} {octets others : Bytes} (inside : RequotesMember rule octets others) :
      RequotesMembers rule octets others
  | more {rule : Rule} {front octets otherFront others : Bytes} (earlier : RequotesMembers rule front otherFront)
      (inside : RequotesMember rule octets others) :
      RequotesMembers rule (front ++ [0x2C] ++ octets) (otherFront ++ [0x2C] ++ others)

end

section Writing

theorem characters_eq {digits : Bytes} {l : Literal} {text : String} (written : WritesLiteral digits l)
    (exact : l.IsInteger) (characters : Utf8.encode text = digits) : text = (Number.whole l.integer).text :=
  Utf8.encode_injective (characters.trans (Literal.integer_octets written exact).symm)

mutual

theorem requotes_value {rule : Rule} {octets others : Bytes} : RequotesValue rule octets others →
    ∃ value other, WritesValue octets value ∧ WritesValue others other ∧ Requoted rule value other
  | .same written => ⟨_, _, written, written, .same _⟩
  | .quoted takes written exact spelled characters => by
    obtain rfl := characters_eq written exact characters
    exact ⟨_, _, .number written (.integer exact), .string spelled, .quoted takes _⟩
  | .unquoted takes written exact spelled characters => by
    obtain rfl := characters_eq written exact characters
    exact ⟨_, _, .string spelled, .number written (.integer exact), .unquoted takes _⟩
  | .array known inside => by
    obtain ⟨items, others, written, rewritten, each⟩ := requotes_items inside
    exact ⟨_, _, .array written, .array rewritten, .array known each⟩
  | .object inside => by
    obtain ⟨members, others, written, rewritten, each⟩ := requotes_members inside
    exact ⟨_, _, .object written, .object rewritten, .object each⟩

theorem requotes_item {rule : Rule} {octets others : Bytes} : RequotesItem rule octets others →
    ∃ value other, WritesItem octets value ∧ WritesItem others other ∧ Requoted rule value other
  | .spaced left inside right => by
    obtain ⟨value, other, written, rewritten, requoted⟩ := requotes_value inside
    exact ⟨value, other, .spaced left written right, .spaced left rewritten right, requoted⟩

theorem requotes_items {rule : Rule} {octets others : Bytes} : RequotesItems rule octets others →
    ∃ items otherItems, WritesItems octets items ∧ WritesItems others otherItems ∧ RequotedItems rule items otherItems
  | .one inside => by
    obtain ⟨value, other, written, rewritten, requoted⟩ := requotes_item inside
    exact ⟨[value], [other], .one written, .one rewritten, .cons requoted .nil⟩
  | .more earlier inside => by
    obtain ⟨front, otherFront, writtenFront, rewrittenFront, each⟩ := requotes_items earlier
    obtain ⟨value, other, written, rewritten, requoted⟩ := requotes_item inside
    exact ⟨_, _, .more writtenFront written, .more rewrittenFront rewritten, requoted_items_concat each requoted⟩

theorem requotes_member {rule : Rule} {octets others : Bytes} : RequotesMember rule octets others →
    ∃ key value other, WritesMember octets (key, value) ∧ WritesMember others (key, other) ∧
      RequotedMember rule key value other
  | .known left named right known inside => by
    obtain ⟨value, other, written, rewritten, requoted⟩ := requotes_item inside
    exact ⟨_, value, other, .keyed left named right written, .keyed left named right rewritten, .known known requoted⟩
  | .kept written => ⟨_, _, _, written, written, .kept _⟩

theorem requotes_members {rule : Rule} {octets others : Bytes} : RequotesMembers rule octets others →
    ∃ members otherMembers, WritesMembers octets members ∧ WritesMembers others otherMembers ∧
      RequotedMembers rule members otherMembers
  | .one inside => by
    obtain ⟨key, value, other, written, rewritten, requoted⟩ := requotes_member inside
    exact ⟨_, _, .one written, .one rewritten, .cons requoted .nil⟩
  | .more earlier inside => by
    obtain ⟨front, otherFront, writtenFront, rewrittenFront, each⟩ := requotes_members earlier
    obtain ⟨key, value, other, written, rewritten, requoted⟩ := requotes_member inside
    exact ⟨_, _, .more writtenFront written, .more rewrittenFront rewritten, requoted_members_concat each requoted⟩

end

end Writing

namespace Document

theorem read_requoted {rule : Rule} {text rewritten : Bytes} {root : Json} (requotes : RequotesItem rule text rewritten)
    (found : read text = .ok root) : ∃ other, read rewritten = .ok other ∧ Requoted rule root other := by
  obtain ⟨written, otherWritten, listed, otherListed, requoted⟩ := requotes_item requotes
  obtain ⟨_, listedToo, -, bounded⟩ := read_writes found
  have shallow : written.depth ≤ 127 :=
    (Nesting.written_depth_le_iff listed 127).mpr ((Nesting.written_depth_le_iff listedToo 127).mp bounded)
  obtain ⟨other, settles, same⟩ := requoted_settles requoted (read_settles found listed)
  rw [← requoted_depth requoted] at shallow
  exact ⟨other, writes_read otherListed settles shallow, same⟩

theorem load_requoted {limits : Limits} {rule : Rule} {text rewritten : Bytes} {root : Json}
    (requotes : RequotesItem rule text rewritten) (fits : rewritten.length ≤ limits.inputSize.toNat)
    (loaded : load limits text = .ok root) : ∃ other, load limits rewritten = .ok other ∧ Requoted rule root other := by
  obtain ⟨-, found, shallow⟩ := (load_ok_iff_read limits text root).mp loaded
  obtain ⟨other, alsoFound, requoted⟩ := read_requoted requotes found
  rw [← requoted_depth requoted] at shallow
  exact ⟨other, (load_ok_iff_read limits rewritten other).mpr ⟨fits, alsoFound, shallow⟩, requoted⟩

end Document

end ClientHints
