import ClientHints.Json.Numeral
import ClientHints.Json.Quoted
import ClientHints.Json.Value

/-!
JSON texts, read octet by octet. A state stands either between two tokens or within one, and knows the
arrays and objects around it; a fault is placed just after the octet that causes it, or at the end of
the text.
-/

set_option autoImplicit false

namespace ClientHints.Json

-- An array or object that waits for a value, with what came before, newest first.
inductive Context where
  | item (items : List Json)
  | member (members : List (String × Json)) (key : String)

namespace Reader

inductive Point where
  | value
  | firstItem
  | nextItem (items : List Json)
  | afterItem (items : List Json)
  | firstKey
  | nextKey (members : List (String × Json))
  | afterKey (members : List (String × Json)) (key : String)
  | afterMember (members : List (String × Json))
  | finished (value : Json)

inductive Token where
  | word (expected : Bytes) (value : Json)
  | numeral (n : Numeral)
  | string (q : Quoted)
  | key (members : List (String × Json)) (q : Quoted)

inductive State where
  | between (point : Point) (outer : List Context)
  | within (token : Token) (outer : List Context)

-- A reason; the fault lies before the octet just seen if that was not taken, and by so many columns
-- further back.
structure Slip where
  reason : Reason
  taken : Bool
  back : Nat

def refuse (reason : Reason) : Except Slip State :=
  .error ⟨reason, true, 0⟩

def nestingBound : Nat := 127

def start : State := .between .value []

def isSpace (b : UInt8) : Bool :=
  b == 0x20 || b == 0x0A || b == 0x09 || b == 0x0D

def hand (value : Json) : List Context → Point × List Context
  | [] => (.finished value, [])
  | .item items :: outer => (.afterItem (value :: items), outer)
  | .member members key :: outer => (.afterMember ((key, value) :: members), outer)

def deliver (value : Json) (outer : List Context) : State :=
  .between (hand value outer).1 (hand value outer).2

def enter (point : Point) (outer : List Context) : Except Slip State :=
  if outer.length < nestingBound then .ok (.between point outer) else refuse .tooDeep

def begin (outer : List Context) (b : UInt8) : Except Slip State :=
  if b = 0x22 then .ok (.within (.string Quoted.start) outer)
  else if b = 0x5B then enter .firstItem outer
  else if b = 0x7B then enter .firstKey outer
  else if b = 0x6E then .ok (.within (.word [0x75, 0x6C, 0x6C] .null) outer)
  else if b = 0x74 then .ok (.within (.word [0x72, 0x75, 0x65] (.bool true)) outer)
  else if b = 0x66 then .ok (.within (.word [0x61, 0x6C, 0x73, 0x65] (.bool false)) outer)
  else if b = 0x2D then .ok (.within (.numeral (Numeral.start true)) outer)
  else match (Numeral.start false).step b with
    | .more n => .ok (.within (.numeral n) outer)
    | _ => refuse .expectedValue

def beginKey (members : List (String × Json)) (outer : List Context) : State :=
  .within (.key members Quoted.start) outer

def mark (point : Point) (outer : List Context) (b : UInt8) : Except Slip State :=
  match point with
  | .value => begin outer b
  | .firstItem =>
    if b = 0x5D then .ok (deliver (.array []) outer) else begin (.item [] :: outer) b
  | .nextItem items =>
    if b = 0x5D then refuse .trailingComma else begin (.item items :: outer) b
  | .afterItem items =>
    if b = 0x2C then .ok (.between (.nextItem items) outer)
    else if b = 0x5D then .ok (deliver (.array items.reverse) outer)
    else refuse .expectedCommaOrBracket
  | .firstKey =>
    if b = 0x7D then .ok (deliver (.object []) outer)
    else if b = 0x22 then .ok (beginKey [] outer)
    else refuse .keyNotString
  | .nextKey members =>
    if b = 0x22 then .ok (beginKey members outer)
    else if b = 0x7D then refuse .trailingComma
    else refuse .keyNotString
  | .afterKey members key =>
    if b = 0x3A then .ok (.between .value (.member members key :: outer))
    else refuse .expectedColon
  | .afterMember members =>
    if b = 0x2C then .ok (.between (.nextKey members) outer)
    else if b = 0x7D then .ok (deliver (.object (Members.ofList members.reverse)) outer)
    else refuse .expectedCommaOrBrace
  | .finished _ => refuse .trailingCharacters

def pass (point : Point) (outer : List Context) (b : UInt8) : Except Slip State :=
  if isSpace b then .ok (.between point outer) else mark point outer b

def stepQuoted (q : Quoted) (b : UInt8) (within : Quoted → State) (closed : String → State) :
    Except Slip State :=
  match q.step b with
  | .more q' => .ok (within q')
  | .closed text => .ok (closed text)
  | .refused reason back => .error ⟨reason, true, back⟩

-- An octet that is not part of the literal is read after it.
def stepNumeral (n : Numeral) (outer : List Context) (b : UInt8) : Except Slip State :=
  match n.step b with
  | .more n' => .ok (.within (.numeral n') outer)
  | .refused reason => refuse reason
  | .ended => match n.finish with
    | .ok found => pass (hand (.number found) outer).1 (hand (.number found) outer).2 b
    | .error reason => .error ⟨reason, false, 0⟩

def stepWord (expected : Bytes) (value : Json) (outer : List Context) (b : UInt8) :
    Except Slip State :=
  match expected with
  | [] => refuse .expectedIdent
  | [last] => if b = last then .ok (deliver value outer) else refuse .expectedIdent
  | next :: rest =>
    if b = next then .ok (.within (.word rest value) outer) else refuse .expectedIdent

def step (state : State) (b : UInt8) : Except Slip State :=
  match state with
  | .between point outer => pass point outer b
  | .within (.word expected value) outer => stepWord expected value outer b
  | .within (.numeral n) outer => stepNumeral n outer b
  | .within (.string q) outer =>
    stepQuoted q b (fun q' => .within (.string q') outer)
      (fun text => deliver (.string text) outer)
  | .within (.key members q) outer =>
    stepQuoted q b (fun q' => .within (.key members q') outer)
      (fun key => .between (.afterKey members key) outer)

def feed (state : State) : Bytes → Except Fault State
  | [] => .ok state
  | b :: rest => match step state b with
    | .ok next => feed next rest
    | .error slip =>
      let behind := if slip.taken then rest.length else rest.length + 1
      .error ⟨slip.reason, behind, slip.back⟩

def finishPoint : Point → Except Reason Json
  | .value | .nextItem _ | .nextKey _ => .error .endInValue
  | .firstItem | .afterItem _ => .error .endInList
  | .firstKey | .afterKey _ _ | .afterMember _ => .error .endInObject
  | .finished value => .ok value

def finish : State → Except Reason Json
  | .between point _ => finishPoint point
  | .within (.word _ _) _ => .error .endInValue
  | .within (.string _) _ | .within (.key _ _) _ => .error .endInString
  | .within (.numeral n) outer => match n.finish with
    | .ok found => finishPoint (hand (.number found) outer).1
    | .error reason => .error reason

end Reader

def read (text : Bytes) : Except Fault Json :=
  match Reader.feed Reader.start text with
  | .error fault => .error fault
  | .ok state => match Reader.finish state with
    | .ok value => .ok value
    | .error reason => .error ⟨reason, 0, 0⟩

end ClientHints.Json
