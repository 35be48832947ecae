import ClientHints.Text
import ClientHints.CommandLine.Command
import ClientHints.Converter

set_option autoImplicit false

namespace ClientHints

namespace CommandLine

-- A terminal on standard input is not read.
inductive ReadFault where
  | terminal
  | system (number : Nat)
  | notText
deriving DecidableEq, Repr

namespace ReadFault

def missing : ReadFault := .system 2

def notDirectory : ReadFault := .system 20

def isDirectory : ReadFault := .system 21

def systemText (number : Nat) : String :=
  match number with
  | 2 => "No such file or directory"
  | 5 => "Input/output error"
  | 13 => "Permission denied"
  | 20 => "Not a directory"
  | 21 => "Is a directory"
  | 36 => "File name too long"
  | 40 => "Too many levels of symbolic links"
  | other => "Unknown error " ++ toString other

def message : ReadFault → String
  | .terminal => "No input provided on stdin"
  | .system number => systemText number ++ " (os error " ++ toString number ++ ")"
  | .notText => "stream did not contain valid UTF-8"

end ReadFault

inductive Failure where
  | unreadable (fault : ReadFault)
  | rejected (rejection : Rejection)
deriving DecidableEq, Repr

namespace Failure

def code : Failure → String
  | .unreadable .terminal => "NO_INPUT"
  | .unreadable _ => "IO_ERROR"
  | .rejected rejection => rejection.code

def message : Failure → String
  | .unreadable fault => fault.message
  | .rejected rejection => rejection.message

def advice : Failure → String
  | .unreadable .terminal => "Pipe input in or pass --input FILE"
  | .unreadable _ => "Check file paths and permissions"
  | .rejected (.malformedJson _ _) => "Check JSON syntax"
  | .rejected (.malformedBase64 _) => "Input must be padded standard Base64 without line breaks"
  | .rejected (.unexpectedShape _) => "Check that --format matches the input"
  | .rejected (.resourceLimit _ _ _) => "Raise --max-input-bytes if the input is legitimate"

def line (failure : Failure) : String :=
  Json.Writer.compact
    [("code", failure.code), ("message", failure.message), ("hint", failure.advice)] ++ "\n"

end Failure

structure Output where
  exitCode : UInt8
  stdout : String
  stderr : String
deriving DecidableEq, Repr

namespace Output

def print (text : String) : Output := ⟨0, text ++ "\n", ""⟩

def fail (failure : Failure) : Output := ⟨1, "", failure.line⟩

def ofExcept : Except Failure String → Output
  | .ok text => print text
  | .error failure => fail failure

-- Help and the wording of usage errors are the option parser's own and are left out: what is no command gets this answer.
def usage : Output := ⟨2, "", String.intercalate "\n"
  ["usage: uach transform --format FORMAT [--input PATH] [--pretty] [--capacity N]",
   "                      [--max-input-bytes N]",
   "       uach encode [--input PATH]",
   "       uach hints [--json]",
   "       uach --version",
   "FORMAT is ghev, ghev-base64 or sua; PATH is a file, or - for standard input",
   ""]⟩

end Output

def padEnd (width : Nat) (text : String) : String :=
  text ++ String.ofList (List.replicate (width - text.length) ' ')

def hintLine (hint : Hint) : String :=
  "  " ++ padEnd 30 hint.headerName ++ " -> " ++ hint.evidenceKey

def hintTable : String :=
  String.intercalate "\n" (["Client Hints", "============"] ++ Hint.all.map hintLine)

def hintMembers (hint : Hint) : List (String × String) :=
  [("hint", hint.name), ("header", hint.headerName), ("evidence_key", hint.evidenceKey)]

def text (input : Except ReadFault Bytes) : Except Failure String :=
  match input with
  | .error fault => .error (.unreadable fault)
  | .ok octets => match Utf8.decode octets with
    | .ok text => .ok text
    | .error _ => .error (.unreadable .notText)

def Conversion.converter (conversion : Conversion) : Converter where
  capacity := conversion.capacity
  limits :=
    ⟨conversion.inputSize.getD Limits.standard.inputSize, Limits.standard.nestingDepth⟩

def Conversion.answer (conversion : Conversion) (input : Except ReadFault Bytes) :
    Except Failure String := do
  let input ← text input
  match conversion.converter.convert conversion.format (Blank.trim input) with
  | .ok evidence => .ok (if conversion.pretty then evidence.pretty else evidence.compact)
  | .error rejection => .error (.rejected rejection)

def encoded (input : Except ReadFault Bytes) : Except Failure String :=
  (text input).map fun input => Base64.encodeText (Utf8.encode (Blank.trimEnd input))

inductive Session where
  | done (output : Output)
  | reading (source : Source) (answer : Except ReadFault Bytes → Output)

def Command.session : Command → Session
  | .convert conversion =>
    .reading conversion.source fun input => .ofExcept (conversion.answer input)
  | .encode source => .reading source fun input => .ofExcept (encoded input)
  | .hints json =>
    .done (.print (if json then Json.Writer.prettyArray (Hint.all.map hintMembers) else hintTable))
  | .version => .done (.print ("uach " ++ Converter.version))

def session (arguments : List String) : Session :=
  match Command.ofArguments? arguments with
  | some command => command.session
  | none => .done .usage

end CommandLine

end ClientHints
