/-!
Options on a command line: `--name value`, `--name=value`, `-n value`, `-nvalue` and `-n=value`, and
flags without a value. Each option is given once at most; `--` ends them, and nothing may follow it.
-/

set_option autoImplicit false

namespace ClientHints.CommandLine

structure OptionName where
  name : String
  letter : Option Char
  takesValue : Bool
deriving DecidableEq, Repr

inductive Argument where
  | long (name : String) (value : Option String)
  | short (letter : Char) (attached : List Char)
  | stop
  | plain
deriving DecidableEq, Repr

def assigned? (chars : List Char) : Option String :=
  match chars.dropWhile (· != '=') with
  | [] => none
  | _ :: value => some (String.ofList value)

def Argument.read (text : String) : Argument :=
  match text.toList with
  | ['-', '-'] => .stop
  | '-' :: '-' :: chars => .long (String.ofList (chars.takeWhile (· != '='))) (assigned? chars)
  | '-' :: letter :: attached => .short letter attached
  | _ => .plain

def isValue (text : String) : Bool :=
  match text.toList with
  | '-' :: _ :: _ => false
  | _ => true

def attachedValue? : List Char → Option String
  | [] => none
  | '=' :: value => some (String.ofList value)
  | value => some (String.ofList value)

-- The options given, with their values; the value of a flag is empty.
abbrev Given := List (String × String)

namespace Given

def value? (name : String) (given : Given) : Option String :=
  given.lookup name

def has (name : String) (given : Given) : Bool :=
  (given.value? name).isSome

end Given

inductive Scan where
  | ready (given : Given)
  | waiting (name : String) (given : Given)
  | ended (given : Given)
deriving DecidableEq, Repr

namespace Scan

def accept (option : OptionName) (value : Option String) (given : Given) : Option Scan :=
  if given.has option.name then none
  else match option.takesValue, value with
    | true, some value => some (.ready ((option.name, value) :: given))
    | true, none => some (.waiting option.name given)
    | false, none => some (.ready ((option.name, "") :: given))
    | false, some _ => none

def step (known : List OptionName) : Scan → String → Option Scan
  | .ready given, text => match Argument.read text with
    | .long name value => do
      let option ← known.find? fun option => option.name == name
      accept option value given
    | .short letter attached => do
      let option ← known.find? fun option => option.letter == some letter
      accept option (attachedValue? attached) given
    | .stop => some (.ended given)
    | .plain => none
  | .waiting name given, text => if isValue text then some (.ready ((name, text) :: given)) else none
  | .ended _, _ => none

def finish : Scan → Option Given
  | .ready given => some given
  | .waiting _ _ => none
  | .ended given => some given

end Scan

def scan (known : List OptionName) (arguments : List String) : Option Given := do
  let read ← arguments.foldlM (Scan.step known) (.ready [])
  read.finish

end ClientHints.CommandLine
