set_option autoImplicit false

namespace ClientHints.Json.Writer

def escapeChar (c : Char) : List Char :=
  if c = '"' then ['\\', '"']
  else if c = '\\' then ['\\', '\\']
  else if c = '\x08' then ['\\', 'b']
  else if c = '\x0c' then ['\\', 'f']
  else if c = '\n' then ['\\', 'n']
  else if c = '\r' then ['\\', 'r']
  else if c = '\t' then ['\\', 't']
  else if c.toNat < 0x20 then
    ['\\', 'u', '0', '0', Nat.digitChar (c.toNat / 16), Nat.digitChar (c.toNat % 16)]
  else [c]

def quote (text : String) : List Char :=
  '"' :: (text.toList.flatMap escapeChar ++ ['"'])

def member (colon : List Char) (entry : String × String) : List Char :=
  quote entry.1 ++ colon ++ quote entry.2

def compact (members : List (String × String)) : String :=
  String.ofList ('{' :: (List.intercalate [','] (members.map (member [':'])) ++ ['}']))

def newLine (indent : Nat) : List Char :=
  '\n' :: List.replicate indent ' '

def block (opening closing : Char) (indent : Nat) (parts : List (List Char)) : List Char :=
  if parts.isEmpty then [opening, closing]
  else
    opening :: (newLine (indent + 2) ++ List.intercalate (',' :: newLine (indent + 2)) parts ++
      newLine indent ++ [closing])

def prettyAt (indent : Nat) (members : List (String × String)) : List Char :=
  block '{' '}' indent (members.map (member [':', ' ']))

def pretty (members : List (String × String)) : String :=
  String.ofList (prettyAt 0 members)

def prettyArray (objects : List (List (String × String))) : String :=
  String.ofList (block '[' ']' 0 (objects.map (prettyAt 2)))

end ClientHints.Json.Writer
