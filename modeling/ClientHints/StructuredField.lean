set_option autoImplicit false

namespace ClientHints

structure Brand where
  name : String
  version : Option String
deriving DecidableEq, Repr

namespace StructuredField

def isPrintable (text : String) : Bool :=
  text.toList.all fun c => 0x20 ≤ c.toNat && c.toNat ≤ 0x7E

def escape : List Char → List Char :=
  List.flatMap fun c => if c = '"' || c = '\\' then ['\\', c] else [c]

def quote (chars : List Char) : List Char :=
  '"' :: (escape chars ++ ['"'])

def join (entries : List (List Char)) : List Char :=
  List.intercalate [',', ' '] entries

def brandEntry (brand : Brand) : List Char :=
  quote brand.name.toList ++
    match brand.version with
    | some version => ';' :: 'v' :: '=' :: quote version.toList
    | none => []

def string (text : String) : String :=
  String.ofList (quote text.toList)

def push (out : String) (c : Char) : String :=
  if c = '"' || c = '\\' then (out.push '\\').push c else out.push c

def append (before text : String) : String :=
  (text.toList.foldl push (before.push '"')).push '"'

def boolean (value : Bool) : String :=
  if value then "?1" else "?0"

def brands (list : List Brand) : String :=
  String.ofList (join (list.map brandEntry))

def strings (list : List String) : String :=
  String.ofList (join (list.map fun text => quote text.toList))

end StructuredField

end ClientHints
