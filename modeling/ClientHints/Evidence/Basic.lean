import ClientHints.Json.Writer

set_option autoImplicit false

namespace ClientHints

inductive Origin where
  | server
  | header
  | query
  | cookie
deriving DecidableEq, Repr

namespace Origin

def all : List Origin := [.server, .header, .query, .cookie]

def mark : Origin → String
  | .server => "server."
  | .header => "header."
  | .query => "query."
  | .cookie => "cookie."

-- A bare mark names no field.
def field? (origin : Origin) (key : String) : Option String :=
  match origin.mark.toList.isPrefixOf? key.toList with
  | some (c :: rest) => some (String.ofList (c :: rest))
  | _ => none

def ofKey? (key : String) : Option Origin :=
  all.find? fun origin => (origin.field? key).isSome

end Origin

structure Evidence where
  entries : List (String × String)
deriving DecidableEq, Repr

namespace Evidence

def empty : Evidence := ⟨[]⟩

def write (key value : String) : List (String × String) → Option String × List (String × String)
  | [] => (none, [(key, value)])
  | (other, old) :: rest =>
    if other = key then (some old, (key, value) :: rest)
    else
      let written := write key value rest
      (written.1, (other, old) :: written.2)

def insert (e : Evidence) (key value : String) : Option String × Evidence :=
  let written := write key value e.entries
  (written.1, ⟨written.2⟩)

def get? (e : Evidence) (key : String) : Option String :=
  e.entries.lookup key

def contains (e : Evidence) (key : String) : Bool :=
  (e.get? key).isSome

def size (e : Evidence) : Nat :=
  e.entries.length

def isEmpty (e : Evidence) : Bool :=
  e.entries.isEmpty

def clear (_ : Evidence) : Evidence :=
  empty

def keys (e : Evidence) : List String :=
  e.entries.map Prod.fst

def values (e : Evidence) : List String :=
  e.entries.map Prod.snd

def extend (e : Evidence) (entries : List (String × String)) : Evidence :=
  entries.foldl (fun written entry => (written.insert entry.1 entry.2).2) e

def ofList (entries : List (String × String)) : Evidence :=
  empty.extend entries

def fields (e : Evidence) (origin : Origin) : List (String × String) :=
  e.entries.filterMap fun entry => (origin.field? entry.1).map fun field => (field, entry.2)

structure Cursor where
  rest : List (String × String)
deriving DecidableEq, Repr

def cursor (e : Evidence) : Cursor :=
  ⟨e.entries⟩

def Cursor.next : Cursor → Option (String × String) × Cursor
  | ⟨[]⟩ => (none, ⟨[]⟩)
  | ⟨entry :: rest⟩ => (some entry, ⟨rest⟩)

def Cursor.bounds (c : Cursor) : Nat × Option Nat :=
  (c.rest.length, some c.rest.length)

def compact (e : Evidence) : String :=
  Json.Writer.compact e.entries

def pretty (e : Evidence) : String :=
  Json.Writer.pretty e.entries

end Evidence

end ClientHints
