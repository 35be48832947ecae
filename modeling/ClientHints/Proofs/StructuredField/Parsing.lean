import ClientHints.StructuredField

set_option autoImplicit false

namespace ClientHints.StructuredField

def dropSpaces : List Char → List Char :=
  List.dropWhile (· == ' ')

-- Between the members of a list a tabulator may stand for a space.
def dropBlanks : List Char → List Char :=
  List.dropWhile fun c => c == ' ' || c == '\t'

-- The characters of a string after its opening quote, with what follows the closing one. Only a quote and
-- a backslash may be escaped, and neither may stand for itself.
def readQuoted (admits : Char → Bool) : List Char → Option (List Char × List Char)
  | [] => none
  | '"' :: rest => some ([], rest)
  | ['\\'] => none
  | '\\' :: c :: rest =>
    if c = '"' ∨ c = '\\' then (readQuoted admits rest).map fun (chars, left) => (c :: chars, left) else none
  | c :: rest =>
    if admits c then (readQuoted admits rest).map fun (chars, left) => (c :: chars, left) else none

def readString (admits : Char → Bool) : List Char → Option (String × List Char)
  | '"' :: rest => (readQuoted admits rest).map fun (chars, left) => (String.ofList chars, left)
  | _ => none

def readBrand (admits : Char → Bool) (input : List Char) : Option (Brand × List Char) :=
  match readString admits input with
  | none => none
  | some (name, ';' :: left) => match dropSpaces left with
    | 'v' :: '=' :: left => (readString admits left).map fun (version, left) => (⟨name, some version⟩, left)
    | _ => none
  | some (name, left) => some (⟨name, none⟩, left)

def readList {α : Type} (read : List Char → Option (α × List Char)) (input : List Char) : Option (List α) :=
  match read input with
  | none => none
  | some (first, left) => match dropBlanks left with
    | [] => some [first]
    | ',' :: left =>
      if (dropBlanks left).length < input.length ∧ dropBlanks left ≠ [] then
        (readList read (dropBlanks left)).map (first :: ·)
      else none
    | _ => none
termination_by input.length

def parseList {α : Type} (read : List Char → Option (α × List Char)) (text : String) : Option (List α) :=
  match dropSpaces text.toList with
  | [] => some []
  | input => readList read input

def parseString (admits : Char → Bool) (text : String) : Option String :=
  match readString admits (dropSpaces text.toList) with
  | some (found, left) => if dropSpaces left = [] then some found else none
  | none => none

def parseBoolean (text : String) : Option Bool :=
  match dropSpaces text.toList with
  | '?' :: '0' :: left => if dropSpaces left = [] then some false else none
  | '?' :: '1' :: left => if dropSpaces left = [] then some true else none
  | _ => none

section Written

variable {admits : Char → Bool}

theorem escape_cons (c : Char) (chars : List Char) :
    escape (c :: chars) = (if c = '"' ∨ c = '\\' then ['\\', c] else [c]) ++ escape chars := by
  simp [escape]

theorem read_quoted_escape (chars rest : List Char) (admitted : ∀ c ∈ chars, admits c = true) :
    readQuoted admits (escape chars ++ '"' :: rest) = some (chars, rest) := by
  induction chars with
  | nil => rfl
  | cons c chars ih =>
    have step := ih fun d member => admitted d (List.mem_cons_of_mem c member)
    rw [escape_cons]
    by_cases quote : c = '"'
    · simp [quote, readQuoted, step]
    · by_cases backslash : c = '\\'
      · simp [backslash, readQuoted, step]
      · have plain : admits c = true := admitted c List.mem_cons_self
        simp [quote, backslash, readQuoted, plain, step]

theorem read_string_quote (text : String) (rest : List Char) (admitted : ∀ c ∈ text.toList, admits c = true) :
    readString admits (quote text.toList ++ rest) = some (text, rest) := by
  have body := read_quoted_escape text.toList rest admitted
  simp only [quote, List.cons_append, List.append_assoc, List.nil_append, readString, body, Option.map_some,
    String.ofList_toList]

-- Every entry may be followed by the end of the list or by a comma; only a semicolon would be misread.
theorem read_brand_entry (brand : Brand) (rest : List Char) (clear : ∀ left, rest ≠ ';' :: left)
    (name : ∀ c ∈ brand.name.toList, admits c = true)
    (version : ∀ text ∈ brand.version, ∀ c ∈ text.toList, admits c = true) :
    readBrand admits (brandEntry brand ++ rest) = some (brand, rest) := by
  obtain ⟨text, _ | carried⟩ := brand
  · simp only [readBrand, brandEntry, List.append_nil, read_string_quote text rest name]
  · have parameter := read_string_quote carried rest (version carried rfl)
    simp only [readBrand, brandEntry, List.append_assoc, List.cons_append, read_string_quote text _ name]
    simp [dropSpaces, parameter]

section List

variable {α : Type} {read : List Char → Option (α × List Char)} {write : α → List Char}

theorem join_cons (first second : List Char) (rest : List (List Char)) :
    join (first :: second :: rest) = first ++ ',' :: ' ' :: join (second :: rest) := by
  simp [join, List.intercalate, List.intersperse]

theorem read_list_last (input : List Char) (last : α) (found : read input = some (last, [])) :
    readList read input = some [last] := by
  rw [readList, found]
  rfl

theorem read_list_next (input tail : List Char) (first : α) (found : read input = some (first, ',' :: ' ' :: '"' :: tail))
    (shorter : ('"' :: tail).length < input.length) :
    readList read input = (readList read ('"' :: tail)).map (first :: ·) := by
  have kept : dropBlanks (' ' :: '"' :: tail) = '"' :: tail := rfl
  have comma : dropBlanks (',' :: ' ' :: '"' :: tail) = ',' :: ' ' :: '"' :: tail := rfl
  rw [readList, found]
  simp only [comma, kept]
  rw [if_pos ⟨shorter, nofun⟩]

-- What a reader of members has to give: a member starts with a quote, and the reader stops behind it
-- unless a semicolon follows.
structure Separable (read : List Char → Option (α × List Char)) (write : α → List Char) (member : α) : Prop where
  starts : ∃ chars, write member = '"' :: chars
  stops : ∀ rest, (∀ left, rest ≠ ';' :: left) → read (write member ++ rest) = some (member, rest)

theorem join_starts (first : α) (others : List α) (separable : Separable read write first) :
    ∃ tail, join ((first :: others).map write) = '"' :: tail := by
  obtain ⟨chars, quoted⟩ := separable.starts
  cases others with
  | nil => exact ⟨chars, by simp [join, List.intercalate, quoted]⟩
  | cons second others => exact ⟨_, by rw [List.map_cons, List.map_cons, join_cons, quoted]; rfl⟩

theorem read_list_join (first : α) (others : List α)
    (separable : ∀ member ∈ first :: others, Separable read write member) :
    readList read (join ((first :: others).map write)) = some (first :: others) := by
  induction others generalizing first with
  | nil =>
    have alone := (separable first List.mem_cons_self).stops [] nofun
    apply read_list_last
    simpa [join, List.intercalate] using alone
  | cons second others ih =>
    have followed := (separable first List.mem_cons_self).stops (',' :: ' ' :: join ((second :: others).map write)) nofun
    have below := ih second fun member inside => separable member (List.mem_cons_of_mem first inside)
    obtain ⟨tail, starts⟩ := join_starts second others (separable second (by simp))
    rw [starts] at followed below
    rw [List.map_cons, List.map_cons, join_cons, ← List.map_cons, starts]
    rw [read_list_next _ tail first followed (by simp only [List.length_append, List.length_cons]; omega), below]
    rfl

theorem parse_list_join (list : List α) (separable : ∀ member ∈ list, Separable read write member) :
    parseList read (String.ofList (join (list.map write))) = some list := by
  cases list with
  | nil => rfl
  | cons first others =>
    obtain ⟨tail, starts⟩ := join_starts first others (separable first List.mem_cons_self)
    have found := read_list_join first others separable
    rw [parseList, String.toList_ofList]
    rw [starts] at found ⊢
    exact found

end List

theorem parse_brands (list : List Brand)
    (names : ∀ brand ∈ list, ∀ c ∈ brand.name.toList, admits c = true)
    (versions : ∀ brand ∈ list, ∀ text ∈ brand.version, ∀ c ∈ text.toList, admits c = true) :
    parseList (readBrand admits) (brands list) = some list := by
  apply parse_list_join
  intro brand member
  exact ⟨⟨_, rfl⟩, fun rest clear => read_brand_entry brand rest clear (names brand member) (versions brand member)⟩

theorem parse_strings (list : List String) (admitted : ∀ text ∈ list, ∀ c ∈ text.toList, admits c = true) :
    parseList (readString admits) (strings list) = some list := by
  have separable : ∀ text ∈ list, Separable (readString admits) (fun text : String => quote text.toList) text := by
    intro text member
    exact ⟨⟨_, rfl⟩, fun rest _ => read_string_quote text rest (admitted text member)⟩
  exact parse_list_join list separable

theorem parse_string (text : String) (admitted : ∀ c ∈ text.toList, admits c = true) :
    parseString admits (string text) = some text := by
  have found := read_string_quote text [] admitted
  rw [List.append_nil] at found
  have kept : dropSpaces (quote text.toList) = quote text.toList := rfl
  rw [parseString, string, String.toList_ofList, kept, found]
  rfl

theorem parse_boolean (flag : Bool) : parseBoolean (boolean flag) = some flag := by
  cases flag <;> rfl

end Written

end ClientHints.StructuredField
