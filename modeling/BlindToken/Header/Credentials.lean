namespace BlindToken.Credentials

-- The name is in lower case.
structure Parameter where
  name : String
  value : List Char

-- The value of a header field lists items between commas. An item opens an entry, if its parameter
-- stands behind the name of the scheme, or continues the one before.
structure Item where
  opens : Bool
  parameter : Parameter

abbrev Entry := List Parameter

-- The characters that the value of a parameter may have; none for an unknown parameter.
abbrev Vocabulary := String → Option (Char → Bool)

def scheme : String := "PrivateToken"

def isBlank (char : Char) : Bool := char = ' ' || char = '\t'

def isNameChar (char : Char) : Bool := char.isAlphanum || char = '-'

def isBase64Char (char : Char) : Bool := char.isAlphanum || char ∈ ['-', '_', '+', '/', '=']

def lower (text : List Char) : String := String.ofList (text.map Char.toLower)

-- A value with at least one character, bare or in quotes, and what follows it.
def readValue? (isValueChar : Char → Bool) (text : List Char) : Option (List Char × List Char) :=
  match text with
  | '"' :: quoted =>
    match quoted.span isValueChar with
    | (first :: value, '"' :: rest) => some (first :: value, rest)
    | _ => none
  | _ =>
    match text.span isValueChar with
    | (first :: value, rest) => some (first :: value, rest)
    | _ => none

-- A text that is one parameter, with blanks around its name and its value.
def parameter? (vocabulary : Vocabulary) (text : List Char) : Option Parameter := do
  let (name, text) := (text.dropWhile isBlank).span isNameChar
  guard (name ≠ [])
  let '=' :: text := text.dropWhile isBlank | none
  let isValueChar ← vocabulary (lower name)
  let (value, text) ← readValue? isValueChar (text.dropWhile isBlank)
  guard (text.all isBlank)
  return { name := lower name, value }

-- What follows the scheme's name, in any case, and at least one space.
def afterScheme? (text : List Char) : Option (List Char) :=
  let text := text.dropWhile isBlank
  let name := text.take scheme.length
  match text.drop scheme.length with
  | ' ' :: rest =>
    if lower name = lower scheme.toList then some (rest.dropWhile (· = ' ')) else none
  | _ => none

def item? (vocabulary : Vocabulary) (text : List Char) : Option Item :=
  match afterScheme? text with
  | some text => (parameter? vocabulary text).map (Item.mk true)
  | none => (parameter? vocabulary text).map (Item.mk false)

-- The parameters in front of the first item that opens an entry, and the entries.
def group (items : List Item) : Entry × List Entry :=
  items.foldr (fun item (pending, entries) =>
    if item.opens then ([], (item.parameter :: pending) :: entries)
    else (item.parameter :: pending, entries)) ([], [])

-- The entries of a value, each with at least one parameter.
def entries? (vocabulary : Vocabulary) (text : List Char) : Option (List Entry) := do
  let items ← (text.splitOn ',').mapM (item? vocabulary)
  match group items with
  | ([], entries) => some entries
  | _ => none

-- The value of a parameter that has to stand in an entry exactly once.
def Entry.required? (entry : Entry) (name : String) : Option (List Char) :=
  match entry.filter (·.name = name) with
  | [parameter] => some parameter.value
  | _ => none

-- The value of a parameter that may stand in an entry once.
def Entry.optional? (entry : Entry) (name : String) : Option (Option (List Char)) :=
  match entry.filter (·.name = name) with
  | [] => some none
  | [parameter] => some (some parameter.value)
  | _ => none

end BlindToken.Credentials
