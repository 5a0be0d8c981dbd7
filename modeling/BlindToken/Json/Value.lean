import BlindToken.Json.Lexeme

namespace BlindToken.Json

-- Fields stand in the order of the text and may repeat a name. Numbers and texts are kept as far as
-- the lexeme has a value.
inductive Value where
  | null
  | bool (value : Bool)
  | number (value : Option Nat)
  | text (content : Option String)
  | array (items : List Value)
  | object (fields : List (Option String × Value))

abbrev Field := Option String × Value

-- A container that waits for the value of its next item or of its next field. What it holds so far
-- stands the latest first.
inductive Frame where
  | array (items : List Value)
  | object (fields : List Field) (name : Option String)

-- What may come next. The containers around that place are kept on a stack, so that depth does
-- not limit a reader.
inductive Reading where
  | atValue (stack : List Frame)
  | atFirstItem (stack : List Frame)
  | atFirstName (stack : List Frame)
  | atName (fields : List Field) (stack : List Frame)
  | atColon (fields : List Field) (name : Option String) (stack : List Frame)
  | pastValue (value : Value) (stack : List Frame)

namespace Reading

def start : Reading := atValue []

def beginValue (stack : List Frame) : Lexeme → Option Reading
  | .openArray => some (atFirstItem stack)
  | .openObject => some (atFirstName stack)
  | .null => some (pastValue .null stack)
  | .bool value => some (pastValue (.bool value) stack)
  | .number value => some (pastValue (.number value) stack)
  | .text content => some (pastValue (.text content) stack)
  | _ => none

def step : Reading → Lexeme → Option Reading
  | atValue stack, lexeme => beginValue stack lexeme
  | atFirstItem stack, .closeArray => some (pastValue (.array []) stack)
  | atFirstItem stack, lexeme => beginValue (.array [] :: stack) lexeme
  | atFirstName stack, .closeObject => some (pastValue (.object []) stack)
  | atFirstName stack, .text name => some (atColon [] name stack)
  | atName fields stack, .text name => some (atColon fields name stack)
  | atColon fields name stack, .colon => some (atValue (.object fields name :: stack))
  | pastValue value (.array items :: stack), .comma =>
    some (atValue (.array (value :: items) :: stack))
  | pastValue value (.array items :: stack), .closeArray =>
    some (pastValue (.array (value :: items).reverse) stack)
  | pastValue value (.object fields name :: stack), .comma =>
    some (atName ((name, value) :: fields) stack)
  | pastValue value (.object fields name :: stack), .closeObject =>
    some (pastValue (.object ((name, value) :: fields).reverse) stack)
  | _, _ => none

def result? : Reading → Option Value
  | pastValue value [] => some value
  | _ => none

def isBlank (char : Char) : Bool := char = ' ' || char = '\t' || char = '\n' || char = '\r'

def run (reading : Reading) (text : List Char) : Option Value :=
  match _hblank : text.dropWhile isBlank with
  | [] => reading.result?
  | char :: chars =>
    match _hread : Lexeme.read? (char :: chars) with
    | none => none
    | some (lexeme, rest) =>
      match reading.step lexeme with
      | some reading => run reading rest
      | none => none
termination_by text.length
decreasing_by
  have := Lexeme.length_read? _hread
  have := (List.dropWhile_sublist isBlank (l := text)).length_le
  grind

end Reading

namespace Value

def parse? (text : String) : Option Value := Reading.start.run text.toList

def text? : Value → Option String
  | text content => content
  | _ => none

-- A natural number below the limit.
def natural? (limit : Nat) : Value → Option Nat
  | number (some value) => if value < limit then some value else none
  | _ => none

def items? : Value → Option (List Value)
  | array items => some items
  | _ => none

-- The value of the field with the name, if it is there. It may not be there twice.
def field? (fields : List Field) (name : String) : Option (Option Value) :=
  match fields.filter (·.1 = some name) with
  | [] => some none
  | [(_, value)] => some (some value)
  | _ => none

-- The values for the names, in their order. An object gives them by name, where each of its own
-- names has to be a text but need not be one of those; an array gives them by position and may
-- stop early.
def members? (names : List String) : Value → Option (List (Option Value))
  | object fields =>
    if fields.all (·.1.isSome) then names.mapM (field? fields) else none
  | array items =>
    if items.length ≤ names.length then
      some (items.map some ++ List.replicate (names.length - items.length) none)
    else none
  | _ => none

end Value

def hexDigit (value : Nat) : Char := Char.ofNat (if value < 10 then 0x30 + value else 0x57 + value)

-- Only the quote, the backslash and control characters need an escape.
def escaped (char : Char) : List Char :=
  match char with
  | '"' => ['\\', '"']
  | '\\' => ['\\', '\\']
  | '\x08' => ['\\', 'b']
  | '\x0c' => ['\\', 'f']
  | '\n' => ['\\', 'n']
  | '\r' => ['\\', 'r']
  | '\t' => ['\\', 't']
  | _ =>
    if char < ' ' then ['\\', 'u', '0', '0', hexDigit (char.toNat / 16), hexDigit (char.toNat % 16)]
    else [char]

def quoted (content : String) : List Char := '"' :: content.toList.flatMap escaped ++ ['"']

def natural (value : Nat) : List Char := Nat.toDigits 10 value

def listed (items : List (List Char)) : List Char := '[' :: [','].intercalate items ++ [']']

-- The name of each field with its value as it is written.
def record (fields : List (String × List Char)) : List Char :=
  '\x7b' :: [','].intercalate (fields.map fun (name, value) => quoted name ++ ':' :: value) ++
    ['\x7d']

end BlindToken.Json
