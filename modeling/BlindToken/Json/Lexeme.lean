namespace BlindToken.Json

-- A number has a value if it is written as a natural number alone, and a text has a content if no
-- half of a surrogate pair stands in it alone.
inductive Lexeme where
  | openArray
  | closeArray
  | openObject
  | closeObject
  | comma
  | colon
  | null
  | bool (value : Bool)
  | number (value : Option Nat)
  | text (content : Option String)
deriving DecidableEq

-- What stands between the quotes of a text: characters, and units of UTF-16 as escapes name them.
inductive Piece where
  | char (value : Char)
  | unit (value : Nat)

namespace Piece

def isHigh (unit : Nat) : Bool := 0xd800 ≤ unit && unit < 0xdc00

def isLow (unit : Nat) : Bool := 0xdc00 ≤ unit && unit < 0xe000

def pairChar (high low : Nat) : Char :=
  Char.ofNat (0x10000 + (high - 0xd800) * 0x400 + (low - 0xdc00))

-- The content that the pieces make up behind the characters so far, which are the latest first.
def joined? (done : List Char) : List Piece → Option String
  | [] => some (String.ofList done.reverse)
  | .char value :: rest => joined? (value :: done) rest
  | .unit high :: .unit low :: rest =>
    if isHigh high && isLow low then joined? (pairChar high low :: done) rest
    else if isHigh high || isLow high then none
    else joined? (Char.ofNat high :: done) (.unit low :: rest)
  | .unit value :: rest =>
    if isHigh value || isLow value then none else joined? (Char.ofNat value :: done) rest

end Piece

def hexDigit? (char : Char) : Option Nat :=
  if char.isDigit then some (char.toNat - 0x30)
  else if 'a' ≤ char ∧ char ≤ 'f' then some (char.toNat - 0x57)
  else if 'A' ≤ char ∧ char ≤ 'F' then some (char.toNat - 0x37)
  else none

def unit? (digits : List Char) : Option Nat := do
  let digits ← digits.mapM hexDigit?
  return digits.foldl (fun value digit => value * 16 + digit) 0

-- The character that an escape of one letter stands for.
def escape? : Char → Option Char
  | '"' => some '"'
  | '\\' => some '\\'
  | '/' => some '/'
  | 'b' => some '\x08'
  | 'f' => some '\x0c'
  | 'n' => some '\n'
  | 'r' => some '\r'
  | 't' => some '\t'
  | _ => none

-- The pieces up to the closing quote, behind those so far, and what follows the quote.
def pieces? (done : List Piece) : List Char → Option (List Piece × List Char)
  | [] => none
  | '"' :: rest => some (done.reverse, rest)
  | '\\' :: 'u' :: a :: b :: c :: d :: rest =>
    match unit? [a, b, c, d] with
    | some unit => pieces? (.unit unit :: done) rest
    | none => none
  | '\\' :: letter :: rest =>
    match escape? letter with
    | some value => pieces? (.char value :: done) rest
    | none => none
  | char :: rest => if char < ' ' then none else pieces? (.char char :: done) rest

def digits? (text : List Char) : Option (List Char × List Char) :=
  match text.takeWhile Char.isDigit with
  | [] => none
  | digits => some (digits, text.dropWhile Char.isDigit)

def natural? (text : List Char) : Option (List Char × List Char) :=
  match digits? text with
  | none => none
  | some (digits, rest) =>
    if digits.head? = some '0' ∧ digits ≠ ['0'] then none else some (digits, rest)

-- What follows the fraction, if there is one.
def pastFraction? : List Char → Option (List Char)
  | '.' :: rest => (digits? rest).map Prod.snd
  | text => some text

def pastSign : List Char → List Char
  | '+' :: rest | '-' :: rest => rest
  | text => text

-- What follows the exponent, if there is one.
def pastExponent? : List Char → Option (List Char)
  | 'e' :: rest | 'E' :: rest => (digits? (pastSign rest)).map Prod.snd
  | text => some text

def pastTail? (text : List Char) : Option (List Char) := (pastFraction? text).bind pastExponent?

def hasTail : List Char → Bool
  | '.' :: _ | 'e' :: _ | 'E' :: _ => true
  | _ => false

def number? : List Char → Option (Option Nat × List Char)
  | '-' :: text => do
    let (_, rest) ← natural? text
    return (none, ← pastTail? rest)
  | text => do
    let (digits, rest) ← natural? text
    if hasTail rest then return (none, ← pastTail? rest)
    else return (some (Nat.ofDigitChars 10 digits 0), rest)

namespace Lexeme

-- The lexeme at the front of a text and what follows it.
def read? : List Char → Option (Lexeme × List Char)
  | '[' :: rest => some (openArray, rest)
  | ']' :: rest => some (closeArray, rest)
  | '\x7b' :: rest => some (openObject, rest)
  | '\x7d' :: rest => some (closeObject, rest)
  | ',' :: rest => some (comma, rest)
  | ':' :: rest => some (colon, rest)
  | 'n' :: 'u' :: 'l' :: 'l' :: rest => some (null, rest)
  | 't' :: 'r' :: 'u' :: 'e' :: rest => some (bool true, rest)
  | 'f' :: 'a' :: 'l' :: 's' :: 'e' :: rest => some (bool false, rest)
  | '"' :: rest => do
    let (pieces, rest) ← pieces? [] rest
    return (text (Piece.joined? [] pieces), rest)
  | chars => do
    let (value, rest) ← number? chars
    return (number value, rest)

end Lexeme

theorem length_pieces? {done : List Piece} {text : List Char} {result : List Piece × List Char}
    (h : pieces? done text = some result) : result.2.length < text.length := by
  fun_induction pieces? done text with
  | case1 => simp at h
  | case2 done rest =>
    obtain rfl := Option.some.inj h
    simp
  | case3 done a b c d rest unit hunit ih =>
    have := ih h
    simp only [List.length_cons]
    omega
  | case4 => simp at h
  | case5 done letter rest _ value hvalue ih =>
    have := ih h
    simp only [List.length_cons]
    omega
  | case6 => simp at h
  | case7 => simp at h
  | case8 done char rest _ _ _ _ ih =>
    have := ih h
    simp only [List.length_cons]
    omega

theorem length_digits? {text : List Char} {result : List Char × List Char}
    (h : digits? text = some result) : result.2.length < text.length := by
  unfold digits? at h
  split at h
  · simp at h
  · rename_i hne
    obtain rfl := Option.some.inj h
    have happend := congrArg List.length
      (List.takeWhile_append_dropWhile (p := Char.isDigit) (l := text))
    have hpos := List.length_pos_iff.mpr hne
    rw [List.length_append] at happend
    simp only
    omega

theorem length_natural? {text : List Char} {result : List Char × List Char}
    (h : natural? text = some result) : result.2.length < text.length := by
  unfold natural? at h
  split at h
  · simp at h
  · rename_i hdigits
    split at h
    · simp at h
    · obtain rfl := Option.some.inj h
      exact length_digits? hdigits

theorem length_pastFraction? {text rest : List Char} (h : pastFraction? text = some rest) :
    rest.length ≤ text.length := by
  unfold pastFraction? at h
  split at h
  · obtain ⟨_, hdigits, rfl⟩ := Option.map_eq_some_iff.mp h
    have := length_digits? hdigits
    simp only [List.length_cons]
    omega
  · obtain rfl := Option.some.inj h
    exact Nat.le_refl _

theorem length_pastSign (text : List Char) : (pastSign text).length ≤ text.length := by
  unfold pastSign
  split <;> simp

theorem length_pastExponent? {text rest : List Char} (h : pastExponent? text = some rest) :
    rest.length ≤ text.length := by
  have hsign (rest) := length_pastSign rest
  unfold pastExponent? at h
  split at h
  · obtain ⟨_, hdigits, rfl⟩ := Option.map_eq_some_iff.mp h
    have := length_digits? hdigits
    grind
  · obtain ⟨_, hdigits, rfl⟩ := Option.map_eq_some_iff.mp h
    have := length_digits? hdigits
    grind
  · obtain rfl := Option.some.inj h
    exact Nat.le_refl _

theorem length_pastTail? {text rest : List Char} (h : pastTail? text = some rest) :
    rest.length ≤ text.length := by
  obtain ⟨_, hfraction, hexponent⟩ := Option.bind_eq_some_iff.mp h
  exact Nat.le_trans (length_pastExponent? hexponent) (length_pastFraction? hfraction)

theorem length_number? {text : List Char} {result : Option Nat × List Char}
    (h : number? text = some result) : result.2.length < text.length := by
  unfold number? at h
  split at h
  · simp only [Option.bind_eq_bind, Option.bind_eq_some_iff] at h
    obtain ⟨_, hnatural, _, htail, h⟩ := h
    obtain rfl := Option.some.inj h
    have := length_natural? hnatural
    have := length_pastTail? htail
    simp only [List.length_cons]
    omega
  · simp only [Option.bind_eq_bind, Option.bind_eq_some_iff] at h
    obtain ⟨_, hnatural, h⟩ := h
    have := length_natural? hnatural
    split at h
    · obtain ⟨_, htail, h⟩ := Option.bind_eq_some_iff.mp h
      obtain rfl := Option.some.inj h
      have := length_pastTail? htail
      simp only
      omega
    · obtain rfl := Option.some.inj h
      exact this

-- Reading a lexeme makes progress.
theorem Lexeme.length_read? {text : List Char} {result : Lexeme × List Char}
    (h : read? text = some result) : result.2.length < text.length := by
  unfold read? at h
  split at h
  case h_10 =>
    simp only [Option.bind_eq_bind, Option.bind_eq_some_iff] at h
    obtain ⟨_, hpieces, h⟩ := h
    obtain rfl := Option.some.inj h
    have := length_pieces? hpieces
    simp only [List.length_cons]
    omega
  case h_11 =>
    simp only [Option.bind_eq_bind, Option.bind_eq_some_iff] at h
    obtain ⟨_, hnumber, h⟩ := h
    obtain rfl := Option.some.inj h
    exact length_number? hnumber
  all_goals
    obtain rfl := Option.some.inj h
    simp only [List.length_cons]
    omega

end BlindToken.Json
