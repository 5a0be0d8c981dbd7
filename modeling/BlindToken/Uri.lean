namespace BlindToken

-- The path is empty exactly in a URI that is an authority alone.
structure Uri where
  scheme : Option String
  authority : Option String
  path : String
  query : Option String
deriving DecidableEq

namespace Uri

-- The most bytes that a URI has.
def sizeLimit : Nat := 65534

def schemeLimit : Nat := 64

def isSchemeChar (char : Char) : Bool := char.isAlphanum || char ∈ ['+', '-', '.', '~']

def isAuthorityChar (char : Char) : Bool := char.isAlphanum || char ∈ "!$&'()*+,-.;=_~".toList

def isPathChar (char : Char) : Bool := char.isAlphanum || 0x80 ≤ char.toNat ||
  char ∈ "!\"$%&'()*+,-./:;=@[\\]^_\x7b|\x7d~".toList

def isQueryChar (char : Char) : Bool :=
  isPathChar char && char ≠ '"' || char = '?' || char = '\x60'

-- The separators since the last at sign or closing bracket, and the brackets so far.
structure AuthorityScan where
  colons : Nat
  percent : Bool
  opened : Bool
  closed : Bool

namespace AuthorityScan

def start : AuthorityScan := ⟨0, false, false, false⟩

-- Eight colons stand in an address in brackets and its port at most.
def step (scan : AuthorityScan) : Char → Option AuthorityScan
  | ':' => if scan.colons < 8 then some { scan with colons := scan.colons + 1 } else none
  | '[' => if scan.percent || scan.opened then none else some { scan with opened := true }
  | ']' =>
    if scan.opened && !scan.closed then
      some { scan with colons := 0, percent := false, closed := true }
    else none
  | '@' => some { scan with colons := 0, percent := false }
  | '%' => some { scan with percent := true }
  | char => if isAuthorityChar char then some scan else none

-- A single colon may stand in front of a port. Escapes are for what precedes the host.
def isComplete (scan : AuthorityScan) : Bool :=
  scan.opened == scan.closed && scan.colons ≤ 1 && !scan.percent

end AuthorityScan

def isAuthority (text : List Char) : Bool :=
  (text.foldlM AuthorityScan.step AuthorityScan.start).any AuthorityScan.isComplete &&
    text ≠ [] && text.getLast? ≠ some '@'

def lowerScheme (name : List Char) : String :=
  let lower := String.ofList (name.map Char.toLower)
  if lower = "http" ∨ lower = "https" then lower else String.ofList name

-- The scheme, if there is one, and what follows it. A scheme that is too long is refused.
def splitScheme? (text : List Char) : Option (Option String × List Char) :=
  match text.span isSchemeChar with
  | (name, ':' :: '/' :: '/' :: rest) =>
    if name.length ≤ schemeLimit then some (some (lowerScheme name), rest) else none
  | _ => some (none, text)

-- The path and the query. An empty path stands for the root.
def target? (text : List Char) : Option (String × Option String) := do
  let (path, rest) := (text.takeWhile (· ≠ '#')).span (· ≠ '?')
  guard (path.all isPathChar)
  let path := if path = [] then "/" else String.ofList path
  match rest with
  | _ :: query => do
    guard (query.all isQueryChar)
    return (path, some (String.ofList query))
  | [] => return (path, none)

def isAuthorityEnd (char : Char) : Bool := char = '/' || char = '?' || char = '#'

def ofParts? (text : List Char) : Option Uri := do
  let (scheme, text) ← splitScheme? text
  let (authority, rest) := text.span (!isAuthorityEnd ·)
  guard (isAuthority authority)
  let authority := some (String.ofList authority)
  if scheme.isSome then
    let (path, query) ← target? rest
    return { scheme, authority, path, query }
  else
    guard (rest = [])
    return { scheme, authority, path := "", query := none }

def ofTarget? (text : List Char) : Option Uri := do
  let (path, query) ← target? text
  return { scheme := none, authority := none, path, query }

def parse? (text : String) : Option Uri :=
  if sizeLimit < text.utf8ByteSize then none
  else
    match text.toList with
    | ['*'] => some { scheme := none, authority := none, path := "*", query := none }
    | '/' :: rest => ofTarget? ('/' :: rest)
    | chars => ofParts? chars

-- What follows the last of the separators in a text; all of a text without one.
def afterLast (separator : Char) (text : List Char) : List Char :=
  (text.reverse.takeWhile (· ≠ separator)).reverse

-- The host without the port. An address in brackets keeps its brackets.
def hostOf (authority : String) : String :=
  match afterLast '@' authority.toList with
  | '[' :: address => String.ofList ('[' :: address.takeWhile (· ≠ ']') ++ [']'])
  | name => String.ofList (name.takeWhile (· ≠ ':'))

def host? (uri : Uri) : Option String := uri.authority.map hostOf

-- Digits, behind at most one plus sign, that stand for a number of sixteen bits.
def portOf? (authority : String) : Option UInt16 := do
  guard (authority.toList.contains ':')
  let digits ←
    match afterLast ':' authority.toList with
    | [] => none
    | '+' :: digits => if digits = [] then none else some digits
    | digits => some digits
  guard (digits.all Char.isDigit)
  let port := Nat.ofDigitChars 10 digits 0
  if port < UInt16.size then return UInt16.ofNat port else none

def port? (uri : Uri) : Option UInt16 := uri.authority.bind portOf?

end Uri

end BlindToken
