import BlindToken.Base64

namespace BlindToken

namespace Text

-- What follows the given start.
def after? (start text : List Char) : Option (List Char) :=
  if start.isPrefixOf text then some (text.drop start.length) else none

-- What precedes the given ending.
def before? (ending text : List Char) : Option (List Char) :=
  if ending.isSuffixOf text then some (text.take (text.length - ending.length)) else none

end Text

namespace Pem

def lineWidth : Nat := 64

def beginMark : List Char := "-----BEGIN ".toList

def endMark : List Char := "-----END ".toList

def dashes : List Char := "-----".toList

-- Base64 in lines of 64 symbols between two labelled lines.
def encode (label : String) (document : Bytes) : String :=
  let lines := chunks lineWidth (Base64.encode Base64.standard document)
  let frame (mark : List Char) := mark ++ label.toList ++ dashes ++ ['\n']
  String.ofList (frame beginMark ++ lines.flatMap (· ++ ['\n']) ++ frame endMark)

def lineEnds : List (List Char) := [['\r', '\n'], ['\n'], ['\r']]

def dropLineEnd? (text : List Char) : Option (List Char) :=
  lineEnds.findSome? fun lineEnd => Text.after? lineEnd text

def dropFinalLineEnd? (text : List Char) : Option (List Char) :=
  lineEnds.findSome? fun lineEnd => Text.before? lineEnd text

-- The text from the first begin mark on that starts the text or a line. No NUL may come before.
def skipPreamble? (text : List Char) : Option (List Char) :=
  if beginMark.isPrefixOf text then some text else skipLines text
where
  skipLines : List Char → Option (List Char)
    | [] => none
    | char :: rest =>
      if char = '\x00' then none
      else if char = '\n' ∧ beginMark.isPrefixOf rest then some rest
      else skipLines rest

-- The symbols without line ends. All lines are full but the last, which may be followed by an
-- empty line if it is not full.
def joinLines? : (fuel : Nat) → List Char → Option (List Char)
  | 0, _ => none
  | fuel + 1, text =>
    if text.length ≤ lineWidth then
      let line := (dropFinalLineEnd? text).getD text
      if line = [] then none else some line
    else do
      let rest ← dropLineEnd? (text.drop lineWidth)
      return text.take lineWidth ++ (← joinLines? fuel rest)

-- The document under the label. Text may stand before it but not after it.
def decode? (label : String) (text : String) : Option Bytes := do
  let frame := label.toList ++ dashes
  let text ← Text.after? (beginMark ++ frame) (← skipPreamble? text.toList)
  let text ← dropLineEnd? text
  let text ← Text.before? (endMark ++ frame) ((dropFinalLineEnd? text).getD text)
  let text ← dropFinalLineEnd? text
  let symbols ← joinLines? (text.length + 1) text
  Base64.decode? Base64.standard .required symbols

end Pem

end BlindToken
