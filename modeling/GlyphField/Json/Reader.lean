import GlyphField.Json.Basic
import GlyphField.Decimal.Numeral

/-!
# GlyphField.Json.Reader

Reading a JSON document from text, in two passes over lists: characters are gathered into
tokens, and tokens are assembled into values on a stack of open containers.
-/

namespace GlyphField.Json

open GlyphField.Decimal (isDigit digitValue ofDigits readFloat?)

/-! ## Tokens -/

/-- The smallest parts of a document. -/
inductive Token where
  | openArray
  | closeArray
  | openObject
  | closeObject
  | comma
  | colon
  | value (j : Json)
deriving Inhabited

/-- What the characters read last belong to. Parts are kept in reverse. -/
inductive Mode where
  | between
  | word (cs : List Char)
  | text (points : List Nat)
  | escape (points : List Nat)
  | hex (points : List Nat) (missing value : Nat)

/-- The white space of JSON. -/
def isSpace (c : Char) : Bool := c = ' ' || c = '\t' || c = '\n' || c = '\r'

/-- Digits without a superfluous leading zero. -/
def isWhole : List Char → Bool
  | [] => false
  | ['0'] => true
  | '0' :: _ => false
  | ds => ds.all isDigit

/-- Whether the text is a number in the grammar of JSON, given without its minus sign. -/
def isNumber (cs : List Char) : Bool :=
  let fractionOk (rest : List Char) := !(rest.takeWhile isDigit).isEmpty
  isWhole (cs.takeWhile isDigit) &&
    match cs.dropWhile isDigit with
    | '.' :: rest => fractionOk rest
    | _ => true

/-- A number: an integer of 64 bits where it is written as one, and a float otherwise. -/
def number? (cs : List Char) : Option Json :=
  let (negative, digits) := match cs with
    | '-' :: rest => (true, rest)
    | _ => (false, cs)
  if !isNumber digits then none
  else if digits.all isDigit && digits.length ≤ 20 then
    let n := ofDigits digits
    if negative then
      if n = 0 then some (real (-0.0))
      else if n ≤ 9223372036854775808 then some (integer (-(n : Int)))
      else (readFloat? cs).map real
    else if n < UInt64.size then some (integer n)
    else (readFloat? cs).map real
  else (readFloat? cs).map real

/-- The value of a bare word. -/
def word? (cs : List Char) : Option Json :=
  if cs = "true".toList then some (bool true)
  else if cs = "false".toList then some (bool false)
  else if cs = "null".toList then some null
  else number? cs

/-- The value of a hexadecimal digit. -/
def hexValue? (c : Char) : Option Nat :=
  if isDigit c then some (digitValue c)
  else if 'a' ≤ c ∧ c ≤ 'f' then some (c.toNat - 87)
  else if 'A' ≤ c ∧ c ≤ 'F' then some (c.toNat - 55)
  else none

/-- Adds a UTF-16 unit; the second half of a pair joins the first. -/
def addUnit (points : List Nat) (u : Nat) : List Nat :=
  match points with
  | high :: rest =>
    if 0xD800 ≤ high ∧ high < 0xDC00 ∧ 0xDC00 ≤ u ∧ u < 0xE000 then
      (0x10000 + (high - 0xD800) * 0x400 + (u - 0xDC00)) :: rest
    else u :: points
  | [] => [u]

/-- A text from its code points in reverse; none if half a pair stands alone. -/
def text? (points : List Nat) : Option Json :=
  if points.any fun p => 0xD800 ≤ p && p < 0xE000 then none
  else some (string (String.ofList (points.reverse.map Char.ofNat)))

/-- The code point of a one-letter escape. -/
def escaped? (c : Char) : Option Nat :=
  match c with
  | '"' | '\\' | '/' => some c.toNat
  | 'b' => some 8
  | 'f' => some 12
  | 'n' => some 10
  | 'r' => some 13
  | 't' => some 9
  | _ => none

/-- The token of a character that stands for itself. -/
def punctuation? : Char → Option Token
  | '[' => some .openArray
  | ']' => some .closeArray
  | '\x7b' => some .openObject
  | '\x7d' => some .closeObject
  | ',' => some .comma
  | ':' => some .colon
  | _ => none

/-- A character between tokens. -/
def begin? (tokens : Array Token) (c : Char) : Option (Array Token × Mode) :=
  if isSpace c then some (tokens, .between)
  else if c = '"' then some (tokens, .text [])
  else match punctuation? c with
    | some t => some (tokens.push t, .between)
    | none => some (tokens, .word [c])

/-- Reads one character. -/
def lexStep (s : Array Token × Mode) (c : Char) : Option (Array Token × Mode) :=
  match s with
  | (tokens, .between) => begin? tokens c
  | (tokens, .word cs) =>
    if isSpace c || (punctuation? c).isSome then
      (word? cs.reverse).bind fun j => begin? (tokens.push (.value j)) c
    else some (tokens, .word (c :: cs))
  | (tokens, .text points) =>
    if c = '"' then (text? points).map fun j => (tokens.push (.value j), .between)
    else if c = '\\' then some (tokens, .escape points)
    else if c.toNat < 0x20 then none
    else some (tokens, .text (c.toNat :: points))
  | (tokens, .escape points) =>
    if c = 'u' then some (tokens, .hex points 4 0)
    else (escaped? c).map fun p => (tokens, .text (p :: points))
  | (tokens, .hex points missing value) =>
    (hexValue? c).map fun d =>
      let value := 16 * value + d
      if missing ≤ 1 then (tokens, .text (addUnit points value))
      else (tokens, .hex points (missing - 1) value)

/-- The tokens of a text. -/
def tokens? (cs : List Char) : Option (Array Token) :=
  (cs.foldlM lexStep (#[], .between)).bind fun
    | (tokens, .between) => some tokens
    | (tokens, .word w) => (word? w.reverse).map fun j => tokens.push (.value j)
    | _ => none

/-! ## Values -/

/-- A container that is still open, its parts in reverse. -/
inductive Container where
  | array (items : List Json)
  | object (fields : List (String × Json)) (key : Option String)

/-- What the next token may be. -/
inductive Expected where
  | item
  | itemOrClose
  | key
  | keyOrClose
  | colon
  | separatorOrClose
  | nothing
deriving DecidableEq

/-- The assembly so far. -/
structure Assembly where
  containers : List Container := []
  expected : Expected := .item
  result : Json := .null

/-- Puts a whole value where it belongs. -/
def Assembly.place (a : Assembly) (j : Json) : Option Assembly :=
  match a.containers with
  | [] => some ⟨[], .nothing, j⟩
  | .array items :: outer => some ⟨.array (j :: items) :: outer, .separatorOrClose, a.result⟩
  | .object fields (some key) :: outer =>
    some ⟨.object ((key, j) :: fields) none :: outer, .separatorOrClose, a.result⟩
  | .object _ none :: _ => none

/-- Whether a value may come next. -/
def Assembly.takesItem (a : Assembly) : Bool :=
  a.expected = .item || a.expected = .itemOrClose

/-- Adds one token. -/
def Assembly.step (a : Assembly) (t : Token) : Option Assembly :=
  match t with
  | .value j =>
    if a.takesItem then a.place j
    else if a.expected = .key ∨ a.expected = .keyOrClose then
      match j, a.containers with
      | .string s, .object fields none :: outer =>
        some { a with containers := .object fields (some s) :: outer, expected := .colon }
      | _, _ => none
    else none
  | .openArray =>
    if a.takesItem then
      some { a with containers := .array [] :: a.containers, expected := .itemOrClose }
    else none
  | .openObject =>
    if a.takesItem then
      some { a with containers := .object [] none :: a.containers, expected := .keyOrClose }
    else none
  | .closeArray =>
    match a.containers with
    | .array items :: outer =>
      if a.expected = .itemOrClose ∨ a.expected = .separatorOrClose then
        { a with containers := outer }.place (.array items.reverse)
      else none
    | _ => none
  | .closeObject =>
    match a.containers with
    | .object fields none :: outer =>
      if a.expected = .keyOrClose ∨ a.expected = .separatorOrClose then
        { a with containers := outer }.place (.object fields.reverse)
      else none
    | _ => none
  | .comma =>
    if a.expected ≠ .separatorOrClose then none
    else match a.containers with
      | .array _ :: _ => some { a with expected := .item }
      | .object _ _ :: _ => some { a with expected := .key }
      | [] => none
  | .colon => if a.expected = .colon then some { a with expected := .item } else none

/-- Reads a document. -/
def read? (s : String) : Option Json :=
  (tokens? s.toList).bind fun tokens =>
    (tokens.foldlM Assembly.step {}).bind fun a =>
      if a.expected = .nothing then some a.result else none

end GlyphField.Json
