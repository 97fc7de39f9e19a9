import Breakthrough.Json.Value

/-!
# Reading JSON

A text is cut into tokens, and the tokens are put together to a document. The reader is strict: it
takes no comments, no trailing commas, no raw control characters, no byte order mark, and nothing
after the document.
-/

namespace Breakthrough.Json

/-- The smallest parts of a document. -/
inductive Token where
  | openList
  | closeList
  | openObject
  | closeObject
  | comma
  | colon
  | null
  | bool (value : Bool)
  | number (literal : Decimal.Literal)
  /-- A string, without a text if an escape names half a character. -/
  | string (text? : Option String)

namespace Token

def hexDigit? (c : Char) : Option Nat :=
  if '0' ≤ c ∧ c ≤ '9' then some (c.toNat - '0'.toNat)
  else if 'a' ≤ c ∧ c ≤ 'f' then some (c.toNat - 'a'.toNat + 10)
  else if 'A' ≤ c ∧ c ≤ 'F' then some (c.toNat - 'A'.toNat + 10)
  else none

/-- One unit of a string: a character, or a 16-bit unit from an escape. -/
inductive Piece where
  | char (c : Char)
  | unit (n : Nat)

def escape? : Char → Option Char
  | '"' => some '"'
  | '\\' => some '\\'
  | '/' => some '/'
  | 'b' => some '\x08'
  | 'f' => some '\x0c'
  | 'n' => some '\n'
  | 'r' => some '\r'
  | 't' => some '\t'
  | _ => none

/-- The pieces of a string up to its closing quote, and what follows. -/
def pieces : List Char → Option (List Piece × List Char)
  | [] => none
  | '"' :: rest => some ([], rest)
  | '\\' :: 'u' :: a :: b :: c :: d :: rest => do
    let n := 4096 * (← hexDigit? a) + 256 * (← hexDigit? b) + 16 * (← hexDigit? c) + (← hexDigit? d)
    let (ps, rest) ← pieces rest
    return (.unit n :: ps, rest)
  | '\\' :: e :: rest => do
    let c ← escape? e
    let (ps, rest) ← pieces rest
    return (.char c :: ps, rest)
  | c :: rest => do
    guard (0x20 ≤ c.toNat ∧ c ≠ '\\')
    let (ps, rest) ← pieces rest
    return (.char c :: ps, rest)

/-- The characters of pieces; two units may make one character, and a lone half makes none. -/
def join : List Piece → Option (List Char)
  | [] => some []
  | .char c :: ps => (join ps).map (c :: ·)
  | .unit n :: ps =>
    if n < 0xd800 ∨ 0xdfff < n then (join ps).map (Char.ofNat n :: ·)
    else
      match ps with
      | .unit m :: ps =>
        if n < 0xdc00 ∧ 0xdc00 ≤ m ∧ m ≤ 0xdfff then
          (join ps).map (Char.ofNat (0x10000 + 1024 * (n - 0xd800) + (m - 0xdc00)) :: ·)
        else none
      | _ => none

def digits (cs : List Char) : List Nat × List Char :=
  ((cs.takeWhile Char.isDigit).map fun c => c.toNat - '0'.toNat, cs.dropWhile Char.isDigit)

/-- The digits that a text begins with, at least one. -/
def someDigits (cs : List Char) : Option (List Nat × List Char) :=
  match digits cs with
  | ([], _) => none
  | r => some r

/-- The places after a point, if there is one. -/
def places : List Char → Option (List Nat × List Char)
  | '.' :: rest => someDigits rest
  | cs => some ([], cs)

def exponentSign : List Char → Bool × List Char
  | '-' :: rest => (true, rest)
  | '+' :: rest => (false, rest)
  | cs => (false, cs)

def exponent (cs : List Char) : Option (Option (Bool × List Nat) × List Char) :=
  match cs with
  | 'e' :: rest | 'E' :: rest => do
    let (negative, rest) := exponentSign rest
    let (ds, rest) ← someDigits rest
    return (some (negative, ds), rest)
  | _ => some (none, cs)

/-- A number; zero is the only one that begins with a zero. -/
def numeral (cs : List Char) : Option (Decimal.Literal × List Char) := do
  let (negative, cs) := match cs with
    | '-' :: rest => (true, rest)
    | _ => (false, cs)
  let (whole, cs) ← someDigits cs
  guard (whole.head? ≠ some 0 ∨ whole.length = 1)
  let (places, cs) ← places cs
  let (exponent?, cs) ← exponent cs
  return (⟨negative, whole, places, exponent?⟩, cs)

/-- The next token and what follows it. -/
def next? : List Char → Option (Token × List Char)
  | '[' :: rest => some (openList, rest)
  | ']' :: rest => some (closeList, rest)
  | '\x7b' :: rest => some (openObject, rest)
  | '\x7d' :: rest => some (closeObject, rest)
  | ',' :: rest => some (comma, rest)
  | ':' :: rest => some (colon, rest)
  | '"' :: rest => (pieces rest).map fun (ps, rest) => (string ((join ps).map String.ofList), rest)
  | 'n' :: 'u' :: 'l' :: 'l' :: rest => some (null, rest)
  | 't' :: 'r' :: 'u' :: 'e' :: rest => some (bool true, rest)
  | 'f' :: 'a' :: 'l' :: 's' :: 'e' :: rest => some (bool false, rest)
  | cs => (numeral cs).map fun (l, rest) => (number l, rest)

/-- Whether a character may stand between tokens. -/
def isGap (c : Char) : Bool := c == ' ' || c == '\n' || c == '\t' || c == '\r'

/-- The tokens of a text of at most `fuel` characters. -/
def scan : (fuel : Nat) → List Char → Option (List Token)
  | 0, cs => if (cs.dropWhile isGap).isEmpty then some [] else none
  | fuel + 1, cs =>
    match cs.dropWhile isGap with
    | [] => some []
    | cs => do
      let (t, rest) ← next? cs
      return t :: (← scan fuel rest)

end Token

mutual

def value : (fuel : Nat) → List Token → Option (Json × List Token)
  | 0, _ => none
  | fuel + 1, ts =>
    match ts with
    | .null :: ts => some (.null, ts)
    | .bool b :: ts => some (.bool b, ts)
    | .number l :: ts => some (.number l, ts)
    | .string (some s) :: ts => some (.string s, ts)
    | .string none :: ts => some (.garbled, ts)
    | .openList :: .closeList :: ts => some (.list [], ts)
    | .openList :: ts => (items fuel ts).map fun (js, ts) => (.list js, ts)
    | .openObject :: .closeObject :: ts => some (.object [], ts)
    | .openObject :: ts =>
      (fields fuel ts).map fun (fs, ts) => (fs.elim .garbled .object, ts)
    | _ => none

/-- The documents of a list, up to its end. -/
def items : (fuel : Nat) → List Token → Option (List Json × List Token)
  | 0, _ => none
  | fuel + 1, ts => do
    match ← value fuel ts with
    | (j, .comma :: ts) =>
      let (js, ts) ← items fuel ts
      return (j :: js, ts)
    | (j, .closeList :: ts) => return ([j], ts)
    | _ => none

/-- The fields of an object, up to its end; there are none if a key has no text. -/
def fields : (fuel : Nat) → List Token → Option (Option (List (String × Json)) × List Token)
  | 0, _ => none
  | fuel + 1, ts =>
    match ts with
    | .string key :: .colon :: ts => do
      match ← value fuel ts with
      | (j, .comma :: ts) =>
        let (fs, ts) ← fields fuel ts
        return (key.bind fun k => fs.map ((k, j) :: ·), ts)
      | (j, .closeObject :: ts) => return (key.map fun k => [(k, j)], ts)
      | _ => none
    | _ => none

end

/-- Reads a document, which must be all there is. -/
def parse? (s : String) : Option Json := do
  let cs := s.toList
  let ts ← Token.scan cs.length cs
  match ← value (2 * ts.length + 2) ts with
  | (j, []) => return j
  | _ => none

end Breakthrough.Json
