/-
**Python's `json`, as far as the tool parsers use it.**

A lone surrogate, for which `Char` has no value, is read as the replacement character; the limit on
nesting that an interpreter's stack sets is left out.
-/

import FreeToken.Server.Text

namespace FreeToken

/-- Python's floats: `float(literal)`, and how `json.dumps` writes one. -/
class PyFloat (F : Type) where
  ofLiteral : List Char → F
  repr : F → List Char
  isZero : F → Bool

/-- The values that `json.loads` gives, over a type of floats. -/
inductive Json (F : Type) where
  | null
  | bool (value : Bool)
  | int (value : Int)
  | float (value : F)
  | str (text : List Char)
  | arr (items : List (Json F))
  | obj (members : List (List Char × Json F))

/-- `JSONDecodeError`, or the `ValueError` of an integer with too many digits. -/
inductive JsonError where
  | decode
  | value
  deriving DecidableEq, Repr

namespace Json

variable {F : Type}

/-! ### Reading -/

/-- `WHITESPACE`. -/
def isJsonSpace (c : Char) : Bool := c == ' ' || c == '\t' || c == '\n' || c == '\r'

def skipSpace (text : List Char) : List Char := text.dropWhile isJsonSpace

def hexDigit (c : Char) : Option Nat :=
  if '0' ≤ c ∧ c ≤ '9' then some (c.toNat - '0'.toNat)
  else if 'a' ≤ c ∧ c ≤ 'f' then some (c.toNat - 'a'.toNat + 10)
  else if 'A' ≤ c ∧ c ≤ 'F' then some (c.toNat - 'A'.toNat + 10)
  else none

def hexFour (a b c d : Char) : Option Nat := do
  let a ← hexDigit a
  let b ← hexDigit b
  let c ← hexDigit c
  let d ← hexDigit d
  return 4096 * a + 256 * b + 16 * c + d

def codeChar (code : Nat) : Char :=
  if Nat.isValidChar code then Char.ofNat code else Char.ofNat 0xfffd

def unescape : Char → Option Char
  | '"' => some '"'
  | '\\' => some '\\'
  | '/' => some '/'
  | 'b' => some '\x08'
  | 'f' => some '\x0c'
  | 'n' => some '\n'
  | 'r' => some '\r'
  | 't' => some '\t'
  | _ => none

def isHigh (code : Nat) : Bool := 0xd800 ≤ code && code ≤ 0xdbff

def isLow (code : Nat) : Bool := 0xdc00 ≤ code && code ≤ 0xdfff

/-- `scanstring` after the opening quote, with the high surrogate read last, if any. -/
def scanString : Option Nat → List Char → Option (List Char × List Char)
  | _, [] => none
  | high, '\\' :: 'u' :: a :: b :: c :: d :: rest =>
      match hexFour a b c d, high with
      | none, _ => none
      | some code, some first =>
          if isLow code then
            (scanString none rest).map fun (text, rest) =>
              (codeChar (0x10000 + 1024 * (first - 0xd800) + (code - 0xdc00)) :: text, rest)
          else if isHigh code then
            (scanString (some code) rest).map fun (text, rest) => (codeChar first :: text, rest)
          else
            (scanString none rest).map fun (text, rest) =>
              (codeChar first :: codeChar code :: text, rest)
      | some code, none =>
          if isHigh code then scanString (some code) rest
          else (scanString none rest).map fun (text, rest) => (codeChar code :: text, rest)
  | high, '\\' :: c :: rest =>
      match unescape c with
      | none => none
      | some c => (scanString none rest).map fun (text, rest) =>
          ((high.map codeChar).toList ++ c :: text, rest)
  | high, '"' :: rest => some ((high.map codeChar).toList, rest)
  | high, c :: rest =>
      if c.toNat < 0x20 then none
      else (scanString none rest).map fun (text, rest) =>
        ((high.map codeChar).toList ++ c :: text, rest)

def isDigit (c : Char) : Bool := '0' ≤ c && c ≤ '9'

/-- `(\.[0-9]+)?`. -/
def scanFraction : List Char → List Char × List Char
  | '.' :: rest =>
      if (rest.takeWhile isDigit).isEmpty then ([], '.' :: rest)
      else ('.' :: rest.takeWhile isDigit, rest.dropWhile isDigit)
  | text => ([], text)

/-- `([eE][-+]?[0-9]+)?`. -/
def scanExponent : List Char → List Char × List Char
  | c :: rest =>
      let sign := if rest.head? = some '-' ∨ rest.head? = some '+' then rest.take 1 else []
      let digits := (rest.drop sign.length).takeWhile isDigit
      if (c = 'e' ∨ c = 'E') ∧ digits ≠ [] then
        (c :: (sign ++ digits), rest.drop (sign.length + digits.length))
      else ([], c :: rest)
  | [] => ([], [])

def ofDigits (digits : List Char) : Nat :=
  digits.foldl (fun total c => 10 * total + (c.toNat - '0'.toNat)) 0

/-- The largest number of digits that `int` reads. -/
def maxStrDigits : Nat := 4300

/-- `NUMBER_RE` at the start of the text; nothing where it does not match. -/
def scanNumber [PyFloat F] (text : List Char) : Option (Except JsonError (Json F × List Char)) :=
  let sign := if text.head? = some '-' then ['-'] else []
  let body := text.drop sign.length
  let integer := if body.head? = some '0' then ['0'] else body.takeWhile isDigit
  if integer = [] then none
  else
    let (fraction, rest) := scanFraction (body.drop integer.length)
    let (exponent, rest) := scanExponent rest
    if fraction = [] ∧ exponent = [] then
      if maxStrDigits < integer.length then some (.error .value)
      else
        let value : Int := ofDigits integer
        some (.ok (.int (if sign = [] then value else -value), rest))
    else some (.ok (.float (PyFloat.ofLiteral (sign ++ integer ++ fraction ++ exponent)), rest))

def constants [PyFloat F] : List (List Char × Json F) :=
  [("null".toList, .null), ("true".toList, .bool true), ("false".toList, .bool false),
    ("NaN".toList, .float (PyFloat.ofLiteral "NaN".toList)),
    ("Infinity".toList, .float (PyFloat.ofLiteral "Infinity".toList)),
    ("-Infinity".toList, .float (PyFloat.ofLiteral "-Infinity".toList))]

def scanConstant [PyFloat F] (text : List Char) : Option (Json F × List Char) :=
  (constants.find? fun constant => constant.1.isPrefixOf text).map fun constant =>
    (constant.2, text.drop constant.1.length)

/-- `dict.__setitem__`: a key that is there keeps its place. -/
def setItem {α : Type} (key : List Char) (value : α) : List (List Char × α) → List (List Char × α)
  | [] => [(key, value)]
  | member :: members =>
      if member.1 = key then (key, value) :: members else member :: setItem key value members

mutual

/-- `scan_once`; the fuel bounds the values that one text can hold. -/
def scanOnce [PyFloat F] : Nat → List Char → Except JsonError (Json F × List Char)
  | 0, _ => .error .decode
  | fuel + 1, text =>
      match text with
      | [] => .error .decode
      | '"' :: rest =>
          match scanString none rest with
          | none => .error .decode
          | some (string, rest) => .ok (.str string, rest)
      | '\x7b' :: rest =>
          match skipSpace rest with
          | '\x7d' :: rest => .ok (.obj [], rest)
          | rest => scanMembers fuel [] rest
      | '[' :: rest =>
          match skipSpace rest with
          | ']' :: rest => .ok (.arr [], rest)
          | rest => scanItems fuel [] rest
      | text =>
          match scanNumber text with
          | some number => number
          | none =>
              match scanConstant text with
              | some constant => .ok constant
              | none => .error .decode
termination_by structural fuel => fuel

/-- `JSONObject` at a key. -/
def scanMembers [PyFloat F] : Nat → List (List Char × Json F) → List Char →
    Except JsonError (Json F × List Char)
  | 0, _, _ => .error .decode
  | fuel + 1, members, '"' :: rest =>
      match scanString none rest with
      | none => .error .decode
      | some (key, rest) =>
          match skipSpace rest with
          | ':' :: rest =>
              match scanOnce fuel (skipSpace rest) with
              | .error error => .error error
              | .ok (value, rest) =>
                  match skipSpace rest with
                  | '\x7d' :: rest => .ok (.obj (setItem key value members), rest)
                  | ',' :: rest => scanMembers fuel (setItem key value members) (skipSpace rest)
                  | _ => .error .decode
          | _ => .error .decode
  | _, _, _ => .error .decode
termination_by structural fuel => fuel

/-- `JSONArray` at an item. -/
def scanItems [PyFloat F] : Nat → List (Json F) → List Char → Except JsonError (Json F × List Char)
  | 0, _, _ => .error .decode
  | fuel + 1, items, text =>
      match scanOnce fuel text with
      | .error error => .error error
      | .ok (value, rest) =>
          match skipSpace rest with
          | ']' :: rest => .ok (.arr (items ++ [value]), rest)
          | ',' :: rest => scanItems fuel (items ++ [value]) (skipSpace rest)
          | _ => .error .decode
termination_by structural fuel => fuel

end

/-- `JSONDecoder().raw_decode`: a value at the start of the text, and what follows it. -/
def rawDecode [PyFloat F] (text : List Char) : Except JsonError (Json F × List Char) :=
  scanOnce (text.length + 1) text

/-- The scanner of `json.decoder`, which accepts `NaN` and the infinities and refuses a control
character in a string. -/
def loads [PyFloat F] (text : List Char) : Except JsonError (Json F) :=
  if text.head? = some '\uFEFF' then .error .decode
  else
    match rawDecode (skipSpace text) with
    | .error error => .error error
    | .ok (value, rest) => if skipSpace rest = [] then .ok value else .error .decode

/-! ### Writing -/

def hexChar (n : Nat) : Char := if n < 10 then Char.ofNat (48 + n) else Char.ofNat (87 + n)

/-- `ESCAPE_DCT` with its default for the other control characters. -/
def escapeChar (c : Char) : List Char :=
  if c = '"' then ['\\', '"']
  else if c = '\\' then ['\\', '\\']
  else if c = '\n' then ['\\', 'n']
  else if c = '\r' then ['\\', 'r']
  else if c = '\t' then ['\\', 't']
  else if c = '\x0c' then ['\\', 'f']
  else if c = '\x08' then ['\\', 'b']
  else if c.toNat < 0x20 then
    ['\\', 'u', '0', '0', hexChar (c.toNat / 16), hexChar (c.toNat % 16)]
  else [c]

def escape (text : List Char) : List Char := text.flatMap escapeChar

/-- `json.dumps` of a string. -/
def dumpsString (text : List Char) : List Char := '"' :: (escape text ++ ['"'])

def dumpsInt (value : Int) : List Char := (toString value).toList

mutual

/-- `json.dumps(value, ensure_ascii=False)`. -/
def dumps [PyFloat F] : Json F → List Char
  | null => "null".toList
  | bool true => "true".toList
  | bool false => "false".toList
  | int value => dumpsInt value
  | float value => PyFloat.repr value
  | str text => dumpsString text
  | arr items => '[' :: (dumpsItems items ++ [']'])
  | obj members => '\x7b' :: (dumpsMembers members ++ ['\x7d'])

def dumpsItems [PyFloat F] : List (Json F) → List Char
  | [] => []
  | [item] => dumps item
  | item :: items => dumps item ++ ", ".toList ++ dumpsItems items

def dumpsMembers [PyFloat F] : List (List Char × Json F) → List Char
  | [] => []
  | [(key, value)] => dumpsString key ++ ": ".toList ++ dumps value
  | (key, value) :: members =>
      dumpsString key ++ ": ".toList ++ dumps value ++ ", ".toList ++ dumpsMembers members

end

/-- `bool(value)`. -/
def truthy [PyFloat F] : Json F → Bool
  | null => false
  | bool value => value
  | int value => value != 0
  | float value => !PyFloat.isZero value
  | str text => !text.isEmpty
  | arr items => !items.isEmpty
  | obj members => !members.isEmpty

/-- `value.get(key)` of a `dict`, where `None` and a missing key look the same. -/
def get? {α : Type} (members : List (List Char × α)) (key : List Char) : Option α :=
  (members.find? fun member => member.1 = key).map Prod.snd

end Json

def validJson (F : Type) [PyFloat F] (text : List Char) : Bool :=
  !text.isEmpty && (Json.loads (F := F) text).isOk

end FreeToken
