import Mathlib.Data.List.Basic
import Mcpi.Lib.Json.Value

/-!
# JSON texts

`stringify` writes a value the way `JSON.stringify` does and `parse` reads a text the way
`JSON.parse` does. The reader is a pushdown automaton: a stack of the arrays and objects
that are open and a mode that says what the next character may be. Written so, what the
reader makes of a text that was cut off, or of two texts glued together, is a question
about the state it is in, and not about a parse that failed somewhere.

Numbers are abstract. `JsonNumber` asks of them what number texts guarantee: the text is a
number token, and reading it gives the number back.
-/

/-! ## Number tokens -/

/-- Where a number token stands: `-`, `0`, digits, `.`, digits after it, `e`, `e+`, digits of
the exponent. -/
inductive NumberState where
  | minus
  | zero
  | int
  | dot
  | frac
  | exp
  | expSign
  | expDigits
  deriving DecidableEq

namespace NumberState

/-- The first character of a number. -/
def start (c : Char) : Option NumberState :=
  if c = '-' then some .minus
  else if c = '0' then some .zero
  else if c.isDigit then some .int
  else none

/-- One more character of a number. -/
def next (st : NumberState) (c : Char) : Option NumberState :=
  match st with
  | .minus => if c = '0' then some .zero else if c.isDigit then some .int else none
  | .zero => if c = '.' then some .dot else if c = 'e' ∨ c = 'E' then some .exp else none
  | .int =>
    if c.isDigit then some .int
    else if c = '.' then some .dot
    else if c = 'e' ∨ c = 'E' then some .exp else none
  | .dot => if c.isDigit then some .frac else none
  | .frac => if c.isDigit then some .frac else if c = 'e' ∨ c = 'E' then some .exp else none
  | .exp =>
    if c = '+' ∨ c = '-' then some .expSign else if c.isDigit then some .expDigits else none
  | .expSign => if c.isDigit then some .expDigits else none
  | .expDigits => if c.isDigit then some .expDigits else none

/-- The token may end here. -/
def final : NumberState → Bool
  | .zero | .int | .frac | .expDigits => true
  | .minus | .dot | .exp | .expSign => false

/-- The state after more characters of the token. -/
def run (st : NumberState) : List Char → Option NumberState
  | [] => some st
  | c :: cs => (st.next c).bind fun st' => st'.run cs

end NumberState

/-- `text` is a whole number token. -/
def IsNumberToken (text : List Char) : Prop :=
  ∃ c cs st st', text = c :: cs ∧ NumberState.start c = some st ∧ st.run cs = some st' ∧ st'.final = true

/-- JavaScript numbers, as far as JSON texts and integer checks show them. -/
class JsonNumber (ν : Type) where
  /-- The text `JSON.stringify` writes. -/
  text : ν → List Char
  /-- The value of a number token. -/
  value : List Char → ν
  /-- An integer as a number. -/
  ofNat : Nat → ν
  /-- The safe integer from zero on that a number is. -/
  safeNat? : ν → Option SafeNat
  isNumberToken_text : ∀ n, IsNumberToken (text n)
  value_text : ∀ n, value (text n) = n
  safeNat?_ofNat : ∀ k : SafeNat, safeNat? (ofNat k) = some k

namespace Json

variable {ν : Type}

/-! ## Writing -/

/-- The hexadecimal digit of a number below sixteen. -/
def hexDigit (n : Nat) : Char := Nat.digitChar n

/-- One character of a string literal. -/
def escapeChar (c : Char) : List Char :=
  if c = '"' then ['\\', '"']
  else if c = '\\' then ['\\', '\\']
  else if c.toNat = 0x08 then ['\\', 'b']
  else if c.toNat = 0x0C then ['\\', 'f']
  else if c = '\n' then ['\\', 'n']
  else if c = '\r' then ['\\', 'r']
  else if c = '\t' then ['\\', 't']
  else if c.toNat < 0x20 then
    ['\\', 'u', '0', '0', hexDigit (c.toNat / 16), hexDigit (c.toNat % 16)]
  else [c]

/-- A string literal without its opening quote. -/
def stringBody (s : List Char) : List Char := s.flatMap escapeChar ++ ['"']

/-- A string literal. -/
def stringLiteral (s : String) : List Char := '"' :: stringBody s.toList

section Stringify

variable [JsonNumber ν]

mutual
/-- `JSON.stringify` -/
def stringify : Json ν → List Char
  | .null => ['n', 'u', 'l', 'l']
  | .bool true => ['t', 'r', 'u', 'e']
  | .bool false => ['f', 'a', 'l', 's', 'e']
  | .num n => JsonNumber.text n
  | .str s => stringLiteral s
  | .arr items => '[' :: (stringifyItems items ++ [']'])
  | .obj members => '{' :: (stringifyMembers members ++ ['}'])

/-- The items of an array, separated by commas. -/
def stringifyItems : List (Json ν) → List Char
  | [] => []
  | [v] => stringify v
  | v :: w :: vs => stringify v ++ ',' :: stringifyItems (w :: vs)

/-- The members of an object, separated by commas. -/
def stringifyMembers : List (String × Json ν) → List Char
  | [] => []
  | [(k, v)] => stringLiteral k ++ ':' :: stringify v
  | (k, v) :: m :: ms => stringLiteral k ++ ':' :: (stringify v ++ ',' :: stringifyMembers (m :: ms))
end

end Stringify

/-! ## Reading -/

/-- A container that is still open: an array with the items before, an object with the members
before and the key whose value is being read. -/
inductive Frame (ν : Type) where
  | arr (before : List (Json ν))
  | obj (before : List (String × Json ν)) (key : Option String)

/-- The characters of a string literal so far, and a high surrogate escape that waits for its
other half. A half without the other reads as U+FFFD: Lean's characters have no surrogates. -/
structure Text where
  chars : List Char
  high : Option Nat

/-- The characters of a literal that ends here. -/
def Text.flush (t : Text) : List Char :=
  t.chars ++ (match t.high with
    | some _ => ['\uFFFD']
    | none => [])

/-- One more character. -/
def Text.pushChar (t : Text) (c : Char) : Text := ⟨t.flush ++ [c], none⟩

/-- One more `\uXXXX` escape. -/
def Text.pushUnit (t : Text) (unit : Nat) : Text :=
  if 0xD800 ≤ unit ∧ unit < 0xDC00 then ⟨t.flush, some unit⟩
  else if 0xDC00 ≤ unit ∧ unit < 0xE000 then
    match t.high with
    | some high =>
      ⟨t.chars ++ [Char.ofNat (0x10000 + (high - 0xD800) * 0x400 + (unit - 0xDC00))], none⟩
    | none => ⟨t.chars ++ ['\uFFFD'], none⟩
  else t.pushChar (Char.ofNat unit)

/-- What the next character may be. -/
inductive Mode (ν : Type) where
  /-- the first character of a value -/
  | value
  /-- after `[`: a value or `]` -/
  | valueOrClose
  /-- after `{`: a key or `}` -/
  | keyOrClose
  /-- after `,` in an object: a key -/
  | key
  /-- after a key: `:` -/
  | colon
  /-- after a value: `,`, `]`, `}` or nothing -/
  | done (v : Json ν)
  /-- inside a string literal, a key or a value -/
  | string (isKey : Bool) (text : Text)
  /-- after a backslash -/
  | escape (isKey : Bool) (text : Text)
  /-- after `\u` and `count` hexadecimal digits -/
  | hex (isKey : Bool) (text : Text) (count : Nat) (unit : Nat)
  /-- inside `true`, `false` or `null` -/
  | literal (rest : List Char) (v : Json ν)
  /-- inside a number -/
  | number (st : NumberState) (token : List Char)

/-- The state of the reader. -/
structure Reader (ν : Type) where
  stack : List (Frame ν)
  mode : Mode ν

/-- JSON white space. -/
def isWhitespace (c : Char) : Bool := c = ' ' || c = '\t' || c = '\n' || c = '\r'

/-- The value of a hexadecimal digit. -/
def hexValue? (c : Char) : Option Nat :=
  if c.isDigit then some (c.toNat - '0'.toNat)
  else if 'a' ≤ c ∧ c ≤ 'f' then some (c.toNat - 'a'.toNat + 10)
  else if 'A' ≤ c ∧ c ≤ 'F' then some (c.toNat - 'A'.toNat + 10)
  else none

/-- The first character of a value. -/
def startValue (stack : List (Frame ν)) (c : Char) : Option (Reader ν) :=
  if c = '"' then some ⟨stack, .string false ⟨[], none⟩⟩
  else if c = '{' then some ⟨.obj [] none :: stack, .keyOrClose⟩
  else if c = '[' then some ⟨.arr [] :: stack, .valueOrClose⟩
  else if c = 't' then some ⟨stack, .literal ['r', 'u', 'e'] (.bool true)⟩
  else if c = 'f' then some ⟨stack, .literal ['a', 'l', 's', 'e'] (.bool false)⟩
  else if c = 'n' then some ⟨stack, .literal ['u', 'l', 'l'] .null⟩
  else (NumberState.start c).map fun st => ⟨stack, .number st [c]⟩

/-- The character after a value. -/
def afterValue (stack : List (Frame ν)) (v : Json ν) (c : Char) : Option (Reader ν) :=
  if isWhitespace c then some ⟨stack, .done v⟩
  else match stack with
    | .arr before :: stack =>
      if c = ',' then some ⟨.arr (before ++ [v]) :: stack, .value⟩
      else if c = ']' then some ⟨stack, .done (.arr (before ++ [v]))⟩
      else none
    | .obj before (some key) :: stack =>
      if c = ',' then some ⟨.obj (before ++ [(key, v)]) none :: stack, .key⟩
      else if c = '}' then some ⟨stack, .done (.obj (before ++ [(key, v)]))⟩
      else none
    | _ => none

/-- The quote that ends a string literal. -/
def endString (stack : List (Frame ν)) (isKey : Bool) (text : Text) : Option (Reader ν) :=
  if isKey then
    match stack with
    | .obj before none :: stack =>
      some ⟨.obj before (some (String.ofList text.flush)) :: stack, .colon⟩
    | _ => none
  else some ⟨stack, .done (.str (String.ofList text.flush))⟩

/-- The character after a backslash. -/
def unescape (c : Char) : Option Char :=
  if c = '"' ∨ c = '\\' ∨ c = '/' then some c
  else if c = 'b' then some (Char.ofNat 0x08)
  else if c = 'f' then some (Char.ofNat 0x0C)
  else if c = 'n' then some '\n'
  else if c = 'r' then some '\r'
  else if c = 't' then some '\t'
  else none

section Parse

variable [JsonNumber ν]

/-- One character. -/
def step (p : Reader ν) (c : Char) : Option (Reader ν) :=
  match p.mode with
  | .value => if isWhitespace c then some p else startValue p.stack c
  | .valueOrClose =>
    if isWhitespace c then some p
    else if c = ']' then
      match p.stack with
      | .arr before :: stack => some ⟨stack, .done (.arr before)⟩
      | _ => none
    else startValue p.stack c
  | .keyOrClose =>
    if isWhitespace c then some p
    else if c = '}' then
      match p.stack with
      | .obj before none :: stack => some ⟨stack, .done (.obj before)⟩
      | _ => none
    else if c = '"' then some ⟨p.stack, .string true ⟨[], none⟩⟩
    else none
  | .key =>
    if isWhitespace c then some p
    else if c = '"' then some ⟨p.stack, .string true ⟨[], none⟩⟩
    else none
  | .colon =>
    if isWhitespace c then some p
    else if c = ':' then some ⟨p.stack, .value⟩
    else none
  | .done v => afterValue p.stack v c
  | .string isKey text =>
    if c = '"' then endString p.stack isKey text
    else if c = '\\' then some ⟨p.stack, .escape isKey text⟩
    else if c.toNat < 0x20 then none
    else some ⟨p.stack, .string isKey (text.pushChar c)⟩
  | .escape isKey text =>
    if c = 'u' then some ⟨p.stack, .hex isKey text 0 0⟩
    else (unescape c).map fun c' => ⟨p.stack, .string isKey (text.pushChar c')⟩
  | .hex isKey text count unit =>
    (hexValue? c).map fun h =>
      if count = 3 then ⟨p.stack, .string isKey (text.pushUnit (unit * 16 + h))⟩
      else ⟨p.stack, .hex isKey text (count + 1) (unit * 16 + h)⟩
  | .literal rest v =>
    match rest with
    | [] => none
    | [c'] => if c = c' then some ⟨p.stack, .done v⟩ else none
    | c' :: rest => if c = c' then some ⟨p.stack, .literal rest v⟩ else none
  | .number st token =>
    match st.next c with
    | some st' => some ⟨p.stack, .number st' (token ++ [c])⟩
    | none => if st.final then afterValue p.stack (.num (JsonNumber.value token)) c else none

/-- Some characters. -/
def run (p : Reader ν) : List Char → Option (Reader ν)
  | [] => some p
  | c :: cs => (step p c).bind fun p' => run p' cs

/-- The end of the text. -/
def finish (p : Reader ν) : Option (Json ν) :=
  match p.stack, p.mode with
  | [], .done v => some v
  | [], .number st token => if st.final then some (.num (JsonNumber.value token)) else none
  | _, _ => none

/-- The reader before the first character. -/
def Reader.initial : Reader ν := ⟨[], .value⟩

/-- `JSON.parse`, which throws where this is `none`. -/
def parse (text : List Char) : Option (Json ν) := (run .initial text).bind finish

end Parse

end Json
