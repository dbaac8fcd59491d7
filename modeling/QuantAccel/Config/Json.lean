/-!
# JSON records

Configuration files are JSON texts. A text is read into a tree; a record is then
taken from the tree, as an object whose unknown keys are passed over, or as an
array of the fields in their order. Fields that are not given keep their
defaults.
-/

namespace QuantAccel.Json

/-- A JSON value. Of a number only a plain natural number has a value here, and
a string has no content when an escape in it is half of a surrogate pair. -/
inductive Value where
  | null
  | bool (value : Bool)
  | number (natural : Option Nat)
  | string (content : Option String)
  | array (items : List Value)
  | object (fields : List (Option String × Value))
  deriving Repr, Inhabited

/-- A reader takes a value off the front of a text. -/
abbrev Reader (α : Type) := List Char → Option (α × List Char)

def isBlank (c : Char) : Bool :=
  c == ' ' || c == '\n' || c == '\t' || c == '\r'

def skipBlank (text : List Char) : List Char :=
  text.dropWhile isBlank

/-! ## Numbers -/

/-- One digit or more. -/
def digits : Reader (List Char) := fun text =>
  let run := text.takeWhile Char.isDigit
  if run.isEmpty then none else some (run, text.dropWhile Char.isDigit)

/-- Digits without a leading zero. -/
def wholePart : Reader (List Char)
  | '0' :: rest => some (['0'], rest)
  | text => digits text

/-- An optional fraction; the flag tells whether there is one. -/
def fraction : Reader Bool
  | '.' :: rest => (digits rest).map fun (_, rest) => (true, rest)
  | text => some (false, text)

/-- An optional exponent; the flag tells whether there is one. -/
def exponent : Reader Bool
  | c :: rest =>
    if c == 'e' || c == 'E' then
      let unsigned := match rest with
        | '+' :: r | '-' :: r => r
        | r => r
      (digits unsigned).map fun (_, rest) => (true, rest)
    else some (false, c :: rest)
  | [] => some (false, [])

/-- The natural number that decimal digits write. -/
def natural (run : List Char) : Nat :=
  run.foldl (fun n c => 10 * n + (c.toNat - '0'.toNat)) 0

def number : Reader Value := fun text => do
  let (negative, text) := match text with
    | '-' :: rest => (true, rest)
    | _ => (false, text)
  let (run, text) ← wholePart text
  let (fractional, text) ← fraction text
  let (scaled, text) ← exponent text
  some (.number (if negative || fractional || scaled then none else some (natural run)), text)

/-! ## Strings -/

def hexDigit? (c : Char) : Option Nat :=
  if c.isDigit then some (c.toNat - '0'.toNat)
  else if 'a' ≤ c ∧ c ≤ 'f' then some (c.toNat - 'a'.toNat + 10)
  else if 'A' ≤ c ∧ c ≤ 'F' then some (c.toNat - 'A'.toNat + 10)
  else none

/-- The 16-bit unit of four hexadecimal digits. -/
def unit : Reader Nat
  | a :: b :: c :: d :: rest => do
    let a ← hexDigit? a
    let b ← hexDigit? b
    let c ← hexDigit? c
    let d ← hexDigit? d
    some (((a * 16 + b) * 16 + c) * 16 + d, rest)
  | _ => none

/-- The character of an escape of one letter. -/
def escape? : Char → Option Char
  | '"' => some '"'
  | '\\' => some '\\'
  | '/' => some '/'
  | 'b' => some '\x08'
  | 'f' => some '\x0c'
  | 'n' => some '\n'
  | 'r' => some '\r'
  | 't' => some '\t'
  | _ => none

/-- The 16-bit units and characters of a string after its opening quote. -/
def stringUnits : Nat → Reader (List (Nat ⊕ Char))
  | 0, _ => none
  | fuel + 1, text =>
    match text with
    | [] => none
    | '"' :: rest => some ([], rest)
    | '\\' :: 'u' :: rest => do
      let (u, rest) ← unit rest
      let (units, rest) ← stringUnits fuel rest
      some (.inl u :: units, rest)
    | '\\' :: c :: rest => do
      let c ← escape? c
      let (units, rest) ← stringUnits fuel rest
      some (.inr c :: units, rest)
    | c :: rest =>
      if c.toNat < 0x20 ∨ c = '\\' then none
      else do
        let (units, rest) ← stringUnits fuel rest
        some (.inr c :: units, rest)

/-- The characters of a list of units, unless half of a surrogate pair stands
alone. -/
def characters : List (Nat ⊕ Char) → Option (List Char)
  | [] => some []
  | .inr c :: rest => (characters rest).map (c :: ·)
  | .inl high :: .inl low :: rest =>
    if 0xD800 ≤ high ∧ high < 0xDC00 then
      if 0xDC00 ≤ low ∧ low < 0xE000 then
        let c := Char.ofNat (0x10000 + (high - 0xD800) * 0x400 + (low - 0xDC00))
        (characters rest).map (c :: ·)
      else none
    else if 0xDC00 ≤ high ∧ high < 0xE000 then none
    else (characters (.inl low :: rest)).map (Char.ofNat high :: ·)
  | .inl u :: rest =>
    if 0xD800 ≤ u ∧ u < 0xE000 then none else (characters rest).map (Char.ofNat u :: ·)

/-- A string after its opening quote. -/
def string : Reader (Option String) := fun text =>
  (stringUnits (text.length + 1) text).map fun (units, rest) =>
    ((characters units).map String.ofList, rest)

/-! ## Values -/

mutual

/-- A value; `fuel` bounds the nesting and the number of items. -/
def value : Nat → Reader Value
  | 0, _ => none
  | fuel + 1, text =>
    match skipBlank text with
    | '{' :: rest =>
      match skipBlank rest with
      | '}' :: rest => some (.object [], rest)
      | rest => (fields fuel rest).map fun (fs, rest) => (.object fs, rest)
    | '[' :: rest =>
      match skipBlank rest with
      | ']' :: rest => some (.array [], rest)
      | rest => (items fuel rest).map fun (vs, rest) => (.array vs, rest)
    | '"' :: rest => (string rest).map fun (s, rest) => (.string s, rest)
    | 't' :: 'r' :: 'u' :: 'e' :: rest => some (.bool true, rest)
    | 'f' :: 'a' :: 'l' :: 's' :: 'e' :: rest => some (.bool false, rest)
    | 'n' :: 'u' :: 'l' :: 'l' :: rest => some (.null, rest)
    | rest => number rest

/-- The items of an array that is not empty, and its closing bracket. -/
def items : Nat → Reader (List Value)
  | 0, _ => none
  | fuel + 1, text => do
    let (v, rest) ← value fuel text
    match skipBlank rest with
    | ',' :: rest =>
      let (vs, rest) ← items fuel rest
      some (v :: vs, rest)
    | ']' :: rest => some ([v], rest)
    | _ => none

/-- The fields of an object that is not empty, and its closing brace. -/
def fields : Nat → Reader (List (Option String × Value))
  | 0, _ => none
  | fuel + 1, text => do
    let (key, rest) ← match skipBlank text with
      | '"' :: rest => string rest
      | _ => none
    let (v, rest) ← match skipBlank rest with
      | ':' :: rest => value fuel rest
      | _ => none
    match skipBlank rest with
    | ',' :: rest =>
      let (fs, rest) ← fields fuel rest
      some ((key, v) :: fs, rest)
    | '}' :: rest => some ([(key, v)], rest)
    | _ => none

end

/-- The value that a whole text writes. -/
def parse? (text : String) : Option Value := do
  let chars := text.toList
  let (v, rest) ← value (2 * chars.length + 2) chars
  if (skipBlank rest).isEmpty then some v else none

/-! ## Records -/

/-- A field of a record: its key, and how a value updates the record. -/
structure Field (α : Type) where
  key : String
  update : α → Value → Option α

/-- The record of an object: known keys at most once, unknown keys passed
over. -/
def ofObject {α : Type} (schema : List (Field α)) :
    List (Option String × Value) → (seen : List String) → α → Option α
  | [], _, record => some record
  | (none, _) :: _, _, _ => none
  | (some key, v) :: rest, seen, record =>
    match schema.find? fun field => field.key == key with
    | none => ofObject schema rest seen record
    | some field =>
      if seen.contains key then none
      else do ofObject schema rest (key :: seen) (← field.update record v)

/-- The record of an array: the first fields in their order. -/
def ofArray {α : Type} : List (Field α) → List Value → α → Option α
  | _, [], record => some record
  | [], _ :: _, _ => none
  | field :: schema, v :: rest, record => do ofArray schema rest (← field.update record v)

/-- The record that a text writes, starting from defaults. -/
def record? {α : Type} (schema : List (Field α)) (defaults : α) (text : String) : Option α := do
  match ← parse? text with
  | .object fs => ofObject schema fs [] defaults
  | .array vs => ofArray schema vs defaults
  | _ => none

/-- A natural number of at most `limit`. -/
def Value.natural? (limit : Nat) : Value → Option Nat
  | .number (some n) => if n ≤ limit then some n else none
  | _ => none

/-- The name of an alternative: a string, or an object with that one key and no
content. -/
def Value.alternative? : Value → Option String
  | .string s => s
  | .object [(key, .null)] => key
  | _ => none

end QuantAccel.Json
