/-!
JSON documents, read strictly: no comments, no trailing commas, no leading zeros, nothing but
blanks around the value. Strings are kept as written, escapes unpaired, and numbers are only
recognized, since a value that nobody asks for needs no more than valid syntax.
-/

namespace EntitySql

/-- An element of a string as written: a character, or a UTF-16 unit given by its number. -/
inductive StringItem
  | char (c : Char)
  | unit (n : Nat)
  deriving DecidableEq, Repr

inductive Document
  | null
  | bool (b : Bool)
  | number
  | string (items : List StringItem)
  | array (elements : List Document)
  | object (members : List (List StringItem × Document))
  deriving Repr

namespace Document

/-- The text of a string. Surrogates have to come in pairs. -/
def textChars? : List StringItem → Option (List Char)
  | [] => some []
  | .char c :: rest => do return c :: (← textChars? rest)
  | .unit n :: rest =>
    if 0xd800 ≤ n ∧ n < 0xdc00 then
      match rest with
      | .unit m :: rest =>
        if 0xdc00 ≤ m ∧ m < 0xe000 then do
          return Char.ofNat (0x10000 + (n - 0xd800) * 0x400 + (m - 0xdc00)) :: (← textChars? rest)
        else none
      | _ => none
    else if 0xdc00 ≤ n ∧ n < 0xe000 then none
    else do return Char.ofNat n :: (← textChars? rest)

def text? (items : List StringItem) : Option String := (textChars? items).map String.ofList

def isBlank (c : Char) : Bool := c == ' ' || c == '\n' || c == '\t' || c == '\r'

def hexValue? (c : Char) : Option Nat :=
  if '0' ≤ c ∧ c ≤ '9' then some (c.toNat - 48)
  else if 'a' ≤ c ∧ c ≤ 'f' then some (c.toNat - 87)
  else if 'A' ≤ c ∧ c ≤ 'F' then some (c.toNat - 55)
  else none

def escape? : Char → Option Char
  | '"' => some '"'
  | '\\' => some '\\'
  | '/' => some '/'
  | 'b' => some '\x08'
  | 'f' => some '\x0c'
  | 'n' => some '\n'
  | 'r' => some '\r'
  | 't' => some '\t'
  | _ => none

/-- A string after its opening quote, and what follows the closing one. -/
def stringItems? : List Char → Option (List StringItem × List Char)
  | [] => none
  | '"' :: rest => some ([], rest)
  | '\\' :: 'u' :: a :: b :: c :: d :: rest => do
    let n := (((← hexValue? a) * 16 + (← hexValue? b)) * 16 + (← hexValue? c)) * 16 +
      (← hexValue? d)
    let (items, after) ← stringItems? rest
    return (.unit n :: items, after)
  | '\\' :: c :: rest => do
    let escaped ← escape? c
    let (items, after) ← stringItems? rest
    return (.char escaped :: items, after)
  | c :: rest =>
    if c.toNat < 32 || c == '\\' then none
    else do
      let (items, after) ← stringItems? rest
      return (.char c :: items, after)

def dropDigits? : List Char → Option (List Char)
  | c :: rest => if c.isDigit then some (rest.dropWhile Char.isDigit) else none
  | [] => none

def dropExponent? : List Char → Option (List Char)
  | 'e' :: '+' :: rest | 'e' :: '-' :: rest | 'E' :: '+' :: rest | 'E' :: '-' :: rest
  | 'e' :: rest | 'E' :: rest => dropDigits? rest
  | rest => some rest

/-- What follows a number without its sign. A zero in front stands alone. -/
def dropNumber? (chars : List Char) : Option (List Char) := do
  let rest ← match chars with
    | '0' :: rest => some rest
    | _ => dropDigits? chars
  match rest with
  | '.' :: rest => dropExponent? (← dropDigits? rest)
  | _ => dropExponent? rest

mutual

/-- A value and what follows it. Fuel bounds the recursion; two units for each character are
enough, since at least every second call consumes one. -/
def value? : Nat → List Char → Option (Document × List Char)
  | 0, _ => none
  | fuel + 1, chars =>
    match chars.dropWhile isBlank with
    | 'n' :: 'u' :: 'l' :: 'l' :: rest => some (null, rest)
    | 't' :: 'r' :: 'u' :: 'e' :: rest => some (bool true, rest)
    | 'f' :: 'a' :: 'l' :: 's' :: 'e' :: rest => some (bool false, rest)
    | '"' :: rest => (stringItems? rest).map fun (items, rest) => (string items, rest)
    | '-' :: rest => (dropNumber? rest).map fun rest => (number, rest)
    | '[' :: rest =>
      match rest.dropWhile isBlank with
      | ']' :: rest => some (array [], rest)
      | rest => (elements? fuel rest).map fun (elements, rest) => (array elements, rest)
    | '\x7b' :: rest =>
      match rest.dropWhile isBlank with
      | '\x7d' :: rest => some (object [], rest)
      | rest => (members? fuel rest).map fun (members, rest) => (object members, rest)
    | rest => (dropNumber? rest).map fun rest => (number, rest)

def elements? : Nat → List Char → Option (List Document × List Char)
  | 0, _ => none
  | fuel + 1, chars => do
    let (first, rest) ← value? fuel chars
    match rest.dropWhile isBlank with
    | ',' :: rest =>
      let (others, rest) ← elements? fuel rest
      return (first :: others, rest)
    | ']' :: rest => return ([first], rest)
    | _ => none

def members? : Nat → List Char → Option (List (List StringItem × Document) × List Char)
  | 0, _ => none
  | fuel + 1, chars => do
    let '"' :: rest := chars.dropWhile isBlank | none
    let (name, rest) ← stringItems? rest
    let ':' :: rest := rest.dropWhile isBlank | none
    let (first, rest) ← value? fuel rest
    match rest.dropWhile isBlank with
    | ',' :: rest =>
      let (others, rest) ← members? fuel rest
      return ((name, first) :: others, rest)
    | '\x7d' :: rest => return ([(name, first)], rest)
    | _ => none

end

def parse? (text : String) : Option Document := do
  let chars := text.toList
  let (document, rest) ← value? (2 * chars.length + 2) chars
  if (rest.dropWhile isBlank).isEmpty then return document else none

end Document
end EntitySql
