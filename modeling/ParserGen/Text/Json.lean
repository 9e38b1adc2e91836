import ParserGen.Text.Quoted

/-!
# Strict JSON text

Readers that take one value off the front of a text, and the writer of strings. There is no general
value type: what is read is read as what it is expected to be, and the rest is skipped.

Numbers are read as integers only. A number with a fraction or an exponent is left in the middle,
where nothing that may follow a value stands, and so is refused.
-/

namespace ParserGen.Json

/-- Takes a value off the front of a text. -/
abbrev Reader (α : Type) := List Char → Option (α × List Char)

/-- The white space of JSON. -/
def isSpace (c : Char) : Bool :=
  c == ' ' || c == '\n' || c == '\t' || c == '\r'

/-- The text after leading white space. -/
def skipSpace (cs : List Char) : List Char :=
  cs.dropWhile isSpace

/-- The text after a given character. -/
def expect (c : Char) : List Char → Option (List Char)
  | [] => none
  | d :: rest => if c = d then some rest else none

/-! ## Strings -/

/-- The value of a hexadecimal digit. -/
def hexValue? (c : Char) : Option Nat :=
  if '0' ≤ c ∧ c ≤ '9' then some (c.toNat - '0'.toNat)
  else if 'a' ≤ c ∧ c ≤ 'f' then some (c.toNat - 'a'.toNat + 10)
  else if 'A' ≤ c ∧ c ≤ 'F' then some (c.toNat - 'A'.toNat + 10)
  else none

/-- Reads four hexadecimal digits. -/
def readHex4 : Reader Nat
  | a :: b :: c :: d :: rest => do
    let a ← hexValue? a
    let b ← hexValue? b
    let c ← hexValue? c
    let d ← hexValue? d
    return (((a * 16 + b) * 16 + c) * 16 + d, rest)
  | _ => none

/-- The first half of a character above `U+FFFF`. -/
def isHighSurrogate (n : Nat) : Bool :=
  decide (0xD800 ≤ n) && decide (n ≤ 0xDBFF)

/-- The second half of a character above `U+FFFF`. -/
def isLowSurrogate (n : Nat) : Bool :=
  decide (0xDC00 ≤ n) && decide (n ≤ 0xDFFF)

/-- Reads a character given by number: four digits, or two groups of four for a character above
`U+FFFF`. Half a character is refused. -/
def readNumbered (cs : List Char) : Option (Char × List Char) := do
  let (n, rest) ← readHex4 cs
  if isLowSurrogate n then none
  else if isHighSurrogate n then
    match rest with
    | '\\' :: 'u' :: rest =>
      let (m, rest) ← readHex4 rest
      if isLowSurrogate m then
        return (Char.ofNat (0x10000 + (n - 0xD800) * 0x400 + (m - 0xDC00)), rest)
      else none
    | _ => none
  else return (Char.ofNat n, rest)

/-- The characters with an escape of one letter. -/
def letterEscapes : List (Char × Char) :=
  [('"', '"'), ('\\', '\\'), ('/', '/'), ('b', '\x08'), ('f', '\x0c'), ('n', '\n'), ('r', '\r'),
   ('t', '\t')]

/-- Reads one character of a string. -/
def readChar : Reader Char
  | [] => none
  | '\\' :: 'u' :: rest => readNumbered rest
  | '\\' :: c :: rest => (letterEscapes.lookup c).map fun d => (d, rest)
  | c :: rest => if c.toNat < 0x20 ∨ c = '\\' then none else some (c, rest)

/-- Reads characters up to the closing quote. -/
def readChars : Nat → Reader (List Char)
  | 0, _ => none
  | _ + 1, '"' :: rest => some ([], rest)
  | fuel + 1, cs => do
    let (c, rest) ← readChar cs
    let (more, rest) ← readChars fuel rest
    return (c :: more, rest)

/-- Reads a string. -/
def readString : Reader String
  | '"' :: rest => do
    let (cs, rest) ← readChars (rest.length + 1) rest
    return (String.ofList cs, rest)
  | _ => none

/-- How one character is written in a string. -/
def writeChar (c : Char) : List Char :=
  match c with
  | '"' => ['\\', '"']
  | '\\' => ['\\', '\\']
  | '\x08' => ['\\', 'b']
  | '\x0c' => ['\\', 'f']
  | '\n' => ['\\', 'n']
  | '\r' => ['\\', 'r']
  | '\t' => ['\\', 't']
  | c =>
    if c.toNat < 0x20 then
      ['\\', 'u', '0', '0', Nat.digitChar (c.toNat / 16), Nat.digitChar (c.toNat % 16)]
    else [c]

/-- A text as a string. -/
def writeString (s : String) : String :=
  String.ofList ('"' :: (s.toList.flatMap writeChar ++ ['"']))

/-! ## Numbers -/

/-- The value of decimal digits. -/
def digitsValue (ds : List Char) : Nat :=
  ds.foldl (fun n d => n * 10 + (d.toNat - '0'.toNat)) 0

/-- Reads a natural number without leading zeros. -/
def readNat : Reader Nat
  | cs =>
    let digits := cs.takeWhile Char.isDigit
    let rest := cs.dropWhile Char.isDigit
    match digits with
    | [] => none
    | ['0'] => some (0, rest)
    | '0' :: _ => none
    | ds => some (digitsValue ds, rest)

/-- Reads a natural number below `2 ^ 64`. -/
def readWord : Reader Nat
  | cs => do
    let (n, rest) ← readNat cs
    if n < UInt64.size then some (n, rest) else none

/-- Reads an integer of 64 bits. There is no negative zero. -/
def readInt : Reader Int
  | '-' :: rest => do
    let (n, rest) ← readNat rest
    if 0 < n ∧ n ≤ UInt64.size / 2 then some (-(n : Int), rest) else none
  | cs => do
    let (n, rest) ← readNat cs
    if n < UInt64.size / 2 then some ((n : Int), rest) else none

/-! ## Objects -/

/-- Reads the members of an object up to the closing brace. -/
def readMembers {κ ν : Type} (readKey : Reader κ) (readValue : Reader ν) :
    Nat → Reader (List (κ × ν))
  | 0, _ => none
  | fuel + 1, cs => do
    let (k, cs) ← readKey (skipSpace cs)
    let cs ← expect ':' (skipSpace cs)
    let (v, cs) ← readValue (skipSpace cs)
    match skipSpace cs with
    | ',' :: cs =>
      let (more, cs) ← readMembers readKey readValue fuel cs
      return ((k, v) :: more, cs)
    | '\x7d' :: cs => return ([(k, v)], cs)
    | _ => none

/-- Reads an object whose keys and values are all of one kind. -/
def readObject {κ ν : Type} (readKey : Reader κ) (readValue : Reader ν) : Reader (List (κ × ν))
  | '\x7b' :: cs =>
    match skipSpace cs with
    | '\x7d' :: cs => some ([], cs)
    | cs => readMembers readKey readValue (cs.length + 1) cs
  | _ => none

/-! ## Values that are skipped -/

/-- Skips the rest of a string. Here half a character is not refused. -/
def skipChars : Nat → List Char → Option (List Char)
  | 0, _ => none
  | fuel + 1, cs =>
    match cs with
    | [] => none
    | '"' :: rest => some rest
    | '\\' :: 'u' :: rest => do
      let (_, rest) ← readHex4 rest
      skipChars fuel rest
    | '\\' :: c :: rest => if (letterEscapes.lookup c).isSome then skipChars fuel rest else none
    | c :: rest => if c.toNat < 0x20 ∨ c = '\\' then none else skipChars fuel rest

/-- Skips a string. -/
def skipString (cs : List Char) : Option (List Char) := do
  let rest ← expect '"' cs
  skipChars (rest.length + 1) rest

/-- Skips one or more digits. -/
def skipDigits (cs : List Char) : Option (List Char) :=
  match cs with
  | [] => none
  | c :: _ => if c.isDigit then some (cs.dropWhile Char.isDigit) else none

/-- Skips a fraction, if there is one. -/
def skipFraction : List Char → Option (List Char)
  | '.' :: rest => skipDigits rest
  | cs => some cs

/-- Skips an exponent, if there is one. -/
def skipExponent (cs : List Char) : Option (List Char) :=
  match cs with
  | [] => some []
  | c :: rest =>
    if c = 'e' ∨ c = 'E' then
      match rest with
      | '+' :: rest => skipDigits rest
      | '-' :: rest => skipDigits rest
      | rest => skipDigits rest
    else some cs

/-- Skips a number of any kind. -/
def skipNumber (cs : List Char) : Option (List Char) := do
  let cs := (expect '-' cs).getD cs
  let (_, cs) ← readNat cs
  let cs ← skipFraction cs
  skipExponent cs

/-- Skips a given word. -/
def skipWord (word : String) (cs : List Char) : Option (List Char) :=
  if word.toList.isPrefixOf cs then some (cs.drop word.length) else none

mutual

/-- Skips a value of any kind. -/
def skipValue : Nat → List Char → Option (List Char)
  | 0, _ => none
  | fuel + 1, cs =>
    match cs with
    | '"' :: _ => skipString cs
    | '[' :: rest =>
      match skipSpace rest with
      | ']' :: rest => some rest
      | rest => skipElements fuel rest
    | '\x7b' :: rest =>
      match skipSpace rest with
      | '\x7d' :: rest => some rest
      | rest => skipMembers fuel rest
    | 't' :: _ => skipWord "true" cs
    | 'f' :: _ => skipWord "false" cs
    | 'n' :: _ => skipWord "null" cs
    | cs => skipNumber cs

/-- Skips the elements of an array up to the closing bracket. -/
def skipElements : Nat → List Char → Option (List Char)
  | 0, _ => none
  | fuel + 1, cs => do
    let cs ← skipValue fuel (skipSpace cs)
    match skipSpace cs with
    | ',' :: cs => skipElements fuel cs
    | ']' :: cs => some cs
    | _ => none

/-- Skips the members of an object up to the closing brace. -/
def skipMembers : Nat → List Char → Option (List Char)
  | 0, _ => none
  | fuel + 1, cs => do
    let cs ← skipString (skipSpace cs)
    let cs ← expect ':' (skipSpace cs)
    let cs ← skipValue fuel (skipSpace cs)
    match skipSpace cs with
    | ',' :: cs => skipMembers fuel cs
    | '\x7d' :: cs => some cs
    | _ => none

end

end ParserGen.Json
