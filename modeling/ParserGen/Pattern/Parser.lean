import ParserGen.Pattern.Expr

/-!
# Reading patterns

The text form of regular expressions: literals and escapes, classes between brackets, groups,
repetitions, alternatives and flags. A flag set inside a group holds to the end of that group, also
in the alternatives that follow.

There are no back references and no look-around. Every fault of a pattern has the same outcome: it
is no pattern.

What is read is the part of the language in which a pattern is about characters and needs no tables of
their properties but those for `\d`, `\s`, `\w` and for case:

* the flags are `i`, `m`, `s`, `x` and `U`. Unicode mode can be named (`u`) but not left: `(?-u)` is
  refused, and so is the flag `R` for line ends of two characters;
* the classes by property, `\p` and `\P`, are refused;
* no pattern is refused for its size or for the depth of its groups.
-/

namespace ParserGen.Pattern

/-- How the text that follows is to be read. -/
structure Flags where
  /-- Letters match in either case. -/
  caseless : Bool := false
  /-- The dot matches a line end too. -/
  dotAll : Bool := false
  /-- `^` and `$` match at the ends of lines. -/
  multiLine : Bool := false
  /-- Repetitions are lazy unless marked. -/
  swapGreed : Bool := false
  /-- White space and comments are skipped. -/
  spaced : Bool := false
deriving DecidableEq, Inhabited

/-- What is left to read. -/
structure Input where
  rest : List Char
  flags : Flags
  /-- The names of groups so far. -/
  names : List String

/-- A step of reading. -/
abbrev Read := StateT Input Option

/-! ## Single characters -/

/-- The next character. -/
def peek? : Read (Option Char) := do
  return (← get).rest.head?

/-- The next character, which must be there. -/
def peek : Read Char := do
  match ← peek? with
  | some c => return c
  | none => failure

/-- Moves over a character. -/
def bump : Read Unit :=
  modify fun i => { i with rest := i.rest.tail }

/-- The text after white space and comments. -/
def dropSpace : Nat → List Char → List Char
  | 0, cs => cs
  | fuel + 1, cs =>
    match cs with
    | '#' :: rest => dropSpace fuel (rest.dropWhile (· != '\n'))
    | c :: rest => if Text.isBlank c then dropSpace fuel rest else cs
    | [] => []

/-- Moves over white space and comments, if they are to be skipped. -/
def skipSpace : Read Unit :=
  modify fun i =>
    if i.flags.spaced then { i with rest := dropSpace i.rest.length i.rest } else i

/-- Moves over a character and what may be skipped after it. -/
def bumpSpace : Read Unit := do
  bump
  skipSpace

/-- Moves over a character after which there must be more. -/
def bumpMore : Read Unit := do
  bumpSpace
  let _ ← peek

/-- Moves over a given text, if it comes next. -/
def bumpIf (text : String) : Read Bool := do
  let i ← get
  if text.toList.isPrefixOf i.rest then
    set { i with rest := i.rest.drop text.length }
    return true
  else return false

/-- Moves over the characters that satisfy a test, and whatever may be skipped after each. -/
def takeWhileSpaced (test : Char → Bool) : Nat → Read (List Char)
  | 0 => return []
  | fuel + 1 => do
    match ← peek? with
    | some c =>
      if test c then
        bumpSpace
        return c :: (← takeWhileSpaced test fuel)
      else return []
    | none => return []

/-! ## Numbers -/

/-- The value of digits in a base; characters that are no digits count as zero. -/
def numeral (base : Nat) (digits : List Char) : Nat :=
  let value (c : Char) : Nat :=
    if '0' ≤ c ∧ c ≤ '9' then c.toNat - '0'.toNat
    else if 'a' ≤ c ∧ c ≤ 'f' then c.toNat - 'a'.toNat + 10
    else if 'A' ≤ c ∧ c ≤ 'F' then c.toNat - 'A'.toNat + 10
    else 0
  digits.foldl (fun n c => n * base + value c) 0

/-- Whether a character is a hexadecimal digit. -/
def isHexDigit (c : Char) : Bool :=
  c.isDigit || (decide ('a' ≤ c) && decide (c ≤ 'f')) || (decide ('A' ≤ c) && decide (c ≤ 'F'))

/-- Moves over white space, whether or not it is to be skipped elsewhere. -/
def skipBlanks : Read Unit :=
  modify fun i => { i with rest := i.rest.dropWhile Text.isBlank }

/-- A decimal number below `2 ^ 32`, with white space around it. -/
def readDecimal : Read Nat := do
  skipBlanks
  let digits ← takeWhileSpaced Char.isDigit (← get).rest.length
  skipBlanks
  skipSpace
  let n := numeral 10 digits
  if digits.isEmpty ∨ n ≥ UInt32.size then failure
  return n

/-- The character with a code point, if there is one. -/
def charOf? (n : Nat) : Option Char :=
  if n.isValidChar then some (Char.ofNat n) else none

/-- Exactly `count` hexadecimal digits. -/
def readHexDigits : Nat → Read (List Char)
  | 0 => return []
  | count + 1 => do
    let c ← peek
    if isHexDigit c then
      bumpSpace
      return c :: (← readHexDigits count)
    else failure

/-- A character by number: a fixed count of digits, or any count between braces. -/
def readHex (count : Nat) : Read Char := do
  bumpMore
  if (← peek) == '\x7b' then
    bumpSpace
    let digits ← takeWhileSpaced isHexDigit (← get).rest.length
    if (← peek) != '\x7d' ∨ digits.isEmpty then failure
    bumpSpace
    charOf? (numeral 16 digits)
  else
    let digits ← readHexDigits count
    charOf? (numeral 16 digits)

/-! ## Escapes -/

/-- What a backslash can introduce. -/
inductive Escape where
  | literal (c : Char)
  | set (s : CharSet)
  | assertion (a : Assertion)

/-- The kinds of word boundary with a name. -/
def namedBoundary? (name : String) : Option Assertion :=
  match name with
  | "start" => some .wordStart
  | "end" => some .wordEnd
  | "start-half" => some .wordStartHalf
  | "end-half" => some .wordEndHalf
  | _ => none

/-- The word boundary after `\b`: plain, or named between braces. A brace that is not followed by a
name begins a repetition and is left alone. -/
def readBoundary : Read Assertion := do
  let saved ← get
  if (← peek?) != some '\x7b' then return .wordBoundary
  bumpMore
  let isName (c : Char) := c.isAlpha || c == '-'
  if isName (← peek) then
    let name ← takeWhileSpaced isName (← get).rest.length
    if (← peek) != '\x7d' then failure
    bump
    namedBoundary? (String.ofList name)
  else
    set saved
    return .wordBoundary

/-- Whether a backslash before the character only makes it stand for itself. -/
def isEscapable (c : Char) : Bool :=
  decide (c.toNat < 128) && !c.isAlphanum && c != '<' && c != '>'

/-- What follows a backslash. -/
def readEscape : Read Escape := do
  bump
  let c ← peek
  match c with
  | 'x' => return .literal (← readHex 2)
  | 'u' => return .literal (← readHex 4)
  | 'U' => return .literal (← readHex 8)
  | _ =>
    bump
    match c with
    | 'd' => return .set .digit
    | 'D' => return .set (.complement .digit)
    | 's' => return .set .blank
    | 'S' => return .set (.complement .blank)
    | 'w' => return .set .word
    | 'W' => return .set (.complement .word)
    | 'a' => return .literal '\x07'
    | 'f' => return .literal '\x0c'
    | 't' => return .literal '\t'
    | 'n' => return .literal '\n'
    | 'r' => return .literal '\r'
    | 'v' => return .literal '\x0b'
    | 'A' => return .assertion .textStart
    | 'z' => return .assertion .textEnd
    | 'b' => return .assertion (← readBoundary)
    | 'B' => return .assertion .notWordBoundary
    | '<' => return .assertion .wordStart
    | '>' => return .assertion .wordEnd
    | c => if isEscapable c then return .literal c else failure

/-! ## Classes between brackets -/

/-- The set with all case variants, if case does not count. -/
def foldCase (s : CharSet) : Read CharSet := do
  return if (← get).flags.caseless then .folded s else s

/-- How two parts of a class are combined. -/
inductive ClassOperator where
  | inter
  | diff
  | symmDiff

/-- Combines what stands before an operator with what stands after it. -/
def combine (left : Option (ClassOperator × CharSet)) (right : CharSet) : Read CharSet := do
  match left with
  | none => return right
  | some (op, s) =>
    let s ← foldCase s
    let t ← foldCase right
    match op with
    | .inter => return .inter s t
    | .diff => return s.diff t
    | .symmDiff => return s.symmDiff t

/-- One character or escape of a class. -/
def readClassAtom : Read Escape := do
  let c ← peek
  if c == '\\' then readEscape
  else
    bump
    return .literal c

/-- A single item of a class: a character, a set, or a range of characters. -/
def readClassItem : Read CharSet := do
  let atom ← readClassAtom
  skipSpace
  let c ← peek
  let isRange ← if c == '-' then
      let i ← get
      let after := if i.flags.spaced then dropSpace i.rest.length i.rest.tail else i.rest.tail
      pure (after.head? != some ']' && after.head? != some '-')
    else pure false
  if isRange then
    bumpMore
    match atom, ← readClassAtom with
    | .literal first, .literal last =>
      if first ≤ last then return .range first last else failure
    | _, _ => failure
  else
    match atom with
    | .literal c => return .single c
    | .set s => return s
    | .assertion _ => failure

/-- A class by name, such as `[:alpha:]`, if one comes next. -/
def readNamedClass? : Read (Option CharSet) := do
  let i ← get
  match i.rest with
  | '[' :: ':' :: rest =>
    let negated := rest.head? == some '^'
    let rest := if negated then rest.tail else rest
    let name := rest.takeWhile (· != ':')
    match rest.drop name.length with
    | ':' :: ']' :: rest =>
      match CharSet.named? (String.ofList name) with
      | some s =>
        set { i with rest }
        return some (if negated then .complement s else s)
      | none => return none
    | _ => return none
  | _ => return none

/-- Hyphens at the beginning of a class, which stand for themselves. -/
def readHyphens : Nat → CharSet → Read CharSet
  | 0, s => return s
  | fuel + 1, s => do
    if (← peek) == '-' then
      bumpMore
      readHyphens fuel (.union s (.single '-'))
    else return s

mutual

/-- A class from its opening bracket on. -/
def readClass : Nat → Read CharSet
  | 0 => failure
  | fuel + 1 => do
    bumpMore
    let negated := (← peek) == '^'
    if negated then bumpMore
    let s ← readHyphens (← get).rest.length .empty
    let s ← if s = .empty ∧ (← peek) = ']' then
        bumpMore
        pure (CharSet.single ']')
      else pure s
    let s ← readClassItems fuel none s
    let s ← foldCase s
    return if negated then .complement s else s

/-- The items of a class up to its closing bracket. `left` is what stands before the last operator
and `s` the union of the items since. -/
def readClassItems : Nat → Option (ClassOperator × CharSet) → CharSet → Read CharSet
  | 0, _, _ => failure
  | fuel + 1, left, s => do
    skipSpace
    let c ← peek
    if c == '[' then
      match ← readNamedClass? with
      | some t => readClassItems fuel left (.union s t)
      | none =>
        let t ← readClass fuel
        readClassItems fuel left (.union s t)
    else if c == ']' then
      bump
      combine left s
    else if ← bumpIf "&&" then
      readClassItems fuel (some (.inter, ← combine left s)) .empty
    else if ← bumpIf "--" then
      readClassItems fuel (some (.diff, ← combine left s)) .empty
    else if ← bumpIf "~~" then
      readClassItems fuel (some (.symmDiff, ← combine left s)) .empty
    else
      let t ← readClassItem
      readClassItems fuel left (.union s t)

end

/-! ## Groups and flags -/

/-- The flags with one of them changed. -/
def setFlag (on : Bool) (c : Char) (f : Flags) : Option Flags :=
  match c with
  | 'i' => some { f with caseless := on }
  | 's' => some { f with dotAll := on }
  | 'm' => some { f with multiLine := on }
  | 'U' => some { f with swapGreed := on }
  | 'x' => some { f with spaced := on }
  -- patterns are about characters, not bytes
  | 'u' => if on then some f else none
  | _ => none

/-- Flags up to a colon or a closing parenthesis, none of them twice. A hyphen turns the flags after
it off and does not stand last. -/
def readFlags : Nat → Bool → List Char → Flags → Read Flags
  | 0, _, _, _ => failure
  | fuel + 1, on, seen, f => do
    let c ← peek
    if c == ':' || c == ')' then
      if seen.head? == some '-' then failure else return f
    else if seen.contains c then failure
    else
      bump
      if c == '-' then readFlags fuel false (c :: seen) f
      else readFlags fuel on (c :: seen) (← setFlag on c f)

/-- Whether a character may stand in the name of a group. -/
def isNameChar (first : Bool) (c : Char) : Bool :=
  c == '_' || (Text.isWord c && !(first && Text.isDecimal c)) ||
    (!first && (c == '.' || c == '[' || c == ']'))

/-- The name of a group, which must be new, up to the closing angle. -/
def readGroupName : Read String := do
  let i ← get
  let name := i.rest.takeWhile (· != '>')
  let fit := match name with
    | [] => false
    | c :: cs => isNameChar true c && cs.all (isNameChar false)
  match i.rest.drop name.length with
  | '>' :: rest =>
    let name := String.ofList name
    if fit && !i.names.contains name then
      set { i with rest, names := name :: i.names }
      return name
    else failure
  | _ => failure

/-- What an opening parenthesis begins. -/
inductive Opening where
  /-- Flags for the rest of the enclosing group. -/
  | flags (f : Flags)
  /-- A group with the flags that hold inside it. -/
  | group (name : Option String) (f : Flags)

/-- What stands after an opening parenthesis up to the contents of the group. -/
def readOpening : Read Opening := do
  bumpSpace
  let i ← get
  if ["?=", "?!", "?<=", "?<!"].any fun p => p.toList.isPrefixOf i.rest then failure
  if (← bumpIf "?P<") || (← bumpIf "?<") then
    return .group (some (← readGroupName)) i.flags
  else if ← bumpIf "?" then
    let start ← peek
    let f ← readFlags (i.rest.length + 1) true [] i.flags
    let stop ← peek
    bump
    if stop == ':' then return .group none f
    else if start == ')' then failure
    else return .flags f
  else return .group none i.flags

/-! ## Expressions -/

/-- A literal character. -/
def literal (c : Char) : Read Expr := do
  return .char (← foldCase (.single c))

/-- A character, dot, anchor or escape. -/
def readPrimitive : Read Expr := do
  let f := (← get).flags
  match ← peek with
  | '\\' =>
    match ← readEscape with
    | .literal c => literal c
    | .set s => return .char s
    | .assertion a => return .assertion a
  | '.' =>
    bump
    return .char (if f.dotAll then .any else .complement (.single '\n'))
  | '^' =>
    bump
    return .assertion (if f.multiLine then .lineStart else .textStart)
  | '$' =>
    bump
    return .assertion (if f.multiLine then .lineEnd else .textEnd)
  | c =>
    bump
    literal c

/-- The bounds of a repetition between braces. -/
def readBounds : Read (Nat × Option Nat) := do
  bumpMore
  let min ← readDecimal
  let max ← if (← peek) == ',' then
      bumpMore
      if (← peek) == '\x7d' then pure none else pure (some (← readDecimal))
    else pure (some min)
  if (← peek) != '\x7d' then failure
  if max.any (· < min) then failure
  bumpSpace
  return (min, max)

/-- An item of a sequence: an expression, or flags, which cannot be repeated. -/
abbrev Part := Option Expr

/-- Repeats the last item, as greedy as its mark and the flags say. -/
def repeatLast (min : Nat) (max : Option Nat) : List Part → Read (List Part)
  | some r :: parts => do
    let isLazy ← bumpIf "?"
    let greedy := isLazy == (← get).flags.swapGreed
    return some (.repetition min max greedy r) :: parts
  | _ => failure

/-- The sequence of items, of which the last comes first. -/
def sequence (parts : List Part) : Expr :=
  match parts.reverse.filterMap id with
  | [] => .empty
  | r :: rs => rs.foldl .seq r

mutual

/-- Alternatives up to the end of the group. -/
def readAlternatives : Nat → Read Expr
  | 0 => failure
  | fuel + 1 => do
    let r ← readSequence fuel []
    if ← bumpIf "|" then return .alt r (← readAlternatives fuel) else return r

/-- A sequence up to the end of the alternative. The items read so far are given, the last one
first. -/
def readSequence : Nat → List Part → Read Expr
  | 0, _ => failure
  | fuel + 1, parts => do
    skipSpace
    match ← peek? with
    | none => return sequence parts
    | some '|' => return sequence parts
    | some ')' => return sequence parts
    | some '(' =>
      match ← readOpening with
      | .flags f =>
        modify fun i => { i with flags := f }
        readSequence fuel (none :: parts)
      | .group name f =>
        let outer := (← get).flags
        modify fun i => { i with flags := f }
        let r ← readAlternatives fuel
        if ¬ (← bumpIf ")") then failure
        modify fun i => { i with flags := outer }
        let r := match name with
          | some name => Expr.group name r
          | none => r
        readSequence fuel (some r :: parts)
    | some '[' =>
      let s ← readClass fuel
      readSequence fuel (some (.char s) :: parts)
    | some '?' =>
      bump
      readSequence fuel (← repeatLast 0 (some 1) parts)
    | some '*' =>
      bump
      readSequence fuel (← repeatLast 0 none parts)
    | some '+' =>
      bump
      readSequence fuel (← repeatLast 1 none parts)
    | some '\x7b' =>
      let (min, max) ← readBounds
      readSequence fuel (← repeatLast min max parts)
    | some _ =>
      let r ← readPrimitive
      readSequence fuel (some r :: parts)

end

/-- The expression that a pattern stands for. -/
def parse? (pattern : String) : Option Expr := do
  let rest := pattern.toList
  let (r, i) ← (readAlternatives (2 * rest.length + 2)).run { rest, flags := {}, names := [] }
  if i.rest.isEmpty then some r else none

end ParserGen.Pattern
