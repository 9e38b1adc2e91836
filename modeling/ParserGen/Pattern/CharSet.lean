import ParserGen.Text.CaseFold
import ParserGen.Text.CharClass

/-!
# Sets of characters

What a pattern can match with one character.
-/

namespace ParserGen.Pattern

/-- A set of characters as a pattern describes it. -/
inductive CharSet where
  | empty
  | any
  | range (first last : Char)
  /-- Decimal digits of all scripts. -/
  | digit
  /-- White space. -/
  | blank
  /-- Characters of words. -/
  | word
  | complement (s : CharSet)
  | union (s t : CharSet)
  | inter (s t : CharSet)
  /-- The characters with a case variant in the set. -/
  | folded (s : CharSet)
deriving DecidableEq, Inhabited

namespace CharSet

/-- Whether a character is in the set. -/
def contains : CharSet → Char → Bool
  | .empty, _ => false
  | .any, _ => true
  | .range first last, c => decide (first ≤ c) && decide (c ≤ last)
  | .digit, c => Text.isDecimal c
  | .blank, c => Text.isBlank c
  | .word, c => Text.isWord c
  | .complement s, c => !s.contains c
  | .union s t, c => s.contains c || t.contains c
  | .inter s t, c => s.contains c && t.contains c
  | .folded s, c => (Text.caseVariants c).any s.contains

/-- The set of one character. -/
def single (c : Char) : CharSet :=
  .range c c

/-- The characters of `s` that are not in `t`. -/
def diff (s t : CharSet) : CharSet :=
  .inter s (.complement t)

/-- The characters in exactly one of the two sets. -/
def symmDiff (s t : CharSet) : CharSet :=
  .union (s.diff t) (t.diff s)

/-- The union of several ranges. -/
def ranges (rs : List (Char × Char)) : CharSet :=
  rs.foldr (fun r s => .union (.range r.1 r.2) s) .empty

/-- The ASCII classes that have a name. -/
def named? (name : String) : Option CharSet :=
  match name with
  | "alnum" => some (ranges [('0', '9'), ('A', 'Z'), ('a', 'z')])
  | "alpha" => some (ranges [('A', 'Z'), ('a', 'z')])
  | "ascii" => some (ranges [('\x00', '\x7f')])
  | "blank" => some (ranges [('\t', '\t'), (' ', ' ')])
  | "cntrl" => some (ranges [('\x00', '\x1f'), ('\x7f', '\x7f')])
  | "digit" => some (ranges [('0', '9')])
  | "graph" => some (ranges [('!', '~')])
  | "lower" => some (ranges [('a', 'z')])
  | "print" => some (ranges [(' ', '~')])
  | "punct" => some (ranges [('!', '/'), (':', '@'), ('[', '\x60'), ('\x7b', '~')])
  | "space" => some (ranges [('\t', '\r'), (' ', ' ')])
  | "upper" => some (ranges [('A', 'Z')])
  | "word" => some (ranges [('0', '9'), ('A', 'Z'), ('_', '_'), ('a', 'z')])
  | "xdigit" => some (ranges [('0', '9'), ('A', 'F'), ('a', 'f')])
  | _ => none

end CharSet

end ParserGen.Pattern
