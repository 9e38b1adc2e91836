import ParserGen.Pattern.CharSet

/-!
# Regular expressions

The structure of a pattern. Alternatives are ordered: the earlier one is preferred. A greedy
repetition prefers to go on, a lazy one prefers to stop.
-/

namespace ParserGen.Pattern

/-- A condition on the place between two characters. -/
inductive Assertion where
  | textStart
  | textEnd
  | lineStart
  | lineEnd
  | wordBoundary
  | notWordBoundary
  | wordStart
  | wordEnd
  /-- No character of a word stands before. -/
  | wordStartHalf
  /-- No character of a word stands after. -/
  | wordEndHalf
deriving DecidableEq, Inhabited

namespace Assertion

/-- Whether there is a character, and it belongs to a word. -/
def isWord? (c : Option Char) : Bool :=
  c.any Text.isWord

/-- Whether the assertion holds between two characters; at an end of the text there is none. -/
def holds (before after : Option Char) : Assertion → Bool
  | .textStart => before.isNone
  | .textEnd => after.isNone
  | .lineStart => before.all (· == '\n')
  | .lineEnd => after.all (· == '\n')
  | .wordBoundary => isWord? before != isWord? after
  | .notWordBoundary => isWord? before == isWord? after
  | .wordStart => !isWord? before && isWord? after
  | .wordEnd => isWord? before && !isWord? after
  | .wordStartHalf => !isWord? before
  | .wordEndHalf => !isWord? after

end Assertion

/-- A regular expression. -/
inductive Expr where
  /-- The empty text. -/
  | empty
  /-- One character of a set. -/
  | char (s : CharSet)
  | assertion (a : Assertion)
  | seq (r s : Expr)
  /-- Either of two, the first one preferred. -/
  | alt (r s : Expr)
  /-- From `min` to `max` times, without a limit if there is no `max`. -/
  | repetition (min : Nat) (max : Option Nat) (greedy : Bool) (r : Expr)
  /-- A group whose place in the match is of interest. -/
  | group (name : String) (r : Expr)
deriving DecidableEq, Inhabited

/-- Whether the expression may match the empty text. -/
def Expr.mayBeEmpty : Expr → Bool
  | .empty => true
  | .char _ => false
  | .assertion _ => true
  | .seq r s => r.mayBeEmpty && s.mayBeEmpty
  | .alt r s => r.mayBeEmpty || s.mayBeEmpty
  | .repetition min _ _ r => min == 0 || r.mayBeEmpty
  | .group _ r => r.mayBeEmpty

end ParserGen.Pattern
