import ParserGen.Lexer.Basic

/-!
# Splitters

A lexer that cuts the text with one pattern, made of patterns for tokens and patterns for text to
drop. The stretches between matches are tokens as well. A function tells the kind of each token from
its text, or that there is no such token. Case does not count.
-/

namespace ParserGen

/-- A lexer that cuts the text with one pattern. -/
structure Splitter where
  /-- The text of the pattern. -/
  source : String
  pattern : Pattern
  /-- The kind of a token from its text. -/
  classify : String → Option String

/-- The tokens found so far, and the place after the text covered so far. -/
structure SplitCursor where
  tokens : Array Token
  position : Text.Position

namespace SplitCursor

/-- Covers text that is dropped. -/
def skip (c : SplitCursor) (value : List Char) : SplitCursor :=
  { c with position := c.position.advanceAll value }

/-- Covers text that is a token, unless it is empty. -/
def emit (classify : String → Option String) (c : SplitCursor) (value : List Char) :
    Except LexError SplitCursor :=
  if value.isEmpty then .ok c
  else
    let text := String.ofList value
    match classify text with
    | none => .error (.unrecognized c.position (Text.snippet value))
    | some kind =>
      let token : Token :=
        { kind, value := text, line := c.position.line, offset := c.position.offset }
      .ok { tokens := c.tokens.push token, position := c.position.advanceAll value }

end SplitCursor

namespace Splitter

/-- The group that matches tokens, as opposed to text that is dropped. -/
def tokenGroup : String := "token"

/-- The pattern made of patterns for tokens and patterns for text to drop. -/
def combine (patterns skipped : List String) : String :=
  let grouped (p : String) := "(?:" ++ p ++ ")"
  let tokens := "(?P<" ++ tokenGroup ++ ">" ++ "|".intercalate (patterns.map grouped) ++ ")"
  "(?i)" ++ "|".intercalate (tokens :: skipped.map grouped)

/-- The lexer of patterns for tokens and patterns for text to drop. -/
def create (patterns skipped : List String) (classify : String → Option String) :
    Except LexError Splitter :=
  let source := combine patterns skipped
  match Pattern.compile? source with
  | some pattern => .ok { source, pattern, classify }
  | none => .error (.pattern "<split>")

/-- The text from one place to another. -/
def slice (text : List Char) (start stop : Nat) : List Char :=
  (text.drop start).take (stop - start)

/-- Covers the stretch before a match and the match itself. `last` is the place after the last
match. -/
def step (l : Splitter) (text : List Char) (state : SplitCursor × Nat) (m : Pattern.Match) :
    Except LexError (SplitCursor × Nat) := do
  let (cursor, last) := state
  let cursor ← cursor.emit l.classify (slice text last m.start)
  match l.pattern.group? tokenGroup m with
  | some (start, stop) => return (← cursor.emit l.classify (slice text start stop), m.stop)
  | none => return (cursor.skip (slice text m.start m.stop), m.stop)

/-- Splits a text into tokens, with `$eof` at the end. -/
def lex (l : Splitter) (text : String) : Except LexError TokenStream := do
  let text := Text.normalizeLines text.toList
  let start : SplitCursor := { tokens := #[], position := .start }
  let (cursor, last) ← (l.pattern.findAll text).foldlM (l.step text) (start, 0)
  let cursor ← cursor.emit l.classify (text.drop last)
  return .ofTokens (cursor.tokens.push (Token.eof cursor.position.line cursor.position.offset))

end Splitter

end ParserGen
