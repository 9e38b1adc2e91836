import ParserGen.Lexer.Basic

/-!
# Simple lexers

A lexer with one set of rules.
-/

namespace ParserGen

/-- A lexer with one set of rules. -/
structure SimpleLexer where
  rules : LexerRules
deriving Inhabited

namespace SimpleLexer

/-- A lexer without rules. -/
def empty : SimpleLexer :=
  ⟨.empty⟩

/-- Adds a token whose kind is its text. -/
def token (l : SimpleLexer) (text : String) : SimpleLexer :=
  ⟨l.rules.literal text text⟩

/-- Adds a token with a fixed text. -/
def tokenAs (l : SimpleLexer) (kind text : String) : SimpleLexer :=
  ⟨l.rules.literal kind text⟩

/-- Adds tokens that match a pattern. -/
def pattern (l : SimpleLexer) (kind pattern : String) : Except LexError SimpleLexer :=
  (l.rules.pattern kind pattern).map SimpleLexer.mk

/-- Drops tokens of some kinds. -/
def skip (l : SimpleLexer) (kinds : List String) : SimpleLexer :=
  ⟨l.rules.skip kinds⟩

/-- The next piece is the longest match. -/
def extract (l : SimpleLexer) : Extract Unit := fun _ _ text =>
  .ok ((l.rules.longest? text).map fun piece => (piece, ()))

/-- Splits a text into tokens. -/
def lex (l : SimpleLexer) (text : String) : Except LexError TokenStream :=
  scan l.extract () text

end SimpleLexer

end ParserGen
