import ParserGen.Text.Quoted

/-!
# Tokens

A token is a piece of the input with the kind the grammar knows it by and the place where it
begins. The token of kind `$eof` closes every input.
-/

namespace ParserGen

/-- A piece of the input. Lines and offsets count from one. -/
structure Token where
  /-- The name of the terminal that the token stands for. -/
  kind : String
  /-- The text of the token. -/
  value : String
  line : Nat
  offset : Nat
deriving DecidableEq, Inhabited

namespace Token

/-- The kind of the token that ends the input. -/
def eofKind : String := "$eof"

/-- The token that ends the input. -/
def eof (line offset : Nat) : Token :=
  { kind := eofKind, value := "", line, offset }

/-- Whether the token ends the input. -/
def isEof (t : Token) : Bool :=
  t.kind == eofKind

/-- The token in a message: its text with the kind behind it, or the kind alone where the text adds
nothing. -/
def display (t : Token) : String :=
  if t.value == "" || t.value == t.kind then t.kind else t.value ++ " (" ++ t.kind ++ ")"

/-- All fields of the token. -/
def describe (t : Token) : String :=
  "Token \x7b kind: " ++ Text.quote t.kind ++ ", value: " ++ Text.quote t.value ++
    ", line: " ++ toString t.line ++ ", offset: " ++ toString t.offset ++ " \x7d"

end Token

end ParserGen
