import ParserGen.Grammar.Definition
import ParserGen.Lexer.Simple
import ParserGen.Parser

/-!
# Readers

A lexer together with a parser for its tokens reads texts.
-/

namespace ParserGen

/-- Why a text cannot be read. -/
inductive SyntaxError where
  | lex (error : LexError)
  | parse (error : ParseError)
  /-- The reader is itself at fault. -/
  | internal
deriving DecidableEq, Inhabited

/-- The wording of the error. -/
def SyntaxError.message : SyntaxError → String
  | .lex e => e.message
  | .parse e => e.message
  | .internal => "unexpected parse result"

/-- A lexer together with a parser for its tokens. -/
structure Reader (V : Type) where
  lexer : SimpleLexer
  parser : Parser V

namespace Reader

variable {V α : Type}

/-- The reader of a grammar, unless the lexer or the grammar is at fault. -/
def ofParts? (lexer : Except LexError SimpleLexer) (grammar : Except DefinitionError (Grammar V)) :
    Option (Reader V) := do
  let lexer ← lexer.toOption
  let grammar ← grammar.toOption
  let parser ← (Parser.ofGrammar grammar).toOption
  return { lexer, parser }

/-- What a stream of tokens stands for. Every token and the end of the stream take at most
`stepsPerToken` steps. -/
def parseTokens [Inhabited V] (r : Reader V) (ofToken : Token → V) (stepsPerToken : Nat)
    (result? : V → Option α) (tokens : TokenStream) : Except SyntaxError α :=
  match r.parser.parse? ofToken (stepsPerToken * (tokens.size + 1)) tokens with
  | some (.error e, _) => .error (.parse e)
  | some (.ok v, _) =>
    match result? v with
    | some a => .ok a
    | none => .error .internal
  | none => .error .internal

/-- What a text stands for. -/
def read [Inhabited V] (r : Reader V) (ofToken : Token → V) (stepsPerToken : Nat)
    (result? : V → Option α) (text : String) : Except SyntaxError α := do
  let tokens ← (r.lexer.lex text).mapError .lex
  r.parseTokens ofToken stepsPerToken result? tokens

end Reader

end ParserGen
