import ParserGen.Pattern.Search
import ParserGen.Text.Position
import ParserGen.Text.Quoted
import ParserGen.Token.Stream

/-!
# Rules and scanning

A rule recognizes one kind of token at the beginning of a text. Of several rules the one with the
longest match that is not empty decides; of equally long ones the one that was given first.

A scan splits a text into pieces from left to right. What decides on the next piece may carry a state
from piece to piece.
-/

namespace ParserGen

/-! ## Errors -/

/-- Why a text cannot be split into tokens, or a lexer cannot be set up. -/
inductive LexError where
  /-- No rule matches here. -/
  | unrecognized (position : Text.Position) (snippet : String)
  /-- The pattern given for a kind of token is none. -/
  | pattern (kind : String)
  | unknownState (name : String)
  | duplicateState (name : String)
  | noStartingState
  /-- A token here would leave the starting state. -/
  | stateUnderflow (position : Text.Position)
deriving DecidableEq, Inhabited

/-- The wording of the error. -/
def LexError.message : LexError → String
  | .unrecognized p snippet =>
    "Cannot extract another token at line " ++ toString p.line ++ ", column " ++
      toString p.offset ++ " near " ++ Text.quote snippet ++ "."
  | .pattern kind => "invalid pattern for `" ++ kind ++ "'"
  | .unknownState name => "The state `" ++ name ++ "' is not defined."
  | .duplicateState name => "The state `" ++ name ++ "' is already defined."
  | .noStartingState => "A starting state must be set before lexing."
  | .stateUnderflow p =>
    "Cannot leave the starting state at line " ++ toString p.line ++ ", column " ++
      toString p.offset ++ "."

/-! ## Rules -/

/-- Recognizes a token at the beginning of a text. -/
structure Recognizer where
  /-- The length of the token, if there is one. -/
  matchLength? : List Char → Option Nat
  /-- A token lies within the text. -/
  bounded : ∀ text n, matchLength? text = some n → n ≤ text.length

namespace Recognizer

/-- Recognizes a fixed text. -/
def literal (text : String) : Recognizer where
  matchLength? input :=
    if text.toList.isPrefixOf input then some text.toList.length else none
  bounded input n h := by
    split at h
    · rename_i hp
      cases h
      exact (List.isPrefixOf_iff_prefix.1 hp).length_le
    · cases h

/-- Recognizes what the first match of a pattern ends with. -/
def ofPattern (p : Pattern) : Recognizer where
  matchLength? input := (p.search none input 0).map (·.stop)
  bounded input n h := by
    obtain ⟨m, hm, rfl⟩ := Option.map_eq_some_iff.1 h
    have := Pattern.search_stop_le hm
    omega

end Recognizer

/-- The rules of a lexer or of one of its states. -/
structure LexerRules where
  /-- The kinds of tokens with their recognizers, in the order in which they were given. -/
  recognizers : Array (String × Recognizer)
  /-- The kinds of tokens that are dropped. -/
  skipped : List String

/-- A recognized piece of text. -/
structure Piece where
  kind : String
  length : Nat
  skipped : Bool
deriving DecidableEq, Inhabited

namespace LexerRules

/-- No rules. -/
def empty : LexerRules :=
  { recognizers := #[], skipped := [] }

instance : Inhabited LexerRules := ⟨empty⟩

/-- Adds a rule for a fixed text. -/
def literal (r : LexerRules) (kind text : String) : LexerRules :=
  { r with recognizers := r.recognizers.push (kind, .literal text) }

/-- Adds a rule for a pattern, which is matched at the beginning of the text. -/
def pattern (r : LexerRules) (kind pattern : String) : Except LexError LexerRules :=
  match Pattern.compile? ("^(?:" ++ pattern ++ ")") with
  | some p => .ok { r with recognizers := r.recognizers.push (kind, .ofPattern p) }
  | none => .error (.pattern kind)

/-- Drops tokens of more kinds. -/
def skip (r : LexerRules) (kinds : List String) : LexerRules :=
  { r with skipped := r.skipped ++ kinds }

/-- The better of the best match so far and that of one more rule: the longer one, the earlier one if
both are equally long. An empty match is none. -/
def better (text : List Char) (best : Option (String × Nat)) (rule : String × Recognizer) :
    Option (String × Nat) :=
  match rule.2.matchLength? text with
  | none => best
  | some n => if n > (best.map (·.2)).getD 0 then some (rule.1, n) else best

/-- The longest match at the beginning of a text. -/
def longest? (r : LexerRules) (text : List Char) : Option Piece :=
  (r.recognizers.toList.foldl (better text) none).map fun (kind, length) =>
    { kind, length, skipped := r.skipped.contains kind }

end LexerRules

/-! ## Scanning -/

/-- Decides on the next piece of a text, given a state and the place where the text begins. -/
abbrev Extract (σ : Type) := σ → Text.Position → List Char → Except LexError (Option (Piece × σ))

/-- The tokens of a text, of which the first `covered` characters belong to the last piece. -/
def scanFrom {σ : Type} (extract : Extract σ) :
    σ → Text.Position → Nat → List Char → Except LexError (List Token)
  | _, pos, _, [] => .ok [Token.eof pos.line pos.offset]
  | s, pos, covered + 1, c :: rest => scanFrom extract s (pos.advance c) covered rest
  | s, pos, 0, c :: rest => do
    match ← extract s pos (c :: rest) with
    | none => .error (.unrecognized pos (Text.snippet (c :: rest)))
    | some (piece, s) =>
      let tokens ← scanFrom extract s (pos.advance c) (piece.length - 1) rest
      if piece.skipped then .ok tokens
      else
        let value := String.ofList ((c :: rest).take piece.length)
        .ok ({ kind := piece.kind, value, line := pos.line, offset := pos.offset } :: tokens)

/-- Splits a text into tokens, with `$eof` at the end. -/
def scan {σ : Type} (extract : Extract σ) (s : σ) (text : String) : Except LexError TokenStream :=
  (scanFrom extract s .start 0 (Text.normalizeLines text.toList)).map fun tokens =>
    .ofTokens tokens.toArray

end ParserGen
