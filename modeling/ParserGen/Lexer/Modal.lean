import ParserGen.Lexer.Basic
import ParserGen.OrderedMap

/-!
# Modal lexers

A lexer with several named states, each with its own rules. The states entered and not yet left form
a stack; only the rules of the one on top count. A token may enter a further state or leave the
current one, but not the one the lexer started in.
-/

namespace ParserGen

/-- What a token does to the stack of states. -/
inductive LexerTransition where
  /-- Enter the state with a name. -/
  | push (target : String)
  /-- Leave the current state. -/
  | pop
deriving DecidableEq, Inhabited

/-- The rules of one state, and the kinds of tokens that change the state. -/
structure LexerMode where
  rules : LexerRules
  transitions : OrderedMap String LexerTransition
deriving Inhabited

namespace LexerMode

/-- A state without rules. -/
def empty : LexerMode :=
  ⟨.empty, ∅⟩

/-- Adds a token with a fixed text. -/
def tokenAs (m : LexerMode) (kind text : String) : LexerMode :=
  { m with rules := m.rules.literal kind text }

/-- Adds a token whose kind is its text. -/
def token (m : LexerMode) (text : String) : LexerMode :=
  m.tokenAs text text

/-- Adds tokens that match a pattern. -/
def pattern (m : LexerMode) (kind pattern : String) : Except LexError LexerMode :=
  (m.rules.pattern kind pattern).map fun rules => { m with rules }

/-- Drops tokens of some kinds. -/
def skip (m : LexerMode) (kinds : List String) : LexerMode :=
  { m with rules := m.rules.skip kinds }

/-- Tokens of a kind enter a state. -/
def push (m : LexerMode) (kind target : String) : LexerMode :=
  { m with transitions := m.transitions.insert kind (.push target) }

/-- Tokens of a kind leave the state. -/
def pop (m : LexerMode) (kind : String) : LexerMode :=
  { m with transitions := m.transitions.insert kind .pop }

end LexerMode

/-- The states entered and not yet left. -/
structure ModeStack where
  top : LexerMode
  /-- The other states, the last one entered first. -/
  below : List LexerMode

/-- A lexer with several states. -/
structure ModalLexer where
  modes : OrderedMap String LexerMode
  start : Option String
deriving Inhabited

namespace ModalLexer

/-- A lexer without states. -/
def empty : ModalLexer :=
  ⟨∅, none⟩

/-- The state with a name. -/
def mode (l : ModalLexer) (name : String) : Except LexError LexerMode :=
  match l.modes.find? name with
  | some m => .ok m
  | none => .error (.unknownState name)

/-- Adds a state without rules. -/
def addMode (l : ModalLexer) (name : String) : Except LexError ModalLexer :=
  match l.modes.find? name with
  | some _ => .error (.duplicateState name)
  | none => .ok { l with modes := l.modes.insert name .empty }

/-- Replaces the rules of a state. -/
def setMode (l : ModalLexer) (name : String) (m : LexerMode) : ModalLexer :=
  { l with modes := l.modes.insert name m }

/-- Sets the state in which the lexer starts. -/
def startIn (l : ModalLexer) (name : String) : Except LexError ModalLexer :=
  (l.mode name).map fun _ => { l with start := some name }

/-- What a recognized token does to the stack. -/
def transit (l : ModalLexer) (s : ModeStack) (pos : Text.Position) (kind : String) :
    Except LexError ModeStack :=
  match s.top.transitions.find? kind with
  | some (.push target) => (l.mode target).map fun m => { top := m, below := s.top :: s.below }
  | some .pop =>
    match s.below with
    | m :: below => .ok { top := m, below }
    | [] => .error (.stateUnderflow pos)
  | none => .ok s

/-- The next piece is the longest match of the state on top, which then may change the stack. -/
def extract (l : ModalLexer) : Extract ModeStack := fun s pos text =>
  match s.top.rules.longest? text with
  | none => .ok none
  | some piece => (l.transit s pos piece.kind).map fun s => some (piece, s)

/-- Splits a text into tokens. -/
def lex (l : ModalLexer) (text : String) : Except LexError TokenStream :=
  match l.start with
  | none => .error .noStartingState
  | some name => do
    let m ← l.mode name
    scan l.extract { top := m, below := [] } text

end ModalLexer

end ParserGen
