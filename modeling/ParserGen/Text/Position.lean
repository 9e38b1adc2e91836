/-!
# Places in a text

Lines end in a line feed. A text read from elsewhere may end its lines in a carriage return, with or
without a line feed after it; such ends are made plain line feeds first.
-/

namespace ParserGen.Text

/-- A line and an offset within it, both counted from one. -/
structure Position where
  line : Nat
  offset : Nat
deriving DecidableEq, Inhabited

namespace Position

/-- The beginning of a text. -/
def start : Position :=
  ⟨1, 1⟩

/-- The place after a character. -/
def advance (p : Position) (c : Char) : Position :=
  if c = '\n' then ⟨p.line + 1, 1⟩ else ⟨p.line, p.offset + 1⟩

/-- The place after a piece of text. -/
def advanceAll (p : Position) (cs : List Char) : Position :=
  cs.foldl advance p

end Position

/-- The text with every line end a line feed. -/
def normalizeLines : List Char → List Char
  | [] => []
  | '\r' :: '\n' :: rest => '\n' :: normalizeLines rest
  | '\r' :: rest => '\n' :: normalizeLines rest
  | c :: rest => c :: normalizeLines rest

/-- The beginning of a text that a message quotes. -/
def snippet (cs : List Char) : String :=
  String.ofList (cs.take 16)

end ParserGen.Text
