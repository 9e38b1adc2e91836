import ParserGen.Token

/-!
# Token streams

A stream is a list of tokens that ends in `$eof`, with a cursor on one of them. The cursor can be
moved by index or by distance; a move that would leave the stream fails and changes nothing. Since
a stream never loses its cursor, there is always a current token.

* `ofTokens_ends`: whatever the list of tokens, the stream ends in `$eof`.
-/

namespace ParserGen

/-- Why a token cannot be reached. -/
inductive StreamError where
  /-- No token stands at that distance from the cursor. -/
  | lookAhead (distance : Int)
  /-- No token has that index. -/
  | index (index : Nat)
  /-- The cursor is on the last token. -/
  | endOfStream
deriving DecidableEq, Inhabited

/-- The wording of the error. -/
def StreamError.message : StreamError → String
  | .lookAhead n => "invalid look-ahead: " ++ toString n
  | .index i => "invalid index: " ++ toString i
  | .endOfStream => "attempting to move beyond the end of the stream"

/-- Tokens with a cursor on one of them. -/
structure TokenStream where
  tokens : Array Token
  /-- The index of the current token. -/
  position : Nat
  position_lt : position < tokens.size

namespace TokenStream

/-- The tokens, with `$eof` at the end: one is added unless the last token is one. The added token
is on the line of the last one. -/
def terminate (tokens : Array Token) : Array Token :=
  match tokens.back? with
  | none => #[Token.eof 1 0]
  | some last => if last.isEof then tokens else tokens.push (Token.eof last.line 0)

theorem terminate_ends (tokens : Array Token) :
    ∃ t, (terminate tokens).back? = some t ∧ t.isEof = true := by
  unfold terminate
  split
  · exact ⟨_, rfl, rfl⟩
  · rename_i last h
    split
    · exact ⟨last, h, by assumption⟩
    · exact ⟨_, Array.back?_push .., rfl⟩

theorem size_terminate_pos (tokens : Array Token) : 0 < (terminate tokens).size := by
  obtain ⟨t, ht, _⟩ := terminate_ends tokens
  rcases Nat.eq_zero_or_pos (terminate tokens).size with h | h
  · rw [Array.back?_eq_getElem?, Array.getElem?_eq_none (by omega)] at ht
    exact absurd ht (by simp)
  · exact h

/-- The stream of the tokens, with the cursor on the first. -/
def ofTokens (tokens : Array Token) : TokenStream :=
  ⟨terminate tokens, 0, size_terminate_pos tokens⟩

/-- The number of tokens, `$eof` included. -/
def size (s : TokenStream) : Nat :=
  s.tokens.size

/-- The token under the cursor. -/
def current (s : TokenStream) : Token :=
  have := s.position_lt
  s.tokens[s.position]

/-- The token at an index. -/
def get (s : TokenStream) (i : Nat) : Except StreamError Token :=
  if h : i < s.tokens.size then .ok s.tokens[i] else .error (.index i)

/-- Puts the cursor on an index. -/
def moveTo (s : TokenStream) (i : Nat) : Except StreamError TokenStream :=
  if h : i < s.tokens.size then .ok { s with position := i, position_lt := h }
  else .error (.index i)

/-- The index at a distance from the cursor, if it is one of the stream. -/
def relative? (s : TokenStream) (n : Int) : Option (Fin s.tokens.size) :=
  let i := (s.position : Int) + n
  if h : 0 ≤ i ∧ i.toNat < s.tokens.size then some ⟨i.toNat, h.2⟩ else none

/-- The token at a distance from the cursor. -/
def lookAhead (s : TokenStream) (n : Int) : Except StreamError Token :=
  match s.relative? n with
  | some i => .ok s.tokens[i]
  | none => .error (.lookAhead n)

/-- Moves the cursor by a distance. -/
def seek (s : TokenStream) (n : Int) : Except StreamError TokenStream :=
  match s.relative? n with
  | some i => .ok { s with position := i, position_lt := i.isLt }
  | none => .error (.lookAhead n)

/-- Moves the cursor to the next token. -/
def advance (s : TokenStream) : Except StreamError TokenStream :=
  if h : s.position + 1 < s.tokens.size then
    .ok { s with position := s.position + 1, position_lt := h }
  else .error .endOfStream

/-- Every stream ends in `$eof`. -/
theorem ofTokens_ends (tokens : Array Token) :
    ∃ t, (ofTokens tokens).tokens.back? = some t ∧ t.isEof = true :=
  terminate_ends tokens

end TokenStream

end ParserGen
