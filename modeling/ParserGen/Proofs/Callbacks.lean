import ParserGen.Proofs.Calculator.Words
import ParserGen.Proofs.GrammarFile.Reading

/-!
# Callbacks get what they ask for

The callbacks of a grammar take their arguments apart as the rules give them, and have nothing to return
where these have another shape. The values of grammar files and of expressions have a case of their own
for that, and the readers one for a value that stands for no whole text. Neither is ever met.

* `Reader.Avoids`: a value that never is on the stack.
* `Regular`: what reading a text is to end with.
* `callbacks_total`: **grammar files and expressions are read without a broken value**, and end so.
-/

namespace ParserGen

/-- The value is not on the stack of any machine that the reader comes to on a text. What a callback
returns is put on the stack, so no callback returns it. -/
def Reader.Avoids {V : Type} [Inhabited V] (r : Reader V) (ofToken : Token → V) (bad : V) : Prop :=
  ∀ text stream m, r.lexer.lex text = .ok stream →
    (r.parser.engine ofToken).Reaches (.initial stream) m → ∀ f ∈ m.stack, f.value ≠ bad

/-- What was read, or a place where no token begins, or a token that is unexpected. -/
inductive Regular {α : Type} : Except SyntaxError α → Prop where
  | read (a : α) : Regular (.ok a)
  | unrecognized (pos : Text.Position) (snippet : String) :
      Regular (.error (.lex (.unrecognized pos snippet)))
  | unexpected (token : Token) (expected : List String) :
      Regular (.error (.parse (.unexpectedToken token expected)))

/-- Reading is regular if it is for texts with tokens. -/
theorem Reader.regular_read {V α : Type} [Inhabited V] {r : Reader V} {ofToken : Token → V}
    {price : Nat} {result? : V → Option α} {text : String}
    (h : ∀ stream, r.lexer.lex text = .ok stream →
      Regular (r.parseTokens ofToken price result? stream)) :
    Regular (r.read ofToken price result? text) := by
  cases hlex : r.lexer.lex text with
  | error e =>
    obtain ⟨pos, snippet, rfl⟩ := SimpleLexer.error_of_lex hlex
    rw [Reader.read_of_lex_error hlex]
    exact .unrecognized pos snippet
  | ok stream =>
    rw [Reader.read_of_lex hlex]
    exact h stream hlex

theorem GrammarFile.exists_regular : ∃ r : Reader GrammarFile.Node, GrammarFile.reader? = some r ∧
    r.Avoids GrammarFile.Node.token .broken ∧ ∀ source, Regular (GrammarFile.parse source) := by
  obtain ⟨l, t, hl, hr, he, -, hpays⟩ := exists_reader
  refine ⟨reader l t, hr, ?_, fun source => ?_⟩
  · intro text stream m hlex hm
    obtain ⟨body, eof, hcloses, henclosed⟩ := exists_closes hl hlex
    exact ne_broken_of_reaches he hcloses henclosed hm
  · rw [parse_of_reader hr]
    refine Reader.regular_read fun stream hlex => ?_
    obtain ⟨body, eof, hcloses, henclosed⟩ := exists_closes hl hlex
    rw [← parse_eq hr hlex]
    rcases parse_cases hr he hpays hlex hcloses henclosed with ⟨ds, -, h⟩ | ⟨token, expected, h⟩
    · rw [h]
      exact .read _
    · rw [h]
      exact .unexpected token expected

theorem Calculator.exists_regular : ∃ r : Reader Calculator.Node, Calculator.reader? = some r ∧
    r.Avoids Calculator.Node.token .broken ∧
    (∀ text stream, r.lexer.lex text = .ok stream → ∀ token ∈ stream.tokens,
      token.kind = Calculator.numberKind → ∃ d, Decimal.ofText? token.value = some d) ∧
    ∀ text, Regular (Calculator.parse text) := by
  obtain ⟨r, hr, hg, ht⟩ := exists_reader
  have hl := Reader.lexer_of_ofParts? hr
  have hengine : r.parser.engine Node.token = engine r.parser.table := by
    unfold engine
    rw [← hg]
  refine ⟨r, hr, ?avoids, ?number, fun text => ?regular⟩
  case avoids =>
    intro text stream m hlex hm
    obtain ⟨body, eof, hw, rfl⟩ := words_of_lex hl hlex
    rw [hengine] at hm
    exact ne_broken_of_reaches ht hw hm
  case number =>
    intro text stream hlex token hm hkind
    obtain ⟨body, eof, hw, rfl⟩ := words_of_lex hl hlex
    have hrest : token ∈ (TokenStream.ofTokens (body ++ [eof]).toArray).rest := Array.mem_toList_iff.2 hm
    rw [rest_ofTokens hw] at hrest
    rcases List.mem_append.1 hrest with hbody | heof
    · obtain ⟨d, hd⟩ := (hw.word token hbody).numeral hkind
      exact ⟨d, hd.ofText?⟩
    · -- `$eof` is no number
      rw [List.mem_singleton.1 heof, hw.closed] at hkind
      exact absurd hkind (by decide)
  case regular =>
    rw [parse_of_reader hr]
    refine Reader.regular_read fun stream hlex => ?_
    obtain ⟨body, eof, hw, rfl⟩ := words_of_lex hl hlex
    have hregular : Regular (readTokens r (body ++ [eof])) := by
      rcases readTokens_cases hg ht hw with ⟨e, h, -⟩ | ⟨token, expected, h⟩
      · rw [h]
        exact .read e
      · rw [h]
        exact .unexpected token expected
    exact hregular

/-- **Grammar files and expressions are read without a broken value, whatever the text**, and every text
that is taken for a number denotes one. -/
theorem callbacks_total :
    (∃ r : Reader GrammarFile.Node, GrammarFile.reader? = some r ∧
      r.Avoids GrammarFile.Node.token .broken ∧ ∀ source, Regular (GrammarFile.parse source)) ∧
    ∃ r : Reader Calculator.Node, Calculator.reader? = some r ∧
      r.Avoids Calculator.Node.token .broken ∧
      (∀ text stream, r.lexer.lex text = .ok stream → ∀ token ∈ stream.tokens,
        token.kind = Calculator.numberKind → ∃ d, Decimal.ofText? token.value = some d) ∧
      ∀ text, Regular (Calculator.parse text) :=
  ⟨GrammarFile.exists_regular, Calculator.exists_regular⟩

/-- A number is shifted and reduced. -/
theorem number_accepted : ∃ (r : Reader Calculator.Node) (stream : TokenStream),
    Calculator.reader? = some r ∧ r.lexer.lex "1.5" = .ok stream ∧
    stream.tokens.toList = [⟨Calculator.numberKind, "1.5", 1, 1⟩, Token.eof 1 4] ∧
    (∀ m, (r.parser.engine Calculator.Node.token).Reaches (.initial stream) m →
      ∀ f ∈ m.stack, f.value ≠ .broken) ∧
    (∃ d, Decimal.ofText? "1.5" = some d) ∧ Regular (Calculator.parse "1.5") ∧
    Regular (GrammarFile.parse "%start E;") := by
  obtain ⟨⟨_, -, -, hfile⟩, r, hr, havoids, hnumber, hregular⟩ := callbacks_total
  have htokens : SimpleLexer.tokens? Calculator.lexer "1.5" =
      some [⟨Calculator.numberKind, "1.5", 1, 1⟩, Token.eof 1 4] := by
    decide +kernel
  obtain ⟨stream, hlex, hstream⟩ :=
    SimpleLexer.exists_lex (Reader.lexer_of_ofParts? hr) _ htokens
  have hm : ⟨Calculator.numberKind, "1.5", 1, 1⟩ ∈ stream.tokens := by
    rw [← Array.mem_toList_iff, hstream]
    exact List.mem_cons_self
  exact ⟨r, stream, hr, hlex, hstream, fun m => havoids _ _ m hlex, hnumber _ _ hlex _ hm rfl,
    hregular _, hfile _⟩

end ParserGen
