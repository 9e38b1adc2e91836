import ParserGen.Proofs.GrammarFile.Phrases

/-!
# What grammar files are read as

The tokens of a source are read as the declarations that they spell, and as nothing else. Quoted symbols
stand between two quotes, as the pattern of their tokens says.

* `exists_closes`: the tokens of a source.
* `ne_broken_of_reaches`: **no value on the stack of a run is broken.**
* `file_language`: **a source is a grammar file if its tokens spell declarations**, which it is read as.
-/

namespace ParserGen.GrammarFile

open Pattern (CharSet)

/-! ## The tokens of a source -/

/-- The pattern of quoted symbols. -/
def quotedSource : String :=
  "^(?:'[^'\\n]+'|\"[^\"\\n]+\")"

/-- Characters between two of the same quotes. -/
def between (quote : Char) : Pattern.Expr :=
  .seq (.seq (.char (.single quote)) (.repetition 1 none true
    (.char (.complement (.union (.union .empty (.single quote)) (.single '\n'))))))
    (.char (.single quote))

/-- The expression of quoted symbols. -/
def quotedExpr : Pattern.Expr :=
  .seq (.assertion .textStart) (.alt (between '\'') (between '"'))

theorem parse_quotedSource : Pattern.parse? quotedSource = some quotedExpr := by
  decide +kernel

theorem eq_of_between {quote : Char} {value : List Char} (h : (between quote).Matches value) :
    ∃ inner, value = quote :: (inner ++ [quote]) := by
  obtain ⟨_, _, rfl, ⟨_, inner, rfl, ⟨first, hfirst, rfl⟩, -⟩, last, hlast, rfl⟩ := h
  obtain rfl := CharSet.eq_of_single hfirst
  obtain rfl := CharSet.eq_of_single hlast
  exact ⟨inner, by simp⟩

/-- A rule is not for `$eof`, and if it is for quoted symbols, it has their pattern. -/
def IsRule (kind : String) (recognizer : Recognizer) : Prop :=
  kind ≠ Token.eofKind ∧ (kind = "QUOTED" →
    ∃ p, Pattern.compile? quotedSource = some p ∧ recognizer = .ofPattern p)

theorem all_rules {l : SimpleLexer} (hl : lexer = .ok l) : l.rules.All IsRule := by
  unfold lexer at hl
  obtain ⟨l', hp, hl⟩ := exists_of_bind_ok hl
  cases hl
  have hall : l'.rules.All IsRule := by
    refine SimpleLexer.all_patterns (SimpleLexer.all_tokens LexerRules.all_empty ?keyword) hp ?pattern
    case keyword =>
      have hne : ∀ text ∈ keywords, text ≠ Token.eofKind ∧ text ≠ "QUOTED" := by decide
      exact fun text ht => ⟨(hne text ht).1, fun h => absurd h (hne text ht).2⟩
    case pattern =>
      have hne : ∀ e ∈ tokenPatterns, e.1 ≠ Token.eofKind ∧
          (e.1 = "QUOTED" → "^(?:" ++ e.2 ++ ")" = quotedSource) := by decide
      exact fun e he p hp => ⟨(hne e he).1, fun h => ⟨p, (hne e he).2 h ▸ hp, rfl⟩⟩
  exact hall

/-- The tokens of a source close a stream, and its quoted symbols are enclosed. -/
theorem exists_closes {l : SimpleLexer} (hl : lexer = .ok l) {source : String} {stream : TokenStream}
    (h : l.lex source = .ok stream) :
    ∃ body eof, stream.Closes body eof ∧ ∀ token ∈ body, Enclosed token := by
  have hall := all_rules hl
  obtain ⟨body, eof, hcloses, hbody⟩ :=
    SimpleLexer.exists_closes h fun rule hm => (hall rule hm).1
  refine ⟨body, eof, hcloses, fun token hm hkind => ?_⟩
  have hmatches := (hbody token hm).matches parse_quotedSource (by decide +kernel)
    fun rule hm hk => (hall rule hm).2 (hk.trans hkind)
  obtain ⟨_, value, hvalue, rfl, hquoted⟩ := hmatches
  rw [hvalue]
  rcases hquoted with hquoted | hquoted
  · obtain ⟨inner, rfl⟩ := eq_of_between hquoted
    exact ⟨_, inner, rfl, rfl⟩
  · obtain ⟨inner, rfl⟩ := eq_of_between hquoted
    exact ⟨_, inner, rfl, rfl⟩

/-! ## Reading -/

/-- A source is read by the reader that was set up. -/
theorem parse_of_reader {r : Reader Node} (hr : reader? = some r) (source : String) :
    parse source = r.read Node.token stepsPerToken Node.file? source := by
  -- unfolded without its argument, as else the kernel evaluates the reader to reduce the match on it
  conv_lhs =>
    fun
    delta parse
  rw [hr]

section Reading

variable {l : SimpleLexer} {t : ParseTable} {source : String} {stream : TokenStream}
  {body : List Token} {eof : Token} (hr : reader? = some (reader l t)) (he : (engine t).RunsOn grammar)
  (hpays : worth.Pays grammar grammar.automaton stepsPerToken) (hlex : l.lex source = .ok stream)
  (hcloses : stream.Closes body eof) (henclosed : ∀ token ∈ body, Enclosed token)

include hr hlex

theorem parse_eq : parse source =
    (reader l t).parseTokens Node.token stepsPerToken Node.file? stream := by
  rw [parse_of_reader hr]
  exact Reader.read_of_lex hlex

include he hpays hcloses henclosed

/-- A source is read as declarations that its tokens spell, or one of these is unexpected. -/
theorem parse_cases : (∃ ds, Spells body ds ∧ parse source = .ok ⟨ds⟩) ∨
    ∃ token expected, parse source = .error (.parse (.unexpectedToken token expected)) := by
  rw [parse_eq hr hlex]
  rcases Reader.parseTokens_cases (r := reader l t) he hpays hcloses with ⟨v, hv, hresult⟩ | hresult
  · obtain ⟨ds, rfl, hspells⟩ := (phraseOf_start_iff henclosed).1 hv
    exact Or.inl ⟨ds, hspells, hresult⟩
  · exact Or.inr hresult

/-- A source is read as the declarations that its tokens spell. -/
theorem parse_of_spells (hd : (engine t).Decided grammar) {ds : List Declaration}
    (h : Spells body ds) : parse source = .ok ⟨ds⟩ := by
  rw [parse_eq hr hlex]
  have hv := (phraseOf_start_iff henclosed).2 ⟨ds, rfl, h⟩
  exact Reader.parseTokens_of_phrase (r := reader l t) he hpays hcloses hd hv

omit hr hpays hlex in
/-- **No value on the stack of a run is broken.** -/
theorem ne_broken_of_reaches {m : Machine Node} (h : (engine t).Reaches (.initial stream) m) :
    ∀ f ∈ m.stack, f.value ≠ .broken := by
  intro f hf
  obtain ⟨name, ts, hphrase, hts⟩ := Engine.exists_phrase he grammar_numbered h hf
  have hphrase : Phrase name ts f.value := hphrase
  refine (hphrase.means fun token ht => ?_).ne_broken
  have hmem := hts token ht
  rw [hcloses.tokens] at hmem
  rcases List.mem_append.1 hmem with hbody | heof
  · exact henclosed token hbody
  · -- `$eof` is no quoted symbol
    intro hkind
    rw [List.mem_singleton.1 heof, hcloses.eof] at hkind
    exact absurd hkind (by decide)

end Reading

/-- **The tokens of a source are read as the declarations that they spell**, and if they spell none,
one of them is unexpected. -/
theorem file_language : ∃ l, lexer = .ok l ∧ ∀ source stream, l.lex source = .ok stream →
    ∃ body eof, stream.tokens.toList = body ++ [eof] ∧ eof.kind = Token.eofKind ∧
      (∀ file, parse source = .ok file ↔ Spells body file.declarations) ∧
      ((∀ ds, ¬ Spells body ds) → ∃ token expected,
        parse source = .error (.parse (.unexpectedToken token expected))) := by
  obtain ⟨l, t, hl, hr, he, hd, hpays⟩ := exists_reader
  refine ⟨l, hl, fun source stream hlex => ?_⟩
  obtain ⟨body, eof, hcloses, henclosed⟩ := exists_closes hl hlex
  have hcases := parse_cases hr he hpays hlex hcloses henclosed
  refine ⟨body, eof, hcloses.tokens, hcloses.eof, fun file => ⟨fun hfile => ?_, fun hspells => ?_⟩,
    fun hnone => hcases.resolve_left fun ⟨ds, hspells, _⟩ => hnone ds hspells⟩
  · rw [hfile] at hcases
    rcases hcases with ⟨ds, hspells, hds⟩ | ⟨token, expected, herror⟩
    · cases hds
      exact hspells
    · cases herror
  · exact parse_of_spells hr he hpays hlex hcloses henclosed hd hspells

/-- Operators, and a rule with two alternatives. -/
def sampleSource : String :=
  "%left 1 '+';\nE : E '+' N | %empty %prec 2;"

/-- The tokens of the operators. -/
def sampleOperators : List Token :=
  [⟨"%left", "%left", 1, 1⟩, ⟨"INT", "1", 1, 7⟩, ⟨"QUOTED", "'+'", 1, 9⟩, ⟨";", ";", 1, 12⟩]

/-- The tokens of the rule. -/
def sampleRule : List Token :=
  [⟨"IDENT", "E", 2, 1⟩, ⟨":", ":", 2, 3⟩, ⟨"IDENT", "E", 2, 5⟩, ⟨"QUOTED", "'+'", 2, 7⟩,
   ⟨"IDENT", "N", 2, 11⟩, ⟨"|", "|", 2, 13⟩, ⟨"%empty", "%empty", 2, 15⟩, ⟨"%prec", "%prec", 2, 22⟩,
   ⟨"INT", "2", 2, 28⟩, ⟨";", ";", 2, 29⟩]

/-- The declarations that they spell. -/
def sampleDeclarations : List Declaration :=
  [.operators .left ⟨"1", 1⟩ ["+"], .rule "E" [⟨["E", "+", "N"], none⟩, ⟨[], some ⟨"2", 2⟩⟩]]

theorem sample_spells : Spells (sampleOperators ++ sampleRule) sampleDeclarations := by
  have hplus : ∀ line offset, SpellsSymbol ⟨"QUOTED", "'+'", line, offset⟩ "+" := by
    intro line offset
    have hvalue : "'+'".toList = '\'' :: ("+".toList ++ ['\'']) := by decide
    exact .quoted rfl rfl hvalue
  have hoperators : SpellsDeclaration sampleOperators (.operators .left ⟨"1", 1⟩ ["+"]) :=
    .operators (a := .left) rfl rfl (SpellsSymbols.nil.more (hplus 1 9)) (by simp) rfl
  have hsequence : SpellsSymbols [⟨"IDENT", "E", 2, 5⟩, ⟨"QUOTED", "'+'", 2, 7⟩, ⟨"IDENT", "N", 2, 11⟩]
      ["E", "+", "N"] :=
    ((SpellsSymbols.nil.more (.ident rfl)).more (hplus 2 7)).more (.ident rfl)
  have hfirst : SpellsAlternatives
      [⟨"IDENT", "E", 2, 5⟩, ⟨"QUOTED", "'+'", 2, 7⟩, ⟨"IDENT", "N", 2, 11⟩] [⟨["E", "+", "N"], none⟩] :=
    .first (.symbols hsequence .none)
  have hrule : SpellsDeclaration sampleRule
      (.rule "E" [⟨["E", "+", "N"], none⟩, ⟨[], some ⟨"2", 2⟩⟩]) :=
    .rule rfl rfl (hfirst.more rfl (.empty rfl (.some rfl rfl))) rfl
  exact (Spells.nil.more hoperators).more hrule

theorem not_spells_single {t : Token} {ds : List Declaration} : ¬ Spells [t] ds := by
  intro h
  generalize hts : [t] = ts at h
  cases h with
  | nil => cases hts
  | @more ts us _ d _ hd =>
    -- a declaration has more than one token
    have hlen : 2 ≤ us.length := by cases hd <;> simp
    have hone := congrArg List.length hts
    rw [List.length_append, List.length_singleton] at hone
    omega

/-- The lines of numbers are kept, and quotes are not. A semicolon alone is no declaration. -/
theorem sample_language : ∃ l stream, lexer = .ok l ∧ l.lex sampleSource = .ok stream ∧
    stream.tokens.toList = sampleOperators ++ sampleRule ++ [Token.eof 2 30] ∧
    parse sampleSource = .ok ⟨sampleDeclarations⟩ ∧
    ∃ token expected, parse ";" = .error (.parse (.unexpectedToken token expected)) := by
  obtain ⟨l, hl, hreads⟩ := file_language
  have hsample : SimpleLexer.tokens? lexer sampleSource =
      some (sampleOperators ++ sampleRule ++ [Token.eof 2 30]) := by
    decide +kernel
  obtain ⟨stream, hlex, htokens⟩ := SimpleLexer.exists_lex hl _ hsample
  obtain ⟨body, eof, hbody, -, hparse, -⟩ := hreads _ _ hlex
  obtain ⟨rfl, -⟩ := List.append_inj' (hbody.symm.trans htokens) rfl
  refine ⟨l, stream, hl, hlex, htokens, (hparse ⟨sampleDeclarations⟩).2 sample_spells, ?_⟩
  have hsemicolon : SimpleLexer.tokens? lexer ";" =
      some ([⟨";", ";", 1, 1⟩] ++ [Token.eof 1 2]) := by
    decide +kernel
  obtain ⟨stream, hlex, htokens⟩ := SimpleLexer.exists_lex hl _ hsemicolon
  obtain ⟨body, eof, hbody, -, -, herror⟩ := hreads _ _ hlex
  obtain ⟨rfl, -⟩ := List.append_inj' (hbody.symm.trans htokens) rfl
  exact herror fun ds => not_spells_single

end ParserGen.GrammarFile
