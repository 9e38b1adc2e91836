import ParserGen.Proofs.Engine.Fuel
import ParserGen.Proofs.Grammar.Phrase
import ParserGen.Proofs.Lexer.Tokens
import ParserGen.Reader

/-!
# What a reader makes of a text

A reader runs its parser on the tokens of a text. Where the symbols of the grammar can be given a worth
that pays for all steps, the fuel of the reader is enough: it comes to the value of a parse tree of the
tokens, or to a token that is unexpected. Where no conflict was settled, it comes to the value of every
parse tree that there is.

* `TokenStream.Closes`: the tokens of a text with `$eof` behind them.
* `Engine.exists_phrase`: **every value on the stack is that of a phrase.**
* `Reader.parseTokens_cases`: **a reader finds the value of a phrase, or an unexpected token.**
* `Reader.parseTokens_of_phrase`: **a reader finds the value of every phrase.**
-/

namespace ParserGen

/-! ## Streams of a text -/

/-- The stream holds the tokens, none of which is `$eof`, and then `$eof`, and is at its beginning. -/
structure TokenStream.Closes (stream : TokenStream) (body : List Token) (eof : Token) : Prop where
  position : stream.position = 0
  tokens : stream.tokens.toList = body ++ [eof]
  eof : eof.kind = Token.eofKind
  body : ∀ token ∈ body, token.kind ≠ Token.eofKind

namespace TokenStream.Closes

variable {stream s : TokenStream} {body : List Token} {eof : Token}

theorem rest (h : stream.Closes body eof) : stream.rest = body ++ [eof] := by
  unfold TokenStream.rest
  rw [h.position, h.tokens, List.drop_zero]

/-- The cursor is on `$eof` where the whole body lies behind it. -/
theorem eof_iff (h : stream.Closes body eof) (hs : s.tokens = stream.tokens) :
    s.current.kind = Token.eofKind ↔ s.position = body.length := by
  have hget : (body ++ [eof])[s.position]? = some s.current := by
    rw [← h.tokens, ← hs, Array.getElem?_toList, Array.getElem?_eq_getElem s.position_lt]
    rfl
  have hlt : s.position < (body ++ [eof]).length := (List.getElem?_eq_some_iff.1 hget).1
  rw [List.length_append, List.length_singleton] at hlt
  constructor
  · intro hkind
    by_contra hne
    rw [List.getElem?_append_left (by omega)] at hget
    exact h.body _ (List.mem_of_getElem? hget) hkind
  · intro hpos
    rw [hpos, List.getElem?_concat_length] at hget
    rw [← Option.some.inj hget]
    exact h.eof

/-- The tokens passed when the cursor is on `$eof` are the whole body. -/
theorem extract_eq (h : stream.Closes body eof) (hs : s.tokens = stream.tokens)
    (hkind : s.current.kind = Token.eofKind) :
    (stream.tokens.extract stream.position s.position).toList = body := by
  rw [(h.eof_iff hs).1 hkind, h.position, Array.toList_extract, h.tokens, List.extract_eq_take_drop,
    List.drop_zero, Nat.sub_zero, List.take_left]

end TokenStream.Closes

/-- The tokens that a lexer makes of a text close a stream, if it has no rule for `$eof`. -/
theorem SimpleLexer.exists_closes {l : SimpleLexer} {input : String} {stream : TokenStream}
    (h : l.lex input = .ok stream) (hall : l.rules.All fun kind _ => kind ≠ Token.eofKind) :
    ∃ body eof, stream.Closes body eof ∧ ∀ token ∈ body, l.Recognizes token := by
  obtain ⟨body, eof, hpos, htokens, heof, hbody⟩ := tokens_of_lex h
  refine ⟨body, eof, ⟨hpos, htokens, heof, fun token hm => ?_⟩, hbody⟩
  obtain ⟨-, -, hne, -⟩ := (hbody token hm).rule hall
  exact hne

/-! ## Runs on a text -/

namespace Engine

variable {V W : Type} {g : Grammar V} {e : Engine W} {c : Worth} {price : Nat} {stream : TokenStream}
  {body : List Token} {eof : Token}

/-- A run on a text ends with the value of a phrase, or with an unexpected token. -/
theorem exists_result (he : e.RunsOn g) (hpays : c.Pays g g.automaton price)
    (hstream : stream.Closes body eof) :
    ∃ result m, e.run (price * (stream.size + 1)) (.initial stream) = some (result, m) ∧
      ((∃ v, g.PhraseOf e.reductions.reduce e.ofToken (.nonterminal g.start) body v ∧ result = .ok v) ∨
        ∃ token expected, result = .error (.unexpectedToken token expected)) := by
  obtain ⟨result, m, hrun⟩ := exists_run_of_size he hpays stream
  refine ⟨result, m, hrun, ?_⟩
  obtain ⟨hreads, hsteps⟩ := run_cases he hrun
  cases hsteps with
  | accept h =>
    obtain ⟨htokens, -, hkind, tree, htree, hleaves, hvalue⟩ := h
    rw [hstream.extract_eq htokens hkind] at hleaves
    exact Or.inl ⟨_, ⟨tree, htree, hleaves, hvalue⟩, rfl⟩
  | unexpected => exact Or.inr ⟨_, _, rfl⟩
  | endOfStream hne hlast =>
    -- the last token of the stream is `$eof`
    refine absurd ((hstream.eof_iff hreads.tokens).2 ?_) hne
    have hsize := congrArg List.length hstream.tokens
    rw [Array.length_toList, List.length_append, List.length_singleton, ← hreads.tokens] at hsize
    omega

/-- A run on a phrase ends with its value. -/
theorem result_of_phrase (he : e.RunsOn g) (hd : e.Decided g) (hstream : stream.Closes body eof)
    {v : W} (hv : g.PhraseOf e.reductions.reduce e.ofToken (.nonterminal g.start) body v) {fuel : Nat}
    {result : Except ParseError W} {m : Machine W}
    (hrun : e.run fuel (.initial stream) = some (result, m)) : result = .ok v := by
  obtain ⟨tree, htree, rfl, rfl⟩ := hv
  obtain ⟨steps, m', hreads⟩ := accepts_tree he hd htree hstream.rest hstream.eof
  exact congrArg Prod.fst (run_unique hrun (hreads steps le_rfl))

end Engine

/-! ## Values on the stack -/

namespace Engine

variable {V W : Type} {g : Grammar V} {e : Engine W} {start : String} {given : List GivenRule}

/-- The symbols that transitions go over have names. -/
theorem exists_nameOf_of_transition (he : e.RunsOn g) (hg : g.Numbered start given) {q p : Nat}
    {x : Symbol} (h : g.automaton.transition? q x = some p) : ∃ name, g.NameOf x name := by
  obtain ⟨k, r, hr, hx⟩ := mem_symbols_of_transition he.wf h
  have hnames := hg.symbols r (Array.mem_of_getElem? hr)
  obtain ⟨i, hi, rfl⟩ := List.mem_iff_getElem.1 hx
  exact ⟨_, (hnames.get hi (hnames.length_eq ▸ hi)).1⟩

theorem exists_phrase_of_stacked (he : e.RunsOn g) (hg : g.Numbered start given)
    {stack : List (Frame W)} {w : List Symbol} {trees : List ParseTree} (h : Stacked g e stack w trees)
    {f : Frame W} (hf : f ∈ stack) :
    ∃ name ts, g.PhraseNamed e.reductions.reduce e.ofToken name ts f.value ∧
      ∀ t ∈ ts, t ∈ ParseTree.leavesAll trees.reverse := by
  induction h with
  | nil => cases hf
  | @cons stack w trees x q tree h hq ht ih =>
    rw [List.reverse_cons, ParseTree.leavesAll_append]
    rcases List.mem_cons.1 hf with rfl | hf
    · obtain ⟨name, hname⟩ := exists_nameOf_of_transition he hg hq
      refine ⟨name, tree.leaves, ⟨x, hname, tree, ht, rfl, rfl⟩, fun t hm => ?_⟩
      rw [ParseTree.leavesAll, ParseTree.leavesAll, List.append_nil]
      exact List.mem_append_right _ hm
    · obtain ⟨name, ts, hphrase, hts⟩ := ih hf
      exact ⟨name, ts, hphrase, fun t hm => List.mem_append_left _ (hts t hm)⟩

/-- **Every value on the stack of a run is that of a phrase**, made of tokens of the stream. -/
theorem exists_phrase (he : e.RunsOn g) (hg : g.Numbered start given) {stream : TokenStream}
    {m : Machine W} (hm : e.Reaches (.initial stream) m) {f : Frame W} (hf : f ∈ m.stack) :
    ∃ name ts, g.PhraseNamed e.reductions.reduce e.ofToken name ts f.value ∧
      ∀ t ∈ ts, t ∈ stream.tokens.toList := by
  obtain ⟨w, trees, hstacked, hleaves⟩ := (reads_of_reaches he hm).stacked
  obtain ⟨name, ts, hphrase, hts⟩ := exists_phrase_of_stacked he hg hstacked hf
  refine ⟨name, ts, hphrase, fun t ht => ?_⟩
  have hread := hts t ht
  rw [hleaves, Array.toList_extract, List.extract_eq_take_drop] at hread
  exact List.mem_of_mem_drop (List.mem_of_mem_take hread)

end Engine

/-! ## Readers -/

namespace Reader

variable {V α : Type}

/-- A reader has the lexer that it was made with. -/
theorem lexer_of_ofParts? {lexer : Except LexError SimpleLexer}
    {definition : Except DefinitionError (Grammar V)} {r : Reader V}
    (h : ofParts? lexer definition = some r) : lexer = .ok r.lexer := by
  unfold ofParts? at h
  obtain ⟨l, hl, h⟩ := Option.bind_eq_some_iff.1 h
  obtain ⟨g, -, h⟩ := Option.bind_eq_some_iff.1 h
  obtain ⟨p, -, h⟩ := Option.bind_eq_some_iff.1 h
  cases h
  cases lexer with
  | error e => cases hl
  | ok l' =>
    cases hl
    rfl

/-- The parts of a reader. -/
theorem ofParts?_eq {lexer : Except LexError SimpleLexer}
    {definition : Except DefinitionError (Grammar V)} {l : SimpleLexer} {g : Grammar V} {r : Synthesis}
    (hl : lexer = .ok l) (hg : definition = .ok g) (hr : g.analyze.outcome = .ok r) :
    ofParts? lexer definition =
      some { lexer := l, parser := { grammar := g, table := r.table } } := by
  have hparser : Parser.ofGrammar g = .ok { grammar := g, table := r.table } := by
    unfold Parser.ofGrammar
    rw [hr]
    rfl
  subst hl hg
  unfold ofParts?
  simp only [Except.toOption, Option.bind_eq_bind, Option.bind_some, hparser]
  rfl

/-- The result that the value of a whole text stands for. -/
def conclude (result? : V → Option α) (v : V) : Except SyntaxError α :=
  match result? v with
  | some a => .ok a
  | none => .error .internal

variable [Inhabited V] {r : Reader V} {ofToken : Token → V} {c : Worth} {price : Nat}
  {result? : V → Option α} {stream : TokenStream} {body : List Token} {eof : Token}

/-- A text with tokens is read as what these stand for. -/
theorem read_of_lex {text : String} (h : r.lexer.lex text = .ok stream) :
    r.read ofToken price result? text = r.parseTokens ofToken price result? stream := by
  unfold read
  rw [h]
  rfl

/-- A text without tokens is not read. -/
theorem read_of_lex_error {text : String} {error : LexError} (h : r.lexer.lex text = .error error) :
    r.read ofToken price result? text = .error (.lex error) := by
  unfold read
  rw [h]
  rfl

/-- A run with a value is read as what the value stands for. -/
theorem parseTokens_of_value {v : V} {m : Machine V}
    (hrun : r.parser.parse? ofToken (price * (stream.size + 1)) stream = some (.ok v, m)) :
    r.parseTokens ofToken price result? stream = conclude result? v := by
  cases hv : result? v <;> simp only [parseTokens, conclude, hrun, hv]

variable (he : (r.parser.engine ofToken).RunsOn r.parser.grammar)
  (hpays : c.Pays r.parser.grammar r.parser.grammar.automaton price)
  (hstream : stream.Closes body eof)

include he hpays hstream

/-- **A reader finds the value of a phrase, or an unexpected token.** -/
theorem parseTokens_cases :
    (∃ v, r.parser.grammar.PhraseOf r.parser.grammar.reduce ofToken
        (.nonterminal r.parser.grammar.start) body v ∧
      r.parseTokens ofToken price result? stream = conclude result? v) ∨
    ∃ token expected, r.parseTokens ofToken price result? stream =
      .error (.parse (.unexpectedToken token expected)) := by
  obtain ⟨result, m, hrun, hresult⟩ := Engine.exists_result he hpays hstream
  rcases hresult with ⟨v, hv, rfl⟩ | ⟨token, expected, rfl⟩
  · exact Or.inl ⟨v, hv, parseTokens_of_value hrun⟩
  · refine Or.inr ⟨token, expected, ?_⟩
    unfold parseTokens Parser.parse?
    rw [hrun]

/-- **A reader finds the value of every phrase.** -/
theorem parseTokens_of_phrase (hd : (r.parser.engine ofToken).Decided r.parser.grammar) {v : V}
    (hv : r.parser.grammar.PhraseOf r.parser.grammar.reduce ofToken
      (.nonterminal r.parser.grammar.start) body v) :
    r.parseTokens ofToken price result? stream = conclude result? v := by
  obtain ⟨result, m, hrun, -⟩ := Engine.exists_result he hpays hstream
  obtain rfl := Engine.result_of_phrase he hd hstream hv hrun
  exact parseTokens_of_value hrun

end Reader

end ParserGen
