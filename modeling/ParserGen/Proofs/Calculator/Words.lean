import ParserGen.Proofs.Calculator.Reading
import ParserGen.Proofs.Engine.Reader

/-!
# The words of an expression

What the lexer of expressions makes of a text are words: operators, parentheses, and numbers, which are
numerals because the pattern of numbers says so.

* `numeral_of_matches`: the texts of the pattern are numerals.
* `words_of_lex`: **the tokens of a text are words.**
* `ne_broken_of_reaches`: **no value on the stack of a run is broken.**
-/

namespace ParserGen.Calculator

open Pattern (CharSet)

/-! ## Numbers -/

/-- The pattern of numbers. -/
def numberSource : String :=
  "^(?:[0-9]+(\\.[0-9]+)?)"

/-- The expression of a digit. -/
def digitExpr : Pattern.Expr :=
  .char (.union .empty (.range '0' '9'))

/-- The expression of digits, at least one. -/
def digitsExpr : Pattern.Expr :=
  .repetition 1 none true digitExpr

/-- The expression of numbers. -/
def numberExpr : Pattern.Expr :=
  .seq (.assertion .textStart) (.seq digitsExpr
    (.repetition 0 (some 1) true (.seq (.char (.single '.')) digitsExpr)))

theorem parse_numberSource : Pattern.parse? numberSource = some numberExpr := by
  decide +kernel

theorem isDigits_of_matches {value : List Char} (h : digitsExpr.Matches value) : IsDigits value := by
  obtain ⟨rounds, rfl, hrounds, hcount, -⟩ := h
  have hdigit : ∀ round ∈ rounds, ∃ c : Char, c.isDigit = true ∧ round = [c] := by
    intro round hround
    obtain ⟨c, hc, rfl⟩ := hrounds round hround
    refine ⟨c, ?_, rfl⟩
    simpa [CharSet.contains, Char.isDigit, Char.le_def] using hc
  constructor
  · intro hnil
    obtain ⟨round, hround⟩ := List.exists_mem_of_length_pos hcount
    obtain ⟨c, -, rfl⟩ := hdigit round hround
    simpa using List.flatten_eq_nil_iff.1 hnil _ hround
  · intro c hc
    obtain ⟨round, hround, hc⟩ := List.mem_flatten.1 hc
    obtain ⟨d, hd, rfl⟩ := hdigit round hround
    rwa [List.mem_singleton.1 hc]

/-- The texts of the pattern of numbers are numerals. -/
theorem numeral_of_matches {text : String} (h : numberExpr.Matches text.toList) :
    ∃ d, Numeral text d := by
  obtain ⟨_, _, htext, rfl, whole, _, rfl, hwhole, rounds, rfl, hrounds, -, hmost⟩ := h
  have hwhole := isDigits_of_matches hwhole
  have hone : rounds.length ≤ 1 := by simpa using hmost 1 rfl
  match rounds with
  | [] =>
    simp only [List.flatten_nil, List.append_nil, List.nil_append] at htext
    exact ⟨_, .whole (htext ▸ hwhole)⟩
  | [round] =>
    obtain ⟨_, fraction, rfl, ⟨c, hc, rfl⟩, hfraction⟩ := hrounds round (by simp)
    obtain rfl := CharSet.eq_of_single hc
    exact ⟨_, .fraction (by simpa using htext) hwhole (isDigits_of_matches hfraction)⟩
  | _ :: _ :: _ => simp at hone

/-! ## All tokens -/

/-- A rule is for blanks or for a kind of words, and if it is for numbers, it has their pattern. -/
def IsRule (kind : String) (recognizer : Recognizer) : Prop :=
  (kind = blankKind ∨ ∃ k : Kind, k ≠ .eof ∧ kind = k.name) ∧ (kind = numberKind →
    ∃ p, Pattern.compile? numberSource = some p ∧ recognizer = .ofPattern p)

theorem isRule_mark {text : String} (h : text ∈ BinaryOp.all.map BinaryOp.symbol ++ ["(", ")"]) :
    IsRule text (.literal text) := by
  have hne : ∀ text ∈ BinaryOp.all.map BinaryOp.symbol ++ ["(", ")"], text ≠ numberKind := by decide
  refine ⟨Or.inr ?_, fun hk => absurd hk (hne text h)⟩
  rcases List.mem_append.1 h with hop | hparen
  · obtain ⟨op, -, rfl⟩ := List.mem_map.1 hop
    exact ⟨.operator op, by simp, rfl⟩
  · rcases List.mem_pair.1 hparen with rfl | rfl
    · exact ⟨.opening, by simp, rfl⟩
    · exact ⟨.closing, by simp, rfl⟩

theorem all_rules {l : SimpleLexer} (hl : lexer = .ok l) :
    l.rules.All IsRule ∧ blankKind ∈ l.rules.skipped := by
  unfold lexer at hl
  obtain ⟨l₁, hnumber, hl⟩ := exists_of_bind_ok hl
  obtain ⟨l₂, hblank, hl⟩ := exists_of_bind_ok hl
  cases hl
  have hmarks := SimpleLexer.all_tokens (P := IsRule) LexerRules.all_empty fun _ => isRule_mark
  have hnumbers : l₁.rules.All IsRule := SimpleLexer.all_pattern hmarks hnumber fun p hp =>
    ⟨Or.inr ⟨.number, by simp, rfl⟩, fun _ => ⟨p, hp, rfl⟩⟩
  have hblanks : l₂.rules.All IsRule := SimpleLexer.all_pattern hnumbers hblank fun p hp =>
    ⟨Or.inl rfl, fun h => absurd h (by decide)⟩
  exact ⟨hblanks, List.mem_append_right _ (by simp)⟩

/-- **The tokens of a text are words**, and `$eof` closes them. -/
theorem words_of_lex {l : SimpleLexer} (hl : lexer = .ok l) {text : String} {stream : TokenStream}
    (h : l.lex text = .ok stream) :
    ∃ body eof, Words body eof ∧ stream = .ofTokens (body ++ [eof]).toArray := by
  obtain ⟨hall, hskipped⟩ := all_rules hl
  obtain ⟨body, eof, hpos, htokens, heof, hbody⟩ := SimpleLexer.tokens_of_lex h
  refine ⟨body, eof, ⟨fun token hm => ⟨?_, fun hkind => ?_⟩, heof⟩,
    TokenStream.eq_ofTokens (by simp [Token.isEof, heof]) hpos htokens⟩
  · obtain ⟨-, -, ⟨hblank | hk, -⟩, -⟩ := (hbody token hm).rule hall
    · exact absurd hskipped (hblank ▸ (hbody token hm).1)
    · exact hk
  · refine numeral_of_matches ((hbody token hm).matches parse_numberSource (by decide +kernel) ?_)
    exact fun rule hrule hk => (hall rule hrule).2 (hk.trans hkind)

/-! ## Runs -/

section Runs

variable {t : ParseTable} {body ts : List Token} {eof : Token} {stack : List (Frame Node)} {k : Kind}
  {c : Context}

theorem Awaits.ne_broken (h : Awaits c stack ts) : ∀ f ∈ stack, f.value ≠ .broken := by
  induction h with
  | start => simp
  | paren _ _ ih => exact List.forall_mem_cons.2 ⟨by simp, ih⟩
  | sign _ _ ih => exact List.forall_mem_cons.2 ⟨by simp, ih⟩
  | after _ _ _ _ _ _ ih =>
    exact List.forall_mem_cons.2 ⟨by simp, List.forall_mem_cons.2 ⟨by simp, ih⟩⟩

theorem Shape.ne_broken (h : Shape k stack ts) : ∀ f ∈ stack, f.value ≠ .broken := by
  cases h with
  | awaits h => exact h.ne_broken
  | number h _ _ => exact List.forall_mem_cons.2 ⟨by simp, h.ne_broken⟩
  | holds h _ _ _ _ => exact List.forall_mem_cons.2 ⟨by simp, h.ne_broken⟩
  | closed h _ _ _ _ =>
    exact List.forall_mem_cons.2 ⟨by simp, List.forall_mem_cons.2 ⟨by simp,
      List.forall_mem_cons.2 ⟨by simp, h.ne_broken⟩⟩⟩

/-- What holds between two steps holds all along a run. -/
theorem between_of_reaches (ht : LaidOut t) (hw : Words body eof) {m n : Machine Node}
    (hm : Between body eof m) (h : (engine t).Reaches m n) : Between body eof n := by
  induction h with
  | refl => exact hm
  | tail _ hstep ih =>
    obtain ⟨read, k, hk, hshape, hread⟩ := ih
    have hgoes := goes_step ht hk hread hw hshape
    rw [hstep] at hgoes
    cases hgoes with
    | next h _ => exact h

/-- **No value on the stack of a run is broken.** -/
theorem ne_broken_of_reaches (ht : LaidOut t) (hw : Words body eof) {m : Machine Node}
    (h : (engine t).Reaches (.initial (.ofTokens (body ++ [eof]).toArray)) m) :
    ∀ f ∈ m.stack, f.value ≠ .broken := by
  obtain ⟨read, k, -, hshape, -⟩ :=
    between_of_reaches ht hw (between_initial hw (rest_ofTokens hw)) h
  exact hshape.ne_broken

end Runs

/-- An expression is read by the reader that was set up. -/
theorem parse_of_reader {r : Reader Node} (hr : reader? = some r) (text : String) :
    parse text = r.read Node.token stepsPerToken Node.expr? text := by
  -- unfolded without its argument, as else the kernel evaluates the reader to reduce the match on it
  conv_lhs =>
    fun
    delta parse
  rw [hr]

end ParserGen.Calculator
