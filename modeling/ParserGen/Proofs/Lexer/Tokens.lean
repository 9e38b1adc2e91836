import ParserGen.Proofs.Lexer.Partition
import ParserGen.Proofs.Pattern.Matching

/-!
# What the tokens of a lexer are

Every token of a text was recognized by one of the rules, and is of a kind that is not dropped. What the
rules of a lexer recognize follows from how the lexer was put together, rule by rule.

* `SimpleLexer.Recognizes`: a token that a rule of the lexer recognized.
* `SimpleLexer.tokens_of_lex`: **the tokens of a text are such tokens**, with `$eof` behind them.
* `LexerRules.All`: what holds for each rule of a lexer.
* `SimpleLexer.Recognizes.matches`: **tokens of a kind with one pattern are texts of it.**
-/

namespace ParserGen

namespace LexerRules

/-- All rules, given by the kind and the recognizer, have a property. -/
def All (r : LexerRules) (P : String → Recognizer → Prop) : Prop :=
  ∀ rule ∈ r.recognizers.toList, P rule.1 rule.2

variable {r : LexerRules} {P : String → Recognizer → Prop}

theorem all_empty : empty.All P := by
  simp [All, empty]

theorem All.literal (h : r.All P) {kind text : String} (hnew : P kind (.literal text)) :
    (r.literal kind text).All P := by
  intro rule hm
  simp only [LexerRules.literal, Array.toList_push, List.mem_append, List.mem_singleton] at hm
  rcases hm with hm | rfl
  · exact h rule hm
  · exact hnew

theorem All.pattern (h : r.All P) {kind pattern : String} {r' : LexerRules}
    (hr : r.pattern kind pattern = .ok r')
    (hnew : ∀ p, Pattern.compile? ("^(?:" ++ pattern ++ ")") = some p → P kind (.ofPattern p)) :
    r'.All P := by
  unfold LexerRules.pattern at hr
  split at hr
  · rename_i p hp
    cases hr
    intro rule hm
    simp only [Array.toList_push, List.mem_append, List.mem_singleton] at hm
    rcases hm with hm | rfl
    · exact h rule hm
    · exact hnew p hp
  · cases hr

end LexerRules

namespace SimpleLexer

variable {l : SimpleLexer} {P : String → Recognizer → Prop}

theorem all_token (h : l.rules.All P) {text : String} (hnew : P text (.literal text)) :
    (l.token text).rules.All P :=
  h.literal hnew

theorem all_tokens (h : l.rules.All P) {texts : List String}
    (hnew : ∀ text ∈ texts, P text (.literal text)) : (texts.foldl token l).rules.All P := by
  induction texts generalizing l with
  | nil => exact h
  | cons text texts ih =>
    obtain ⟨htext, htexts⟩ := List.forall_mem_cons.1 hnew
    exact ih (all_token h htext) htexts

theorem all_pattern (h : l.rules.All P) {kind pattern : String} {l' : SimpleLexer}
    (hl : l.pattern kind pattern = .ok l')
    (hnew : ∀ p, Pattern.compile? ("^(?:" ++ pattern ++ ")") = some p → P kind (.ofPattern p)) :
    l'.rules.All P := by
  unfold SimpleLexer.pattern at hl
  cases hr : l.rules.pattern kind pattern with
  | error e =>
    rw [hr] at hl
    cases hl
  | ok r =>
    rw [hr] at hl
    cases hl
    exact h.pattern hr hnew

theorem all_patterns (h : l.rules.All P) {patterns : List (String × String)} {l' : SimpleLexer}
    (hl : patterns.foldlM (fun l (kind, pattern) => l.pattern kind pattern) l = .ok l')
    (hnew : ∀ e ∈ patterns, ∀ p, Pattern.compile? ("^(?:" ++ e.2 ++ ")") = some p →
      P e.1 (.ofPattern p)) : l'.rules.All P := by
  induction patterns generalizing l with
  | nil =>
    cases hl
    exact h
  | cons e patterns ih =>
    obtain ⟨kind, pattern⟩ := e
    obtain ⟨he, hrest⟩ := List.forall_mem_cons.1 hnew
    rw [List.foldlM_cons] at hl
    simp only at hl
    cases hp : l.pattern kind pattern with
    | error error =>
      rw [hp] at hl
      cases hl
    | ok next =>
      rw [hp] at hl
      exact ih (all_pattern h hp he) hl hrest

/-- A rule of the lexer recognizes the token where it stands, and its kind is not dropped. -/
def Recognizes (l : SimpleLexer) (token : Token) : Prop :=
  token.kind ∉ l.rules.skipped ∧ ∃ recognizer after,
    (token.kind, recognizer) ∈ l.rules.recognizers.toList ∧
      recognizer.matchLength? (token.value.toList ++ after) = some token.value.toList.length

/-- **The tokens of a text were recognized by the rules**, and `$eof` closes them. -/
theorem tokens_of_lex {input : String} {stream : TokenStream} (h : l.lex input = .ok stream) :
    ∃ body eof, stream.position = 0 ∧ stream.tokens.toList = body ++ [eof] ∧
      eof.kind = Token.eofKind ∧ ∀ token ∈ body, l.Recognizes token := by
  have hpartition := partition_scan l.follows () input
  rw [show scan l.extract () input = .ok stream from h] at hpartition
  cases hpartition with
  | @complete cuts last _ hcuts htext hpos htokens =>
    refine ⟨Cut.tokens cuts, _, hpos, htokens, rfl, fun token hm => ?_⟩
    obtain ⟨c, hc, rfl⟩ := List.mem_map.1 hm
    obtain ⟨hc, hkept⟩ := List.mem_filter.1 hc
    obtain ⟨s, i, after, hwins, hskipped⟩ := hcuts.exists_wins hc
    obtain ⟨recognizer, hrule, hlen⟩ := hwins.mem
    refine ⟨?_, recognizer, after, hrule, ?_⟩
    · simpa [Cut.token, hskipped] using hkept
    · simpa [Cut.token] using hlen

/-- What holds for each rule of the lexer holds for the rule that recognized a token. -/
theorem Recognizes.rule {token : Token} (h : l.Recognizes token) (hall : l.rules.All P) :
    ∃ recognizer after, P token.kind recognizer ∧
      recognizer.matchLength? (token.value.toList ++ after) = some token.value.toList.length := by
  obtain ⟨-, recognizer, after, hrule, hlen⟩ := h
  exact ⟨recognizer, after, hall _ hrule, hlen⟩

/-- A token of a kind that only one pattern recognizes is a text of that pattern. -/
theorem Recognizes.matches {token : Token} (h : l.Recognizes token) {source : String}
    {r : Pattern.Expr} (hr : Pattern.parse? source = some r) (hfloat : r.program.isFloating = false)
    (hall : l.rules.All fun kind recognizer => kind = token.kind →
      ∃ p, Pattern.compile? source = some p ∧ recognizer = .ofPattern p) :
    r.Matches token.value.toList := by
  obtain ⟨recognizer, after, hpattern, hlen⟩ := h.rule hall
  obtain ⟨p, hp, rfl⟩ := hpattern rfl
  have hmatches := Pattern.matches_of_recognized hr hp hfloat hlen
  rwa [List.take_left] at hmatches

/-! ## Evaluation -/

/-- The tokens of a text, if there is a lexer and it makes some of the text. -/
def tokens? (lexer : Except LexError SimpleLexer) (text : String) : Option (List Token) :=
  lexer.toOption.bind fun l => (l.lex text).toOption.map (·.tokens.toList)

theorem exists_lex {lexer : Except LexError SimpleLexer} (hl : lexer = .ok l) (text : String)
    {tokens : List Token} (h : tokens? lexer text = some tokens) :
    ∃ stream, l.lex text = .ok stream ∧ stream.tokens.toList = tokens := by
  unfold tokens? at h
  rw [hl] at h
  obtain ⟨stream, hstream, htokens⟩ := Option.map_eq_some_iff.1 h
  refine ⟨stream, ?_, htokens⟩
  cases hlex : l.lex text with
  | error e => rw [hlex] at hstream; cases hstream
  | ok s => rw [hlex] at hstream; cases hstream; rfl

end SimpleLexer

end ParserGen
