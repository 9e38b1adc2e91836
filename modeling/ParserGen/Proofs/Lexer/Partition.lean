import Mathlib.Data.List.Basic
import Mathlib.Data.List.Induction
import Mathlib.Data.Nat.Init
import Mathlib.Tactic.ByContra
import ParserGen.Lexer.Modal
import ParserGen.Lexer.Simple

/-!
# Scanning cuts a text into pieces

A lexer goes through a text from left to right and cuts off one piece after the other. Each piece is
the longest match of the rules that are current at that place; which rules come next is up to the piece.
The pieces that are kept are the tokens, and each token tells the place where its piece begins. Since no
piece is empty, the scan comes to the end of the text, or to a place where no rule matches.

* `Wins`, `longest?_cases`: the match that the rules decide for, and that it is found.
* `behind_append`: the place behind a text, counted from its characters.
* `Cuts`: a text cut into pieces.
* `scanFrom_cases`: **a scan cuts the text into pieces** up to where it ends.
* `lex_partitions`: so do lexers with one set of rules and lexers with several states.
-/

namespace ParserGen

open Text

/-! ## The longest match -/

/-- The rule at an index of a list has a match that is not empty; no rule has a longer one, and no
earlier rule has one as long. -/
structure Wins (rules : List (String × Recognizer)) (text : List Char) (i : Nat) (kind : String)
    (n : Nat) : Prop where
  pos : 0 < n
  found : ∃ recognizer, rules[i]? = some (kind, recognizer) ∧ recognizer.matchLength? text = some n
  longest : ∀ rule ∈ rules, ∀ m, rule.2.matchLength? text = some m → m ≤ n
  earliest : ∀ j < i, ∀ rule, rules[j]? = some rule → rule.2.matchLength? text ≠ some n

/-- No rule matches more than the empty text. -/
def MatchesNothing (rules : List (String × Recognizer)) (text : List Char) : Prop :=
  ∀ rule ∈ rules, ∀ n, rule.2.matchLength? text = some n → n = 0

section Longest

variable {rules : List (String × Recognizer)} {text : List Char} {i n : Nat} {kind : String}

theorem Wins.mem (h : Wins rules text i kind n) :
    ∃ recognizer, (kind, recognizer) ∈ rules ∧ recognizer.matchLength? text = some n := by
  obtain ⟨recognizer, hget, hlen⟩ := h.found
  exact ⟨recognizer, List.mem_of_getElem? hget, hlen⟩

theorem Wins.le_length (h : Wins rules text i kind n) : n ≤ text.length := by
  obtain ⟨recognizer, -, hlen⟩ := h.mem
  exact recognizer.bounded text n hlen

/-- What is matched is the beginning of the text. -/
theorem Wins.exists_value (h : Wins rules text i kind n) :
    ∃ value rest, text = value ++ rest ∧ n = value.length :=
  ⟨text.take n, text.drop n, (List.take_append_drop n text).symm, by
    rw [List.length_take, Nat.min_eq_left h.le_length]⟩

/-- A last rule whose match is longer than all others wins. -/
theorem wins_concat {rule : String × Recognizer} {best m : Nat}
    (hbest : ∀ e ∈ rules, ∀ k, e.2.matchLength? text = some k → k ≤ best)
    (hm : rule.2.matchLength? text = some m) (hlt : best < m) :
    Wins (rules ++ [rule]) text rules.length rule.1 m := by
  refine ⟨by omega, ⟨rule.2, by simp, hm⟩, ?_, ?_⟩
  · intro e he k hk
    rcases List.mem_append.1 he with he | he
    · have := hbest e he k hk
      omega
    · rw [List.mem_singleton.1 he, hm] at hk
      have := Option.some.inj hk
      omega
  · intro j hj e he hk
    rw [List.getElem?_append_left hj] at he
    have := hbest e (List.mem_of_getElem? he) m hk
    omega

/-- A last rule whose match is no longer than the one that wins changes nothing. -/
theorem Wins.concat (h : Wins rules text i kind n) {rule : String × Recognizer}
    (hle : ∀ m, rule.2.matchLength? text = some m → m ≤ n) : Wins (rules ++ [rule]) text i kind n := by
  obtain ⟨recognizer, hget, hlen⟩ := h.found
  have hi : i < rules.length := (List.getElem?_eq_some_iff.1 hget).1
  refine ⟨h.pos, ⟨recognizer, by rw [List.getElem?_append_left hi, hget], hlen⟩, ?_, ?_⟩
  · intro e he k hk
    rcases List.mem_append.1 he with he | he
    · exact h.longest e he k hk
    · rw [List.mem_singleton.1 he] at hk
      exact hle k hk
  · intro j hj e he
    rw [List.getElem?_append_left (by omega)] at he
    exact h.earliest j hj e he

/-- Going through the rules one by one keeps the match that wins among those seen so far. -/
theorem foldl_better (rules : List (String × Recognizer)) (text : List Char) :
    (rules.foldl (LexerRules.better text) none = none ∧ MatchesNothing rules text) ∨
      ∃ i kind n, rules.foldl (LexerRules.better text) none = some (kind, n) ∧
        Wins rules text i kind n := by
  induction rules using List.reverseRecOn with
  | nil => exact Or.inl ⟨rfl, by simp [MatchesNothing]⟩
  | append_singleton rules rule ih =>
    rw [List.foldl_concat]
    generalize rules.foldl (LexerRules.better text) none = best at ih
    -- what the best match so far is not exceeded by
    have hbest : ∀ e ∈ rules, ∀ k, e.2.matchLength? text = some k →
        k ≤ (best.map (·.2)).getD 0 := by
      intro e he k hk
      rcases ih with ⟨rfl, hnothing⟩ | ⟨i, kind, n, rfl, hwins⟩
      · have := hnothing e he k hk
        omega
      · exact hwins.longest e he k hk
    by_cases hlonger : ∃ m, rule.2.matchLength? text = some m ∧ (best.map (·.2)).getD 0 < m
    · obtain ⟨m, hm, hlt⟩ := hlonger
      refine Or.inr ⟨rules.length, rule.1, m, ?_, wins_concat hbest hm hlt⟩
      simp only [LexerRules.better, hm, gt_iff_lt, hlt, if_true]
    · have hle : ∀ m, rule.2.matchLength? text = some m → m ≤ (best.map (·.2)).getD 0 := by
        intro m hm
        by_contra hgt
        exact hlonger ⟨m, hm, by omega⟩
      have hsame : LexerRules.better text best rule = best := by
        unfold LexerRules.better
        cases hm : rule.2.matchLength? text with
        | none => rfl
        | some m => exact if_neg (by have := hle m hm; omega)
      rw [hsame]
      rcases ih with ⟨rfl, hnothing⟩ | ⟨i, kind, n, rfl, hwins⟩
      · refine Or.inl ⟨rfl, fun e he k hk => ?_⟩
        rcases List.mem_append.1 he with he | he
        · exact hnothing e he k hk
        · rw [List.mem_singleton.1 he] at hk
          exact Nat.le_zero.1 (hle k hk)
      · exact Or.inr ⟨i, kind, n, rfl, hwins.concat hle⟩

/-- **What the rules decide for wins**, and there is nothing only where nothing matches. -/
theorem LexerRules.longest?_cases (r : LexerRules) (text : List Char) :
    (r.longest? text = none ∧ MatchesNothing r.recognizers.toList text) ∨
      ∃ i kind n, r.longest? text = some ⟨kind, n, r.skipped.contains kind⟩ ∧
        Wins r.recognizers.toList text i kind n := by
  unfold LexerRules.longest?
  rcases foldl_better r.recognizers.toList text with ⟨hnone, h⟩ | ⟨i, kind, n, hsome, h⟩
  · exact Or.inl ⟨by rw [hnone]; rfl, h⟩
  · exact Or.inr ⟨i, kind, n, by rw [hsome]; rfl, h⟩

end Longest

/-! ## Places -/

/-- The place behind a text: its lines are one more than its line feeds, and the offset is one more
than the number of characters behind the last of these. -/
def Text.Position.behind (before : List Char) : Position where
  line := 1 + before.count '\n'
  offset := 1 + (before.reverse.takeWhile (· ≠ '\n')).length

namespace Text.Position

theorem behind_concat (before : List Char) (c : Char) :
    behind (before ++ [c]) = (behind before).advance c := by
  unfold behind advance
  by_cases hc : c = '\n'
  · simp [hc, Nat.add_assoc]
  · simp [hc, List.count_append, Nat.add_comm]

/-- **The place is reached by going on from character to character.** -/
theorem behind_append (before value : List Char) :
    behind (before ++ value) = (behind before).advanceAll value := by
  unfold advanceAll
  induction value using List.reverseRecOn with
  | nil => simp
  | append_singleton value c ih => rw [← List.append_assoc, behind_concat, ih, List.foldl_concat]

end Text.Position

/-! ## Cutting a text -/

/-- A piece in its place. -/
structure Cut where
  /-- The text before the piece. -/
  before : List Char
  /-- The text of the piece. -/
  value : List Char
  kind : String
  skipped : Bool

namespace Cut

/-- The token of a piece. -/
def token (c : Cut) : Token where
  kind := c.kind
  value := String.ofList c.value
  line := (Position.behind c.before).line
  offset := (Position.behind c.before).offset

/-- The text of all pieces. -/
def joined (cuts : List Cut) : List Char :=
  (cuts.map value).flatten

/-- The tokens of the pieces that are kept. -/
def tokens (cuts : List Cut) : List Token :=
  (cuts.filter fun c => !c.skipped).map token

end Cut

/-- The token that ends a text. -/
def Token.endOf (text : List Char) : Token :=
  .eof (Position.behind text).line (Position.behind text).offset

section Scan

variable {σ : Type}

/-- From a state on, a text that stands behind `before` is cut into pieces up to a rest. The rules of
the state decide on each piece, and the kind of the piece leads to the next state. -/
inductive Cuts (rules : σ → LexerRules) (moves : σ → String → σ → Prop) :
    σ → List Char → List Char → List Cut → σ → List Char → Prop where
  | done (s : σ) (before rest : List Char) : Cuts rules moves s before rest [] s rest
  | piece {s s' last : σ} {before value text rest : List Char} {i : Nat} {kind : String}
      {cuts : List Cut}
      (hw : Wins (rules s).recognizers.toList (value ++ text) i kind value.length)
      (hm : moves s kind s') (h : Cuts rules moves s' (before ++ value) text cuts last rest) :
      Cuts rules moves s before (value ++ text)
        (⟨before, value, kind, (rules s).skipped.contains kind⟩ :: cuts) last rest

variable {rules : σ → LexerRules} {moves : σ → String → σ → Prop} {s last : σ}
  {before text rest : List Char} {cuts : List Cut}

/-- The pieces and the rest make up the text. -/
theorem Cuts.joined (h : Cuts rules moves s before text cuts last rest) :
    text = Cut.joined cuts ++ rest := by
  induction h with
  | done => rfl
  | piece hw hm h ih =>
    unfold Cut.joined at ih ⊢
    rw [List.map_cons, List.flatten_cons, List.append_assoc, ← ih]

/-- Every piece was cut off a state's text, and is what the rules of the state decided for. -/
theorem Cuts.exists_wins (h : Cuts rules moves s before text cuts last rest) {c : Cut} (hc : c ∈ cuts) :
    ∃ s i after, Wins (rules s).recognizers.toList (c.value ++ after) i c.kind c.value.length ∧
      c.skipped = (rules s).skipped.contains c.kind := by
  induction h with
  | done => cases hc
  | piece hw hm h ih =>
    rcases List.mem_cons.1 hc with rfl | hc
    · exact ⟨_, _, _, hw, rfl⟩
    · exact ih hc

/-- What decides on the next piece takes the longest match of the current rules. Where there is one it
may fail in another way than by recognizing nothing. -/
structure Extract.Follows (extract : Extract σ) (rules : σ → LexerRules)
    (moves : σ → String → σ → Prop) : Prop where
  none : ∀ s pos text, (rules s).longest? text = none → extract s pos text = .ok none
  some : ∀ s pos text piece, (rules s).longest? text = some piece →
    (∃ s', extract s pos text = .ok (some (piece, s')) ∧ moves s piece.kind s') ∨
      ∃ e, extract s pos text = .error e ∧ ∀ p t, e ≠ .unrecognized p t

variable {extract : Extract σ}

/-- The scan passes over the characters of the last piece. -/
theorem scanFrom_covered (extract : Extract σ) (s : σ) (pos : Position) (value text : List Char) :
    scanFrom extract s pos value.length (value ++ text) =
      scanFrom extract s (pos.advanceAll value) 0 text := by
  induction value generalizing pos with
  | nil => rfl
  | cons c value ih =>
    rw [List.length_cons, List.cons_append, scanFrom, ih]
    rfl

/-- A piece that is not empty is cut off, and the scan goes on behind it. -/
theorem scanFrom_piece {s' : σ} {value : List Char} {kind : String} {skipped : Bool}
    (hpos : 0 < value.length)
    (h : extract s (.behind before) (value ++ text) = .ok (some (⟨kind, value.length, skipped⟩, s'))) :
    scanFrom extract s (.behind before) 0 (value ++ text) =
      (scanFrom extract s' (.behind (before ++ value)) 0 text).map
        (Cut.tokens [⟨before, value, kind, skipped⟩] ++ ·) := by
  obtain ⟨c, tail, rfl⟩ := List.exists_cons_of_length_pos hpos
  have hrest := scanFrom_covered extract s' ((Position.behind before).advance c) tail text
  have hplace : Position.behind (before ++ c :: tail) =
      ((Position.behind before).advance c).advanceAll tail := Position.behind_append before (c :: tail)
  have htake : (c :: (tail ++ text)).take (tail.length + 1) = c :: tail := by
    rw [List.take_succ_cons, List.take_left]
  rw [List.cons_append] at h ⊢
  rw [scanFrom, h, hplace, ← hrest]
  simp only [bind, Except.bind, List.length_cons, Nat.add_sub_cancel, htake]
  cases scanFrom extract s' ((Position.behind before).advance c) tail.length (tail ++ text) with
  | error e => rfl
  | ok tokens => cases skipped <;> rfl

/-- The tokens of one more piece come first. -/
theorem Cut.map_tokens_cons (c : Cut) (cuts : List Cut) (result : Except LexError (List Token)) :
    (result.map (Cut.tokens cuts ++ ·)).map (Cut.tokens [c] ++ ·) =
      result.map (Cut.tokens (c :: cuts) ++ ·) := by
  cases result with
  | error e => rfl
  | ok tokens =>
    simp only [Except.map, Cut.tokens, ← List.append_assoc, ← List.map_append, ← List.filter_append,
      List.singleton_append]

/-- How a scan ends that has come to a rest of the text in some state. -/
inductive Ending (extract : Extract σ) (rules : σ → LexerRules) (s : σ) (before : List Char) :
    List Char → Except LexError (List Token) → Prop
  | complete : Ending extract rules s before [] (.ok [.endOf before])
  | unrecognized {rest : List Char} (hne : rest ≠ [])
      (h : MatchesNothing (rules s).recognizers.toList rest) :
      Ending extract rules s before rest (.error (.unrecognized (.behind before) (snippet rest)))
  | failed {rest : List Char} {e : LexError} (hne : rest ≠ [])
      (h : extract s (.behind before) rest = .error e) (he : ∀ p t, e ≠ .unrecognized p t) :
      Ending extract rules s before rest (.error e)

/-- **A scan cuts the text into pieces** up to where it ends. By induction on the length of the text,
as no piece is empty. -/
theorem scanFrom_cases (hf : extract.Follows rules moves) (s : σ) (before text : List Char) :
    ∃ cuts last rest result, Cuts rules moves s before text cuts last rest ∧
      Ending extract rules last (before ++ Cut.joined cuts) rest result ∧
      scanFrom extract s (.behind before) 0 text = result.map (Cut.tokens cuts ++ ·) := by
  generalize hlen : text.length = len
  induction len using Nat.strong_induction_on generalizing s before text with
  | _ len ih =>
    have hstart : ∀ {rest result}, Ending extract rules s before rest result →
        Ending extract rules s (before ++ Cut.joined []) rest result := fun h => by
      rwa [show before ++ Cut.joined [] = before from List.append_nil before]
    by_cases hne : text = []
    · subst hne
      exact ⟨[], s, [], _, .done .., hstart .complete, rfl⟩
    obtain ⟨c, tail, htext⟩ := List.exists_cons_of_ne_nil hne
    rcases (rules s).longest?_cases text with ⟨hnone, hnothing⟩ | ⟨i, kind, n, hsome, hwins⟩
    · -- no rule matches here
      refine ⟨[], s, text, _, .done .., hstart (.unrecognized hne hnothing), ?_⟩
      have hextract := hf.none s (.behind before) text hnone
      rw [htext] at hextract ⊢
      rw [scanFrom, hextract]
      rfl
    · obtain ⟨value, after, rfl, rfl⟩ := hwins.exists_value
      rcases hf.some s (.behind before) _ _ hsome with ⟨s', hextract, hmoves⟩ | ⟨e, hextract, he⟩
      · -- a piece is cut off, and what is left is shorter
        have hlt : after.length < len := by
          have := hwins.pos
          rw [List.length_append] at hlen
          omega
        obtain ⟨cuts, last, rest, result, hcuts, hending, hscan⟩ :=
          ih after.length hlt s' (before ++ value) after rfl
        refine ⟨_, last, rest, result, .piece hwins hmoves hcuts, ?_, ?_⟩
        · simpa [Cut.joined] using hending
        · rw [scanFrom_piece hwins.pos hextract, hscan, Cut.map_tokens_cons]
      · -- a rule matches, but the state cannot be followed
        refine ⟨[], s, _, .error e, .done .., hstart (.failed hne hextract he), ?_⟩
        rw [htext] at hextract ⊢
        rw [scanFrom, hextract]
        rfl

/-- What a lexer makes of a text, from a state on. -/
inductive Partition (rules : σ → LexerRules) (moves : σ → String → σ → Prop) (s : σ)
    (text : List Char) : Except LexError TokenStream → Prop
  /-- The pieces make up the text. The stream holds the tokens of those that are kept, in order, and one
  more that closes it. -/
  | complete {cuts : List Cut} {last : σ} {stream : TokenStream}
      (h : Cuts rules moves s [] text cuts last []) (htext : text = Cut.joined cuts)
      (hpos : stream.position = 0)
      (htokens : stream.tokens.toList = Cut.tokens cuts ++ [.endOf text]) :
      Partition rules moves s text (.ok stream)
  /-- The pieces make up the text as far as it goes before a place at which no current rule matches. -/
  | unrecognized {cuts : List Cut} {last : σ} {rest : List Char}
      (h : Cuts rules moves s [] text cuts last rest) (htext : text = Cut.joined cuts ++ rest)
      (hne : rest ≠ []) (hnone : MatchesNothing (rules last).recognizers.toList rest) :
      Partition rules moves s text
        (.error (.unrecognized (.behind (Cut.joined cuts)) (String.ofList (rest.take 16))))
  /-- The scan ends for another reason. -/
  | failed {cuts : List Cut} {last : σ} {rest : List Char} {e : LexError}
      (h : Cuts rules moves s [] text cuts last rest) (he : ∀ p t, e ≠ .unrecognized p t) :
      Partition rules moves s text (.error e)

theorem TokenStream.tokens_ofTokens (ts : List Token) {eof : Token} (h : eof.isEof = true) :
    (TokenStream.ofTokens (ts ++ [eof]).toArray).tokens.toList = ts ++ [eof] := by
  have hback : (ts ++ [eof]).toArray.back? = some eof := by simp
  unfold TokenStream.ofTokens TokenStream.terminate
  simp only [hback, h, if_true]

theorem TokenStream.eq_ofTokens {s : TokenStream} {ts : List Token} {eof : Token}
    (h : eof.isEof = true) (hpos : s.position = 0) (htokens : s.tokens.toList = ts ++ [eof]) :
    s = .ofTokens (ts ++ [eof]).toArray := by
  have hsame := Array.toList_inj.1 (htokens.trans (tokens_ofTokens ts h).symm)
  obtain ⟨tokens, position, _⟩ := s
  subst hpos hsame
  rfl

theorem partition_scan (hf : extract.Follows rules moves) (s : σ) (input : String) :
    Partition rules moves s (normalizeLines input.toList) (scan extract s input) := by
  obtain ⟨cuts, last, rest, result, hcuts, hending, hscan⟩ :=
    scanFrom_cases hf s [] (normalizeLines input.toList)
  have htext := hcuts.joined
  have hstart : Position.behind [] = .start := rfl
  rw [hstart] at hscan
  unfold scan
  rw [hscan]
  cases hending with
  | complete =>
    rw [List.append_nil] at htext
    refine .complete hcuts htext rfl ?_
    rw [htext]
    exact TokenStream.tokens_ofTokens _ rfl
  | unrecognized hne hnothing => exact .unrecognized hcuts htext hne hnothing
  | failed hne h he => exact .failed hcuts he

end Scan

/-! ## Lexers -/

theorem SimpleLexer.follows (l : SimpleLexer) :
    l.extract.Follows (fun _ => l.rules) fun _ _ _ => True where
  none s pos text h := by
    unfold SimpleLexer.extract
    rw [h]
    rfl
  some s pos text piece h := by
    refine Or.inl ⟨(), ?_, trivial⟩
    unfold SimpleLexer.extract
    rw [h]
    rfl

/-- A kind of token leads from one stack of states to another: it enters a state, or it leaves the one
on top for the one below, or it does neither. -/
inductive ModalLexer.Moves (l : ModalLexer) (s : ModeStack) (kind : String) : ModeStack → Prop
  | push {target : String} {m : LexerMode} (h : s.top.transitions.find? kind = some (.push target))
      (hm : l.modes.find? target = some m) : Moves l s kind ⟨m, s.top :: s.below⟩
  | pop {m : LexerMode} {below : List LexerMode} (h : s.top.transitions.find? kind = some .pop)
      (hb : s.below = m :: below) : Moves l s kind ⟨m, below⟩
  | stay (h : s.top.transitions.find? kind = none) : Moves l s kind s

/-- A token moves between states, or it enters none that there is, or it leaves the last one. -/
theorem ModalLexer.transit_cases (l : ModalLexer) (s : ModeStack) (pos : Position) (kind : String) :
    (∃ s', l.transit s pos kind = .ok s' ∧ l.Moves s kind s') ∨
      (∃ target, s.top.transitions.find? kind = some (.push target) ∧ l.modes.find? target = none ∧
        l.transit s pos kind = .error (.unknownState target)) ∨
      s.top.transitions.find? kind = some .pop ∧ s.below = [] ∧
        l.transit s pos kind = .error (.stateUnderflow pos) := by
  unfold ModalLexer.transit ModalLexer.mode
  cases ht : s.top.transitions.find? kind with
  | none => exact Or.inl ⟨s, rfl, .stay ht⟩
  | some t =>
    cases t with
    | push target =>
      cases hm : l.modes.find? target with
      | none => exact Or.inr (Or.inl ⟨target, rfl, hm, by simp only [hm]; rfl⟩)
      | some m => exact Or.inl ⟨⟨m, s.top :: s.below⟩, by simp only [hm]; rfl, .push ht hm⟩
    | pop =>
      cases hb : s.below with
      | nil => exact Or.inr (Or.inr ⟨rfl, rfl, rfl⟩)
      | cons m below => exact Or.inl ⟨⟨m, below⟩, rfl, .pop ht hb⟩

theorem ModalLexer.follows (l : ModalLexer) : l.extract.Follows (·.top.rules) l.Moves where
  none s pos text h := by
    unfold ModalLexer.extract
    rw [h]
  some s pos text piece h := by
    unfold ModalLexer.extract
    rw [h]
    rcases l.transit_cases s pos piece.kind with
      ⟨s', hs, hm⟩ | ⟨target, -, -, he⟩ | ⟨-, -, he⟩
    · exact Or.inl ⟨s', by simp only [hs]; rfl, hm⟩
    · exact Or.inr ⟨_, by simp only [he]; rfl, by simp⟩
    · exact Or.inr ⟨_, by simp only [he]; rfl, by simp⟩

/-- A lexer with one set of rules comes to the end of the text or to a place where nothing matches. -/
theorem SimpleLexer.error_of_lex {l : SimpleLexer} {input : String} {e : LexError}
    (h : l.lex input = .error e) : ∃ pos snippet, e = .unrecognized pos snippet := by
  obtain ⟨cuts, last, rest, result, -, hending, hscan⟩ :=
    scanFrom_cases l.follows () [] (normalizeLines input.toList)
  unfold SimpleLexer.lex scan at h
  rw [show Position.start = .behind [] from rfl, hscan] at h
  cases hending with
  | complete => cases h
  | unrecognized hne hnothing =>
    cases h
    exact ⟨_, _, rfl⟩
  | @failed _ e' _ hextract _ =>
    -- the longest match is never an error
    cases hextract

/-- **Lexers cut the text into pieces, and their tokens tell where these begin.** A lexer with one set of
rules ends in no other way than at the end of the text or where nothing matches; a lexer with several
states scans from the stack that holds its starting state alone. -/
theorem lex_partitions :
    (∀ (l : SimpleLexer) (input : String),
      Partition (fun _ : Unit => l.rules) (fun _ _ _ => True) () (normalizeLines input.toList)
        (l.lex input) ∧
      ∀ e, l.lex input = .error e → ∃ pos snippet, e = .unrecognized pos snippet) ∧
    ∀ (l : ModalLexer) (input : String),
      (l.start = none ∧ l.lex input = .error .noStartingState) ∨
      (∃ start, l.start = some start ∧ l.modes.find? start = none ∧
        l.lex input = .error (.unknownState start)) ∨
      ∃ start mode, l.start = some start ∧ l.modes.find? start = some mode ∧
        Partition (fun s : ModeStack => s.top.rules) l.Moves ⟨mode, []⟩
          (normalizeLines input.toList) (l.lex input) := by
  refine ⟨fun l input => ⟨partition_scan l.follows () input, fun e he => l.error_of_lex he⟩,
    fun l input => ?_⟩
  unfold ModalLexer.lex ModalLexer.mode
  cases hs : l.start with
  | none => exact Or.inl ⟨rfl, rfl⟩
  | some start =>
    refine Or.inr ?_
    cases hm : l.modes.find? start with
    | none => exact Or.inl ⟨start, rfl, hm, by simp only [hm]; rfl⟩
    | some mode =>
      refine Or.inr ⟨start, mode, rfl, hm, ?_⟩
      simp only [hm]
      exact partition_scan l.follows ⟨mode, []⟩ input

end ParserGen
