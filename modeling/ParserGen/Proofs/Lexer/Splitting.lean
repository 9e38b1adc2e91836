import ParserGen.Lexer.Splitter
import ParserGen.Proofs.Lexer.Partition
import ParserGen.Proofs.Pattern.Search

/-!
# Splitting accounts for the whole text

A splitter cuts a text at the matches of its pattern. The stretches that come of it, those between
matches and those that match, lie side by side and make up the text; only matches in which the token
group takes no part are dropped. Two cursors go through the text together, the place after the last
match and the line and offset of the next token, and they never part.

* `Pattern.findAll_ordered`: matches lie in the text from left to right and do not overlap.
* `stretches`, `laid_stretches`: the stretches of a text, and that they lie side by side.
* `foldlM_step`: what a splitter does with its matches is what it does with the stretches.
* `split_outcome`: **the outcome of a splitter in terms of the stretches.**
* `splitting_accounts`: tokens and dropped matches make up the text, at the places the tokens tell.
-/

namespace ParserGen

open Text

/-! ## Matches from left to right -/

/-- A part of a text that is cut out: a token, or text to drop. -/
structure Span where
  start : Nat
  stop : Nat
  token : Bool
deriving DecidableEq

/-- The parts lie between a place and the end of the text, from left to right without overlap. -/
inductive Ordered (stop : Nat) : Nat → List Span → Prop
  | nil {last : Nat} (h : last ≤ stop) : Ordered stop last []
  | cons {last : Nat} {s : Span} {rest : List Span} (hstart : last ≤ s.start)
      (hspan : s.start ≤ s.stop) (h : Ordered stop s.stop rest) : Ordered stop last (s :: rest)

section Ordered

variable {stop last start : Nat} {spans : List Span}

theorem Ordered.mono (h : Ordered stop last spans) (hle : start ≤ last) : Ordered stop start spans := by
  cases h with
  | nil h => exact .nil (by omega)
  | cons hstart hspan h => exact .cons (by omega) hspan h

theorem Ordered.le (h : Ordered stop last spans) : last ≤ stop := by
  induction h with
  | nil h => exact h
  | cons hstart hspan h ih => omega

end Ordered

namespace Pattern

/-- **The matches lie in the text from left to right and do not overlap**, whatever part of them is a
token. -/
theorem findAllFrom_ordered (p : Pattern) (token : Match → Bool) (fuel : Nat) (before : Option Char)
    (text : List Char) (pos : Nat) (lastStop : Option Nat) :
    Ordered (pos + text.length) pos
      ((p.findAllFrom fuel before text pos lastStop).map fun m => ⟨m.start, m.stop, token m⟩) := by
  induction fuel generalizing before text pos lastStop with
  | zero => exact .nil (by omega)
  | succ fuel ih =>
    unfold findAllFrom
    cases hsearch : p.search before text pos with
    | none => exact .nil (by omega)
    | some m =>
      obtain ⟨skipped, value, rest, htext, hstart, hstop, -, -⟩ := search_accepts hsearch
      have hlen : pos + text.length = m.stop + (text.drop (m.stop - pos)).length := by
        rw [List.length_drop, htext]
        simp only [List.length_append]
        omega
      dsimp only
      split
      · cases text with
        | nil => exact .nil (by omega)
        | cons c text =>
          have hrest := ih (some c) text (pos + 1) lastStop
          rw [Nat.add_right_comm] at hrest
          exact hrest.mono (by omega)
      · rw [List.map_cons, hlen]
        exact .cons (by simp only; omega) (by simp only; omega) (ih _ _ _ _)

theorem findAll_ordered (p : Pattern) (token : Match → Bool) (text : List Char) :
    Ordered text.length 0 ((p.findAll text).map fun m => ⟨m.start, m.stop, token m⟩) := by
  have h := p.findAllFrom_ordered token (2 * text.length + 2) none text 0 none
  rwa [Nat.zero_add] at h

end Pattern

/-! ## Stretches of a text -/

/-- A stretch of a text in its place. -/
structure Stretch where
  /-- The text before the stretch. -/
  before : List Char
  /-- The text of the stretch. -/
  value : List Char
  dropped : Bool

namespace Stretch

/-- The text of all stretches. -/
def joined (ss : List Stretch) : List Char :=
  (ss.map value).flatten

/-- The stretches that are not dropped. -/
def kept (ss : List Stretch) : List Stretch :=
  ss.filter fun s => !s.dropped

/-- Every stretch begins where the one before it ends. -/
def Laid : List Char → List Stretch → Prop
  | _, [] => True
  | before, s :: rest => s.before = before ∧ Laid (before ++ s.value) rest

theorem joined_append (ss ts : List Stretch) : joined (ss ++ ts) = joined ss ++ joined ts := by
  simp [joined]

theorem laid_append {before : List Char} {ss ts : List Stretch} (hs : Laid before ss)
    (ht : Laid (before ++ joined ss) ts) : Laid before (ss ++ ts) := by
  induction ss generalizing before with
  | nil => simpa [joined] using ht
  | cons s ss ih =>
    refine ⟨hs.1, ih hs.2 ?_⟩
    rw [List.append_assoc]
    exact ht

end Stretch

/-- The token between two places of a text, if there is anything between them. -/
def tokenBetween (text : List Char) (start stop : Nat) : List Stretch :=
  if Splitter.slice text start stop = [] then []
  else [⟨text.take start, Splitter.slice text start stop, false⟩]

/-- A part of a text that is cut out. -/
def cutOut (text : List Char) (s : Span) : List Stretch :=
  if s.token then tokenBetween text s.start s.stop
  else [⟨text.take s.start, Splitter.slice text s.start s.stop, true⟩]

/-- The stretches of a text from a place on, of which some parts are cut out: these parts, and what
lies before, between and behind them. -/
def stretches (text : List Char) : Nat → List Span → List Stretch
  | last, [] => tokenBetween text last text.length
  | last, s :: rest => tokenBetween text last s.start ++ cutOut text s ++ stretches text s.stop rest

section Stretches

open Stretch

variable {text : List Char} {start stop last : Nat} {spans : List Span}

theorem take_append_slice (h : start ≤ stop) :
    text.take start ++ Splitter.slice text start stop = text.take stop := by
  unfold Splitter.slice
  rw [← List.take_append_drop start (text.take stop), List.take_take, Nat.min_eq_left h,
    List.drop_take]

theorem slice_append_drop (h : start ≤ stop) :
    Splitter.slice text start stop ++ text.drop stop = text.drop start := by
  unfold Splitter.slice
  have hdrop : text.drop stop = (text.drop start).drop (stop - start) := by
    rw [List.drop_drop]
    congr 1
    omega
  rw [hdrop, List.take_append_drop]

theorem length_slice (h : start ≤ stop) (hle : stop ≤ text.length) :
    (Splitter.slice text start stop).length = stop - start := by
  unfold Splitter.slice
  rw [List.length_take, List.length_drop]
  omega

theorem slice_length (text : List Char) (start : Nat) :
    Splitter.slice text start text.length = text.drop start := by
  unfold Splitter.slice
  rw [← List.length_drop, List.take_length]

theorem joined_tokenBetween (text : List Char) (start stop : Nat) :
    joined (tokenBetween text start stop) = Splitter.slice text start stop := by
  unfold tokenBetween
  split
  · rename_i h
    exact h.symm
  · exact List.append_nil _

theorem laid_tokenBetween (text : List Char) (start stop : Nat) :
    Laid (text.take start) (tokenBetween text start stop) := by
  unfold tokenBetween
  split
  · trivial
  · exact ⟨rfl, trivial⟩

theorem joined_cutOut (text : List Char) (s : Span) :
    joined (cutOut text s) = Splitter.slice text s.start s.stop := by
  unfold cutOut
  split
  · exact joined_tokenBetween text s.start s.stop
  · exact List.append_nil _

theorem laid_cutOut (text : List Char) (s : Span) : Laid (text.take s.start) (cutOut text s) := by
  unfold cutOut
  split
  · exact laid_tokenBetween text s.start s.stop
  · exact ⟨rfl, trivial⟩

/-- **The stretches lie side by side and make up the rest of the text.** -/
theorem laid_stretches (h : Ordered text.length last spans) :
    Laid (text.take last) (stretches text last spans) ∧
      joined (stretches text last spans) = text.drop last := by
  induction h with
  | @nil last h =>
    refine ⟨laid_tokenBetween text last text.length, ?_⟩
    rw [stretches, joined_tokenBetween, slice_length]
  | @cons last s rest hstart hspan h ih =>
    have hgap : text.take last ++ joined (tokenBetween text last s.start) = text.take s.start := by
      rw [joined_tokenBetween, take_append_slice hstart]
    have hcut : text.take s.start ++ joined (cutOut text s) = text.take s.stop := by
      rw [joined_cutOut, take_append_slice hspan]
    constructor
    · rw [stretches]
      refine laid_append (laid_append (laid_tokenBetween text last s.start) ?_) ?_
      · rw [hgap]
        exact laid_cutOut text s
      · rw [joined_append, ← List.append_assoc, hgap, hcut]
        exact ih.1
    · rw [stretches, joined_append, joined_append, ih.2, joined_tokenBetween, joined_cutOut,
        List.append_assoc, slice_append_drop hspan, slice_append_drop hstart]

theorem tokenBetween_kept {s : Stretch} (hs : s ∈ tokenBetween text start stop) :
    s.dropped = false ∧ s.value ≠ [] := by
  unfold tokenBetween at hs
  split at hs
  · cases hs
  · rename_i hne
    obtain rfl := List.mem_singleton.1 hs
    exact ⟨rfl, hne⟩

theorem cutOut_kept {s : Stretch} {span : Span} (hs : s ∈ cutOut text span) (hkept : s.dropped = false) :
    s.value ≠ [] := by
  unfold cutOut at hs
  split at hs
  · exact (tokenBetween_kept hs).2
  · obtain rfl := List.mem_singleton.1 hs
    cases hkept

/-- No token is empty. -/
theorem stretches_kept {s : Stretch} (hs : s ∈ stretches text last spans) (hkept : s.dropped = false) :
    s.value ≠ [] := by
  induction spans generalizing last with
  | nil => exact (tokenBetween_kept hs).2
  | cons span rest ih =>
    rw [stretches, List.append_assoc, List.mem_append, List.mem_append] at hs
    rcases hs with hs | hs | hs
    · exact (tokenBetween_kept hs).2
    · exact cutOut_kept hs hkept
    · exact ih hs

/-- The part of the text that a stretch takes. -/
def Stretch.span (s : Stretch) : Span :=
  ⟨s.before.length, s.before.length + s.value.length, !s.dropped⟩

theorem filter_tokenBetween (text : List Char) (start stop : Nat) :
    (tokenBetween text start stop).filter (·.dropped) = [] :=
  List.filter_eq_nil_iff.2 fun s hs => by rw [(tokenBetween_kept hs).1]; decide

/-- The stretches that are dropped are the parts to drop. -/
theorem dropped_stretches (h : Ordered text.length last spans) :
    ((stretches text last spans).filter (·.dropped)).map Stretch.span = spans.filter (!·.token) := by
  induction h with
  | nil h => rw [stretches, filter_tokenBetween]; rfl
  | @cons last s rest hstart hspan h ih =>
    have hle := h.le
    rw [stretches, List.filter_append, List.filter_append, filter_tokenBetween, List.nil_append,
      List.map_append, ih, cutOut]
    cases htoken : s.token with
    | true => simp [htoken, filter_tokenBetween]
    | false =>
      have hs : (⟨text.take s.start, Splitter.slice text s.start s.stop, true⟩ : Stretch).span = s := by
        obtain ⟨a, b, token⟩ := s
        simp only at htoken hspan hle
        unfold Stretch.span
        simp only [List.length_take, length_slice hspan hle, htoken]
        congr 1 <;> omega
      simp [htoken, hs]

end Stretches

/-! ## Going through the stretches -/

namespace Splitter

open Stretch

/-- Covers one stretch. -/
def cover (l : Splitter) (c : SplitCursor) (s : Stretch) : Except LexError SplitCursor :=
  if s.dropped then .ok (c.skip s.value) else c.emit l.classify s.value

/-- A match as a part of the text. It is a token if the token group takes part in it. -/
def spanOf (l : Splitter) (m : Pattern.Match) : Span :=
  ⟨m.start, m.stop, (l.pattern.group? tokenGroup m).isSome⟩

/-- The token group spans the whole match. -/
def Spanning (l : Splitter) (m : Pattern.Match) : Prop :=
  ∀ start stop, l.pattern.group? tokenGroup m = some (start, stop) → start = m.start ∧ stop = m.stop

theorem ordered_matches (l : Splitter) (text : List Char) :
    Ordered text.length 0 ((l.pattern.findAll text).map l.spanOf) :=
  l.pattern.findAll_ordered _ text

variable {l : Splitter} {text : List Char} {c : SplitCursor} {last : Nat}

/-- An empty stretch is no token. -/
theorem foldlM_tokenBetween (l : Splitter) (text : List Char) (c : SplitCursor) (start stop : Nat) :
    (tokenBetween text start stop).foldlM l.cover c = c.emit l.classify (slice text start stop) := by
  unfold tokenBetween
  by_cases h : slice text start stop = []
  · rw [if_pos h, h]
    rfl
  · rw [if_neg h, List.foldlM_cons]
    exact bind_pure (c.emit l.classify (slice text start stop))

/-- A match is covered after the stretch before it. -/
theorem step_eq {m : Pattern.Match} (h : l.Spanning m) :
    l.step text (c, last) m =
      (tokenBetween text last m.start ++ cutOut text (l.spanOf m)).foldlM l.cover c >>=
        fun c => pure (c, m.stop) := by
  unfold step
  rw [List.foldlM_append, foldlM_tokenBetween, bind_assoc]
  refine bind_congr fun c => ?_
  unfold cutOut spanOf
  cases hgroup : l.pattern.group? tokenGroup m with
  | none => rfl
  | some place =>
    obtain ⟨start, stop⟩ := place
    obtain ⟨rfl, rfl⟩ := h start stop hgroup
    simp only [Option.isSome_some, if_true, foldlM_tokenBetween]

/-- **What a splitter does with its matches is what it does with the stretches.** -/
theorem foldlM_step {ms : List Pattern.Match} (hspan : ∀ m ∈ ms, l.Spanning m) :
    (ms.foldlM (l.step text) (c, last) >>= fun (c, last) => c.emit l.classify (text.drop last)) =
      (stretches text last (ms.map l.spanOf)).foldlM l.cover c := by
  induction ms generalizing c last with
  | nil => rw [List.map_nil, stretches, foldlM_tokenBetween, slice_length]; rfl
  | cons m ms ih =>
    obtain ⟨hm, hms⟩ := List.forall_mem_cons.1 hspan
    have hpieces : stretches text last ((m :: ms).map l.spanOf) =
        (tokenBetween text last m.start ++ cutOut text (l.spanOf m)) ++
          stretches text m.stop (ms.map l.spanOf) := rfl
    rw [List.foldlM_cons, step_eq hm, hpieces]
    generalize tokenBetween text last m.start ++ cutOut text (l.spanOf m) = pieces
    rw [List.foldlM_append, bind_assoc, bind_assoc]
    exact bind_congr fun c => ih hms

/-- A token is that of a stretch: its kind is told from the text, and it tells the place where the
stretch begins. -/
structure IsToken (classify : String → Option String) (s : Stretch) (t : Token) : Prop where
  value : t.value = String.ofList s.value
  kind : classify t.value = some t.kind
  line : t.line = (Position.behind s.before).line
  offset : t.offset = (Position.behind s.before).offset

/-- What comes of the stretches of a text. -/
inductive Outcome (classify : String → Option String) (text : List Char) (ss : List Stretch) :
    Except LexError TokenStream → Prop
  /-- Each stretch that is kept is a token, and one more closes the stream. -/
  | complete {stream : TokenStream} {tokens : List Token}
      (h : List.Forall₂ (IsToken classify) (kept ss) tokens) (hpos : stream.position = 0)
      (htokens : stream.tokens.toList = tokens ++ [.endOf text]) :
      Outcome classify text ss (.ok stream)
  /-- A stretch that is kept has no kind; those before it have one. -/
  | rejected {done rest : List Stretch} {s : Stretch} (h : kept ss = done ++ s :: rest)
      (hdone : ∀ d ∈ done, classify (String.ofList d.value) ≠ none)
      (hs : classify (String.ofList s.value) = none) :
      Outcome classify text ss
        (.error (.unrecognized (.behind s.before) (String.ofList (s.value.take 16))))

/-- Going through stretches that lie side by side, the place is behind what was covered, and each
stretch is made a token, up to the first one that has no kind. -/
theorem foldlM_cover {before : List Char} {ss : List Stretch} (hlaid : Laid before ss)
    (hne : ∀ s ∈ ss, s.dropped = false → s.value ≠ []) (hpos : c.position = .behind before) :
    (∃ tokens, List.Forall₂ (IsToken l.classify) (kept ss) tokens ∧
        ss.foldlM l.cover c =
          .ok ⟨c.tokens ++ tokens.toArray, .behind (before ++ joined ss)⟩) ∨
      ∃ done s rest, kept ss = done ++ s :: rest ∧
        (∀ d ∈ done, l.classify (String.ofList d.value) ≠ none) ∧
        l.classify (String.ofList s.value) = none ∧
        ss.foldlM l.cover c = .error (.unrecognized (.behind s.before) (snippet s.value)) := by
  induction ss generalizing before c with
  | nil =>
    refine Or.inl ⟨[], .nil, ?_⟩
    rw [show joined [] = [] from rfl, List.append_nil, ← hpos]
    simp [pure, Except.pure]
  | cons s ss ih =>
    obtain ⟨hs, hrest⟩ := List.forall_mem_cons.1 hne
    obtain ⟨rfl, hlaid⟩ := hlaid
    have hjoined : s.before ++ joined (s :: ss) = s.before ++ s.value ++ joined ss :=
      (List.append_assoc ..).symm
    rw [List.foldlM_cons, hjoined]
    unfold cover
    cases hdropped : s.dropped with
    | true =>
      -- text that is dropped only moves the place
      have hkept : kept (s :: ss) = kept ss := by
        unfold kept
        rw [List.filter_cons_of_neg (by simp [hdropped])]
      rw [hkept, if_pos rfl]
      refine ih hlaid hrest (c := c.skip s.value) ?_
      rw [Position.behind_append, ← hpos]
      rfl
    | false =>
      have hkept : kept (s :: ss) = s :: kept ss := by
        unfold kept
        rw [List.filter_cons_of_pos (by simp [hdropped])]
      rw [hkept, if_neg Bool.false_ne_true]
      unfold SplitCursor.emit
      rw [if_neg (by simpa using hs hdropped)]
      cases hkind : l.classify (String.ofList s.value) with
      | none =>
        -- nothing behind the first stretch without a kind is looked at
        refine Or.inr ⟨[], s, kept ss, rfl, by simp, hkind, ?_⟩
        simp only [hkind, hpos]
        rfl
      | some kind =>
        let token : Token := ⟨kind, String.ofList s.value, c.position.line, c.position.offset⟩
        have htoken : IsToken l.classify s token :=
          ⟨rfl, hkind, congrArg Position.line hpos, congrArg Position.offset hpos⟩
        have hnext : c.position.advanceAll s.value = .behind (s.before ++ s.value) := by
          rw [Position.behind_append, ← hpos]
        simp only [hkind]
        rcases ih hlaid hrest (c := ⟨c.tokens.push token, c.position.advanceAll s.value⟩) hnext with
          ⟨tokens, htokens, hfold⟩ | ⟨done, s', rest, hsplit, hdone, hs', hfold⟩
        · refine Or.inl ⟨token :: tokens, .cons htoken htokens, hfold.trans ?_⟩
          have htokens : c.tokens.push token ++ tokens.toArray = c.tokens ++ (token :: tokens).toArray :=
            Array.toList_inj.1 (by simp)
          rw [htokens]
        · refine Or.inr ⟨s :: done, s', rest, congrArg (s :: ·) hsplit, ?_, hs', hfold⟩
          exact List.forall_mem_cons.2 ⟨by simp [hkind], hdone⟩

/-- The tokens found so far, with `$eof` behind them. -/
def SplitCursor.stream (c : SplitCursor) : TokenStream :=
  .ofTokens (c.tokens.push (Token.eof c.position.line c.position.offset))

/-- A splitter goes through the stretches that its matches cut the text into. -/
theorem lex_eq (l : Splitter) (input : String)
    (hspan : ∀ m ∈ l.pattern.findAll (normalizeLines input.toList), l.Spanning m) :
    l.lex input = ((stretches (normalizeLines input.toList) 0
      ((l.pattern.findAll (normalizeLines input.toList)).map l.spanOf)).foldlM l.cover
        ⟨#[], .start⟩).map SplitCursor.stream := by
  rw [← foldlM_step hspan]
  unfold lex
  simp only
  cases (l.pattern.findAll (normalizeLines input.toList)).foldlM
      (l.step (normalizeLines input.toList)) (⟨#[], .start⟩, 0) with
  | error e => rfl
  | ok state =>
    simp only [bind, Except.bind]
    cases state.1.emit l.classify ((normalizeLines input.toList).drop state.2) <;> rfl

/-- **The outcome of a splitter in terms of the stretches** that its matches cut the text into. -/
theorem split_outcome (l : Splitter) (input : String)
    (hspan : ∀ m ∈ l.pattern.findAll (normalizeLines input.toList), l.Spanning m) :
    Outcome l.classify (normalizeLines input.toList)
      (stretches (normalizeLines input.toList) 0
        ((l.pattern.findAll (normalizeLines input.toList)).map l.spanOf))
      (l.lex input) := by
  rw [l.lex_eq input hspan]
  generalize normalizeLines input.toList = text
  have hlaid := laid_stretches (l.ordered_matches text)
  rcases foldlM_cover (l := l) (c := ⟨#[], .start⟩) hlaid.1 (fun s => stretches_kept) rfl with
    ⟨tokens, htokens, hok⟩ | ⟨done, s, rest, hsplit, hdone, hs, herror⟩
  · rw [hok, hlaid.2]
    have hstream : (#[] ++ tokens.toArray).push (Token.endOf text) =
        (tokens ++ [Token.endOf text]).toArray := by simp
    refine .complete htokens rfl ((congrArg (fun ts => (TokenStream.ofTokens ts).tokens.toList)
      hstream).trans (TokenStream.tokens_ofTokens tokens rfl))
  · rw [herror]
    exact .rejected hsplit hdone hs

/-- **Splitting accounts for the whole text.** The tokens and the matches that are dropped lie side by
side and make up the text. Only matches in which the token group takes no part are dropped, and no
token is empty. The lexer succeeds if all tokens have a kind, and fails at the first one that has none. -/
theorem splitting_accounts (l : Splitter) (input : String)
    (hspan : ∀ m ∈ l.pattern.findAll (normalizeLines input.toList), ∀ start stop,
      l.pattern.group? tokenGroup m = some (start, stop) → start = m.start ∧ stop = m.stop) :
    ∃ ss : List Stretch,
      Laid [] ss ∧ joined ss = normalizeLines input.toList ∧
      (ss.filter (·.dropped)).map Stretch.span =
        ((l.pattern.findAll (normalizeLines input.toList)).filter
          fun m => (l.pattern.group? tokenGroup m).isNone).map (fun m => ⟨m.start, m.stop, false⟩) ∧
      (∀ s ∈ kept ss, s.value ≠ []) ∧
      Outcome l.classify (normalizeLines input.toList) ss (l.lex input) := by
  have houtcome := l.split_outcome input hspan
  generalize normalizeLines input.toList = text at hspan houtcome ⊢
  have hordered := l.ordered_matches text
  have hlaid := laid_stretches hordered
  refine ⟨_, hlaid.1, hlaid.2, ?_, ?_, houtcome⟩
  · have hdropped : (fun s : Span => !s.token) ∘ l.spanOf =
        fun m => (l.pattern.group? tokenGroup m).isNone :=
      funext fun m => Option.not_isSome _
    rw [dropped_stretches hordered, List.filter_map, hdropped]
    refine List.map_congr_left fun m hm => ?_
    unfold spanOf
    rw [Option.isNone_iff_eq_none.1 (List.mem_filter.1 hm).2]
    rfl
  · intro s hs
    obtain ⟨hmem, hkept⟩ := List.mem_filter.1 hs
    exact stretches_kept hmem (by simpa using hkept)

/-- The expression of a letter that is a token, and of a blank that is dropped. -/
def letterExpr : Pattern.Expr :=
  .alt (.group tokenGroup (.char (.folded (.single 'a')))) (.char (.folded (.single ' ')))

/-- A splitter that cuts out the letter, in either case, and drops blanks. -/
def letters (classify : String → Option String) : Splitter where
  source := combine ["a"] [" "]
  pattern := ⟨letterExpr.program, letterExpr.program.isFloating⟩
  classify

theorem create_of_parse {patterns skipped : List String} {classify : String → Option String}
    {r : Pattern.Expr} (h : Pattern.parse? (combine patterns skipped) = some r) :
    create patterns skipped classify =
      .ok ⟨combine patterns skipped, ⟨r.program, r.program.isFloating⟩, classify⟩ := by
  unfold create Pattern.compile?
  simp only [h]
  rfl

theorem create_letters (classify : String → Option String) :
    create ["a"] [" "] classify = .ok (letters classify) :=
  create_of_parse (by decide +kernel)

theorem letters_account :
    (∀ m ∈ (letters some).pattern.findAll ['A', 'b', ' '], ∀ start stop,
      (letters some).pattern.group? tokenGroup m = some (start, stop) →
        start = m.start ∧ stop = m.stop) ∧
      ∃ ss : List Stretch, Laid [] ss ∧ joined ss = ['A', 'b', ' '] ∧
        (ss.filter (·.dropped)).map Stretch.span = [⟨2, 3, false⟩] ∧ (∀ s ∈ kept ss, s.value ≠ []) ∧
        Outcome some ['A', 'b', ' '] ss ((letters some).lex "Ab ") := by
  have hgroup : ∀ m ∈ (letters some).pattern.findAll ['A', 'b', ' '],
      (letters some).pattern.group? tokenGroup m = none ∨
        (letters some).pattern.group? tokenGroup m = some (m.start, m.stop) := by
    decide +kernel
  have hspan : ∀ m ∈ (letters some).pattern.findAll ['A', 'b', ' '], ∀ start stop,
      (letters some).pattern.group? tokenGroup m = some (start, stop) →
        start = m.start ∧ stop = m.stop := by
    intro m hm start stop h
    rcases hgroup m hm with hnone | hsome
    · rw [hnone] at h
      cases h
    · rw [hsome] at h
      cases h
      exact ⟨rfl, rfl⟩
  have hdropped : (((letters some).pattern.findAll ['A', 'b', ' ']).filter
      fun m => ((letters some).pattern.group? tokenGroup m).isNone).map
        (fun m => (⟨m.start, m.stop, false⟩ : Span)) = [⟨2, 3, false⟩] := by
    decide +kernel
  obtain ⟨ss, hlaid, hjoined, hspans, hkept, houtcome⟩ := splitting_accounts (letters some) "Ab " hspan
  exact ⟨hspan, ss, hlaid, hjoined, hspans.trans hdropped, hkept, houtcome⟩

end Splitter

end ParserGen
