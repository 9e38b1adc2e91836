import ParserGen.Proofs.Lexer.Splitting
import ParserGen.Proofs.Pattern.Joining

/-!
# A splitter chooses the first pattern that matches

The patterns of a splitter are joined to one. Its matches are those of the patterns alone, tried at each
place of the text from left to right, first those for tokens and then those for text to drop, in their
order. The patterns are taken as they are alone, except that case does not count.

* `Pattern.matchAt`, `Pattern.firstMatch`: the match of a pattern at a place, and the match chosen there.
* `Pattern.choices`: the parts of a text that are cut out, one choice after the other.
* `Splitter.split_eq_choices`: **a splitter cuts out the parts that are chosen**, where no pattern for a
  token at all counts as the pattern of the empty text.
* `Splitter.comments_joined`: this is about patterns that can be put between parentheses; one that ends in
  a comment is not of this kind, and is joined to the pattern behind it.
* `Splitter.blanks_kept`: and without patterns for tokens nothing is dropped.
-/

namespace ParserGen

namespace Pattern

/-! ## Choosing a pattern -/

/-- The match of a pattern that begins at this place, if there is one. -/
def matchAt (q : Pattern) (before : Option Char) (text : List Char) (pos : Nat) : Option Match :=
  { q with floating := false }.search before text pos

/-- The match at this place of the first pattern that has one, the patterns for tokens first. -/
def firstMatch (tokens skipped : List Pattern) (text : List Char) (before : Option Char) (pos : Nat) :
    Option Span :=
  (tokens.findSome? fun q => (q.matchAt before text pos).map fun m => ⟨m.start, m.stop, true⟩).or
    (skipped.findSome? fun q => (q.matchAt before text pos).map fun m => ⟨m.start, m.stop, false⟩)

/-- The parts of a text that are cut out from a place on: the match at the first place where there is one,
and those behind it. An empty part where the last one ended does not count; the next place is tried. -/
def choicesFrom (tokens skipped : List Pattern) :
    Nat → Option Char → List Char → Nat → Option Nat → List Span
  | 0, _, _, _, _ => []
  | fuel + 1, before, text, pos, lastStop =>
    match firstFrom (firstMatch tokens skipped) text before pos with
    | none => []
    | some s =>
      if s.start = s.stop ∧ lastStop = some s.stop then
        match text with
        | [] => []
        | c :: rest => choicesFrom tokens skipped fuel (some c) rest (pos + 1) lastStop
      else
        s :: choicesFrom tokens skipped fuel ((text.take (s.stop - pos)).getLast?.or before)
          (text.drop (s.stop - pos)) s.stop (some s.stop)

/-- The parts of a text that are cut out from left to right. Every second step at least moves on by a
character. -/
def choices (tokens skipped : List Pattern) (text : List Char) : List Span :=
  choicesFrom tokens skipped (2 * text.length + 2) none text 0 none

/-- An expression as a pattern. -/
def ofExpr (r : Expr) : Pattern :=
  ⟨r.program, r.program.isFloating⟩

theorem compile?_eq_some {text : String} {q : Pattern} :
    compile? text = some q ↔ ∃ r, parse? text = some r ∧ q = ofExpr r := by
  unfold compile?
  rw [Option.map_eq_some_iff]
  exact exists_congr fun r => and_congr_right fun _ => eq_comm

theorem matchAt_ofExpr (r : Expr) (before : Option Char) (text : List Char) (pos : Nat) :
    (ofExpr r).matchAt before text pos = Program.matchHere r text before pos := by
  unfold matchAt
  rw [search_eq_leftmost (Program.binary_program r)]
  cases text with
  | nil => rfl
  | cons c rest =>
    rw [leftmost, leftmost_false rfl, Option.or_none]
    rfl

/-- Choosing a pattern is choosing an expression. -/
theorem firstMatch_ofExpr (rs ss : List Expr) (text : List Char) (before : Option Char) (pos : Nat) :
    firstMatch (rs.map ofExpr) (ss.map ofExpr) text before pos =
      (Program.choice rs ss text before pos).map fun x => ⟨x.1.start, x.1.stop, x.2⟩ := by
  unfold firstMatch Program.choice
  rw [Option.map_or, List.map_findSome?, List.map_findSome?, List.findSome?_map, List.findSome?_map]
  simp only [Function.comp_def, matchAt_ofExpr, Option.map_map]

/-! ## Patterns of their own -/

/-- A pattern as it is alone, except that case does not count. It can be put between parentheses, too. -/
structure Alone (pattern : String) (q : Pattern) : Prop where
  compiled : compile? ("(?i)" ++ pattern) = some q
  /-- This leaves out patterns that end in a comment, such as `(?x)a#`: the comment goes on over the closing
  parenthesis and whatever is behind it on the same line. -/
  enclosed : (compile? ("(?i)(?:" ++ pattern ++ ")")).isSome

theorem exists_selfContained {patterns : List String} {qs : List Pattern}
    (h : List.Forall₂ Alone patterns qs) :
    ∃ rs, List.Forall₂ SelfContained patterns rs ∧ qs = rs.map ofExpr := by
  induction h with
  | nil => exact ⟨[], .nil, rfl⟩
  | cons hq _ ih =>
    obtain ⟨rs, hrs, rfl⟩ := ih
    obtain ⟨r, hr, rfl⟩ := compile?_eq_some.1 hq.compiled
    have henclosed := hq.enclosed
    unfold compile? at henclosed
    rw [Option.isSome_map] at henclosed
    exact ⟨r :: rs, .cons ⟨hr, henclosed⟩ hrs, rfl⟩

end Pattern

namespace Splitter

open Pattern Text Stretch

variable {l : Splitter} {patterns skipped : List String} {classify : String → Option String}

/-- The pattern of a splitter is that of the alternatives of its patterns. -/
theorem pattern_of_create {rs ss : List Expr} (hl : create patterns skipped classify = .ok l)
    (hP : List.Forall₂ SelfContained (if patterns.isEmpty then [""] else patterns) rs)
    (hS : List.Forall₂ SelfContained skipped ss) :
    l.pattern = ofExpr (.joined tokenGroup rs ss) ∧ l.classify = classify := by
  unfold create at hl
  cases hcompile : compile? (combine patterns skipped) with
  | none =>
    simp only [hcompile] at hl
    cases hl
  | some q =>
    simp only [hcompile] at hl
    cases hl
    obtain ⟨r, hr, rfl⟩ := compile?_eq_some.1 hcompile
    rw [parse_combine hP hS hr]
    exact ⟨rfl, rfl⟩

/-- The group for tokens tells which pattern a match is one of. -/
theorem spanOf_of_tells {rs ss : List Expr} {m : Match} {x : Match × Bool}
    (hl : l.pattern = ofExpr (.joined tokenGroup rs ss)) (h : Program.Tells m x) :
    l.Spanning m ∧ l.spanOf m = ⟨x.1.start, x.1.stop, x.2⟩ := by
  have hgroup : l.pattern.group? tokenGroup m = if x.2 then some (m.start, m.stop) else none := by
    obtain ⟨⟨more⟩, hgroups⟩ := Program.groups_joined tokenGroup rs ss
    have hfirst : l.pattern.program.groups.idxOf? tokenGroup = some 0 := by
      rw [hl]
      change (Expr.joined tokenGroup rs ss).program.groups.idxOf? tokenGroup = some 0
      rw [hgroups, List.append_toArray, List.idxOf?_toArray, List.idxOf?_eq_some_iff]
      exact ⟨Nat.succ_pos _, rfl, fun j hj => absurd hj (Nat.not_lt_zero j)⟩
    unfold Pattern.group?
    rw [hfirst]
    simp only [Option.bind_eq_bind, Option.bind_some, h.first, h.second]
    cases x.2 <;> rfl
  constructor
  · intro start stop hsome
    rw [hgroup] at hsome
    cases hx : x.2 <;> rw [hx] at hsome <;> cases hsome
    exact ⟨rfl, rfl⟩
  · unfold spanOf
    rw [hgroup, h.start, h.stop]
    cases x.2 <;> rfl

/-- A search finds the part that is chosen first. -/
theorem search_chosen {rs ss : List Expr} (hrs : rs ≠ [])
    (hl : l.pattern = ofExpr (.joined tokenGroup rs ss)) (before : Option Char) (text : List Char)
    (pos : Nat) :
    Option.Rel (fun m s => l.Spanning m ∧ l.spanOf m = s) (l.pattern.search before text pos)
      (firstFrom (firstMatch (rs.map ofExpr) (ss.map ofExpr)) text before pos) := by
  have hbinary : l.pattern.program.Binary := by
    rw [hl]
    exact Program.binary_program _
  refine search_firstFrom hbinary (by rw [hl]; rfl) (fun text before pos => ?_) before text pos
  rw [firstMatch_ofExpr]
  have hbest := Program.best_joined tokenGroup hrs ss text before pos
  refine Program.rel_map ?_ fun m x h => spanOf_of_tells hl h
  rw [hl]
  exact hbest

/-- **The matches of a splitter are the parts that are chosen.** By induction on the fuel, which both use
in the same way: a search comes to the part chosen first. -/
theorem map_findAllFrom {rs ss : List Expr} (hrs : rs ≠ [])
    (hl : l.pattern = ofExpr (.joined tokenGroup rs ss)) (fuel : Nat) (before : Option Char)
    (text : List Char) (pos : Nat) (lastStop : Option Nat) :
    (∀ m ∈ l.pattern.findAllFrom fuel before text pos lastStop, l.Spanning m) ∧
      (l.pattern.findAllFrom fuel before text pos lastStop).map l.spanOf =
        choicesFrom (rs.map ofExpr) (ss.map ofExpr) fuel before text pos lastStop := by
  induction fuel generalizing before text pos lastStop with
  | zero => exact ⟨fun m hm => (by cases hm), rfl⟩
  | succ fuel ih =>
    have hsearch := search_chosen hrs hl before text pos
    simp only [findAllFrom, choicesFrom]
    generalize l.pattern.search before text pos = found at hsearch ⊢
    generalize firstFrom (firstMatch (rs.map ofExpr) (ss.map ofExpr)) text before pos = chosen
      at hsearch ⊢
    cases hsearch with
    | none => exact ⟨fun m hm => (by cases hm), rfl⟩
    | @some m s h =>
      obtain ⟨hspanning, rfl⟩ := h
      simp only
      -- an empty match where the last one ended is passed over, and the search begins one place further
      by_cases hempty : m.start = m.stop ∧ lastStop = some m.stop
      · have hempty' : (l.spanOf m).start = (l.spanOf m).stop ∧ lastStop = some (l.spanOf m).stop :=
          hempty
        rw [if_pos hempty, if_pos hempty']
        cases text with
        | nil => exact ⟨fun m hm => (by cases hm), rfl⟩
        | cons c rest => exact ih ..
      · have hempty' : ¬ ((l.spanOf m).start = (l.spanOf m).stop ∧ lastStop = some (l.spanOf m).stop) :=
          hempty
        rw [if_neg hempty, if_neg hempty']
        obtain ⟨hrest, heq⟩ := ih ((text.take (m.stop - pos)).getLast?.or before)
          (text.drop (m.stop - pos)) m.stop (some m.stop)
        exact ⟨List.forall_mem_cons.2 ⟨hspanning, hrest⟩, congrArg (l.spanOf m :: ·) heq⟩

/-- **A splitter cuts out the parts that are chosen**: at each place from left to right the match of the
first pattern that has one there, of those for tokens and then of those for text to drop, each pattern
taken as it is alone. What is between these parts is tokens, too. If there is no pattern for tokens, the
empty text stands in for it. No pattern ends in a comment. -/
theorem split_eq_choices (hl : create patterns skipped classify = .ok l) {tokens drops : List Pattern}
    (hP : List.Forall₂ Alone (if patterns.isEmpty then [""] else patterns) tokens)
    (hS : List.Forall₂ Alone skipped drops) (input : String) :
    (l.pattern.findAll (normalizeLines input.toList)).map l.spanOf =
        choices tokens drops (normalizeLines input.toList) ∧
      Outcome classify (normalizeLines input.toList)
        (stretches (normalizeLines input.toList) 0 (choices tokens drops (normalizeLines input.toList)))
        (l.lex input) := by
  obtain ⟨rs, hrs, rfl⟩ := exists_selfContained hP
  obtain ⟨ss, hss, rfl⟩ := exists_selfContained hS
  obtain ⟨hpattern, rfl⟩ := pattern_of_create hl hrs hss
  have hne : rs ≠ [] := by
    rintro rfl
    cases patterns <;> cases hrs
  obtain ⟨hspanning, hmap⟩ := map_findAllFrom hne hpattern
    (2 * (normalizeLines input.toList).length + 2) none (normalizeLines input.toList) 0 none
  have houtcome := l.split_outcome input hspanning
  have hmap : (l.pattern.findAll (normalizeLines input.toList)).map l.spanOf =
      choices (rs.map ofExpr) (ss.map ofExpr) (normalizeLines input.toList) := hmap
  rw [hmap] at houtcome
  exact ⟨hmap, houtcome⟩

/-- The letter and the blank alone, in either case. -/
def letterPatterns : Pattern × Pattern :=
  (ofExpr (.char (.folded (.single 'a'))), ofExpr (.char (.folded (.single ' '))))

theorem letters_chosen :
    create ["a"] [" "] some = .ok (letters some) ∧
      List.Forall₂ Alone (if ["a"].isEmpty then [""] else ["a"]) [letterPatterns.1] ∧
      List.Forall₂ Alone [" "] [letterPatterns.2] ∧
      ((letters some).pattern.findAll (normalizeLines "Ab ".toList)).map (letters some).spanOf =
        choices [letterPatterns.1] [letterPatterns.2] (normalizeLines "Ab ".toList) ∧
      choices [letterPatterns.1] [letterPatterns.2] (normalizeLines "Ab ".toList) =
        [⟨0, 1, true⟩, ⟨2, 3, false⟩] ∧
      Outcome some (normalizeLines "Ab ".toList) (stretches (normalizeLines "Ab ".toList) 0
        [⟨0, 1, true⟩, ⟨2, 3, false⟩]) ((letters some).lex "Ab ") := by
  have hletter : Alone "a" letterPatterns.1 :=
    ⟨compile?_eq_some.2 ⟨_, by decide +kernel, rfl⟩, by decide +kernel⟩
  have hblank : Alone " " letterPatterns.2 :=
    ⟨compile?_eq_some.2 ⟨_, by decide +kernel, rfl⟩, by decide +kernel⟩
  have hchoices : choices [letterPatterns.1] [letterPatterns.2] (normalizeLines "Ab ".toList) =
      [⟨0, 1, true⟩, ⟨2, 3, false⟩] := by decide +kernel
  obtain ⟨hmatches, houtcome⟩ :=
    split_eq_choices (create_letters some) (.cons hletter .nil) (.cons hblank .nil) "Ab "
  rw [hchoices] at houtcome
  exact ⟨create_letters some, .cons hletter .nil, .cons hblank .nil, hmatches, hchoices, houtcome⟩

/-- A character in either case. -/
def eitherCase (c : Char) : Pattern.Expr :=
  .char (.folded (.single c))

/-- The expression of two patterns for tokens, of which the first ends in a comment. -/
def commentedExpr : Pattern.Expr :=
  .group tokenGroup (.seq (eitherCase 'a') (eitherCase 'b'))

/-- A comment at the end of a pattern does not end with the pattern. Both of these are patterns of their own,
and the first would be chosen and cut out a letter. Joined, the comment takes in all that is between them,
and the two letters are cut out together. -/
theorem comments_joined :
    ∃ l q r, create ["(?x)a#", "\nb"] [] (fun _ => some "W") = .ok l ∧
      compile? ("(?i)" ++ "(?x)a#") = some q ∧ compile? ("(?i)" ++ "\nb") = some r ∧
      compile? ("(?i)(?:" ++ "(?x)a#" ++ ")") = none ∧
      choices [q, r] [] "abc".toList = [⟨0, 1, true⟩] ∧
      (kept (stretches "abc".toList 0 (choices [q, r] [] "abc".toList))).map
        (fun s => String.ofList s.value) = ["a", "bc"] ∧
      (l.pattern.findAll "abc".toList).map l.spanOf = [⟨0, 2, true⟩] ∧
      (l.lex "abc").toOption.map (fun stream => stream.tokens.toList.map (·.value)) =
        some ["ab", "c", ""] := by
  have hparse : parse? (combine ["(?x)a#", "\nb"] []) = some commentedExpr := by decide +kernel
  have hfirst : compile? ("(?i)" ++ "(?x)a#") = some (ofExpr (eitherCase 'a')) :=
    compile?_eq_some.2 ⟨_, by decide +kernel, rfl⟩
  have hsecond : compile? ("(?i)" ++ "\nb") =
      some (ofExpr (.seq (eitherCase '\n') (eitherCase 'b'))) :=
    compile?_eq_some.2 ⟨_, by decide +kernel, rfl⟩
  have hopen : compile? ("(?i)(?:" ++ "(?x)a#" ++ ")") = none := by
    unfold compile?
    rw [Option.map_eq_none_iff]
    decide +kernel
  exact ⟨_, _, _, create_of_parse hparse, hfirst, hsecond, hopen, by decide +kernel, by decide +kernel,
    by decide +kernel, by decide +kernel⟩

/-- The expression of a splitter without patterns for tokens, which drops white space. -/
def blanksExpr : Pattern.Expr :=
  .alt (.group tokenGroup .empty) (.repetition 1 none true (.char .blank))

/-- Without patterns for tokens no white space is dropped: the empty text is a token everywhere, before any
pattern for text to drop is tried. Of the patterns as they are given, the one that drops white space
would be chosen. -/
theorem blanks_kept :
    ∃ l q, create [] ["\\s+"] (fun _ => some "W") = .ok l ∧ Alone "\\s+" q ∧
      choices [] [q] "ab cd".toList = [⟨2, 3, false⟩] ∧
      (kept (stretches "ab cd".toList 0 (choices [] [q] "ab cd".toList))).map
        (fun s => String.ofList s.value) = ["ab", "cd"] ∧
      (l.pattern.findAll "ab cd".toList).map l.spanOf ≠ choices [] [q] "ab cd".toList ∧
      (l.lex "ab cd").toOption.map (fun stream => stream.tokens.toList.map (·.value)) =
        some ["a", "b", " ", "c", "d", ""] := by
  have hparse : parse? (combine [] ["\\s+"]) = some blanksExpr := by decide +kernel
  have halone : Alone "\\s+" (ofExpr (.repetition 1 none true (.char .blank))) :=
    ⟨compile?_eq_some.2 ⟨_, by decide +kernel, rfl⟩, by decide +kernel⟩
  exact ⟨_, _, create_of_parse hparse, halone, by decide +kernel, by decide +kernel, by decide +kernel,
    by decide +kernel⟩

end Splitter

end ParserGen
