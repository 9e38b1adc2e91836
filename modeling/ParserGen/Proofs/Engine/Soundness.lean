import Mathlib.Logic.Relation
import ParserGen.Proofs.Engine.Stack
import ParserGen.Proofs.Token.Stream

/-!
# Runs of the engine

A step of the engine keeps the stack a path with trees, and the trees spell the tokens read so far.
From this follows what a run can end with, whatever the policy made of the conflicts of the grammar:
a value is that of a parse tree of the tokens read, and a failure is an unexpected token.

* `step_next_cases`: a step that goes on is a shift or a reduction.
* `Engine.Reads`: what holds between two steps.
* `steps_step`: what one step does.
* `reads_of_reaches`: what holds between two steps holds all along a run.
* `parse_sound`: **a parser that returns a value has found a parse tree with that value.**
* `parse_safe`: **a parser fails with an unexpected token or not at all.**
-/

namespace ParserGen

variable {V W : Type} {g : Grammar V} {e : Engine W} {start : TokenStream}

namespace Engine

/-- The machine `m` comes to `m'` in some number of steps. -/
def Reaches (e : Engine W) : Machine W → Machine W → Prop :=
  Relation.ReflTransGen fun m m' => e.step m = .next m'

/-- A run is a number of steps and one that ends it. -/
theorem exists_reaches_of_run {fuel : Nat} {m m' : Machine W} {result : Except ParseError W}
    (h : e.run fuel m = some (result, m')) : ∃ n, e.Reaches m n ∧ e.step n = .done result m' := by
  induction fuel generalizing m with
  | zero => cases h
  | succ fuel ih =>
    rw [run] at h
    cases hs : e.step m with
    | done result' m'' =>
      rw [hs] at h
      cases h
      exact ⟨m, .refl, hs⟩
    | next n =>
      rw [hs] at h
      obtain ⟨n', hn, hd⟩ := ih h
      exact ⟨n', .head hs hn, hd⟩

/-- A step that goes on is a shift or a reduction. -/
theorem step_next_cases {m n : Machine W} (h : e.step m = .next n) :
    (∃ p s, e.table.action? (Machine.topState m.stack) m.stream.current.kind = some (.shift p) ∧
      m.stream.advance = .ok s ∧
      n = { m with stack := ⟨p, e.ofToken m.stream.current⟩ :: m.stack, stream := s }) ∨
    ∃ k, e.table.action? (Machine.topState m.stack) m.stream.current.kind = some (.reduce k) ∧
      e.reduce k m = .next n := by
  unfold step at h
  simp only at h
  split at h
  · rename_i p ha
    left
    unfold shift at h
    cases hs : m.stream.advance with
    | ok s =>
      rw [hs] at h
      cases h
      exact ⟨p, s, ha, rfl, rfl⟩
    | error error =>
      rw [hs] at h
      cases h
  · rename_i k ha
    exact Or.inr ⟨k, ha, h⟩
  · unfold accept at h
    split at h <;> cases h
  · cases h

/-- Between two steps: the cursor has gone on from `start`, and the stack holds trees for the tokens
passed. -/
structure Reads (e : Engine W) (g : Grammar V) (start : TokenStream) (m : Machine W) : Prop where
  tokens : m.stream.tokens = start.tokens
  position : start.position ≤ m.stream.position
  stacked : ∃ w trees, Stacked g e m.stack w trees ∧
    ParseTree.leavesAll trees.reverse =
      (start.tokens.extract start.position m.stream.position).toList

theorem reads_initial (e : Engine W) (g : Grammar V) (start : TokenStream) :
    e.Reads g start (.initial start) :=
  ⟨rfl, le_rfl, [], [], .nil, by simp [ParseTree.leavesAll, Machine.initial]⟩

/-- The run is over with the value of a parse tree of all tokens before `$eof`. -/
def Accepts (e : Engine W) (g : Grammar V) (start : TokenStream) (m : Machine W) (v : W) : Prop :=
  m.stream.tokens = start.tokens ∧ start.position ≤ m.stream.position ∧
    m.stream.current.kind = Token.eofKind ∧
    ∃ tree, g.Derives (.nonterminal g.start) tree ∧
      tree.leaves = (start.tokens.extract start.position m.stream.position).toList ∧
      tree.eval e.reductions.reduce e.ofToken = v

/-- What a step does to a machine between two steps. -/
inductive Steps (e : Engine W) (g : Grammar V) (start : TokenStream) (m : Machine W) : Step W → Prop
  | next {m' : Machine W} (h : e.Reads g start m') : Steps e g start m (.next m')
  | accept {v : W} (h : e.Accepts g start m v) : Steps e g start m (.done (.ok v) m)
  | unexpected : Steps e g start m (.done (.error (.unexpectedToken m.stream.current
      (e.table.expected (Machine.topState m.stack)))) m)
  | endOfStream (hk : m.stream.current.kind ≠ Token.eofKind)
      (hlast : m.stream.position + 1 = m.stream.tokens.size) :
      Steps e g start m (.done (.error (.stream .endOfStream)) m)

end Engine

theorem TokenStream.toList_extract_succ {s t : TokenStream} (ht : s.tokens = t.tokens)
    (hp : t.position ≤ s.position) : (t.tokens.extract t.position (s.position + 1)).toList =
      (t.tokens.extract t.position s.position).toList ++ [s.current] := by
  have hlt : s.position < t.tokens.size := ht ▸ s.position_lt
  rw [Array.extract_succ_right (by omega) hlt, Array.toList_push]
  congr 2
  unfold TokenStream.current
  simp only [ht]

namespace Engine

section Step

variable {m : Machine W}

/-- A terminal that leads on from a state is not `$eof`. -/
theorem RunsOn.kind_ne_eof (he : e.RunsOn g) {q p t : Nat}
    (h : g.automaton.transition? q (.terminal t) = some p) : g.terminalName t ≠ Token.eofKind := by
  obtain ⟨k, r, hr, hm⟩ := mem_symbols_of_transition he.wf h
  obtain ⟨hres, hlt⟩ := he.wf.terminal hr hm
  rw [← Grammar.terminalName_eof he.wf]
  intro hname
  have h0 := Grammar.terminalName_inj he.wf hlt hname
  rw [h0] at hres
  exact absurd hres (by decide)

theorem steps_shift (he : e.RunsOn g) (hm : e.Reads g start m) {t p : Nat}
    (hk : m.stream.current.kind = g.terminalName t)
    (hp : g.automaton.transition? (Machine.topState m.stack) (.terminal t) = some p) :
    e.Steps g start m (e.shift p m) := by
  obtain ⟨w, trees, hstack, hleaves⟩ := hm.stacked
  unfold shift
  rcases m.stream.advance_cases with ⟨s, hs, htokens, hpos⟩ | ⟨hs, hlast⟩
  · rw [hs]
    refine .next ⟨htokens.trans hm.tokens, ?_, _, _, hstack.cons hp (.leaf hk), ?_⟩
    · have := hm.position
      simp only [hpos]
      omega
    · simp only [hpos]
      rw [TokenStream.toList_extract_succ hm.tokens hm.position, List.reverse_cons,
        ParseTree.leavesAll_append, hleaves]
      rfl
  · rw [hs]
    exact .endOfStream (hk ▸ he.kind_ne_eof hp) hlast

theorem steps_reduce (he : e.RunsOn g) (hm : e.Reads g start m) {s : State} {i : Item}
    (hs : g.automaton.states[Machine.topState m.stack]? = some s) (hi : i ∈ s.core)
    (h0 : i.rule ≠ 0) (hc : g.isComplete i = true) :
    e.Steps g start m (e.reduce i.rule m) := by
  obtain ⟨w, trees, hstack, hleaves⟩ := hm.stacked
  obtain ⟨r, frame, hr, -, hreduce, hstack'⟩ := hstack.reduce he hs hi h0 hc
  rw [hreduce]
  refine .next ⟨hm.tokens, hm.position, _, _, hstack', ?_⟩
  -- the tree of the rule spells what its components spelled
  rw [List.reverse_cons, ParseTree.leavesAll_append, ← hleaves]
  conv_rhs => rw [← List.take_append_drop r.length trees, List.reverse_append,
    ParseTree.leavesAll_append]
  simp [ParseTree.leavesAll, ParseTree.leaves]

theorem steps_accept (he : e.RunsOn g) (hm : e.Reads g start m) {s : State}
    (hs : g.automaton.states[Machine.topState m.stack]? = some s) (hi : ⟨0, 1⟩ ∈ s.core)
    (hk : m.stream.current.kind = Token.eofKind) : e.Steps g start m (accept m) := by
  obtain ⟨w, trees, hstack, hleaves⟩ := hm.stacked
  obtain ⟨q, tree, rfl, htree, hm'⟩ := hstack.accepted he hs hi
  unfold accept
  rw [hm']
  refine .accept ⟨hm.tokens, hm.position, hk, tree, htree, ?_, rfl⟩
  rw [← hleaves]
  simp [ParseTree.leavesAll]

/-- **What one step does**, whatever the table has made of conflicts. -/
theorem steps_step (he : e.RunsOn g) (hm : e.Reads g start m) : e.Steps g start m (e.step m) := by
  obtain ⟨r, hr, htable⟩ := he.table
  unfold step
  simp only
  cases ha : e.table.action? (Machine.topState m.stack) m.stream.current.kind with
  | none => exact .unexpected
  | some a =>
    rw [htable] at ha
    obtain ⟨s, t, hs, hk, hcand⟩ := action?_candidate he.wf he.fit hr ha
    cases hcand with
    | shift hmem => exact steps_shift he hm hk ((mem_edges_iff he.wf hs).1 hmem)
    | reduce hi h0 hc _ => exact steps_reduce he hm hs (List.mem_map.2 ⟨_, hi, rfl⟩) h0 hc
    | accept hla _ ht =>
      have hi := (he.canonical.lookahead_iff hs _ _).1 hla
      refine steps_accept he hm hs (List.mem_map.2 ⟨_, hi, rfl⟩) ?_
      rw [hk, ht]
      exact Grammar.terminalName_eof he.wf

end Step

/-- **What holds between two steps holds all along a run.** -/
theorem reads_of_reaches (he : e.RunsOn g) {m : Machine W}
    (h : e.Reaches (.initial start) m) : e.Reads g start m := by
  induction h with
  | refl => exact reads_initial e g start
  | tail _ hstep ih =>
    have hs := steps_step he ih
    rw [hstep] at hs
    cases hs with
    | next h => exact h

/-- What a run ends with. -/
theorem run_cases (he : e.RunsOn g) {fuel : Nat} {m : Machine W} {result : Except ParseError W}
    (h : e.run fuel (.initial start) = some (result, m)) :
    e.Reads g start m ∧ e.Steps g start m (.done result m) := by
  obtain ⟨n, hn, hd⟩ := exists_reaches_of_run h
  have hreads := reads_of_reaches he hn
  have hs := steps_step he hreads
  rw [hd] at hs
  cases hs with
  | accept h => exact ⟨hreads, .accept h⟩
  | unexpected => exact ⟨hreads, .unexpected⟩
  | endOfStream hk hlast => exact ⟨hreads, .endOfStream hk hlast⟩

end Engine

theorem TokenStream.kind_of_last {tokens : Array Token} {s : TokenStream}
    (ht : s.tokens = (TokenStream.ofTokens tokens).tokens)
    (hlast : s.position + 1 = s.tokens.size) : s.current.kind = Token.eofKind := by
  obtain ⟨t, hback, heof⟩ := TokenStream.ofTokens_ends tokens
  rw [← ht, Array.back?_eq_getElem?] at hback
  obtain rfl : s.current = t := by
    have hpos : s.tokens.size - 1 = s.position := by omega
    rw [hpos, Array.getElem?_eq_getElem s.position_lt] at hback
    exact Option.some.inj hback
  simpa [Token.isEof] using heof

/-- The table of the bracket grammar. -/
def bracketSynthesis : Synthesis :=
  Grammar.brackets.analyze.outcome.toOption.get (by decide +kernel)

theorem brackets_analyzed : Grammar.brackets.analyze.outcome = .ok bracketSynthesis :=
  eq_ok_get _ _

/-- Tokens that are spelled like their kinds. -/
def spelled (kinds : List String) : Array Token :=
  (kinds.map fun k => { kind := k, value := k, line := 1, offset := 1 }).toArray

section Parser

variable [Inhabited V] {r : Synthesis}

theorem runsOn_of_wellFormed (wf : g.WellFormed) (hfit : g.CodesFit) (hr : g.analyze.outcome = .ok r)
    (ofToken : Token → V) : ((Parser.mk g r.table).engine ofToken).RunsOn g where
  wf := wf
  fit := hfit
  table := ⟨r, hr, rfl⟩
  lhs _ := rfl
  arity _ := rfl

theorem runsOn_engine (hg : g.Defined) (hfit : g.CodesFit) (hr : g.analyze.outcome = .ok r)
    (ofToken : Token → V) : ((Parser.mk g r.table).engine ofToken).RunsOn g :=
  runsOn_of_wellFormed hg.wellFormed hfit hr ofToken

/-- **Soundness.** If a parser on the table of its grammar returns a value, under whatever policy the
table was made, then it has stopped at a token `$eof`, and the value is that of a parse tree of the
start symbol whose leaves are the tokens from where it began up to there. Rule numbers and lengths
are such that the codes of items do not overflow. -/
theorem parse_sound (hg : g.Defined) (hfit : g.CodesFit) (hr : g.analyze.outcome = .ok r)
    (ofToken : Token → V) (stream : TokenStream) {fuel : Nat} {v : V} {m : Machine V}
    (h : (Parser.mk g r.table).parse? ofToken fuel stream = some (.ok v, m)) :
    m.stream.tokens = stream.tokens ∧ stream.position ≤ m.stream.position ∧
      m.stream.current.kind = Token.eofKind ∧
      ∃ tree, g.Derives (.nonterminal g.start) tree ∧
        tree.leaves = (stream.tokens.extract stream.position m.stream.position).toList ∧
        tree.eval g.reduce ofToken = v := by
  cases (Engine.run_cases (runsOn_engine hg hfit hr ofToken) h).2 with
  | accept h => exact h

theorem brackets_sound :
    ∃ m, (Parser.mk Grammar.brackets bracketSynthesis.table).parse? (fun _ => 0) 20
        (.ofTokens (spelled ["(", "(", ")", ")"])) = some (.ok 2, m) ∧
      ∃ tree, Grammar.brackets.Derives (.nonterminal Grammar.brackets.start) tree ∧
        tree.leaves = (spelled ["(", "(", ")", ")"]).toList ∧
        tree.eval Grammar.brackets.reduce (fun _ => 0) = 2 := by
  have hrun : ((Parser.mk Grammar.brackets bracketSynthesis.table).parse? (fun _ => 0) 20
      (.ofTokens (spelled ["(", "(", ")", ")"]))).map
        (fun p => (p.1.toOption, p.2.stream.position)) = some (some 2, 4) := by
    decide +kernel
  obtain ⟨⟨result, m⟩, hm, hresult⟩ := Option.map_eq_some_iff.1 hrun
  cases result with
  | error error => cases hresult
  | ok v =>
    obtain ⟨rfl, hpos⟩ : v = 2 ∧ m.stream.position = 4 := by
      simpa [Except.toOption] using hresult
    obtain ⟨-, -, -, tree, htree, hleaves, hvalue⟩ := parse_sound Grammar.brackets_defined
      Grammar.brackets_codesFit brackets_analyzed (fun _ => 0) _ hm
    refine ⟨m, hm, tree, htree, ?_, hvalue⟩
    rw [hleaves, hpos]
    decide +kernel

/-- **Safety.** A parser on the table of its grammar, under whatever policy the table was made, fails
on a list of tokens only with an unexpected token. In no step on the way does it shift `$eof` or move
beyond the end of the stream. -/
theorem parse_safe (hg : g.Defined) (hfit : g.CodesFit) (hr : g.analyze.outcome = .ok r)
    (ofToken : Token → V) (tokens : Array Token) :
    (∀ m p, ((Parser.mk g r.table).engine ofToken).Reaches (.initial (.ofTokens tokens)) m →
      r.table.action? (Machine.topState m.stack) m.stream.current.kind = some (.shift p) →
      m.stream.current.kind ≠ Token.eofKind ∧ ∃ s, m.stream.advance = .ok s) ∧
    ∀ fuel result m,
      (Parser.mk g r.table).parse? ofToken fuel (.ofTokens tokens) = some (result, m) →
      (∃ v, result = .ok v) ∨ result = .error (.unexpectedToken m.stream.current
        (r.table.expected (Machine.topState m.stack))) := by
  have he := runsOn_engine hg hfit hr ofToken
  refine ⟨fun m p hm ha => ?_, fun fuel result m h => ?_⟩
  · have hreads := Engine.reads_of_reaches he hm
    obtain ⟨s, t, hs, hk, hcand⟩ := action?_candidate he.wf hfit hr ha
    have hne : m.stream.current.kind ≠ Token.eofKind := by
      cases hcand with
      | shift hmem => exact hk ▸ he.kind_ne_eof ((mem_edges_iff he.wf hs).1 hmem)
    refine ⟨hne, ?_⟩
    -- the last token of the stream is `$eof`
    rcases m.stream.advance_cases with ⟨s, hs, -⟩ | ⟨-, hlast⟩
    · exact ⟨s, hs⟩
    · exact absurd (TokenStream.kind_of_last hreads.tokens hlast) hne
  · obtain ⟨hreads, hsteps⟩ := Engine.run_cases he h
    cases hsteps with
    | accept h => exact Or.inl ⟨_, rfl⟩
    | unexpected => exact Or.inr rfl
    | endOfStream hne hlast => exact absurd (TokenStream.kind_of_last hreads.tokens hlast) hne

theorem brackets_safe :
    ∃ m, (Parser.mk Grammar.brackets bracketSynthesis.table).parse? (fun _ => 0) 20
        (.ofTokens (spelled ["(", "$eof", ")"])) = some (.error (.unexpectedToken m.stream.current
          (bracketSynthesis.table.expected (Machine.topState m.stack))), m) := by
  have hrun : ((Parser.mk Grammar.brackets bracketSynthesis.table).parse? (fun _ => 0) 20
      (.ofTokens (spelled ["(", "$eof", ")"]))).map (·.1.toOption) = some none := by
    decide +kernel
  obtain ⟨⟨result, m⟩, hm, hresult⟩ := Option.map_eq_some_iff.1 hrun
  obtain ⟨v, rfl⟩ | rfl := (parse_safe Grammar.brackets_defined Grammar.brackets_codesFit
    brackets_analyzed (fun _ => 0) _).2 _ _ _ hm
  · cases hresult
  · exact ⟨m, hm⟩

end Parser

end ParserGen
