import ParserGen.Proofs.Automaton.Reduction
import ParserGen.Proofs.Engine.Completeness

/-!
# A parser without settled conflicts comes to an end

A step of the engine ends the run, shifts a token, or reduces the word on the stack. There are only so
many tokens to shift, and between two shifts the token is the same: there the reductions end.

* `progress_step`: what one step brings closer to an end.
* `exists_end`: **every machine of a run comes to an end.**
* `parse_terminates`: **a parser without settled conflicts ends on every stream.**
-/

namespace ParserGen

variable {V W : Type} {g : Grammar V} {e : Engine W}

/-- The word is reduced on the terminal of a kind. -/
def Grammar.ReducesOn (g : Grammar V) (kind : String) (w w' : List Symbol) : Prop :=
  ∃ t, kind = g.terminalName t ∧ g.Reduces t w w'

/-- A kind is that of one terminal, or there are no reductions on it. -/
theorem Grammar.wellFounded_reducesOn (wf : g.WellFormed) (hfit : g.CodesFit)
    (hcf : g.ConflictFree) (kind : String) : WellFounded fun w' w => g.ReducesOn kind w w' := by
  by_cases hkind : ∃ t < g.terminals.size, kind = g.terminalName t
  · obtain ⟨t, ht, rfl⟩ := hkind
    refine Subrelation.wf ?_ (wellFounded_reduces (t := t) wf hfit hcf)
    rintro w' w ⟨u, hu, h⟩
    rwa [terminalName_inj wf ht hu]
  · refine ⟨fun w => .intro w ?_⟩
    rintro w' ⟨t, ht, h⟩
    exact absurd ⟨t, h.lt_size wf, ht⟩ hkind

namespace Engine

theorem Decided.conflictFree (hd : e.Decided g) : g.ConflictFree := by
  intro q t s a b hs ht ha hb
  exact Option.some.inj ((hd hs ht ha).symm.trans (hd hs ht hb))

/-- The run comes to an end, from the machine on. -/
def Ends (e : Engine W) (m : Machine W) : Prop :=
  ∃ n result m', e.Reaches m n ∧ e.step n = .done result m'

theorem Ends.of_step {m m' : Machine W} (hstep : e.step m = .next m') (h : e.Ends m') : e.Ends m := by
  obtain ⟨n, result, m'', hreach, hdone⟩ := h
  exact ⟨n, result, m'', .head hstep hreach, hdone⟩

/-- What a step brings closer to an end: it ends the run, or shifts a token, or reduces the word on
the stack. -/
inductive Progress (e : Engine W) (g : Grammar V) (m : Machine W) (w : List Symbol) : Step W → Prop
  | done {result : Except ParseError W} {m' : Machine W} : Progress e g m w (.done result m')
  | shift {m' : Machine W} {w' : List Symbol} {trees : List ParseTree}
      (hstack : Stacked g e m'.stack w' trees) (htokens : m'.stream.tokens = m.stream.tokens)
      (hposition : m'.stream.position = m.stream.position + 1) : Progress e g m w (.next m')
  | reduce {m' : Machine W} {w' : List Symbol} {trees : List ParseTree}
      (hstack : Stacked g e m'.stack w' trees) (hstream : m'.stream = m.stream)
      (hword : g.ReducesOn m.stream.current.kind w.reverse w'.reverse) : Progress e g m w (.next m')

/-- The components of the rule are at the end of the word, and the token is in its lookahead. -/
theorem reducesOn_of_complete {m : Machine W} {w : List Symbol} {trees : List ParseTree} {s : State}
    {i : Item} {la : TerminalSet} {r : Rule V} {t : Nat} (hstack : Stacked g e m.stack w trees)
    (hk : m.stream.current.kind = g.terminalName t)
    (hs : g.automaton.states[Machine.topState m.stack]? = some s) (hi : (i, la) ∈ s.items)
    (h0 : i.rule ≠ 0) (hc : g.isComplete i = true) (hla : la.contains t = true)
    (hr : g.rules[i.rule]? = some r) (hword : (w.take r.length).reverse = r.symbols) :
    g.ReducesOn m.stream.current.kind w.reverse (.nonterminal r.left :: w.drop r.length).reverse := by
  have hsplit : w.reverse = (w.drop r.length).reverse ++ r.symbols := by
    rw [← hword, ← List.reverse_append, List.take_append_drop]
  have hdot : i.dot = r.symbols.length := by
    simpa [Grammar.isComplete, Grammar.ruleLength, Grammar.symbolsOf_eq hr] using hc
  have hlook : g.StateLookahead w.reverse ⟨i.rule, r.symbols.length⟩ t :=
    ⟨_, hstack.walk, s, la, hs, hdot ▸ hi, hla⟩
  refine ⟨t, hk, ?_⟩
  rw [hsplit] at hlook
  rw [List.reverse_cons, hsplit]
  exact .rule _ hr h0 hlook

/-- **Every step makes progress.** -/
theorem progress_step (he : e.RunsOn g) {m : Machine W} {w : List Symbol} {trees : List ParseTree}
    (hstack : Stacked g e m.stack w trees) : e.Progress g m w (e.step m) := by
  obtain ⟨y, hy, htable⟩ := he.table
  cases hstep : e.step m with
  | done result m' => exact .done
  | next m' =>
    rcases step_next_cases hstep with ⟨p, stream, ha, hadvance, rfl⟩ | ⟨k, ha, hreduce⟩
    · rw [htable] at ha
      obtain ⟨s, t, hs, hk, hcand⟩ := action?_candidate he.wf he.fit hy ha
      cases hcand with
      | shift hmem =>
        have hp := (mem_edges_iff he.wf hs).1 hmem
        obtain ⟨htokens, hposition⟩ := TokenStream.advance_eq_ok_iff.1 hadvance
        exact .shift (hstack.cons hp (.leaf hk)) htokens hposition
    · rw [htable] at ha
      obtain ⟨s, t, hs, hk, hcand⟩ := action?_candidate he.wf he.fit hy ha
      cases hcand with
      | reduce hi h0 hc hla =>
        obtain ⟨r, frame, hr, hword, hnext, hstack'⟩ :=
          hstack.reduce he hs (List.mem_map.2 ⟨_, hi, rfl⟩) h0 hc
        rw [hreduce] at hnext
        cases hnext
        exact .reduce hstack' rfl (reducesOn_of_complete hstack hk hs hi h0 hc hla hr hword)

/-- A run ends if it does after every shift of the current token: in between the word on the stack is
reduced, on a kind of token that stays the same. -/
theorem ends_of_shift (he : e.RunsOn g) (hd : e.Decided g) {stream : TokenStream}
    (hshift : ∀ (m : Machine W) (w : List Symbol) (trees : List ParseTree),
      Stacked g e m.stack w trees → m.stream.tokens = stream.tokens →
      m.stream.position = stream.position + 1 → e.Ends m)
    (word : List Symbol) {m : Machine W} {w : List Symbol} {trees : List ParseTree}
    (hstack : Stacked g e m.stack w trees) (hstream : m.stream = stream)
    (hword : w.reverse = word) : e.Ends m := by
  have hwf := Grammar.wellFounded_reducesOn he.wf he.fit hd.conflictFree stream.current.kind
  induction word using hwf.induction generalizing m w trees with
  | _ word ih =>
    subst hword
    have hstep := progress_step he hstack
    cases hnext : e.step m with
    | done result m' => exact ⟨m, result, m', .refl, hnext⟩
    | next m' =>
      rw [hnext] at hstep
      refine .of_step hnext ?_
      cases hstep with
      | shift hstack' htokens hpos =>
        rw [hstream] at htokens hpos
        exact hshift m' _ _ hstack' htokens hpos
      | reduce hstack' hsame hred =>
        rw [hstream] at hsame hred
        exact ih _ hred hstack' hsame rfl

/-- **Every machine of a run comes to an end.** The induction is on the tokens that are left. -/
theorem exists_end (he : e.RunsOn g) (hd : e.Decided g) {m : Machine W} {w : List Symbol}
    {trees : List ParseTree} (hstack : Stacked g e m.stack w trees) : e.Ends m := by
  generalize hleft : m.stream.tokens.size - m.stream.position = left
  induction left using Nat.strong_induction_on generalizing m w trees with
  | _ left ih =>
    refine ends_of_shift he hd (fun m' w' trees' hstack' htokens hpos => ?_) w.reverse hstack rfl rfl
    refine ih _ ?_ hstack' rfl
    have hlt := m.stream.position_lt
    rw [htokens, hpos]
    omega

end Engine

section Parser

variable {r : Synthesis} [Inhabited V]

/-- **Termination.** Let the analysis of a grammar succeed without a settled conflict. Then on every
stream the parser comes to an end after some number of steps, with a value or an error. Rule numbers
and lengths are such that the codes of items do not overflow. -/
theorem parse_terminates (hg : g.Defined) (hfit : g.CodesFit) (hr : g.analyze.outcome = .ok r)
    (hclean : r.resolved = #[]) (ofToken : Token → V) (stream : TokenStream) :
    ∃ steps result m, ∀ fuel, steps ≤ fuel →
      (Parser.mk g r.table).parse? ofToken fuel stream = some (result, m) := by
  have he := runsOn_engine hg hfit hr ofToken
  have hd := decided_of_unresolved he hr hclean rfl
  obtain ⟨n, result, m, hreach, hdone⟩ := Engine.exists_end he hd (m := .initial stream) .nil
  obtain ⟨steps, hrun⟩ := Engine.run_of_reaches hreach hdone
  exact ⟨steps, result, m, hrun⟩

end Parser

/-- An empty rule, a nonterminal `U` that derives no tokens, and a nonterminal `B` that nothing uses. -/
def unproductiveCalls : List (Call Nat) :=
  [.rule "S" ["A", "U"], .rule "S" ["A"], .rule "A" [], .rule "U" ["x", "U"], .rule "B" ["x"],
    .start "S"]

/-- The grammar `S → A U`, `S → A`, `A →`, `U → x U`, `B → x`. -/
def Grammar.unproductive : Grammar Nat :=
  (Grammar.define (unproductiveCalls.forM Call.attempt)).toOption.get (by decide +kernel)

theorem Grammar.unproductive_codesFit : Grammar.unproductive.CodesFit := by
  unfold Grammar.CodesFit
  decide +kernel

/-- The table of this grammar. -/
def unproductiveSynthesis : Synthesis :=
  Grammar.unproductive.analyze.outcome.toOption.get (by decide +kernel)

/-- The parser ends on a text that begins no sentence. -/
theorem unproductive_terminates : unproductiveSynthesis.resolved = #[] ∧
    ∃ steps result m, ∀ fuel, steps ≤ fuel →
      (Parser.mk Grammar.unproductive unproductiveSynthesis.table).parse? (fun _ => 0) fuel
        (.ofTokens (spelled ["x", "x", "x"])) = some (result, m) := by
  have hclean : unproductiveSynthesis.resolved = #[] := by decide +kernel
  exact ⟨hclean, parse_terminates ⟨unproductiveCalls, eq_ok_get _ _⟩ Grammar.unproductive_codesFit
    (eq_ok_get _ _) hclean (fun _ => 0) _⟩

end ParserGen
