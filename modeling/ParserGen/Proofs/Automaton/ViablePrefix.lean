import ParserGen.Proofs.Automaton.PathLookahead

/-!
# Viable prefixes

A word that leads to a state of the automaton is the beginning of a string that the start symbol
yields: each item of the state stands for a rule that has been entered in such a string, with the
symbols before its dot at the end of the word.

* `exists_yields_of_hasItem`: what an item says about the strings of the start symbol.
* `exists_yields_of_walk`: **every word to a state can be completed to a string of the start symbol.**
* `Viable`, `IsSentence`: the kinds of token with which such strings begin, and those of whole
  sentences.
-/

namespace ParserGen

namespace Grammar

variable {V : Type} {g : Grammar V} {w : List Symbol}

/-- **An item stands for a rule in a string of the start symbol**: the word ends with the symbols
before the dot, and the rule's symbols may stand there. -/
theorem exists_yields_of_hasItem (wf : g.WellFormed) (hfit : g.CodesFit) {i : Item}
    (h : g.HasItem w i) :
    ∃ v r rest, g.rules[i.rule]? = some r ∧ w = v ++ r.symbols.take i.dot ∧
      g.Yields [.nonterminal g.start] (v ++ r.symbols ++ rest) := by
  refine h.induction wf hfit (P := fun w i => ∃ v r rest, g.rules[i.rule]? = some r ∧
    w = v ++ r.symbols.take i.dot ∧ g.Yields [.nonterminal g.start] (v ++ r.symbols ++ rest)) ?_ ?_ ?_
  · -- the start rule is the start symbol alone
    obtain ⟨r, hr, -, hsymbols⟩ := wf.startRule
    refine ⟨[], r, [], hr, rfl, ?_⟩
    rw [hsymbols]
    exact .refl
  · rintro w i x - hx ⟨v, r, rest, hr, hw, hy⟩
    refine ⟨v, r, rest, hr, ?_, hy⟩
    rw [hw, List.append_assoc, take_advance hr hx]
    rfl
  · -- the rule takes the place of the nonterminal after the dot
    rintro w i n k r - hx hr hl ⟨v, r₀, rest, hr₀, hw, hy⟩
    refine ⟨w, r, g.symbolsBehind i ++ rest, hr, by simp, ?_⟩
    rw [symbols_split hr₀ hx, ← hl, ← List.append_assoc, ← hw, List.append_assoc,
      List.cons_append] at hy
    rw [List.append_assoc]
    exact hy.trans (Yields.of_rule hr w _)

/-- The state to which a word leads has an item. -/
theorem exists_hasItem_of_walk (wf : g.WellFormed) (hfit : g.CodesFit) {q : Nat}
    (h : g.automaton.walk? w = some q) : ∃ i, g.HasItem w i := by
  have hcan := canonical_automaton wf hfit
  rcases List.eq_nil_or_concat w with rfl | ⟨w, x, rfl⟩
  · obtain ⟨s, hs, hkernel⟩ := hcan.initial
    have hmem : Item.start ∈ s.coreKernel := hkernel ▸ List.mem_singleton_self _
    exact ⟨Item.start, 0, s, rfl, hs, (hcan.mem_core hs _).2 (.kernel hmem)⟩
  · rw [List.concat_eq_append] at h ⊢
    obtain ⟨p, hw, hp⟩ := Automaton.walk?_concat h
    obtain ⟨s, hs, i, hi, hx⟩ := hcan.transition_iff.1 ⟨q, hp⟩
    have hitem : g.HasItem w i := ⟨p, s, hw, hs, hi⟩
    exact ⟨i.advance, hitem.advance wf hfit hx⟩

/-- **Every word to a state can be completed to a string of the start symbol.** -/
theorem exists_yields_of_walk (wf : g.WellFormed) (hfit : g.CodesFit) {q : Nat}
    (h : g.automaton.walk? w = some q) :
    ∃ rest, g.Yields [.nonterminal g.start] (w ++ rest) := by
  obtain ⟨i, hi⟩ := exists_hasItem_of_walk wf hfit h
  obtain ⟨v, r, rest, -, hw, hy⟩ := exists_yields_of_hasItem wf hfit hi
  refine ⟨r.symbols.drop i.dot ++ rest, ?_⟩
  rw [hw, List.append_assoc, ← List.append_assoc (r.symbols.take i.dot), List.take_append_drop,
    ← List.append_assoc]
  exact hy

/-- A string that the start symbol yields begins with terminals of these kinds. -/
def Viable (g : Grammar V) (kinds : List String) : Prop :=
  ∃ (ts : List Nat) (rest : List Symbol), kinds = ts.map g.terminalName ∧
    g.Yields [.nonterminal g.start] (ts.map .terminal ++ rest)

/-- The start symbol yields terminals of these kinds. -/
def IsSentence (g : Grammar V) (kinds : List String) : Prop :=
  ∃ ts : List Nat, kinds = ts.map g.terminalName ∧
    g.Yields [.nonterminal g.start] (ts.map .terminal)

/-- What the symbols of a word to a state derive is viable. -/
theorem viable_of_walk (wf : g.WellFormed) (hfit : g.CodesFit) {q : Nat} {trees : List ParseTree}
    (h : g.automaton.walk? w = some q) (htrees : g.DerivesAll w trees) :
    g.Viable ((ParseTree.leavesAll trees).map (·.kind)) := by
  obtain ⟨rest, hy⟩ := exists_yields_of_walk wf hfit h
  obtain ⟨ts, hts, hword⟩ := htrees.yields
  exact ⟨ts, rest, hts, hy.trans (hword.append_right rest)⟩

end Grammar

end ParserGen
