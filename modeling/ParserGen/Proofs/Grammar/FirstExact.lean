import Mathlib.Logic.Function.Iterate
import ParserGen.Proofs.Grammar.Derivation
import ParserGen.Proofs.Grammar.FirstSets

/-!
# FIRST sets are exact

Every round adds only what derivations account for, and the sets in which the rounds end are closed
under the rules. So they are the least sets closed under the rules, and a terminal is in the FIRST set
of a sequence exactly if the sequence yields a string that begins with it.

* `Sound.round`: a round keeps to what derivations account for.
* `contains_epsilon_iff`, `contains_terminal_iff`: **what is in the FIRST set of a sequence.**
* `first_sets_exact`: the same in terms of derivations, with the end of the rounds.
-/

namespace ParserGen

variable {V : Type} {g : Grammar V}

namespace FirstSets

/-- Derivations account for the members of all sets. -/
structure Sound (g : Grammar V) (f : FirstSets) : Prop where
  vanishes : ∀ {n : Nat}, (f.ofNonterminal n).contains Terminal.epsilon = true →
    g.Vanishes [.nonterminal n]
  starts : ∀ {n t : Nat}, t ≠ Terminal.epsilon → (f.ofNonterminal n).contains t = true →
    g.Starts t [.nonterminal n]

section Sequence

variable {f : FirstSets} {xs : List Symbol}

theorem Sound.vanishes_sequence (hf : Sound g f) (hx : .terminal Terminal.epsilon ∉ xs)
    (h : (f.ofSequence xs).contains Terminal.epsilon = true) : g.Vanishes xs := by
  induction xs with
  | nil => exact .nil
  | cons x rest ih =>
    obtain ⟨hne, hrest⟩ := not_or.1 (mt List.mem_cons.2 hx)
    cases x with
    | terminal t =>
      rw [ofSequence, IndexSet.contains_singleton, decide_eq_true_eq] at h
      exact absurd (congrArg Symbol.terminal h.symm) hne
    | nonterminal n =>
      rcases contains_ofSequence_cons.1 h with ⟨hne, -⟩ | ⟨hn, h⟩
      · exact absurd rfl hne
      · exact Grammar.vanishes_cons.2 ⟨hf.vanishes hn, ih hrest h⟩

theorem Sound.starts_sequence (hf : Sound g f) {t : Nat} (ht : t ≠ Terminal.epsilon)
    (h : (f.ofSequence xs).contains t = true) : g.Starts t xs := by
  induction xs with
  | nil =>
    rw [ofSequence, IndexSet.contains_singleton, decide_eq_true_eq] at h
    exact absurd h.symm ht
  | cons x rest ih =>
    cases x with
    | terminal u =>
      rw [ofSequence, IndexSet.contains_singleton, decide_eq_true_eq] at h
      rw [h]
      exact .terminal rest
    | nonterminal n =>
      refine Grammar.starts_cons.2 ?_
      rcases contains_ofSequence_cons.1 h with ⟨-, h⟩ | ⟨hn, h⟩
      · exact Or.inl (hf.starts ht h)
      · exact Or.inr ⟨hf.vanishes hn, ih h⟩

end Sequence

/-- No rule has `$epsilon` on its right side. -/
theorem epsilon_not_mem (wf : g.WellFormed) {k : Nat} {r : Rule V} (hr : g.rules[k]? = some r) :
    .terminal Terminal.epsilon ∉ r.symbols := fun h =>
  absurd (wf.terminal hr h).1 (by decide)

theorem Sound.visit (wf : g.WellFormed) {f : FirstSets} (hf : Sound g f) {k : Nat} {r : Rule V}
    (hr : g.rules[k]? = some r) : Sound g (f.visit r) where
  vanishes := by
    intro n h
    rcases (at_visit f r n _).1 h with h | ⟨rfl, -, h⟩
    · exact hf.vanishes h
    · exact .cons hr (hf.vanishes_sequence (epsilon_not_mem wf hr) h) .nil
  starts := by
    intro n t ht h
    rcases (at_visit f r n t).1 h with h | ⟨rfl, -, h⟩
    · exact hf.starts ht h
    · exact .opened hr (hf.starts_sequence ht h)

/-- **A round keeps to what derivations account for.** -/
theorem Sound.round (wf : g.WellFormed) {f : FirstSets} (hf : Sound g f) :
    Sound g (FirstSets.round g f) :=
  round_induction (fun hr hf => hf.visit wf hr) hf

/-- The sets before the first round. -/
def initial (g : Grammar V) : FirstSets :=
  ⟨Array.replicate g.nonterminals.size ∅⟩

theorem sound_initial (g : Grammar V) : Sound g (initial g) := by
  have hnone : ∀ n i, ((initial g).ofNonterminal n).contains i = false := by
    intro n i
    by_cases hn : n < g.nonterminals.size <;> simp [ofNonterminal, initial, hn]
  refine ⟨fun {n} h => ?_, fun {n t} _ h => ?_⟩
  · rw [hnone] at h
    cases h
  · rw [hnone] at h
    cases h

/-- Saturating is some number of rounds, each of which changes something. -/
theorem saturate_eq_iterate (fuel : Nat) (f : FirstSets) :
    ∃ rounds, saturate g fuel f = (round g)^[rounds] f ∧
      ∀ j < rounds, (round g)^[j + 1] f ≠ (round g)^[j] f := by
  induction fuel generalizing f with
  | zero => exact ⟨0, rfl, by simp⟩
  | succ fuel ih =>
    unfold saturate
    simp only
    split
    · exact ⟨0, rfl, by simp⟩
    · rename_i hne
      obtain ⟨rounds, hsat, hchange⟩ := ih (round g f)
      refine ⟨rounds + 1, hsat, fun j hj => ?_⟩
      cases j with
      | zero => exact hne
      | succ j => exact hchange j (by omega)

theorem sound_compute (wf : g.WellFormed) : Sound g (compute g) := by
  obtain ⟨rounds, hrounds, -⟩ :=
    saturate_eq_iterate (g.nonterminals.size * g.terminals.size + 1) (initial g)
  show Sound g (saturate g _ (initial g))
  rw [hrounds]
  clear hrounds
  induction rounds with
  | zero => exact sound_initial g
  | succ rounds ih =>
    rw [Function.iterate_succ_apply']
    exact ih.round wf

theorem contains_of_vanishes (wf : g.WellFormed) {xs : List Symbol} (h : g.Vanishes xs) :
    ((compute g).ofSequence xs).contains Terminal.epsilon = true := by
  induction h with
  | nil => simp [ofSequence]
  | cons hr _ _ ih ihrest =>
    exact contains_ofSequence_cons.2 (Or.inr ⟨ofNonterminal_of_rule wf hr ih, ihrest⟩)

theorem contains_of_starts (wf : g.WellFormed) {t : Nat} (ht : t ≠ Terminal.epsilon)
    {xs : List Symbol} (h : g.Starts t xs) : ((compute g).ofSequence xs).contains t = true := by
  induction h with
  | terminal rest => simp [ofSequence]
  | opened hr _ ih =>
    exact contains_ofSequence_cons.2 (Or.inl ⟨ht, ofNonterminal_of_rule wf hr ih⟩)
  | skipped hr hv _ ih =>
    have hn := ofNonterminal_of_rule wf hr (contains_of_vanishes wf hv)
    exact contains_ofSequence_cons.2 (Or.inr ⟨hn, ih⟩)

/-- **`$epsilon` is in the FIRST set of a sequence exactly if the sequence vanishes.** -/
theorem contains_epsilon_iff (wf : g.WellFormed) {xs : List Symbol}
    (hx : .terminal Terminal.epsilon ∉ xs) :
    ((compute g).ofSequence xs).contains Terminal.epsilon = true ↔ g.Vanishes xs :=
  ⟨(sound_compute wf).vanishes_sequence hx, contains_of_vanishes wf⟩

/-- **A terminal is in the FIRST set of a sequence exactly if the sequence starts with it.** -/
theorem contains_terminal_iff (wf : g.WellFormed) {t : Nat} (ht : t ≠ Terminal.epsilon)
    {xs : List Symbol} : ((compute g).ofSequence xs).contains t = true ↔ g.Starts t xs :=
  ⟨(sound_compute wf).starts_sequence ht, contains_of_starts wf ht⟩

theorem contains_ofSymbol (f : FirstSets) (x : Symbol) (i : Nat) :
    (f.ofSymbol x).contains i = true ↔ (f.ofSequence [x]).contains i = true := by
  cases x with
  | terminal t => rfl
  | nonterminal n =>
    rw [contains_ofSequence_cons]
    simp only [ofSymbol, ofSequence, IndexSet.contains_singleton, decide_eq_true_eq]
    constructor
    · intro h
      by_cases hi : i = Terminal.epsilon
      · exact Or.inr ⟨hi ▸ h, hi.symm⟩
      · exact Or.inl ⟨hi, h⟩
    · rintro (⟨-, h⟩ | ⟨h, rfl⟩)
      · exact h
      · exact h

/-- The rounds come to an end: some number of rounds that each change something is followed by one
that changes nothing, and the sets then are the result. -/
def RoundsEnd (g : Grammar V) : Prop :=
  ∃ rounds, compute g = (round g)^[rounds] (initial g) ∧
    (∀ j < rounds, (round g)^[j + 1] (initial g) ≠ (round g)^[j] (initial g)) ∧
    (round g)^[rounds + 1] (initial g) = (round g)^[rounds] (initial g)

theorem rounds_end (wf : g.WellFormed) : RoundsEnd g := by
  obtain ⟨rounds, hsat, hchange⟩ :=
    saturate_eq_iterate (g.nonterminals.size * g.terminals.size + 1) (initial g)
  have hcompute : compute g = (round g)^[rounds] (initial g) := hsat
  refine ⟨rounds, hcompute, hchange, ?_⟩
  rw [Function.iterate_succ_apply', ← hcompute]
  exact round_compute wf

end FirstSets

/-- The set holds the terminals with which the strings begin that are derived from `xs`, and
`$epsilon` if the empty string is derived from `xs`. -/
structure Grammar.IsFirst (g : Grammar V) (xs : List Symbol) (s : TerminalSet) : Prop where
  terminal : ∀ t, t ≠ Terminal.epsilon →
    (s.contains t = true ↔ ∃ rest, g.Yields xs (.terminal t :: rest))
  epsilon : s.contains Terminal.epsilon = true ↔ g.Yields xs []

theorem isFirst_ofSequence (wf : g.WellFormed) {xs : List Symbol}
    (hx : .terminal Terminal.epsilon ∉ xs) :
    g.IsFirst xs ((FirstSets.compute g).ofSequence xs) where
  terminal _ ht := (FirstSets.contains_terminal_iff wf ht).trans Grammar.starts_iff
  epsilon := (FirstSets.contains_epsilon_iff wf hx).trans Grammar.vanishes_iff

/-- **FIRST sets are exact.** For every grammar the rounds come to an end, and their result has, for
each sequence of symbols without `$epsilon` and for each single symbol, exactly the terminals with
which the strings begin that are derived from it, and `$epsilon` exactly if it derives the empty
string. -/
theorem first_sets_exact (hg : g.Defined) :
    FirstSets.RoundsEnd g ∧
    (∀ xs, .terminal Terminal.epsilon ∉ xs → g.IsFirst xs ((FirstSets.compute g).ofSequence xs)) ∧
    ∀ x, x ≠ .terminal Terminal.epsilon → g.IsFirst [x] ((FirstSets.compute g).ofSymbol x) := by
  have wf := hg.wellFormed
  refine ⟨FirstSets.rounds_end wf, fun xs hx => isFirst_ofSequence wf hx, fun x hx => ?_⟩
  have hnot : .terminal Terminal.epsilon ∉ [x] := fun h => hx (List.mem_singleton.1 h).symm
  have hfirst := isFirst_ofSequence wf hnot
  exact ⟨fun t ht => (FirstSets.contains_ofSymbol _ x t).trans (hfirst.terminal t ht),
    (FirstSets.contains_ofSymbol _ x _).trans hfirst.epsilon⟩

/-- Behind nested brackets, which can be empty, stands a closing bracket. -/
theorem brackets_first :
    let after : List Symbol := [.nonterminal Grammar.brackets.start, .terminal 3]
    Grammar.brackets.terminalName 3 = ")" ∧
      (∃ rest, Grammar.brackets.Yields after (.terminal 3 :: rest)) ∧
      Grammar.brackets.Yields [.nonterminal Grammar.brackets.start] [] ∧
      ¬ Grammar.brackets.Yields after [] := by
  intro after
  obtain ⟨-, hsequence, hsymbol⟩ := first_sets_exact Grammar.brackets_defined
  have hafter := hsequence after (by decide +kernel)
  have hstart := hsymbol (.nonterminal Grammar.brackets.start) (by decide +kernel)
  refine ⟨by decide +kernel, (hafter.terminal 3 (by decide)).1 (by decide +kernel),
    hstart.epsilon.1 (by decide +kernel), fun h => ?_⟩
  exact absurd (hafter.epsilon.2 h) (by decide +kernel)

end ParserGen
