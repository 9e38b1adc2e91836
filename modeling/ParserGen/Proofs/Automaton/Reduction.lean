import Mathlib.Order.WellFoundedSet
import ParserGen.Proofs.Automaton.PathLookahead
import ParserGen.Proofs.Table.Cells

/-!
# Reductions come to an end

The symbols on the stack of the engine are a word that leads to the state on top. On one terminal,
a reduction takes the components of a rule from the end of the word and puts the left side there. A
rule without components makes the word longer and one with a single component leaves it as long, so
that no number goes down along the way. Still there is no reduction without end if the states propose
one action only on each terminal.

Along a word on which the terminal follows an item the reductions end: either the terminal is read, or
the rule of the item is reduced to give way to a rule above that the terminal follows too, up to the
start rule. Now a state has its lookahead from any word that leads to it. But reductions that leave a
word alone, and only change what has been put on top of it, are the same for all words to one state; so
on top of a word they end. If instead they go into the word they make it shorter, or they take its last
symbol to another one. They do not come back to the same symbol: the rules of such a cycle would open
each other along one word, and the reductions along that word would have no end.

* `Reduces`: one reduction on a terminal.
* `PathLookahead.endsAbove`: along a word on which the terminal follows an item, reductions end.
* `reductionsEnd_of_leave`: on top of a word, reductions end.
* `acyclic_risesTo`: no symbol is taken to itself.
* `wellFounded_reduces`: **reductions end.**
-/

namespace ParserGen

variable {V : Type} {g : Grammar V}

theorem Automaton.walk?_append_congr {a : Automaton} {v w : List Symbol} (h : a.walk? v = a.walk? w)
    (u : List Symbol) : a.walk? (v ++ u) = a.walk? (w ++ u) := by
  unfold Automaton.walk? at h ⊢
  rw [List.foldlM_append, List.foldlM_append, h]

namespace Grammar

/-- The states propose at most one action on each terminal. -/
def ConflictFree (g : Grammar V) : Prop :=
  ∀ ⦃q t : Nat⦄ ⦃s : State⦄ ⦃a b : Action⦄, g.automaton.states[q]? = some s → t < g.terminals.size →
    s.Candidate g t a → s.Candidate g t b → a = b

/-- The state to which the word leads proposes the action on the terminal `t`. -/
def Proposes (g : Grammar V) (w : List Symbol) (t : Nat) (a : Action) : Prop :=
  ∃ q s, g.automaton.walk? w = some q ∧ g.automaton.states[q]? = some s ∧ s.Candidate g t a

theorem ConflictFree.unique (hcf : g.ConflictFree) {w : List Symbol} {t : Nat} {a b : Action}
    (ht : t < g.terminals.size) (ha : g.Proposes w t a) (hb : g.Proposes w t b) : a = b := by
  obtain ⟨q, s, hw, hs, ha⟩ := ha
  obtain ⟨q', s', hw', hs', hb⟩ := hb
  rw [hw] at hw'
  cases hw'
  rw [hs] at hs'
  cases hs'
  exact hcf hs ht ha hb

/-- The terminal `t` is in the lookahead of the item in the state to which the word leads. -/
def StateLookahead (g : Grammar V) (w : List Symbol) (i : Item) (t : Nat) : Prop :=
  ∃ q, g.automaton.walk? w = some q ∧ g.LooksAhead q i t

/-- On the terminal `t` a rule is reduced at the end of the word. -/
inductive Reduces (g : Grammar V) (t : Nat) : List Symbol → List Symbol → Prop where
  | rule {k : Nat} {r : Rule V} (v : List Symbol) (hr : g.rules[k]? = some r) (h0 : k ≠ 0)
      (h : g.StateLookahead (v ++ r.symbols) ⟨k, r.symbols.length⟩ t) :
      Reduces g t (v ++ r.symbols) (v ++ [.nonterminal r.left])

/-- Reductions on the terminal `t` end, from the word on. -/
def ReductionsEnd (g : Grammar V) (t : Nat) : List Symbol → Prop :=
  Acc fun w' w => g.Reduces t w w'

/-- A rule that is opened is not the start rule. -/
theorem ne_zero_of_opened (wf : g.WellFormed) {i : Item} {n k : Nat} {r : Rule V}
    (hx : g.symbolAfterDot i = some (.nonterminal n)) (hr : g.rules[k]? = some r)
    (hl : r.left = n) : k ≠ 0 := by
  rintro rfl
  obtain ⟨r', hr', hleft, -⟩ := wf.startRule
  rw [hr] at hr'
  cases hr'
  obtain ⟨r₀, hr₀, hm⟩ := symbolAfterDot_cases hx
  exact (wf.nonterminal hr₀ (List.mem_of_getElem? hm)).1 (hl ▸ hleft)

section Lookahead

variable {w : List Symbol} {i : Item} {t n k : Nat} {x : Symbol} {r : Rule V}

theorem StateLookahead.advance (wf : g.WellFormed) (hfit : g.CodesFit) (h : g.StateLookahead w i t)
    (hx : g.symbolAfterDot i = some x) : g.StateLookahead (w ++ [x]) i.advance t := by
  obtain ⟨q, hw, hla⟩ := h
  obtain ⟨p, hp⟩ := hla.exists_transition (canonical_automaton wf hfit) hx
  exact ⟨p, (Automaton.walk?_append hw x).trans hp, looksAhead_advance wf hfit hx hp hla⟩

theorem StateLookahead.opened (wf : g.WellFormed) (h : g.StateLookahead w i t)
    (hx : g.symbolAfterDot i = some (.nonterminal n)) (hr : g.rules[k]? = some r) (hl : r.left = n)
    (hv : g.Vanishes (g.symbolsBehind i)) : g.StateLookahead w ⟨k, 0⟩ t := by
  obtain ⟨q, hw, hla⟩ := h
  exact ⟨q, hw, looksAhead_nullable wf hx hr hl (FirstSets.contains_of_vanishes wf hv) hla⟩

theorem HasItem.stateLookahead (wf : g.WellFormed) (h : g.HasItem w i)
    (hx : g.symbolAfterDot i = some (.nonterminal n)) (hr : g.rules[k]? = some r) (hl : r.left = n)
    (hs : g.Starts t (g.symbolsBehind i)) : g.StateLookahead w ⟨k, 0⟩ t := by
  obtain ⟨q, c, hw, hc, hi⟩ := h.exists_core wf
  obtain ⟨rest, hy⟩ := hs.yields
  obtain ⟨hne, hfirst⟩ := contains_first_of_yields wf hx hy
  exact ⟨q, hw, looksAhead_first wf hc hi hx hr hl hfirst hne⟩

theorem PathLookahead.stateLookahead (wf : g.WellFormed) (h : g.PathLookahead w i t) :
    g.StateLookahead w i t := by
  have hwalk : ∃ q, g.automaton.walk? w = some q := by
    induction h with
    | start => exact ⟨0, rfl⟩
    | advance _ _ hi =>
      obtain ⟨q, -, hw, -⟩ := hi
      exact ⟨q, hw⟩
    | first hi =>
      obtain ⟨q, -, hw, -⟩ := hi
      exact ⟨q, hw⟩
    | nullable _ _ _ _ _ ih => exact ih
  obtain ⟨q, hw⟩ := hwalk
  exact ⟨q, hw, h.looksAhead wf hw⟩

/-- The lookahead comes from some word that leads to the same state. -/
theorem StateLookahead.exists_path (wf : g.WellFormed) (h : g.StateLookahead w i t) :
    ∃ v, g.automaton.walk? v = g.automaton.walk? w ∧ g.PathLookahead v i t := by
  obtain ⟨q, hw, hla⟩ := h
  obtain ⟨v, hv, hpath⟩ := (looksAhead_iff_path wf).1 hla
  exact ⟨v, hv.trans hw.symm, hpath⟩

theorem StateLookahead.lt_size (wf : g.WellFormed) (h : g.StateLookahead w i t) :
    t < g.terminals.size := by
  obtain ⟨v, -, hpath⟩ := h.exists_path wf
  exact (hpath.bounds wf).2

theorem StateLookahead.of_walk_eq {v : List Symbol} (h : g.StateLookahead w i t)
    (hw : g.automaton.walk? v = g.automaton.walk? w) : g.StateLookahead v i t := by
  obtain ⟨q, hq, hla⟩ := h
  exact ⟨q, hw.trans hq, hla⟩

/-- Where a rule is complete, its state proposes to reduce it. -/
theorem StateLookahead.proposes (h : g.StateLookahead w ⟨k, r.symbols.length⟩ t)
    (hr : g.rules[k]? = some r) (h0 : k ≠ 0) : g.Proposes w t (.reduce k) := by
  obtain ⟨q, hw, s, la, hs, hi, ht⟩ := h
  refine ⟨q, s, hw, hs, .reduce hi h0 ?_ ht⟩
  simp [isComplete, ruleLength, symbolsOf_eq hr]

theorem Reduces.exists_proposes {w' : List Symbol} (h : g.Reduces t w w') :
    ∃ k, g.Proposes w t (.reduce k) := by
  obtain ⟨v, hr, h0, h⟩ := h
  exact ⟨_, h.proposes hr h0⟩

theorem Reduces.lt_size (wf : g.WellFormed) {w' : List Symbol} (h : g.Reduces t w w') :
    t < g.terminals.size := by
  obtain ⟨v, hr, h0, h⟩ := h
  exact h.lt_size wf

end Lookahead

section Ends

variable {w : List Symbol} {t : Nat}

/-- On one terminal there is one reduction. -/
theorem Reduces.unique (wf : g.WellFormed) (hcf : g.ConflictFree) {w₁ w₂ : List Symbol}
    (h₁ : g.Reduces t w w₁) (h₂ : g.Reduces t w w₂) : w₁ = w₂ := by
  obtain ⟨v, hr, h0, h⟩ := h₁
  generalize hw : v ++ _ = w at h h₂
  obtain ⟨v', hr', h0', h'⟩ := h₂
  cases hcf.unique (h.lt_size wf) (h.proposes hr h0) (h'.proposes hr' h0')
  rw [hr] at hr'
  cases hr'
  rw [List.append_cancel_right hw]

theorem ReductionsEnd.of_reduces (wf : g.WellFormed) (hcf : g.ConflictFree) {w' : List Symbol}
    (h : Relation.ReflTransGen (g.Reduces t) w w') (hend : g.ReductionsEnd t w') :
    g.ReductionsEnd t w := by
  induction h using Relation.ReflTransGen.head_induction_on with
  | refl => exact hend
  | head hstep _ ih => exact .intro _ fun w₁ h₁ => hstep.unique wf hcf h₁ ▸ ih

/-- Where another action is proposed there is no reduction. -/
theorem ReductionsEnd.of_proposes (wf : g.WellFormed) (hcf : g.ConflictFree) {a : Action}
    (ha : g.Proposes w t a) (hne : ∀ k, a ≠ .reduce k) : g.ReductionsEnd t w := by
  refine .intro _ fun w' hred => ?_
  obtain ⟨k, hk⟩ := hred.exists_proposes
  exact absurd (hcf.unique (hred.lt_size wf) ha hk) (hne k)

/-- A word from which the reductions end is not come back to. -/
theorem ReductionsEnd.not_loop (h : g.ReductionsEnd t w) :
    ¬ Relation.TransGen (g.Reduces t) w w := by
  have hacc : Acc (Relation.TransGen (Function.swap (g.Reduces t))) w := Acc.transGen h
  clear h
  induction hacc with
  | intro w _ ih => exact fun hloop => ih w (Relation.transGen_swap.2 hloop) hloop

end Ends

section Along

variable {w : List Symbol} {k d t : Nat} {r : Rule V}

/-- Once the components of an opened rule are there, the rule is reduced. -/
theorem reduces_opened (hr : g.rules[k]? = some r) (h0 : k ≠ 0)
    (h : Relation.ReflTransGen (g.Reduces t) w (w ++ r.symbols) ∧
      g.StateLookahead (w ++ r.symbols) ⟨k, 0 + r.symbols.length⟩ t) :
    Relation.ReflTransGen (g.Reduces t) w (w ++ [.nonterminal r.left]) := by
  obtain ⟨hcomponents, hcomplete⟩ := h
  rw [Nat.zero_add] at hcomplete
  exact hcomponents.tail (.rule w hr h0 hcomplete)

/-- **What can vanish behind the dot of an item is put there**, rule by rule, if the terminal follows
the item. -/
theorem Vanishes.reduces (wf : g.WellFormed) (hfit : g.CodesFit) {xs : List Symbol}
    (hv : g.Vanishes xs) (hdrop : (g.symbolsOf k).drop d = xs) (h : g.StateLookahead w ⟨k, d⟩ t) :
    Relation.ReflTransGen (g.Reduces t) w (w ++ xs) ∧
      g.StateLookahead (w ++ xs) ⟨k, d + xs.length⟩ t := by
  induction hv generalizing w k d with
  | nil => exact ⟨by rw [List.append_nil], by rwa [List.append_nil]⟩
  | @cons k' r' rest hr _ hrest ih ihrest =>
    have hx := symbolAfterDot_of_drop hdrop
    have hbehind := symbolsBehind_of_drop hdrop
    -- a rule for the next symbol is opened and followed by the same terminal
    have hopened := h.opened wf hx hr rfl (hbehind ▸ hrest)
    have hsymbol := reduces_opened hr (ne_zero_of_opened wf hx hr rfl)
      (ih (d := 0) (symbolsOf_eq hr) hopened)
    obtain ⟨hreach, hend⟩ := ihrest hbehind (h.advance wf hfit hx)
    rw [List.append_assoc] at hreach hend
    have hlen : d + (Symbol.nonterminal r'.left :: rest).length = d + 1 + rest.length := by
      rw [List.length_cons]
      omega
    exact ⟨hsymbol.trans hreach, hlen ▸ hend⟩

/-- **Reductions end before a terminal that can begin behind a dot.** -/
theorem Starts.reductionsEnd (wf : g.WellFormed) (hfit : g.CodesFit) (hcf : g.ConflictFree)
    {xs : List Symbol} (hs : g.Starts t xs) (hdrop : (g.symbolsOf k).drop d = xs)
    (h : g.HasItem w ⟨k, d⟩) : g.ReductionsEnd t w := by
  induction hs generalizing w k d with
  | terminal rest =>
    -- the terminal is shifted
    have hx := symbolAfterDot_of_drop hdrop
    obtain ⟨q, s, hw, hs, hi⟩ := h
    obtain ⟨p, hp⟩ := (canonical_automaton wf hfit).transition_iff.2 ⟨s, hs, _, hi, hx⟩
    exact .of_proposes wf hcf ⟨q, s, hw, hs, .shift ((mem_edges_iff wf hs).2 hp)⟩ (by simp)
  | opened hr _ ih =>
    exact ih (d := 0) (symbolsOf_eq hr) (h.opened wf (symbolAfterDot_of_drop hdrop) hr rfl)
  | skipped hr hv hrest ih =>
    -- the next symbol is put there, and the terminal begins behind it
    have hx := symbolAfterDot_of_drop hdrop
    have hbehind := symbolsBehind_of_drop hdrop
    have hopened := h.stateLookahead wf hx hr rfl (hbehind ▸ hrest)
    have hsymbol := reduces_opened hr (ne_zero_of_opened wf hx hr rfl)
      (hv.reduces wf hfit (d := 0) (symbolsOf_eq hr) hopened)
    exact .of_reduces wf hcf hsymbol (ih hbehind (h.advance wf hfit hx))

/-- The word ends with the symbols before the dot of an item, and in front of them the terminal follows
the rule already; reductions end where the left side takes the place of the rule's symbols, and the
start rule, which is not reduced, is followed by `$eof` only. -/
structure EndsAbove (g : Grammar V) (w : List Symbol) (i : Item) (t : Nat) (v : List Symbol)
    (r : Rule V) : Prop where
  rule : g.rules[i.rule]? = some r
  word : w = v ++ r.symbols.take i.dot
  path : g.PathLookahead v ⟨i.rule, 0⟩ t
  start : i.rule = 0 → t = Terminal.eof
  left : i.rule ≠ 0 → g.ReductionsEnd t (v ++ [.nonterminal r.left])

/-- Where a rule is complete, reductions end if they do after the rule is reduced. -/
theorem EndsAbove.complete (wf : g.WellFormed) (hfit : g.CodesFit) (hcf : g.ConflictFree)
    {v : List Symbol} (h : g.EndsAbove w ⟨k, r.symbols.length⟩ t v r)
    (hla : g.StateLookahead w ⟨k, r.symbols.length⟩ t) : g.ReductionsEnd t w := by
  by_cases h0 : k = 0
  · -- the input is accepted
    subst h0
    obtain rfl : t = Terminal.eof := h.start rfl
    obtain ⟨r', hr', -, hsymbols⟩ := wf.startRule
    cases h.rule.symm.trans hr'
    obtain ⟨q, hw, s, la, hs, hi, ht⟩ := hla
    rw [hsymbols] at hi
    have hla := ((canonical_automaton wf hfit).lookahead_iff hs _ _).2 hi
    exact .of_proposes wf hcf ⟨q, s, hw, hs, .accept hla ht rfl⟩ (by simp)
  · have hword : w = v ++ r.symbols := by rw [h.word, List.take_length]
    subst hword
    exact .of_reduces wf hcf (.single (.rule v h.rule h0 hla)) (h.left h0)

/-- **What follows an item along a word ends the reductions** by its rule and by the rules above. -/
theorem PathLookahead.endsAbove (wf : g.WellFormed) (hfit : g.CodesFit) (hcf : g.ConflictFree)
    {i : Item} (h : g.PathLookahead w i t) : ∃ v r, g.EndsAbove w i t v r := by
  induction h with
  | start =>
    obtain ⟨r, hr, -⟩ := wf.startRule
    exact ⟨[], r, hr, rfl, .start, fun _ => rfl, fun h => absurd rfl h⟩
  | advance _ hx _ ih =>
    obtain ⟨v, r, h⟩ := ih
    refine ⟨v, r, h.rule, ?_, h.path, h.start, h.left⟩
    rw [h.word, List.append_assoc, take_advance h.rule hx]
    rfl
  | @first w i n k t r rest hi hx hr hl ht =>
    subst hl
    refine ⟨w, r, hr, by simp, .first hi hx hr rfl ht,
      fun h0 => absurd h0 (ne_zero_of_opened wf hx hr rfl), fun _ => ?_⟩
    exact (starts_iff.2 ⟨rest, ht⟩).reductionsEnd wf hfit hcf rfl (hi.advance wf hfit hx)
  | @nullable w i n k t r h hx hr hl hnull ih =>
    subst hl
    obtain ⟨v, r₀, habove⟩ := ih
    refine ⟨w, r, hr, by simp, .nullable h hx hr rfl hnull,
      fun h0 => absurd h0 (ne_zero_of_opened wf hx hr rfl), fun _ => ?_⟩
    -- what stands behind is put there, and then the rule above is complete
    obtain ⟨hbehind, hcomplete⟩ := (vanishes_iff.2 hnull).reduces wf hfit rfl
      ((h.stateLookahead wf).advance wf hfit hx)
    rw [length_symbolsBehind habove.rule hx] at hcomplete
    refine .of_reduces wf hcf hbehind (EndsAbove.complete wf hfit hcf (v := v) ?_ hcomplete)
    refine ⟨habove.rule, ?_, habove.path, habove.start, habove.left⟩
    rw [List.take_length, symbols_split habove.rule hx, habove.word]
    simp

/-- **Along a word on which the terminal follows a complete rule, reductions end.** -/
theorem PathLookahead.reductionsEnd (wf : g.WellFormed) (hfit : g.CodesFit) (hcf : g.ConflictFree)
    (hr : g.rules[k]? = some r) (h : g.PathLookahead w ⟨k, r.symbols.length⟩ t) :
    g.ReductionsEnd t w := by
  obtain ⟨v, r', habove⟩ := h.endsAbove wf hfit hcf
  cases hr.symm.trans habove.rule
  exact habove.complete wf hfit hcf (h.stateLookahead wf)

end Along

section Cycles

variable {t k : Nat} {r : Rule V} {x z : Symbol} {u v : List Symbol}

/-- A rule takes a symbol to its left side if the other components can vanish; the terminal follows
the rule along some word. -/
inductive RisesTo (g : Grammar V) (t : Nat) (x : Symbol) : Symbol → Prop where
  | rule {k : Nat} {r : Rule V} {u v : List Symbol} (hr : g.rules[k]? = some r) (h0 : k ≠ 0)
      (hx : r.symbols = x :: u) (hu : g.Vanishes u) (h : g.PathLookahead v ⟨k, 0⟩ t) :
      RisesTo g t x (.nonterminal r.left)

/-- Along the word of its lookahead, a rule that takes a symbol to its left side is reduced. -/
theorem reduces_of_first (wf : g.WellFormed) (hfit : g.CodesFit) (hr : g.rules[k]? = some r)
    (h0 : k ≠ 0) (hx : r.symbols = x :: u) (hu : g.Vanishes u) (h : g.PathLookahead v ⟨k, 0⟩ t) :
    Relation.TransGen (g.Reduces t) (v ++ [x]) (v ++ [.nonterminal r.left]) := by
  have hdrop : (g.symbolsOf k).drop 0 = x :: u := (symbolsOf_eq hr).trans hx
  have hmoved := (h.stateLookahead wf).advance wf hfit (symbolAfterDot_of_drop hdrop)
  obtain ⟨hreach, hcomplete⟩ := hu.reduces wf hfit (symbolsBehind_of_drop hdrop) hmoved
  rw [List.append_assoc, List.singleton_append, ← hx] at hreach hcomplete
  have hlen : 0 + 1 + u.length = r.symbols.length := by
    rw [hx, List.length_cons]
    omega
  exact .tail' hreach (.rule v hr h0 (hlen ▸ hcomplete))

/-- Rules that take a symbol up to the first component of another rule are opened by that rule, along
the word of its lookahead, and are reduced there. -/
theorem reduces_of_rises (wf : g.WellFormed) (hfit : g.CodesFit)
    (h : Relation.ReflTransGen (g.RisesTo t) z x) (hr : g.rules[k]? = some r)
    (hx : r.symbols = x :: u) (hu : g.Vanishes u) (hla : g.PathLookahead v ⟨k, 0⟩ t) :
    Relation.ReflTransGen (g.Reduces t) (v ++ [z]) (v ++ [x]) := by
  induction h generalizing k r u with
  | refl => exact .refl
  | tail _ hrise ih =>
    obtain ⟨hr', h0, hx', hu', -⟩ := hrise
    have hdrop := (symbolsOf_eq hr).trans hx
    have hbehind := symbolsBehind_of_drop (d := 0) hdrop
    have hopened : g.PathLookahead v ⟨_, 0⟩ t :=
      .nullable hla (symbolAfterDot_of_drop (d := 0) hdrop) hr' rfl (hbehind ▸ hu.yields)
    have hlast := reduces_of_first wf hfit hr' h0 hx' hu' hopened
    exact (ih hr' hx' hu' hopened).trans hlast.to_reflTransGen

/-- **No symbol is taken to itself**: the reductions of such a cycle would not end. -/
theorem acyclic_risesTo (wf : g.WellFormed) (hfit : g.CodesFit) (hcf : g.ConflictFree) :
    ¬ Relation.TransGen (g.RisesTo t) z z := by
  intro h
  obtain ⟨x, hrises, hlast⟩ := Relation.TransGen.tail'_iff.1 h
  obtain ⟨hr, h0, hx, hu, hla⟩ := hlast
  have hloop := Relation.TransGen.trans_right (reduces_of_rises wf hfit hrises hr hx hu hla)
    (reduces_of_first wf hfit hr h0 hx hu hla)
  obtain ⟨v, r', habove⟩ := hla.endsAbove wf hfit hcf
  have hword := habove.word
  cases hr.symm.trans habove.rule
  rw [List.take_zero, List.append_nil] at hword
  exact (hword ▸ habove.left h0).not_loop hloop

/-- The symbols of the rules are finitely many. -/
theorem finite_symbols (g : Grammar V) :
    {x | ∃ r ∈ g.rules, x = .nonterminal r.left ∨ x ∈ r.symbols}.Finite := by
  let symbols := g.rules.toList.flatMap fun r => .nonterminal r.left :: r.symbols
  refine (List.finite_toSet symbols).subset ?_
  rintro x ⟨r, hr, hx⟩
  exact List.mem_flatMap.2 ⟨r, Array.mem_toList_iff.2 hr, List.mem_cons.2 hx⟩

theorem wellFounded_risesTo (wf : g.WellFormed) (hfit : g.CodesFit) (hcf : g.ConflictFree) :
    WellFounded fun y x => g.RisesTo t x y := by
  have horder : IsStrictOrder Symbol (Function.swap (Relation.TransGen (g.RisesTo t))) :=
    { irrefl := fun _ => acyclic_risesTo wf hfit hcf
      trans := fun _ _ _ hab hbc => hbc.trans hab }
  refine Subrelation.wf ?_ (Set.wellFoundedOn_iff.1 ((finite_symbols g).wellFoundedOn
    (r := Function.swap (Relation.TransGen (g.RisesTo t)))))
  rintro y x h
  refine ⟨.single h, ?_, ?_⟩
  · obtain ⟨hr, -⟩ := h
    exact ⟨_, Array.mem_of_getElem? hr, Or.inl rfl⟩
  · obtain ⟨hr, -, hx, -⟩ := h
    exact ⟨_, Array.mem_of_getElem? hr, Or.inr (hx ▸ List.mem_cons_self)⟩

end Cycles

section Above

variable {t : Nat} {v w w' u : List Symbol}

/-- A reduction that leaves the first symbols of a word alone is one for every word to the same state:
only what has been put on top of them is reduced, and it can still vanish. -/
theorem Reduces.above (h : g.Reduces t (w ++ u) w') (hlen : w.length < w'.length) :
    ∃ u', w' = w ++ u' ∧ (g.Vanishes u → g.Vanishes u') ∧
      ∀ v, g.automaton.walk? v = g.automaton.walk? w → g.Reduces t (v ++ u) (v ++ u') := by
  generalize hword : w ++ u = w₁ at h
  obtain ⟨b, hr, h0, h⟩ := h
  rw [List.length_append, List.length_singleton] at hlen
  obtain ⟨b, rfl⟩ : w <+: b :=
    List.prefix_of_prefix_length_le ⟨u, hword⟩ ⟨_, rfl⟩ (Nat.le_of_lt_succ hlen)
  rw [List.append_assoc] at hword h
  obtain rfl := List.append_cancel_left hword
  refine ⟨b ++ [.nonterminal _], List.append_assoc _ _ _, fun hv => ?_, fun v hv => ?_⟩
  · obtain ⟨hb, hs⟩ := vanishes_append.1 hv
    exact vanishes_append.2 ⟨hb, .cons hr hs .nil⟩
  · rw [← List.append_assoc, ← List.append_assoc]
    refine .rule (v ++ b) hr h0 (h.of_walk_eq ?_)
    rw [List.append_assoc]
    exact Automaton.walk?_append_congr hv _

/-- If reductions end on top of a word to the same state, they end on top of this one, or leave it. -/
theorem ReductionsEnd.above (hend : g.ReductionsEnd t (v ++ u))
    (hv : g.automaton.walk? v = g.automaton.walk? w) (hu : g.Vanishes u)
    (hleave : ∀ u w', g.Vanishes u → g.Reduces t (w ++ u) w' → w'.length ≤ w.length →
      g.ReductionsEnd t w') : g.ReductionsEnd t (w ++ u) := by
  generalize hw : v ++ u = w₁ at hend
  induction hend generalizing u with
  | intro w₁ _ ih =>
    subst hw
    refine .intro _ fun w' hred => ?_
    rcases Nat.lt_or_ge w.length w'.length with hlen | hlen
    · obtain ⟨u', rfl, hu', hsame⟩ := hred.above hlen
      exact ih _ (hsame v hv) (hu' hu) rfl
    · exact hleave u w' hu hred hlen

/-- **Reductions end at a word if they do once they leave it.** -/
theorem reductionsEnd_of_leave (wf : g.WellFormed) (hfit : g.CodesFit) (hcf : g.ConflictFree)
    (hleave : ∀ u w', g.Vanishes u → g.Reduces t (w ++ u) w' → w'.length ≤ w.length →
      g.ReductionsEnd t w') : g.ReductionsEnd t w := by
  by_cases hred : ∃ w', g.Reduces t w w'
  · -- the lookahead of the rule comes from some word to the same state, where reductions end
    obtain ⟨w', v, hr, h0, h⟩ := hred
    obtain ⟨v', hv, hpath⟩ := h.exists_path wf
    have hend := hpath.reductionsEnd wf hfit hcf hr
    rw [← List.append_nil v'] at hend
    rw [← List.append_nil (v ++ _)]
    exact hend.above hv .nil hleave
  · exact .intro _ fun w' h => absurd ⟨w', h⟩ hred

/-- A reduction that takes the last symbol of a word makes the word shorter or takes the symbol to
another one. -/
theorem Reduces.last {x : Symbol} (wf : g.WellFormed) (hfit : g.CodesFit) (hcf : g.ConflictFree)
    (h : g.Reduces t (w ++ [x] ++ u) w') (hu : g.Vanishes u)
    (hlen : w'.length ≤ w.length + 1) :
    w'.length ≤ w.length ∨ ∃ y, w' = w ++ [y] ∧ g.RisesTo t x y := by
  generalize hword : w ++ [x] ++ u = w₁ at h
  obtain ⟨b, hr, h0, h⟩ := h
  rw [List.length_append, List.length_singleton, Nat.add_le_add_iff_right] at hlen
  rw [List.append_assoc, List.singleton_append] at hword
  rcases Nat.lt_or_eq_of_le hlen with hlt | heq
  · left
    rw [List.length_append, List.length_singleton]
    exact hlt
  · right
    obtain ⟨rfl, hsymbols⟩ := List.append_inj hword heq.symm
    obtain ⟨v, -, hpath⟩ := h.exists_path wf
    obtain ⟨v', r', habove⟩ := hpath.endsAbove wf hfit hcf
    exact ⟨_, rfl, .rule hr h0 hsymbols.symm hu habove.path⟩

/-- **On each terminal, reductions end.** The induction is on the length of the word and then on its
last symbol, which a reduction can only take up. -/
theorem wellFounded_reduces (wf : g.WellFormed) (hfit : g.CodesFit) (hcf : g.ConflictFree) :
    WellFounded fun w' w => g.Reduces t w w' := by
  suffices hall : ∀ n w, w.length = n → g.ReductionsEnd t w from ⟨fun w => hall _ w rfl⟩
  intro n
  induction n using Nat.strong_induction_on with
  | _ n ih =>
    intro w hn
    rcases List.eq_nil_or_concat w with rfl | ⟨w, x, rfl⟩
    · refine reductionsEnd_of_leave wf hfit hcf fun u w' _ hred hlen => ?_
      obtain ⟨b, -⟩ := hred
      simp at hlen
    · rw [List.concat_eq_append] at hn ⊢
      induction x using (wellFounded_risesTo (t := t) wf hfit hcf).induction with
      | _ x ihx =>
        rw [List.length_append, List.length_singleton] at hn
        refine reductionsEnd_of_leave wf hfit hcf fun u w' hu hred hlen => ?_
        rw [List.length_append, List.length_singleton] at hlen
        rcases hred.last wf hfit hcf hu hlen with hshort | ⟨y, rfl, hrise⟩
        · exact ih _ (by omega) w' rfl
        · exact ihx y hrise (by rw [List.length_append, List.length_singleton, hn])

end Above

end Grammar

end ParserGen
