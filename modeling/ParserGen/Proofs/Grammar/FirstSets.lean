import ParserGen.Grammar.FirstSets
import ParserGen.Proofs.Counting
import ParserGen.Proofs.Grammar.ParseTree
import ParserGen.Proofs.Grammar.WellFormed

/-!
# FIRST sets are closed under the rules

A round only adds members, and all members are terminals of the grammar. So the rounds end in sets
that no rule can enlarge, and such sets know how the leaves of a parse tree can begin.

* `round_compute`: **a further round changes nothing.**
* `DerivesAll.first`: the first leaf of trees that derive a sequence is in the FIRST set of the
  sequence; if there is no leaf, `$epsilon` is.
-/

namespace ParserGen

namespace FirstSets

variable {V : Type} {g : Grammar V}

/-- Every set of `f` is contained in that of `f'`. -/
def Below (f f' : FirstSets) : Prop :=
  f.sets.size = f'.sets.size ∧ ∀ v i, IndexSet.At f.sets v i → IndexSet.At f'.sets v i

theorem Below.refl (f : FirstSets) : Below f f :=
  ⟨rfl, fun _ _ h => h⟩

theorem Below.trans {f f' f'' : FirstSets} (h : Below f f') (h' : Below f' f'') : Below f f'' :=
  ⟨h.1.trans h'.1, fun v i hi => h'.2 v i (h.2 v i hi)⟩

theorem Below.antisymm {f f' : FirstSets} (h : Below f f') (h' : Below f' f) : f = f' := by
  obtain ⟨s⟩ := f
  obtain ⟨t⟩ := f'
  have he : s = t := by
    apply Array.ext h.1
    intro v hs ht
    apply IndexSet.ext_contains
    intro i
    have h₁ := h.2 v i
    have h₂ := h'.2 v i
    simp only [IndexSet.At, Array.getD_eq_getD_getElem?, Array.getElem?_eq_getElem hs,
      Array.getElem?_eq_getElem ht, Option.getD_some] at h₁ h₂
    exact Bool.eq_iff_iff.2 ⟨h₁, h₂⟩
  rw [he]

theorem at_visit (f : FirstSets) (r : Rule V) (v i : Nat) :
    IndexSet.At (f.visit r).sets v i ↔ IndexSet.At f.sets v i ∨
      v = r.left ∧ v < f.sets.size ∧ (f.ofSequence r.symbols).contains i = true := by
  unfold IndexSet.At visit
  simp only [Array.getD_eq_getD_getElem?, Array.getElem?_modify]
  by_cases hv : r.left = v
  · subst hv
    by_cases hlt : r.left < f.sets.size
    · simp [hlt]
    · simp [hlt]
  · have hv' : ¬ v = r.left := fun h => hv h.symm
    simp [hv, hv']

theorem below_visit (f : FirstSets) (r : Rule V) : Below f (f.visit r) :=
  ⟨by simp [visit], fun v i h => (at_visit f r v i).2 (Or.inl h)⟩

theorem below_foldl_visit (rules : List (Rule V)) (f : FirstSets) :
    Below f (rules.foldl visit f) := by
  induction rules generalizing f with
  | nil => exact .refl f
  | cons r rest ih => exact (below_visit f r).trans (ih _)

/-- A fold of visits that changes nothing consists of visits that change nothing. -/
theorem visit_eq_of_foldl {rules : List (Rule V)} {f : FirstSets} (h : rules.foldl visit f = f)
    {r : Rule V} (hr : r ∈ rules) : f.visit r = f := by
  induction rules with
  | nil => cases hr
  | cons s rest ih =>
    rw [List.foldl_cons] at h
    have hs : f.visit s = f := by
      have hb := below_foldl_visit rest (f.visit s)
      rw [h] at hb
      exact hb.antisymm (below_visit f s)
    rw [hs] at h
    rcases List.mem_cons.1 hr with rfl | hr
    · exact hs
    · exact ih h hr

/-- All members are terminals of the grammar. -/
def Bounded (g : Grammar V) (f : FirstSets) : Prop :=
  ∀ v i, IndexSet.At f.sets v i → i < g.terminals.size

theorem epsilon_lt (wf : g.WellFormed) : Terminal.epsilon < g.terminals.size :=
  NameTable.lt_size_of_name? wf.epsilon

theorem lt_of_ofSequence (wf : g.WellFormed) {f : FirstSets} (hf : Bounded g f) {xs : List Symbol}
    (hx : ∀ t, Symbol.terminal t ∈ xs → t < g.terminals.size) {i : Nat}
    (h : (f.ofSequence xs).contains i = true) : i < g.terminals.size := by
  induction xs with
  | nil =>
    rw [ofSequence, IndexSet.contains_singleton, decide_eq_true_eq] at h
    rw [← h]; exact epsilon_lt wf
  | cons x rest ih =>
    have ih := ih fun t ht => hx t (List.mem_cons_of_mem _ ht)
    cases x with
    | terminal t =>
      rw [ofSequence, IndexSet.contains_singleton, decide_eq_true_eq] at h
      rw [← h]; exact hx t List.mem_cons_self
    | nonterminal n =>
      simp only [ofSequence] at h
      split at h
      · simp only [IndexSet.contains_union, IndexSet.contains_erase, Bool.or_eq_true,
          Bool.and_eq_true] at h
        rcases h with h | h
        · exact hf n i h.1
        · exact ih h
      · exact hf n i h

theorem Bounded.visit (wf : g.WellFormed) {f : FirstSets} (hf : Bounded g f) {k : Nat} {r : Rule V}
    (hr : g.rules[k]? = some r) : Bounded g (f.visit r) := by
  intro v i h
  rcases (at_visit f r v i).1 h with h | ⟨-, -, h⟩
  · exact hf v i h
  · exact lt_of_ofSequence wf hf (fun t ht => (wf.terminal hr ht).2) h

/-- What every visit keeps, a round keeps. -/
theorem round_induction {P : FirstSets → Prop}
    (hvisit : ∀ {f : FirstSets} {k : Nat} {r : Rule V}, g.rules[k]? = some r → P f → P (f.visit r))
    {f : FirstSets} (hf : P f) : P (round g f) := by
  have key : ∀ rules : List (Rule V), (∀ r ∈ rules, ∃ k : Nat, g.rules[k]? = some r) →
      ∀ f, P f → P (rules.foldl FirstSets.visit f) := by
    intro rules
    induction rules with
    | nil => intro _ f hf; exact hf
    | cons r rest ih =>
      intro hr f hf
      obtain ⟨k, hk⟩ := hr r List.mem_cons_self
      exact ih (fun r h => hr r (List.mem_cons_of_mem _ h)) _ (hvisit hk hf)
  refine key _ ?_ f hf
  intro r hr
  obtain ⟨k, hk⟩ := List.mem_iff_getElem?.1 hr
  exact ⟨k, by rwa [Array.getElem?_toList] at hk⟩

theorem Bounded.round (wf : g.WellFormed) {f : FirstSets} (hf : Bounded g f) :
    Bounded g (FirstSets.round g f) :=
  round_induction (fun hr hf => hf.visit wf hr) hf

/-- All terminals of the grammar. -/
def terminalBound (g : Grammar V) : IndexSet :=
  .ofList (List.range g.terminals.size)

theorem size_terminalBound_le (g : Grammar V) : (terminalBound g).size ≤ g.terminals.size := by
  have hsub : (terminalBound g).toList ⊆ List.range g.terminals.size := by
    intro i hi
    exact IndexSet.contains_ofList.1 (IndexSet.mem_toList.1 hi)
  have := ((terminalBound g).nodup_toList.subperm hsub).length_le
  rwa [List.length_range] at this

/-- A round that changes something adds a terminal to some set. -/
theorem deficit_round_lt (wf : g.WellFormed) {f : FirstSets} (hf : Bounded g f)
    (hne : round g f ≠ f) :
    IndexSet.deficit (terminalBound g) (round g f).sets <
      IndexSet.deficit (terminalBound g) f.sets := by
  have hb : Below f (round g f) := below_foldl_visit _ f
  by_cases h : ∃ v i, IndexSet.At (round g f).sets v i ∧ ¬ IndexSet.At f.sets v i
  · obtain ⟨v, i, hi, hn⟩ := h
    have hv : v < f.sets.size := by
      rw [hb.1]
      by_contra hv
      simp [IndexSet.At, hv] at hi
    refine IndexSet.deficit_lt hb.1 hb.2 hv ?_ hi hn
    exact IndexSet.contains_ofList.2 (List.mem_range.2 (hf.round wf v i hi))
  · refine absurd (hb.antisymm ⟨hb.1.symm, ?_⟩).symm hne
    intro v i hi
    by_contra hn
    exact h ⟨v, i, hi, hn⟩

/-- With more fuel than the sets lack, the rounds end in sets that a further round leaves alone. -/
theorem round_saturate (wf : g.WellFormed) {fuel : Nat} {f : FirstSets} (hf : Bounded g f)
    (hfuel : IndexSet.deficit (terminalBound g) f.sets < fuel) :
    round g (saturate g fuel f) = saturate g fuel f := by
  induction fuel generalizing f with
  | zero => omega
  | succ fuel ih =>
    unfold saturate
    simp only
    split
    · rename_i h; exact h
    · rename_i h
      have := deficit_round_lt wf hf h
      exact ih (hf.round wf) (by omega)

theorem size_sets_saturate (fuel : Nat) (f : FirstSets) :
    (saturate g fuel f).sets.size = f.sets.size := by
  induction fuel generalizing f with
  | zero => rfl
  | succ fuel ih =>
    unfold saturate
    simp only
    split
    · rfl
    · rw [ih]; exact (below_foldl_visit _ f).1.symm

theorem round_compute (wf : g.WellFormed) : round g (compute g) = compute g := by
  refine round_saturate wf ?_ ?_
  · intro v i h
    simp [IndexSet.At, Array.getElem?_replicate] at h
    split at h <;> simp at h
  · have h := IndexSet.deficit_le_mul (terminalBound g) (Array.replicate g.nonterminals.size ∅)
    have h' := Nat.mul_le_mul_left g.nonterminals.size (size_terminalBound_le g)
    rw [Array.size_replicate] at h
    exact Nat.lt_succ_of_le (h.trans h')

/-- **The FIRST sets are closed under the rules.** -/
theorem ofNonterminal_of_rule (wf : g.WellFormed) {k : Nat} {r : Rule V} (hr : g.rules[k]? = some r)
    {i : Nat} (h : ((compute g).ofSequence r.symbols).contains i = true) :
    ((compute g).ofNonterminal r.left).contains i = true := by
  have hm : r ∈ g.rules.toList := Array.mem_toList_iff.2 (Array.mem_of_getElem? hr)
  have hv := visit_eq_of_foldl (round_compute wf) hm
  have hlt : r.left < (compute g).sets.size := by
    unfold compute
    rw [size_sets_saturate, Array.size_replicate]
    exact NameTable.lt_size_of_name? (wf.name hr)
  have := (at_visit (compute g) r r.left i).2 (Or.inr ⟨rfl, hlt, h⟩)
  rw [hv] at this
  exact this

/-- What a sequence gets: from its first symbol, and from the others if the first can be empty. -/
theorem contains_ofSequence_cons {f : FirstSets} {n i : Nat} {rest : List Symbol} :
    (f.ofSequence (.nonterminal n :: rest)).contains i = true ↔
      i ≠ Terminal.epsilon ∧ (f.ofNonterminal n).contains i = true ∨
        (f.ofNonterminal n).contains Terminal.epsilon = true ∧
          (f.ofSequence rest).contains i = true := by
  simp only [ofSequence]
  split
  · rename_i hn
    simp only [IndexSet.contains_union, IndexSet.contains_erase, Bool.or_eq_true, Bool.and_eq_true,
      Bool.not_eq_true', decide_eq_false_iff_not, hn, true_and, @eq_comm _ Terminal.epsilon,
      and_comm]
  · rename_i hn
    have hne : (f.ofNonterminal n).contains i = true → i ≠ Terminal.epsilon := by
      rintro h rfl
      exact hn h
    simp only [hn, Bool.false_eq_true, false_and, or_false]
    exact ⟨fun h => ⟨hne h, h⟩, fun h => h.2⟩

end FirstSets

namespace Grammar

variable {V : Type} {g : Grammar V}

/-- A list of leaves begins as a set of terminals says: with a token of one of its terminals, or, if
it is empty, the set holds `$epsilon`. -/
def Begins (g : Grammar V) (first : TerminalSet) : List Token → Prop
  | [] => first.contains Terminal.epsilon = true
  | token :: _ => ∃ t, Terminal.reserved ≤ t ∧ t < g.terminals.size ∧
      token.kind = g.terminalName t ∧ first.contains t = true

theorem Begins.mono {s s' : TerminalSet} (h : ∀ i, s.contains i = true → s'.contains i = true)
    {l : List Token} (hl : g.Begins s l) : g.Begins s' l := by
  cases l with
  | nil => exact h _ hl
  | cons token rest =>
    obtain ⟨t, ht, hlt, hk, hc⟩ := hl
    exact ⟨t, ht, hlt, hk, h t hc⟩

/-- The terminals of the sequence are terminals of the grammar, and not reserved. -/
def Plain (g : Grammar V) (xs : List Symbol) : Prop :=
  ∀ t, Symbol.terminal t ∈ xs → Terminal.reserved ≤ t ∧ t < g.terminals.size

theorem begins_append {first : FirstSets} {n : Nat} {rest : List Symbol} {l l' : List Token}
    (hl : g.Begins (first.ofNonterminal n) l) (hl' : g.Begins (first.ofSequence rest) l') :
    g.Begins (first.ofSequence (.nonterminal n :: rest)) (l ++ l') := by
  cases l with
  | nil => exact hl'.mono fun i hi => FirstSets.contains_ofSequence_cons.2 (Or.inr ⟨hl, hi⟩)
  | cons token l =>
    obtain ⟨t, ht, hlt, hk, hc⟩ := hl
    refine ⟨t, ht, hlt, hk, FirstSets.contains_ofSequence_cons.2 (Or.inl ⟨?_, hc⟩)⟩
    intro he
    rw [he] at ht
    exact absurd ht (by decide)

mutual

theorem Derives.first (wf : g.WellFormed) :
    ∀ {n : Nat} {c : ParseTree}, g.Derives (.nonterminal n) c →
      g.Begins ((FirstSets.compute g).ofNonterminal n) c.leaves
  | _, _, .node hr hc => by
    rw [ParseTree.leaves]
    have h := DerivesAll.first wf hc fun t ht => wf.terminal hr ht
    exact h.mono fun i => FirstSets.ofNonterminal_of_rule wf hr

/-- **FIRST sets know how leaves begin.** -/
theorem DerivesAll.first (wf : g.WellFormed) :
    ∀ {xs : List Symbol} {l : List ParseTree}, g.DerivesAll xs l → g.Plain xs →
      g.Begins ((FirstSets.compute g).ofSequence xs) (ParseTree.leavesAll l)
  | _, _, .nil, _ => by
    rw [ParseTree.leavesAll]
    simp [Begins, FirstSets.ofSequence]
  | _, _, .cons (x := .terminal t) (.leaf hk) _, hp => by
    obtain ⟨ht, hlt⟩ := hp t List.mem_cons_self
    exact ⟨t, ht, hlt, hk, by simp [FirstSets.ofSequence]⟩
  | _, _, .cons (x := .nonterminal _) hx hxs, hp => by
    rw [ParseTree.leavesAll]
    exact begins_append (Derives.first wf hx)
      (DerivesAll.first wf hxs fun t ht => hp t (List.mem_cons_of_mem _ ht))

end

end Grammar

end ParserGen
