import ParserGen.Proofs.Table.ConflictReport

/-!
# Tables without conflicts

The policy and the operators are asked only when two candidates meet. If no cell has two of them, they
are never asked, and the table is the same whatever they are; if some cell has two, the empty policy
reports a conflict, and any other policy either reports one or notes that it settled one.

* `automaton_withPolicy`: the automaton does not depend on the policy and the operators.
* `outcome_withPolicy`: **a table made without settling a conflict is the table of every policy.**
* `uncontested_of_quiet`: **it has at most one candidate for each cell.**
* `conflict_freedom_exact`: both with the converse, and what the table holds.
-/

namespace ParserGen

variable {V : Type} {g : Grammar V}

namespace Grammar

/-- The same rules with another policy and other operators. -/
def withPolicy (g : Grammar V) (policy : Policy) (operators : OperatorTable) : Grammar V :=
  { g with resolution := policy, operators := operators }

/-- No cell has more than one candidate. -/
def Uncontested (g : Grammar V) : Prop :=
  ∀ ⦃q t : Nat⦄ ⦃s : State⦄, g.automaton.states[q]? = some s → t < g.terminals.size →
    (s.candidates g t).length ≤ 1

end Grammar

/-! ## What does not depend on the policy -/

section Policy

variable (policy : Policy) (operators : OperatorTable)

theorem closeItems_withPolicy (fuel : Nat) (todo : List Item) (opened : IndexSet) :
    (g.withPolicy policy operators).closeItems fuel todo opened = g.closeItems fuel todo opened := by
  induction fuel generalizing todo opened with
  | zero => rfl
  | succ fuel ih =>
    cases todo with
    | nil => rfl
    | cons item todo => exact congrArg (item :: ·) (ih _ _)

theorem explore_withPolicy (fuel n : Nat) (d : Discovery) :
    Discovery.explore (g.withPolicy policy operators) fuel n d = Discovery.explore g fuel n d := by
  have hclosure : (g.withPolicy policy operators).closure = g.closure := by
    funext kernel
    exact closeItems_withPolicy policy operators _ _ _
  induction fuel generalizing n d with
  | zero => rfl
  | succ fuel ih =>
    unfold Discovery.explore
    cases d.kernels[n]? with
    | none => rfl
    | some kernel =>
      simp only [hclosure]
      exact congrArg (_ :: ·) (ih _ _)

theorem firstSets_withPolicy :
    FirstSets.compute (g.withPolicy policy operators) = FirstSets.compute g := by
  have hsaturate : ∀ fuel f,
      FirstSets.saturate (g.withPolicy policy operators) fuel f = FirstSets.saturate g fuel f := by
    intro fuel
    induction fuel with
    | zero => exact fun f => rfl
    | succ fuel ih =>
      intro f
      unfold FirstSets.saturate
      simp only [ih]
      rfl
  exact hsaturate _ _

/-- **The automaton does not depend on the policy and the operators.** -/
theorem automaton_withPolicy : (g.withPolicy policy operators).automaton = g.automaton := by
  have hcollection : (g.withPolicy policy operators).collection = g.collection :=
    explore_withPolicy policy operators _ _ _
  unfold Grammar.automaton Grammar.lookaheads
  simp only [hcollection, firstSets_withPolicy]
  rfl

variable {policy operators}

theorem Grammar.WellFormed.withPolicy (wf : g.WellFormed) :
    (g.withPolicy policy operators).WellFormed where
  startRule := wf.startRule
  number := wf.number
  size_le := wf.size_le
  name := wf.name
  length := wf.length
  terminal := wf.terminal
  nonterminal := wf.nonterminal
  left_ne := wf.left_ne
  mem_alternatives := wf.mem_alternatives
  alternatives_sorted := wf.alternatives_sorted
  eof := wf.eof
  epsilon := wf.epsilon
  terminal_ne := wf.terminal_ne

end Policy

/-! ## Rows made without settling a conflict -/

namespace RowDraft

variable {policy : Policy} {operators : OperatorTable} {q rule t : Nat} {d d' : RowDraft}

/-- A reduction that finds its cell free does so under every policy. -/
theorem addReduce_withPolicy (h : addReduce g q rule d t = .ok d') (hquiet : d'.resolved = #[]) :
    d.resolved = #[] ∧ addReduce (g.withPolicy policy operators) q rule d t = .ok d' := by
  have hpush : ∀ {d : RowDraft} {kind resolution}, (d.record q t kind resolution).resolved ≠ #[] := by
    intro d kind resolution
    simp [record]
  cases adds_of_addReduce h with
  | barred hb =>
    refine ⟨hquiet, ?_⟩
    unfold addReduce
    rw [if_pos hb]
  | free hb hf =>
    refine ⟨hquiet, ?_⟩
    unfold addReduce
    simp [hb, hf]
  | reduced _ _ _ _ => exact absurd hquiet hpush
  | shifted _ _ _ _ _ => exact absurd hquiet hpush
  | replaced _ _ _ _ => exact absurd hquiet hpush
  | emptied _ _ _ _ => exact absurd hquiet hpush

theorem ofState_withPolicy {s : State} (h : ofState g q s = .ok d) (hquiet : d.resolved = #[]) :
    ofState (g.withPolicy policy operators) q s = .ok d := by
  refine (foldlM_transfer (Q := fun d : RowDraft => d.resolved = #[]) ?_ h hquiet).2
  intro b e b' hitem hb'
  unfold addItem at hitem ⊢
  split at hitem
  · rename_i hskip
    cases hitem
    exact ⟨hb', if_pos hskip⟩
  · rename_i hskip
    obtain ⟨hb, hfold⟩ := foldlM_transfer (Q := fun d : RowDraft => d.resolved = #[])
      (fun _ _ _ hadd => addReduce_withPolicy hadd) hitem hb'
    exact ⟨hb, (if_neg hskip).trans hfold⟩

/-- The empty policy settles nothing. -/
theorem quiet_of_none (hnone : g.resolution = .none) {s : State} (h : ofState g q s = .ok d) :
    d.resolved = #[] := by
  have hshift : ∀ t rule, g.decideShiftReduce? t rule = none := by
    intro t rule
    simp [Grammar.decideShiftReduce?, hnone, Policy.none]
  have hreduce : ∀ existing rule, g.decideReduceReduce? existing rule = none := by
    intro existing rule
    simp [Grammar.decideReduceReduce?, hnone, Policy.none]
  refine ofState_invariant (P := fun d => d.resolved = #[]) rfl
    (fun rule t d d' _ hd hadds => ?_) h
  cases hadds with
  | barred _ => exact hd
  | free _ _ => exact hd
  | reduced _ _ hdecide _ => rw [hreduce] at hdecide; cases hdecide
  | shifted _ _ _ hdecide _ => rw [hshift] at hdecide; cases hdecide
  | replaced _ _ _ hdecide => rw [hshift] at hdecide; cases hdecide
  | emptied _ _ _ hdecide => rw [hshift] at hdecide; cases hdecide

end RowDraft

/-! ## Tables made without settling a conflict -/

section Table

variable {policy : Policy} {operators : OperatorTable} {r : Synthesis}

/-- **A table made without settling a conflict is the table of every policy.** -/
theorem outcome_withPolicy (hr : g.analyze.outcome = .ok r) (hquiet : r.resolved = #[]) :
    (g.withPolicy policy operators).analyze.outcome = .ok r := by
  show (g.withPolicy policy operators).synthesize (g.withPolicy policy operators).automaton = .ok r
  rw [automaton_withPolicy]
  refine (foldlM_transfer (Q := fun r : Synthesis => r.resolved = #[]) ?_ hr hquiet).2
  intro b e b' hadd hb'
  obtain ⟨d, hd, hadd⟩ := exists_of_bind_ok hadd
  cases hadd
  obtain ⟨hb, hd'⟩ := Array.append_eq_empty_iff.1 hb'
  refine ⟨hb, ?_⟩
  unfold Synthesis.add
  rw [RowDraft.ofState_withPolicy hd hd']
  rfl

theorem resolved_of_none (hnone : g.resolution = .none) (hr : g.analyze.outcome = .ok r) :
    r.resolved = #[] := by
  refine foldlM_invariant (P := fun r : Synthesis => r.resolved = #[]) ?_ rfl hr
  intro b e b' _ hb hadd
  obtain ⟨d, hd, hadd⟩ := exists_of_bind_ok hadd
  cases hadd
  exact Array.append_eq_empty_iff.2 ⟨hb, RowDraft.quiet_of_none hnone hd⟩

/-- **A table made without settling a conflict has at most one candidate for each cell.** -/
theorem uncontested_of_quiet (wf : g.WellFormed) (hr : g.analyze.outcome = .ok r)
    (hquiet : r.resolved = #[]) : g.Uncontested := by
  intro q t s hs _
  obtain ⟨d, hd, -, hres⟩ := exists_row hr hs
  exact ((accounts_of_row wf hs hd t).of_quiet (hres hquiet)).1

/-- Where no candidates meet, there is no conflict that the policy could leave open. -/
theorem exists_outcome (wf : g.WellFormed) (hun : g.Uncontested) : ∃ r, g.analyze.outcome = .ok r := by
  have honly : ∀ {l : List Action} {a b : Action}, l.length ≤ 1 → a ∈ l → b ∈ l → a = b := by
    intro l a b hl ha hb
    match l, hl with
    | [], _ => cases ha
    | [x], _ => rw [List.mem_singleton.1 ha, List.mem_singleton.1 hb]
  cases h : g.analyze.outcome with
  | ok r => exact ⟨r, rfl⟩
  | error c =>
    obtain ⟨s, hs, ht, hc⟩ := genuine_of_error wf h
    have hle := hun hs ht
    cases c with
    | shiftReduce q t rule =>
      obtain ⟨hrule, ⟨a, ha, hne⟩, -⟩ := hc
      exact absurd (honly hle ha hrule) (hne rule)
    | reduceReduce q t first second =>
      obtain ⟨hfirst, hsecond, hne, -⟩ := hc
      exact absurd (Action.reduce.inj (honly hle hfirst hsecond)) hne

theorem Grammar.uncontested_withPolicy :
    (g.withPolicy policy operators).Uncontested ↔ g.Uncontested := by
  unfold Uncontested
  rw [automaton_withPolicy]
  exact Iff.rfl

/-- The table of a grammar whose cells hold what the automaton proposes: every state has a row of
actions, a cell has its only candidate, and the gotos are the transitions. -/
structure ParseTable.HoldsCandidates (t : ParseTable) (g : Grammar V) : Prop where
  row : ∀ {q : Nat}, q < g.automaton.size → t.action.contains q = true
  action : g.CodesFit → ∀ {q u : Nat} {s : State}, g.automaton.states[q]? = some s →
    u < g.terminals.size → t.action? q (g.terminalName u) = (s.candidates g u).head?
  goto : ∀ {q n : Nat}, n < g.nonterminals.size →
    t.goto? q (g.nonterminalName n) = g.automaton.transition? q (.nonterminal n)

theorem holdsCandidates_of_quiet (wf : g.WellFormed) (hr : g.analyze.outcome = .ok r)
    (hquiet : r.resolved = #[]) : r.table.HoldsCandidates g where
  row hq := contains_of_lt hr hq
  action hfit q u s hs hu := by
    obtain ⟨d, hd, -, hres⟩ := exists_row hr hs
    rw [action?_eq_find? wf hfit hr hs hu hd]
    exact ((accounts_of_row wf hs hd u).of_quiet (hres hquiet)).2
  goto hn := goto?_eq_transition? wf hr hn _

/-- **Conflict freedom is exact, and makes the policy irrelevant.** -/
theorem conflict_freedom_exact (hg : g.Defined) :
    (∀ operators, (∃ r, (g.withPolicy .none operators).analyze.outcome = .ok r) ↔ g.Uncontested) ∧
    (g.Uncontested → ∃ r : Synthesis, r.resolved = #[] ∧ r.table.HoldsCandidates g ∧
      ∀ policy operators, (g.withPolicy policy operators).analyze.outcome = .ok r) ∧
    ∀ policy operators r, (g.withPolicy policy operators).analyze.outcome = .ok r →
      r.resolved = #[] → g.Uncontested := by
  have wf := hg.wellFormed
  have hback : ∀ policy operators r, (g.withPolicy policy operators).analyze.outcome = .ok r →
      r.resolved = #[] → g.Uncontested := fun _ _ _ hr hquiet =>
    Grammar.uncontested_withPolicy.1 (uncontested_of_quiet wf.withPolicy hr hquiet)
  have hnone : g.Uncontested → ∀ operators,
      ∃ r, (g.withPolicy .none operators).analyze.outcome = .ok r := fun hun _ =>
    exists_outcome wf.withPolicy (Grammar.uncontested_withPolicy.2 hun)
  refine ⟨fun operators => ⟨?_, fun hun => hnone hun operators⟩, fun hun => ?_, hback⟩
  · rintro ⟨r, hr⟩
    exact hback _ _ r hr (resolved_of_none rfl hr)
  · obtain ⟨r, hr⟩ := hnone hun g.operators
    have hquiet := resolved_of_none rfl hr
    -- the table of the empty policy is that of every other, the grammar's own among them
    have hall : ∀ policy operators, (g.withPolicy policy operators).analyze.outcome = .ok r :=
      fun policy operators => outcome_withPolicy (g := g.withPolicy .none g.operators) hr hquiet
    exact ⟨r, hquiet, holdsCandidates_of_quiet wf (hall g.resolution g.operators) hquiet, hall⟩

end Table

/-- Brackets are read without conflicts, so their table is that of every policy. Sums have conflicts,
which the empty policy does not settle. -/
theorem brackets_uncontested :
    (∃ r : Synthesis, r.resolved = #[] ∧ r.table.HoldsCandidates Grammar.brackets ∧
      ∀ policy operators, (Grammar.brackets.withPolicy policy operators).analyze.outcome = .ok r) ∧
    ¬ Grammar.sums.Uncontested := by
  obtain ⟨hnone, htable, -⟩ := conflict_freedom_exact Grammar.brackets_defined
  refine ⟨htable ((hnone ∅).1 ?_), fun hun => ?_⟩
  · exact ⟨_, eq_ok_get _ (by decide +kernel)⟩
  · obtain ⟨r, hr⟩ := ((conflict_freedom_exact Grammar.sums_defined).1 ∅).2 hun
    have hfails : (Grammar.sums.withPolicy .none ∅).analyze.outcome.toOption.isSome = false := by
      decide +kernel
    rw [hr] at hfails
    cases hfails

end ParserGen
