import ParserGen.Proofs.Automaton.Reduction

/-!
# The conflict report

The records of the rows, one state after the other, are the report of the settled conflicts. Those
about one cell of the table are the account of that cell, so the report tells how every action came
about; and a conflict that ends the construction is one that the automaton has.

* `notes_of_synthesis`: the records about a cell are those of its row.
* `FaithfulAccount`: what the records of a cell say about its candidates and its action.
* `genuine_of_error`: **a conflict that ends the construction is one of the automaton.**
* `conflict_report_faithful`: **the report is a complete and faithful account of the table.**
-/

namespace ParserGen

variable {V : Type} {g : Grammar V}

/-- The records about a cell. -/
def Synthesis.notes (r : Synthesis) (q t : Nat) : List ResolvedConflict :=
  r.resolved.toList.filter fun c => c.state == q && c.lookahead == t

namespace RowDraft

/-- The records of a row are about its state. -/
theorem state_of_ofState {n : Nat} {s : State} {d : RowDraft} (h : ofState g n s = .ok d) :
    ∀ c ∈ d.resolved, c.state = n := by
  refine ofState_invariant (P := fun d => ∀ c ∈ d.resolved, c.state = n) (by simp) ?_ h
  intro rule t d d' _ hd hadds c hc
  rcases hadds.resolved_cases with hsame | ⟨c', hpush, hstate⟩
  · exact hd c (hsame ▸ hc)
  · rw [hpush] at hc
    rcases Array.mem_push.1 hc with hc | rfl
    · exact hd c hc
    · exact hstate

end RowDraft

/-- The records about a cell are those that its row has noted. -/
theorem notes_of_synthesis {states : List State} {r : Synthesis}
    (h : states.zipIdx.foldlM (Synthesis.add g) { table := ⟨∅, ∅⟩, resolved := #[] } = .ok r) :
    (∀ c ∈ r.resolved, c.state < states.length) ∧
      ∀ q s d t, states[q]? = some s → RowDraft.ofState g q s = .ok d → r.notes q t = d.notes t := by
  induction states using List.reverseRecOn generalizing r with
  | nil =>
    cases h
    exact ⟨by simp, by simp⟩
  | append_singleton states s ih =>
    obtain ⟨r', d, hr, hd, rfl⟩ := exists_last h
    obtain ⟨hlt, hnotes⟩ := ih hr
    have hstate := RowDraft.state_of_ofState hd
    refine ⟨fun c hc => ?_, fun q s' d' t hs' hd' => ?_⟩
    · rw [List.length_append, List.length_singleton]
      rcases Array.mem_append.1 hc with hc | hc
      · exact Nat.lt_succ_of_lt (hlt c hc)
      · rw [hstate c hc]
        exact Nat.lt_succ_self _
    · unfold Synthesis.notes
      rw [Array.toList_append, List.filter_append]
      rcases getElem?_concat_cases hs' with ⟨hq, hs'⟩ | ⟨rfl, rfl⟩
      · -- the new records are about a later state
        have hnew : d.resolved.toList.filter (fun c => c.state == q && c.lookahead == t) = [] := by
          rw [List.filter_eq_nil_iff]
          intro c hc
          have := hstate c (Array.mem_toList_iff.1 hc)
          simp [this, Nat.ne_of_gt hq]
        rw [hnew, List.append_nil]
        exact hnotes q s' d' t hs' hd'
      · rw [hd] at hd'
        cases hd'
        -- the old records are about earlier states, and all new ones about this one
        have hold : r'.resolved.toList.filter
            (fun c => c.state == states.length && c.lookahead == t) = [] := by
          rw [List.filter_eq_nil_iff]
          intro c hc
          have := hlt c (Array.mem_toList_iff.1 hc)
          simp [Nat.ne_of_lt this]
        rw [hold, List.nil_append]
        refine List.filter_congr fun c hc => ?_
        simp [hstate c (Array.mem_toList_iff.1 hc)]

section Table

variable {r : Synthesis} {q t : Nat} {s : State}

/-- The records of a cell account for its action: without an operator that does not associate there
is one record for each candidate after the first, it names that candidate and what the cell held, and
replaying all of them gives the action; such an operator has the last record and leaves no action. -/
structure FaithfulAccount (first : Action) (rest : List Action) (records : List ResolvedConflict)
    (final : Option Action) : Prop where
  count : (∀ c ∈ records, c.resolution ≠ .precedence .error) → records.length = rest.length
  names : ∀ {i : Nat} {c : ResolvedConflict} {candidate : Action}, records[i]? = some c →
    rest[i]? = some candidate → c.Names (replayAll first ((rest.zip records).take i)) candidate
  replayed : (∀ c ∈ records, c.resolution ≠ .precedence .error) →
    final = some (replayAll first (rest.zip records))
  emptied : ∀ {i : Nat} {c : ResolvedConflict}, records[i]? = some c →
    c.resolution = .precedence .error → i + 1 = records.length ∧ final = none

theorem Settles.faithful {first : Action} {rest : List Action} {records : List ResolvedConflict}
    {final : Option Action} (h : Settles first rest records final) :
    FaithfulAccount first rest records final where
  count hne := (h.replayAll_eq hne).1
  names hc hi := h.names hi hc
  replayed hne := (h.replayAll_eq hne).2
  emptied hi hc := h.error_last hi hc

/-- The conflict is one of the automaton's: the rules are complete in the state before the terminal,
the state also has another action for the cell, and the policy does not decide between the two. -/
def UnresolvedConflict.Genuine (g : Grammar V) (c : UnresolvedConflict) : Prop :=
  ∃ s, g.automaton.states[c.state]? = some s ∧ c.lookahead < g.terminals.size ∧
    match c with
    | .shiftReduce _ t rule => .reduce rule ∈ s.candidates g t ∧
        (∃ a ∈ s.candidates g t, ∀ k, a ≠ .reduce k) ∧ g.decideShiftReduce? t rule = none
    | .reduceReduce _ t first second => .reduce first ∈ s.candidates g t ∧
        .reduce second ∈ s.candidates g t ∧ first ≠ second ∧
        g.decideReduceReduce? first second = none

/-- The terminal of a candidate is one that a token can have, so not `$epsilon`. -/
theorem candidate_bounds (wf : g.WellFormed) (hs : g.automaton.states[q]? = some s) {a : Action}
    (h : s.Candidate g t a) : t ≠ Terminal.epsilon ∧ t < g.terminals.size := by
  cases h with
  | shift hp =>
    obtain ⟨k, rule, hrule, hm⟩ := mem_symbols_of_transition wf ((mem_edges_iff wf hs).1 hp)
    obtain ⟨hreserved, hlt⟩ := wf.terminal hrule hm
    exact ⟨Nat.ne_of_gt hreserved, hlt⟩
  | accept _ _ ht =>
    subst ht
    exact ⟨by decide, Grammar.eof_lt wf⟩
  | @reduce i la hi _ _ ht =>
    obtain ⟨w, -, hpath⟩ := (Grammar.looksAhead_iff_path wf).1 ⟨s, la, hs, hi, ht⟩
    exact hpath.bounds wf

/-- A construction that fails does so at the row of a state. -/
theorem exists_failing_row {c : UnresolvedConflict} (h : g.analyze.outcome = .error c) :
    ∃ q s, g.automaton.states[q]? = some s ∧ RowDraft.ofState g q s = .error c := by
  obtain ⟨done, ⟨s, q⟩, r', hpre, -, hadd⟩ := (foldlM_cases (f := Synthesis.add g)
    (P := fun _ _ => True) trivial fun _ _ _ _ _ _ _ => trivial).2 c h
  have hmem : (s, q) ∈ g.automaton.states.toList.zipIdx := hpre.subset (by simp)
  have hget := List.mem_zipIdx_iff_getElem?.1 hmem
  rw [Array.getElem?_toList] at hget
  refine ⟨q, s, hget, ?_⟩
  unfold Synthesis.add at hadd
  cases hd : RowDraft.ofState g q s with
  | ok d => simp [hd, bind, Except.bind, pure, Except.pure] at hadd
  | error e => simpa [hd, bind, Except.bind] using hadd

/-- **A conflict that ends the construction is one of the automaton.** -/
theorem genuine_of_error (wf : g.WellFormed) {c : UnresolvedConflict}
    (h : g.analyze.outcome = .error c) : c.Genuine g := by
  obtain ⟨q, s, hs, hrow⟩ := exists_failing_row h
  obtain ⟨rule, t, before, after, d, hsplit, hacc, hadd⟩ :=
    (RowDraft.accounts_ofState (nodup_edges wf hs) (eof_not_edge wf hs)).2 c hrow
  have hrule : .reduce rule ∈ s.candidates g t := by rw [hsplit]; simp
  have hlt := (candidate_bounds wf hs ((candidate_iff wf hs).1 hrule)).2
  have hbefore : ∀ a, d.row.find? t = some a → a ∈ before := fun a ha => hacc.mem ha
  have hsub : ∀ a ∈ before, a ∈ s.candidates g t := fun a ha => by rw [hsplit]; simp [ha]
  rcases RowDraft.error_of_addReduce hadd with ⟨existing, rfl, hf, hopen⟩ | ⟨a, rfl, hf, ha, hopen⟩
  · -- the rule in the cell came before the one that met it, and no rule comes twice
    have hmem := hbefore _ hf
    refine ⟨s, hs, hlt, hsub _ hmem, hrule, ?_, hopen⟩
    rintro rfl
    have hnodup := nodup_candidates (t := t) wf hs
    rw [hsplit, List.nodup_append] at hnodup
    exact hnodup.2.2 _ hmem _ List.mem_cons_self rfl
  · exact ⟨s, hs, hlt, hrule, ⟨a, hsub a (hbefore a hf), ha⟩, hopen⟩

/-- The start rule is complete only where `$eof` may follow. -/
theorem accept_of_complete (wf : g.WellFormed) (hfit : g.CodesFit)
    (hs : g.automaton.states[q]? = some s) (hi : ⟨0, 1⟩ ∈ s.core) :
    .accept ∈ s.candidates g Terminal.eof := by
  have hcan := canonical_automaton wf hfit
  obtain ⟨w, hw⟩ := hcan.reachable q (Array.getElem?_eq_some_iff.1 hs).1
  -- the start rule is opened by no item, so its dot was moved all the way from the first state
  have hpath : ∀ {w i}, g.HasItem w i → i.rule = 0 → g.PathLookahead w i Terminal.eof := by
    intro w i h
    refine h.induction wf hfit (P := fun w i => i.rule = 0 → g.PathLookahead w i Terminal.eof)
      (fun _ => .start) ?_ ?_
    · intro w i x hitem hx ih h0
      exact (ih h0).advance hx (hitem.advance wf hfit hx)
    · intro w i n k r hitem hx hr hl _ h0
      exact absurd h0 (Grammar.ne_zero_of_opened wf hx hr hl)
  obtain ⟨s', la, hs', hla, heof⟩ :=
    (Grammar.looksAhead_iff_path wf).2 ⟨w, hw, hpath ⟨q, s, hw, hs, hi⟩ rfl⟩
  rw [hs] at hs'
  cases hs'
  exact (candidate_iff wf hs).2 (.accept ((hcan.lookahead_iff hs _ _).2 hla) heof rfl)

/-- **The report is a complete and faithful account of the table.** After a successful analysis the
records about a cell account for its action; the accepting action is a candidate wherever the start
rule is complete. When the analysis fails, the conflict it names is one of the automaton. -/
theorem conflict_report_faithful (hg : g.Defined) :
    (g.CodesFit → ∀ r, g.analyze.outcome = .ok r → ∀ q s, g.automaton.states[q]? = some s →
      (⟨0, 1⟩ ∈ s.core → .accept ∈ s.candidates g Terminal.eof) ∧
      ∀ t first rest, t < g.terminals.size → s.candidates g t = first :: rest →
        FaithfulAccount first rest (r.notes q t) (r.table.action? q (g.terminalName t))) ∧
    ∀ c, g.analyze.outcome = .error c → c.Genuine g := by
  have wf := hg.wellFormed
  refine ⟨fun hfit r hr q s hs => ⟨accept_of_complete wf hfit hs, ?_⟩, fun c => genuine_of_error wf⟩
  intro t first rest ht hcs
  obtain ⟨d, hd, -, -⟩ := exists_row hr hs
  have hacc := accounts_of_row wf hs hd t
  rw [hcs] at hacc
  have hstates : g.automaton.states.toList[q]? = some s := by rw [Array.getElem?_toList]; exact hs
  rw [(notes_of_synthesis hr).2 q s d t hstates hd, action?_eq_find? wf hfit hr hs ht hd]
  exact hacc.1.faithful

end Table

/-- Sums, which group to the left, by one rule and by a second one that is the same. -/
def sumCalls : List (Call Nat) :=
  [.operators ["+"], .rule "E" ["E", "+", "E"], .rule "E" ["E", "+", "E"], .rule "E" ["n"],
   .start "E", .resolve ⟨false, false, true, true⟩]

/-- The grammar of sums. -/
def Grammar.sums : Grammar Nat :=
  (Grammar.define (sumCalls.forM Call.attempt)).toOption.get (by decide +kernel)

theorem Grammar.sums_defined : Grammar.sums.Defined :=
  ⟨sumCalls, eq_ok_get _ _⟩

theorem Grammar.sums_codesFit : Grammar.sums.CodesFit := by
  unfold CodesFit
  decide +kernel

/-- The table of sums. -/
def sumSynthesis : Synthesis :=
  Grammar.sums.analyze.outcome.toOption.get (by decide +kernel)

/-- Behind a sum a sign is settled twice, first against the shift and then between the two rules. -/
theorem sums_report :
    sumSynthesis.notes 4 2 =
      [⟨4, 2, .shiftReduce 1, .precedence .reduce⟩, ⟨4, 2, .reduceReduce 1 2, .earlierRule⟩] ∧
    FaithfulAccount (.shift 3) [.reduce 1, .reduce 2] (sumSynthesis.notes 4 2)
      (sumSynthesis.table.action? 4 "+") := by
  have hcell : Grammar.sums.automaton.states[4]?.map (·.candidates Grammar.sums 2) =
      some [.shift 3, .reduce 1, .reduce 2] := by
    decide +kernel
  obtain ⟨s, hs, hcandidates⟩ := Option.map_eq_some_iff.1 hcell
  have hreport := (conflict_report_faithful Grammar.sums_defined).1 Grammar.sums_codesFit
    sumSynthesis (eq_ok_get _ _) 4 s hs
  exact ⟨by decide +kernel, hreport.2 2 _ _ (by decide +kernel) hcandidates⟩

end ParserGen
