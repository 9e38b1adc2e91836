import ParserGen.Proofs.Table.ConflictReport

/-!
# Which reduction wins

Several rules may be complete in a state before the same terminal. The policy compares two of them at
a time, the one in the cell with the one that comes next. Both ways to compare are total orders on
rules, so that the rule left in the end is the best of all, and the order in which they came has no
say.

* `Preferred`: the order of the policy, with `Preferred.refl`, `trans`, `total` and `antisymm`.
* `decideReduceReduce?_preferred`: **of two rules the policy keeps the better one.**
* `Adds.holdsBest`: so a cell holds the best of the reductions that came to it so far.
* `reduce_reduce_winner`: **the winner is the best candidate of its state**, in whatever order the items
  are taken.
-/

namespace ParserGen

variable {V : Type} {g : Grammar V}

/-- The rule by which an action reduces. -/
def Action.rule? : Action → Option Nat
  | .reduce k => some k
  | _ => none

theorem Action.mem_rules {k : Nat} {cs : List Action} :
    k ∈ cs.filterMap Action.rule? ↔ .reduce k ∈ cs := by
  rw [List.mem_filterMap]
  constructor
  · rintro ⟨a, ha, hk⟩
    cases a with
    | shift p => cases hk
    | accept => cases hk
    | reduce k' =>
      cases hk
      exact ha
  · intro h
    exact ⟨_, h, rfl⟩

namespace Grammar

/-- The policy keeps the first of two rules, or they are the same: it is longer, or defined earlier and
not shorter; if the policy does not look at lengths, it is defined earlier. -/
def Preferred (g : Grammar V) (k k' : Nat) : Prop :=
  if g.resolution.longer then
    g.ruleLength k' < g.ruleLength k ∨ g.ruleLength k = g.ruleLength k' ∧ k ≤ k'
  else k ≤ k'

instance (k k' : Nat) : Decidable (g.Preferred k k') :=
  inferInstanceAs (Decidable (if g.resolution.longer then
    g.ruleLength k' < g.ruleLength k ∨ g.ruleLength k = g.ruleLength k' ∧ k ≤ k' else k ≤ k'))

/-! ## The order on rules -/

theorem preferred_of_longer (h : g.resolution.longer = true) {k k' : Nat} : g.Preferred k k' ↔
    g.ruleLength k' < g.ruleLength k ∨ g.ruleLength k = g.ruleLength k' ∧ k ≤ k' := by
  unfold Preferred
  rw [if_pos h]

theorem preferred_of_not_longer (h : g.resolution.longer = false) {k k' : Nat} :
    g.Preferred k k' ↔ k ≤ k' := by
  unfold Preferred
  rw [if_neg (by simp [h])]

theorem Preferred.refl (k : Nat) : g.Preferred k k := by
  unfold Preferred
  split
  · exact Or.inr ⟨rfl, le_rfl⟩
  · exact le_rfl

theorem Preferred.trans {i j k : Nat} (hij : g.Preferred i j) (hjk : g.Preferred j k) :
    g.Preferred i k := by
  unfold Preferred at *
  split at hij
  · rename_i hlonger
    rw [if_pos hlonger] at hjk ⊢
    omega
  · rename_i hlonger
    rw [if_neg hlonger] at hjk ⊢
    omega

theorem Preferred.antisymm {k k' : Nat} (h : g.Preferred k k') (h' : g.Preferred k' k) : k = k' := by
  unfold Preferred at *
  split at h
  · rename_i hlonger
    rw [if_pos hlonger] at h'
    omega
  · rename_i hlonger
    rw [if_neg hlonger] at h'
    omega

theorem Preferred.total (k k' : Nat) : g.Preferred k k' ∨ g.Preferred k' k := by
  unfold Preferred
  split
  · omega
  · omega

/-- One of several rules is the best. -/
theorem exists_preferred {rules : List Nat} (h : rules ≠ []) :
    ∃ k ∈ rules, ∀ k' ∈ rules, g.Preferred k k' := by
  induction rules with
  | nil => exact absurd rfl h
  | cons k rest ih =>
    by_cases hrest : rest = []
    · subst hrest
      exact ⟨k, List.mem_cons_self, List.forall_mem_singleton.2 (Preferred.refl k)⟩
    · obtain ⟨best, hbest, hle⟩ := ih hrest
      rcases Preferred.total (g := g) k best with hk | hk
      · refine ⟨k, List.mem_cons_self, List.forall_mem_cons.2 ⟨Preferred.refl k, ?_⟩⟩
        intro k' hk'
        exact hk.trans (hle k' hk')
      · exact ⟨best, List.mem_cons_of_mem _ hbest, List.forall_mem_cons.2 ⟨hk, hle⟩⟩

/-- **Of two rules the policy keeps the better one**, if it prefers earlier rules at all. -/
theorem decideReduceReduce?_preferred (hearlier : g.resolution.earlier = true) (existing rule : Nat) :
    ∃ kept resolution, g.decideReduceReduce? existing rule = some (kept, resolution) ∧
      (kept = existing ∨ kept = rule) ∧ g.Preferred kept existing ∧ g.Preferred kept rule := by
  unfold decideReduceReduce?
  simp only [hearlier, if_true]
  by_cases hlonger : g.resolution.longer = true
  · simp only [preferred_of_longer hlonger, hlonger, true_and]
    by_cases hlength : g.ruleLength existing = g.ruleLength rule
    · -- rules of the same length are told apart by their numbers
      rw [if_neg (by simp [hlength])]
      refine ⟨_, _, rfl, ?_⟩
      by_cases hlt : existing < rule
      · rw [if_pos hlt]
        omega
      · rw [if_neg hlt]
        omega
    · rw [if_pos hlength]
      refine ⟨_, _, rfl, ?_⟩
      by_cases hgt : g.ruleLength existing > g.ruleLength rule
      · rw [if_pos hgt]
        omega
      · rw [if_neg hgt]
        omega
  · rw [Bool.not_eq_true] at hlonger
    simp only [preferred_of_not_longer hlonger, hlonger, Bool.false_eq_true, false_and, if_false]
    refine ⟨_, _, rfl, ?_⟩
    by_cases hlt : existing < rule
    · rw [if_pos hlt]
      omega
    · rw [if_neg hlt]
      omega

end Grammar

namespace RowDraft

/-! ## The cell of a winner -/

/-- The cell holds the best of the reductions that came to it, and nothing if none came. -/
def HoldsBest (g : Grammar V) (d : RowDraft) (t : Nat) (cs : List Action) : Prop :=
  d.barred.contains t = false ∧
    ((cs = [] ∧ d.row.find? t = none) ∨
      ∃ k, d.row.find? t = some (.reduce k) ∧ .reduce k ∈ cs ∧
        ∀ k', .reduce k' ∈ cs → g.Preferred k k')

variable {q rule t : Nat} {d d' : RowDraft}

theorem HoldsBest.not_shift {cs : List Action} (h : HoldsBest g d t cs) {a : Action}
    (hf : d.row.find? t = some a) : ∃ k, a = .reduce k := by
  rcases h.2 with ⟨-, hnone⟩ | ⟨k, hk, -, -⟩
  · rw [hnone] at hf
    cases hf
  · rw [hk] at hf
    exact ⟨k, (Option.some.inj hf).symm⟩

/-- **One more reduction leaves the best of all in the cell.** -/
theorem Adds.holdsBest (hearlier : g.resolution.earlier = true) (h : Adds g q rule t d d')
    {cs : List Action} (hd : HoldsBest g d t cs) : HoldsBest g d' t (cs ++ [.reduce rule]) := by
  cases h with
  | barred hb =>
    -- a cell without shifts is never barred
    rw [hd.1] at hb
    cases hb
  | free hb hf =>
    refine ⟨hb, Or.inr ⟨rule, by simp [OrderedMap.find?_insert], by simp, ?_⟩⟩
    rcases hd.2 with ⟨rfl, -⟩ | ⟨k, hk, -, -⟩
    · intro k' hk'
      obtain rfl : k' = rule := by simpa using hk'
      exact Grammar.Preferred.refl k'
    · rw [hk] at hf
      cases hf
  | @reduced existing kept discarded resolution hb hf hdecide hdiscarded =>
    rcases hd.2 with ⟨-, hnone⟩ | ⟨k, hk, hmem, hbest⟩
    · rw [hnone] at hf
      cases hf
    rw [hk] at hf
    cases hf
    obtain ⟨kept', resolution', hdecide', hkept, hold, hnew⟩ :=
      Grammar.decideReduceReduce?_preferred hearlier existing rule
    obtain ⟨rfl, rfl⟩ : kept' = kept ∧ resolution' = resolution := by
      simpa [hdecide'] using hdecide
    refine ⟨hb, Or.inr ⟨kept', by simp [record, OrderedMap.find?_insert], ?_, ?_⟩⟩
    · rcases hkept with rfl | rfl
      · exact List.mem_append_left _ hmem
      · simp
    · -- what the kept rule is not compared with, the former winner was
      intro k' hk'
      rcases List.mem_append.1 hk' with hk' | hk'
      · exact hold.trans (hbest k' hk')
      · obtain rfl : k' = rule := by simpa using hk'
        exact hnew
  | shifted _ hf ha _ _ =>
    obtain ⟨k, rfl⟩ := hd.not_shift hf
    exact absurd rfl (ha k)
  | replaced _ hf ha _ =>
    obtain ⟨k, rfl⟩ := hd.not_shift hf
    exact absurd rfl (ha k)
  | emptied _ hf ha _ =>
    obtain ⟨k, rfl⟩ := hd.not_shift hf
    exact absurd rfl (ha k)

theorem holdsBest_invariant (hearlier : g.resolution.earlier = true) (free : Nat → Prop) :
    CellInvariant g q fun d t cs => free t → HoldsBest g d t cs where
  own h hd ho := h.holdsBest hearlier (hd ho)
  elsewhere h hu hd ho := by
    obtain ⟨hrow, hbarred, -⟩ := h.frame hu
    unfold HoldsBest
    rw [hrow, hbarred]
    exact hd ho

/-- **In a cell that nothing else competes for the best reduction wins**, and it never makes the row
fail. -/
theorem holdsBest_of_ofState (hearlier : g.resolution.earlier = true) {s : State}
    (hnd : (s.edges.map (·.1)).Nodup) (heof : ∀ p, (Symbol.terminal Terminal.eof, p) ∉ s.edges)
    (hopen : s.openings t = []) :
    (∀ d, ofState g q s = .ok d → HoldsBest g d t (s.candidates g t)) ∧
      ∀ c, ofState g q s = .error c → c.lookahead ≠ t := by
  have hstart : ∀ u, s.openings u = [] →
      HoldsBest g { row := shifts s, barred := ∅, resolved := #[] } u (s.openings u) := by
    intro u hu
    refine ⟨IndexSet.contains_empty u, Or.inl ⟨hu, ?_⟩⟩
    have hlist := toList_find?_shifts hnd heof u
    rw [hu] at hlist
    simpa using hlist
  obtain ⟨hok, herror⟩ :=
    (holdsBest_invariant hearlier fun u => s.openings u = []).ofState (q := q) hstart
  refine ⟨fun d h => hok d h t hopen, fun c h => ?_⟩
  obtain ⟨rule, u, before, after, d, -, hcell, hadd⟩ := herror c h
  rcases error_of_addReduce hadd with ⟨existing, rfl, -, hdecide⟩ | ⟨a, rfl, hf, ha, -⟩
  · obtain ⟨kept, resolution, hsome, -⟩ :=
      Grammar.decideReduceReduce?_preferred hearlier existing rule
    rw [hdecide] at hsome
    cases hsome
  · rintro rfl
    obtain ⟨k, rfl⟩ := (hcell hopen).not_shift hf
    exact ha k rfl

theorem HoldsBest.congr {cs cs' : List Action} (h : HoldsBest g d t cs) (hcs : ∀ a, a ∈ cs ↔ a ∈ cs') :
    HoldsBest g d t cs' := by
  refine ⟨h.1, ?_⟩
  rcases h.2 with ⟨rfl, hnone⟩ | ⟨k, hfind, hmem, hbest⟩
  · refine Or.inl ⟨List.eq_nil_iff_forall_not_mem.2 fun a ha => ?_, hnone⟩
    cases (hcs a).2 ha
  · exact Or.inr ⟨k, hfind, (hcs _).1 hmem, fun k' hk' => hbest k' ((hcs _).2 hk')⟩

theorem HoldsBest.find?_eq {cs : List Action} {k : Nat} (h : HoldsBest g d t cs)
    (hk : .reduce k ∈ cs) (hbest : ∀ k', .reduce k' ∈ cs → g.Preferred k k') :
    d.row.find? t = some (.reduce k) := by
  rcases h.2 with ⟨rfl, -⟩ | ⟨k', hfind, hmem, hle⟩
  · cases hk
  · rw [hfind, (hbest k' hmem).antisymm (hle k hk)]

end RowDraft

namespace State

variable {s s' : State} {t : Nat}

theorem openings_eq_nil (hnd : (s.edges.map (·.1)).Nodup)
    (hshift : ∀ p, ¬ s.Candidate g t (.shift p)) (haccept : ¬ s.Candidate g t .accept) :
    s.openings t = [] := by
  rw [List.eq_nil_iff_forall_not_mem]
  intro a ha
  rcases (mem_openings hnd).1 ha with ⟨p, rfl, hp⟩ | ⟨rfl, ht, la, hla, hc⟩
  · exact hshift p (.shift hp)
  · exact haccept (.accept hla hc ht)

/-- A state whose items are taken in another order proposes the same actions. -/
theorem candidate_iff_of_perm (hcore : s.core.Nodup) (hitems : s'.items.Perm s.items)
    (hedges : s'.edges = s.edges) {a : Action} : s'.Candidate g t a ↔ s.Candidate g t a := by
  have hcore' : s'.core.Nodup := (hitems.map _).nodup_iff.2 hcore
  have hlookup : ∀ {i la}, s'.lookahead? i = some la ↔ s.lookahead? i = some la := by
    intro i la
    unfold State.lookahead?
    rw [lookup_eq_some_iff_mem hcore', lookup_eq_some_iff_mem hcore, hitems.mem_iff]
  constructor
  · rintro (h | ⟨hla, hc, ht⟩ | ⟨hi, h0, hc, ht⟩)
    · exact .shift (hedges ▸ h)
    · exact .accept (hlookup.1 hla) hc ht
    · exact .reduce (hitems.mem_iff.1 hi) h0 hc ht
  · rintro (h | ⟨hla, hc, ht⟩ | ⟨hi, h0, hc, ht⟩)
    · exact .shift (hedges ▸ h)
    · exact .accept (hlookup.2 hla) hc ht
    · exact .reduce (hitems.mem_iff.2 hi) h0 hc ht

end State

/-! ## Tables -/

namespace Grammar

/-- A state has some reductions on a terminal, but neither a shift nor the accepting action. -/
structure LeftToReductions (g : Grammar V) (q t : Nat) (s : State) : Prop where
  state : g.automaton.states[q]? = some s
  shift : g.automaton.transition? q (.terminal t) = none
  accept : ¬ s.Candidate g t .accept
  reduce : ∃ k, s.Candidate g t (.reduce k)

/-- What a cell comes to if a rule wins it: the construction does not fail there, and if it succeeds
the table has the reduction; and so it is in whatever order the items of the state are taken. -/
structure WinsCell (g : Grammar V) (q t : Nat) (s : State) (k : Nat) : Prop where
  settled : ∀ {c : UnresolvedConflict}, g.analyze.outcome = .error c →
    ¬ (c.state = q ∧ c.lookahead = t)
  action : ∀ {r : Synthesis}, g.analyze.outcome = .ok r →
    r.table.action? q (g.terminalName t) = some (.reduce k)
  reordered : ∀ {s' : State}, s'.items.Perm s.items → s'.edges = s.edges →
    (∀ c, RowDraft.ofState g q s' = .error c → c.lookahead ≠ t) ∧
    ∀ d, RowDraft.ofState g q s' = .ok d → d.row.find? t = some (.reduce k)

namespace LeftToReductions

variable {q t : Nat} {s : State}

theorem only_reduce (wf : g.WellFormed) (h : g.LeftToReductions q t s) {a : Action}
    (ha : s.Candidate g t a) : ∃ k, a = .reduce k := by
  cases ha with
  | shift hp =>
    have hnone := h.shift
    rw [(mem_edges_iff wf h.state).1 hp] at hnone
    cases hnone
  | accept hla hc ht => exact absurd (.accept hla hc ht) h.accept
  | @reduce i _ _ _ _ _ => exact ⟨i.rule, rfl⟩

theorem exists_best (wf : g.WellFormed) (h : g.LeftToReductions q t s) :
    ∃ k, .reduce k ∈ s.candidates g t ∧ ∀ k', .reduce k' ∈ s.candidates g t → g.Preferred k k' := by
  obtain ⟨k₀, hk₀⟩ := h.reduce
  have hne := List.ne_nil_of_mem (Action.mem_rules.2 ((candidate_iff wf h.state).2 hk₀))
  obtain ⟨k, hk, hbest⟩ := exists_preferred (g := g) hne
  exact ⟨k, Action.mem_rules.1 hk, fun k' hk' => hbest k' (Action.mem_rules.2 hk')⟩

/-- In every order of the items the cell is left to the reductions, of which the best wins. -/
theorem holdsBest (wf : g.WellFormed) (hearlier : g.resolution.earlier = true)
    (h : g.LeftToReductions q t s) {s' : State} (hitems : s'.items.Perm s.items)
    (hedges : s'.edges = s.edges) :
    (∀ c, RowDraft.ofState g q s' = .error c → c.lookahead ≠ t) ∧
    ∀ d, RowDraft.ofState g q s' = .ok d → RowDraft.HoldsBest g d t (s.candidates g t) := by
  have hnd := nodup_edges wf h.state
  have hnd' : (s'.edges.map (·.1)).Nodup := hedges ▸ hnd
  have heof : ∀ p, (Symbol.terminal Terminal.eof, p) ∉ s'.edges := hedges ▸ eof_not_edge wf h.state
  have hsame : ∀ a, s'.Candidate g t a ↔ s.Candidate g t a := fun _ =>
    State.candidate_iff_of_perm (nodup_core_of_state wf h.state) hitems hedges
  have hopen : s'.openings t = [] := by
    refine State.openings_eq_nil hnd' (fun p hp => ?_) fun hp => h.accept ((hsame _).1 hp)
    obtain ⟨k, hk⟩ := h.only_reduce wf ((hsame _).1 hp)
    cases hk
  obtain ⟨hok, herror⟩ := RowDraft.holdsBest_of_ofState (q := q) hearlier hnd' heof hopen
  refine ⟨herror, fun d hd => (hok d hd).congr fun a => ?_⟩
  rw [State.mem_candidates hnd', State.mem_candidates hnd]
  exact hsame a

/-- A conflict in the cell would need a shift, or two rules of which the policy prefers none. -/
theorem settled (wf : g.WellFormed) (hearlier : g.resolution.earlier = true)
    (h : g.LeftToReductions q t s) {c : UnresolvedConflict} (hc : g.analyze.outcome = .error c) :
    ¬ (c.state = q ∧ c.lookahead = t) := by
  rintro ⟨rfl, rfl⟩
  obtain ⟨s', hs', -, hgenuine⟩ := genuine_of_error wf hc
  obtain rfl : s = s' := Option.some.inj (h.state.symm.trans hs')
  cases c with
  | shiftReduce q t rule =>
    obtain ⟨-, ⟨a, ha, hother⟩, -⟩ := hgenuine
    obtain ⟨k, rfl⟩ := h.only_reduce wf ((candidate_iff wf hs').1 ha)
    exact hother k rfl
  | reduceReduce q t first second =>
    obtain ⟨-, -, -, hdecide⟩ := hgenuine
    obtain ⟨kept, resolution, hkept, -⟩ := decideReduceReduce?_preferred hearlier first second
    rw [hdecide] at hkept
    cases hkept

end LeftToReductions

end Grammar

/-- **The best candidate wins.** Where a state has some reductions on a terminal, but neither a shift
nor the accepting action, a policy that prefers earlier rules leaves one of them: the best, which is the
longest, and among the longest the one defined first; or simply the one defined first, if the policy
does not look at lengths. -/
theorem reduce_reduce_winner (hg : g.Defined) (hearlier : g.resolution.earlier = true) {q t : Nat}
    {s : State} (h : g.LeftToReductions q t s) :
    ∃ k, s.Candidate g t (.reduce k) ∧ (∀ k', s.Candidate g t (.reduce k') → g.Preferred k k') ∧
      g.WinsCell q t s k := by
  have wf := hg.wellFormed
  obtain ⟨k, hk, hbest⟩ := h.exists_best wf
  have hcand := (candidate_iff wf h.state).1 hk
  refine ⟨k, hcand, fun k' hk' => hbest k' ((candidate_iff wf h.state).2 hk'), ?_, ?_, ?_⟩
  · exact h.settled wf hearlier
  · intro r hr
    obtain ⟨d, hd, -, -⟩ := exists_row hr h.state
    have hfind := ((h.holdsBest wf hearlier (List.Perm.refl _) rfl).2 d hd).find?_eq hk hbest
    rw [action?_eq_map_find? wf hr h.state (candidate_bounds wf h.state hcand).2 hd, hfind,
      Option.map_some, Action.decode_encode (by simp) (by simp [hcand.rule_ne_zero])]
  · intro s' hitems hedges
    obtain ⟨herror, hok⟩ := h.holdsBest wf hearlier hitems hedges
    exact ⟨herror, fun d hd => (hok d hd).find?_eq hk hbest⟩

/-- Four ways to read `x y z`, by rules of one, two and three components. -/
def rivalCalls (policy : Policy) : List (Call Nat) :=
  [.rule "S" ["x", "y", "B"], .rule "S" ["x", "C"], .rule "S" ["E"], .rule "S" ["D"], .rule "B" ["z"],
   .rule "C" ["y", "z"], .rule "D" ["x", "y", "z"], .rule "E" ["x", "y", "z"], .start "S",
   .resolve policy]

/-- The grammar of these rules under a policy that looks at their lengths first. -/
def Grammar.rivals : Grammar Nat :=
  (Grammar.define ((rivalCalls .all).forM Call.attempt)).toOption.get (by decide +kernel)

/-- The grammar of these rules under a policy that looks at their numbers only. -/
def Grammar.ranked : Grammar Nat :=
  (Grammar.define ((rivalCalls { Policy.none with earlier := true }).forM Call.attempt)).toOption.get
    (by decide +kernel)

/-- The rules that are complete behind `x y z`, in the order of their items. -/
def rivalRules : List Nat := [8, 7, 6, 5]

/-- Behind `x y z` nothing but the four rules competes. -/
theorem leftToReductions_rivals {g : Grammar Nat} (wf : g.WellFormed)
    (hcell : g.automaton.states[8]?.map (·.candidates g Terminal.eof) =
      some (rivalRules.map Action.reduce))
    (hshift : g.automaton.transition? 8 (.terminal Terminal.eof) = none) :
    ∃ s, g.LeftToReductions 8 Terminal.eof s ∧
      ∀ k, s.Candidate g Terminal.eof (.reduce k) ↔ k ∈ rivalRules := by
  obtain ⟨s, hs, hcandidates⟩ := Option.map_eq_some_iff.1 hcell
  have hcand : ∀ a, s.Candidate g Terminal.eof a ↔ a ∈ rivalRules.map Action.reduce := by
    intro a
    rw [← candidate_iff wf hs, hcandidates]
  refine ⟨s, ⟨hs, hshift, ?_, 8, ?_⟩, ?_⟩
  · rw [hcand]
    decide
  · rw [hcand]
    decide
  · intro k
    rw [hcand, List.mem_map]
    simp

/-- Behind `x y z` the second of the four items wins by its length and its number, and the last one by
its number alone. -/
theorem rivals_winner :
    (∃ s, Grammar.rivals.LeftToReductions 8 Terminal.eof s ∧
      Grammar.rivals.WinsCell 8 Terminal.eof s 7) ∧
    ∃ s, Grammar.ranked.LeftToReductions 8 Terminal.eof s ∧
      Grammar.ranked.WinsCell 8 Terminal.eof s 5 := by
  constructor
  · have hg : Grammar.rivals.Defined := ⟨_, eq_ok_get _ _⟩
    obtain ⟨s, h, hrules⟩ :=
      leftToReductions_rivals hg.wellFormed (by decide +kernel) (by decide +kernel)
    obtain ⟨k, hk, hbest, hwins⟩ := reduce_reduce_winner hg (by decide +kernel) h
    have hle : ∀ k ∈ rivalRules, Grammar.rivals.Preferred 7 k := by decide +kernel
    obtain rfl : k = 7 := (hbest 7 ((hrules 7).2 (by decide))).antisymm (hle k ((hrules k).1 hk))
    exact ⟨s, h, hwins⟩
  · have hg : Grammar.ranked.Defined := ⟨_, eq_ok_get _ _⟩
    obtain ⟨s, h, hrules⟩ :=
      leftToReductions_rivals hg.wellFormed (by decide +kernel) (by decide +kernel)
    obtain ⟨k, hk, hbest, hwins⟩ := reduce_reduce_winner hg (by decide +kernel) h
    have hle : ∀ k ∈ rivalRules, Grammar.ranked.Preferred 5 k := by decide +kernel
    obtain rfl : k = 5 := (hbest 5 ((hrules 5).2 (by decide))).antisymm (hle k ((hrules k).1 hk))
    exact ⟨s, h, hwins⟩

end ParserGen
