import ParserGen.Proofs.Table.Accounts

/-!
# The cells of a table

A table is read by names and integers, a row is written by numbers and actions. Names of terminals
and nonterminals are distinct, no edge leads to state `0` and no cell reduces by rule `0`, so what is
read is what was written.

* `action?_eq_find?`: the actions of the table are those of the rows.
* `goto?_eq_transition?`: the gotos of the table are the transitions over nonterminals.
* `action?_candidate`: **an action of the table is a candidate of its state**, under every policy.
* `action?_of_candidate`: **without settled conflicts the table holds every candidate.**
-/

namespace ParserGen

variable {V : Type} {g : Grammar V}

namespace Grammar

theorem terminalName_inj (wf : g.WellFormed) {t u : Nat} (ht : t < g.terminals.size)
    (h : g.terminalName t = g.terminalName u) : t = u := by
  have hname := NameTable.name?_of_lt ht
  by_cases hu : u < g.terminals.size
  · refine NameTable.name?_inj hname ?_
    rw [NameTable.name?_of_lt hu]
    exact congrArg some h.symm
  · -- a number that is not in use has the empty name, which is no terminal's
    have hempty : g.terminalName u = "" := by
      have hge : ¬ u < g.terminals.names.size := hu
      simp [terminalName, NameTable.name, hge]
    refine absurd hname ?_
    show g.terminals.name? t ≠ some (g.terminalName t)
    rw [h, hempty]
    exact wf.terminal_ne t

theorem nonterminalName_inj {m n : Nat} (hm : m < g.nonterminals.size) (hn : n < g.nonterminals.size)
    (h : g.nonterminalName m = g.nonterminalName n) : m = n := by
  refine NameTable.name?_inj (NameTable.name?_of_lt hm) ?_
  rw [NameTable.name?_of_lt hn]
  exact congrArg some h.symm

theorem terminalName_eof (wf : g.WellFormed) : g.terminalName Terminal.eof = Token.eofKind :=
  NameTable.name_eq wf.eof

theorem eof_lt (wf : g.WellFormed) : Terminal.eof < g.terminals.size :=
  NameTable.lt_size_of_name? wf.eof

end Grammar

namespace ParseTable

/-- The table has the rows of a state. -/
structure HasRows (g : Grammar V) (t : ParseTable) (q : Nat) (s : State)
    (row : OrderedMap Nat Action) : Prop where
  action : t.action.find? q = some (actionRow g row)
  goto : t.goto.find? q = if (gotoRow g s).size = 0 then none else some (gotoRow g s)

theorem find?_addState_of_ne {t : ParseTable} {number q : Nat} (row : OrderedMap Nat Action)
    (s : State) (h : q ≠ number) :
    (t.addState g number row s).action.find? q = t.action.find? q ∧
      (t.addState g number row s).goto.find? q = t.goto.find? q := by
  unfold addState
  refine ⟨by rw [OrderedMap.find?_insert, if_neg h.symm], ?_⟩
  simp only
  split
  · rfl
  · rw [OrderedMap.find?_insert, if_neg h.symm]

theorem hasRows_addState {t : ParseTable} {number : Nat} (h : t.goto.find? number = none)
    (row : OrderedMap Nat Action) (s : State) :
    (t.addState g number row s).HasRows g number s row := by
  unfold addState
  refine ⟨by rw [OrderedMap.find?_insert, if_pos rfl], ?_⟩
  simp only
  split
  · exact h
  · rw [OrderedMap.find?_insert, if_pos rfl]

end ParseTable

/-- The last state adds its rows to the table, and its records to the report. -/
theorem exists_last {states : List State} {s : State} {r : Synthesis}
    (h : (states ++ [s]).zipIdx.foldlM (Synthesis.add g) { table := ⟨∅, ∅⟩, resolved := #[] } =
      .ok r) :
    ∃ (r' : Synthesis) (d : RowDraft),
      states.zipIdx.foldlM (Synthesis.add g) { table := ⟨∅, ∅⟩, resolved := #[] } = .ok r' ∧
        RowDraft.ofState g states.length s = .ok d ∧
        r = { table := r'.table.addState g states.length d.row s
              resolved := r'.resolved ++ d.resolved } := by
  rw [List.zipIdx_append, List.foldlM_append] at h
  obtain ⟨r', hr, h⟩ := exists_of_bind_ok h
  rw [List.zipIdx_singleton, List.foldlM_cons, Nat.zero_add] at h
  obtain ⟨r'', hadd, h⟩ := exists_of_bind_ok h
  cases h
  obtain ⟨d, hd, hadd⟩ := exists_of_bind_ok hadd
  cases hadd
  exact ⟨r', d, hr, hd, rfl⟩

theorem getElem?_concat_cases {α : Type} {l : List α} {a b : α} {i : Nat}
    (h : (l ++ [a])[i]? = some b) : (i < l.length ∧ l[i]? = some b) ∨ (i = l.length ∧ a = b) := by
  rcases Nat.lt_or_ge i l.length with hlt | hge
  · rw [List.getElem?_append_left hlt] at h
    exact Or.inl ⟨hlt, h⟩
  · have hlast := (List.getElem?_eq_some_iff.1 h).1
    rw [List.length_append, List.length_singleton] at hlast
    obtain rfl : i = l.length := by omega
    rw [List.getElem?_concat_length] at h
    exact Or.inr ⟨rfl, Option.some.inj h⟩

/-- **Each state has its rows in the table**, and nothing else has. -/
theorem rows_of_synthesis {states : List State} {r : Synthesis}
    (h : states.zipIdx.foldlM (Synthesis.add g) { table := ⟨∅, ∅⟩, resolved := #[] } = .ok r) :
    (∀ q s, states[q]? = some s → ∃ d, RowDraft.ofState g q s = .ok d ∧ r.table.HasRows g q s d.row ∧
      (r.resolved = #[] → d.resolved = #[])) ∧
    ∀ q, states.length ≤ q → r.table.action.find? q = none ∧ r.table.goto.find? q = none := by
  induction states using List.reverseRecOn generalizing r with
  | nil =>
    cases h
    exact ⟨by simp, fun q _ => ⟨rfl, rfl⟩⟩
  | append_singleton states s ih =>
    obtain ⟨r', d, hr, hd, rfl⟩ := exists_last h
    obtain ⟨hrows, hnone⟩ := ih hr
    refine ⟨fun q t ht => ?_, fun q hq => ?_⟩
    · rcases getElem?_concat_cases ht with ⟨hlt, ht⟩ | ⟨rfl, rfl⟩
      · -- the rows of earlier states are not touched
        obtain ⟨d', hd', hrow, hres⟩ := hrows q t ht
        obtain ⟨ha, hg⟩ := ParseTable.find?_addState_of_ne (g := g) (t := r'.table) d.row s
          (Nat.ne_of_lt hlt)
        refine ⟨d', hd', ⟨ha.trans hrow.action, hg.trans hrow.goto⟩, fun hq => hres ?_⟩
        exact (Array.append_eq_empty_iff.1 hq).1
      · exact ⟨d, hd, ParseTable.hasRows_addState (hnone _ le_rfl).2 d.row s, fun hq =>
          (Array.append_eq_empty_iff.1 hq).2⟩
    · rw [List.length_append, List.length_singleton] at hq
      obtain ⟨ha, hg⟩ := ParseTable.find?_addState_of_ne (g := g) (t := r'.table) d.row s
        (by omega : q ≠ states.length)
      obtain ⟨ha', hg'⟩ := hnone q (by omega)
      exact ⟨ha.trans ha', hg.trans hg'⟩

section Table

variable {r : Synthesis}

theorem exists_row (hr : g.analyze.outcome = .ok r) {q : Nat} {s : State}
    (hs : g.automaton.states[q]? = some s) :
    ∃ d, RowDraft.ofState g q s = .ok d ∧ r.table.HasRows g q s d.row ∧
      (r.resolved = #[] → d.resolved = #[]) :=
  (rows_of_synthesis hr).1 q s (by rw [Array.getElem?_toList]; exact hs)

/-- What a table has for a state, it has for a state of the automaton. -/
theorem exists_state (hr : g.analyze.outcome = .ok r) {q : Nat}
    (h : r.table.action.find? q ≠ none ∨ r.table.goto.find? q ≠ none) :
    ∃ s, g.automaton.states[q]? = some s := by
  by_contra hno
  have hge : g.automaton.states.size ≤ q := by
    rw [← Array.getElem?_eq_none_iff]
    by_contra hne
    exact hno (Option.ne_none_iff_exists'.1 hne)
  obtain ⟨ha, hg⟩ := (rows_of_synthesis hr).2 q (by rw [Array.length_toList]; exact hge)
  exact h.elim (fun h => h ha) fun h => h hg

theorem contains_of_lt (hr : g.analyze.outcome = .ok r) {q : Nat} (hq : q < g.automaton.size) :
    r.table.action.contains q = true := by
  obtain ⟨d, -, hrows, -⟩ := exists_row hr (Array.getElem?_eq_getElem hq)
  exact (OrderedMap.contains_iff _ _).2 ⟨_, hrows.action⟩

theorem nodup_edges (wf : g.WellFormed) {q : Nat} {s : State}
    (hs : g.automaton.states[q]? = some s) : (s.edges.map (·.1)).Nodup := by
  rw [automaton_state] at hs
  obtain ⟨c, hc, rfl⟩ := Option.map_eq_some_iff.1 hs
  obtain ⟨d, hex⟩ := g.explores_collection wf
  show (c.edges.map (·.1)).Nodup
  rw [Discovery.keys_of_leads (describes_found wf hex hc).edges]
  exact Grammar.nodup_keys_successorKernels c.items

theorem mem_edges_iff (wf : g.WellFormed) {q p : Nat} {x : Symbol} {s : State}
    (hs : g.automaton.states[q]? = some s) :
    (x, p) ∈ s.edges ↔ g.automaton.transition? q x = some p := by
  unfold Automaton.transition?
  rw [hs]
  exact (lookup_eq_some_iff_mem (nodup_edges wf hs)).symm

/-- A symbol that leads on from a state is one of a right side. -/
theorem mem_symbols_of_transition (wf : g.WellFormed) {q p : Nat} {x : Symbol}
    (h : g.automaton.transition? q x = some p) : ∃ (k : Nat) (r : Rule V),
      g.rules[k]? = some r ∧ x ∈ r.symbols := by
  obtain ⟨c, hc, he⟩ := (transition?_eq wf).1 h
  obtain ⟨i, -, hx⟩ := (exists_edge_iff wf hc).1 ⟨p, he⟩
  obtain ⟨r, hr, hm⟩ := Grammar.symbolAfterDot_cases hx
  exact ⟨i.rule, r, hr, List.mem_of_getElem? hm⟩

/-- No edge leads over `$eof`, which is a component of no rule. -/
theorem eof_not_edge (wf : g.WellFormed) {q : Nat} {s : State} (hs : g.automaton.states[q]? = some s)
    (p : Nat) : (Symbol.terminal Terminal.eof, p) ∉ s.edges := by
  intro hp
  obtain ⟨k, rule, hrule, hm⟩ := mem_symbols_of_transition wf ((mem_edges_iff wf hs).1 hp)
  exact absurd (wf.terminal hrule hm).1 (by decide)

/-- A state that a symbol leads to is entered with moved dots. -/
theorem dot_pos_of_transition (wf : g.WellFormed) (hfit : g.CodesFit) {q p : Nat} {x : Symbol}
    {t : State} (h : g.automaton.transition? q x = some p) (ht : g.automaton.states[p]? = some t)
    {i : Item} (hi : i ∈ t.coreKernel) : 0 < i.dot := by
  have hcan := canonical_automaton wf hfit
  obtain ⟨s, hs, -⟩ := hcan.transition_iff.1 ⟨p, h⟩
  obtain ⟨t', ht', hmem⟩ := hcan.target hs h
  rw [ht] at ht'
  cases ht'
  obtain ⟨j, -, -, rfl⟩ := (hmem i).1 hi
  exact Nat.succ_pos j.dot

/-- No candidate is a shift to state `0` or a reduction by rule `0`, whose codes would be read as the
accepting action. -/
theorem candidate_ne_zero (wf : g.WellFormed) (hlen : g.LengthsFit) {q t : Nat} {s : State}
    {a : Action} (hs : g.automaton.states[q]? = some s) (ha : s.Candidate g t a) :
    a ≠ .shift 0 ∧ a ≠ .reduce 0 := by
  constructor
  · rintro rfl
    cases ha with
    | shift h => exact transition_ne_zero wf hlen ((mem_edges_iff wf hs).1 h)
  · rintro rfl
    exact ha.rule_ne_zero rfl

theorem decode_candidate (wf : g.WellFormed) (hlen : g.LengthsFit) {q t : Nat} {s : State} {a : Action}
    (hs : g.automaton.states[q]? = some s) (ha : s.Candidate g t a) :
    Action.decode a.encode = a :=
  Action.decode_encode (candidate_ne_zero wf hlen hs ha).1 (candidate_ne_zero wf hlen hs ha).2

/-- The row of a state is the account of its candidates. -/
theorem accounts_of_row (wf : g.WellFormed) {q : Nat} {s : State} {d : RowDraft}
    (hs : g.automaton.states[q]? = some s) (hd : RowDraft.ofState g q s = .ok d) (t : Nat) :
    d.Accounts t (s.candidates g t) :=
  (RowDraft.accounts_ofState (nodup_edges wf hs) (eof_not_edge wf hs)).1 d hd t

/-- An entry of a state's row is one of its candidates. -/
theorem candidate_of_row (wf : g.WellFormed) {q t : Nat} {s : State} {a : Action} {d : RowDraft}
    (hs : g.automaton.states[q]? = some s) (hd : RowDraft.ofState g q s = .ok d)
    (ha : d.row.find? t = some a) : s.Candidate g t a :=
  RowDraft.candidate_of_ofState (nodup_edges wf hs) (eof_not_edge wf hs) hd ha

theorem candidate_iff (wf : g.WellFormed) {q t : Nat} {s : State}
    (hs : g.automaton.states[q]? = some s) {a : Action} :
    a ∈ s.candidates g t ↔ s.Candidate g t a :=
  State.mem_candidates (nodup_edges wf hs)

/-- No action competes with itself: a rule has one complete item. -/
theorem nodup_candidates (wf : g.WellFormed) {q t : Nat} {s : State}
    (hs : g.automaton.states[q]? = some s) :
    (s.candidates g t).Nodup := by
  have hnd := nodup_edges wf hs
  unfold State.candidates
  rw [List.nodup_append]
  refine ⟨?_, State.nodup_reductions (nodup_core_of_state wf hs), ?_⟩
  · rw [← RowDraft.toList_find?_shifts hnd (eof_not_edge wf hs)]
    cases (RowDraft.shifts s).find? t <;> simp
  · rintro a ha b hb rfl
    obtain ⟨e, -, he⟩ := List.mem_filterMap.1 hb
    obtain ⟨-, -, -, rfl⟩ := State.reduction?_eq_some.1 he
    rcases (State.mem_openings hnd).1 ha with ⟨p, hp, -⟩ | ⟨hp, -⟩ <;> cases hp

/-- What an action row has under a name is the code of an action on a terminal of that name. -/
theorem exists_of_find?_actionRow {row : OrderedMap Nat Action} {name : String} {raw : Int}
    (h : (ParseTable.actionRow g row).find? name = some raw) :
    ∃ t a, name = g.terminalName t ∧ row.find? t = some a ∧ raw = a.encode := by
  obtain ⟨⟨t, a⟩, hm, he⟩ := List.mem_map.1 (OrderedMap.mem_of_find?_ofList h)
  cases he
  exact ⟨t, a, rfl, (OrderedMap.find?_eq_some_iff _ _ _).2 hm, rfl⟩

theorem find?_actionRow (wf : g.WellFormed) {t : Nat} (ht : t < g.terminals.size)
    (row : OrderedMap Nat Action) :
    (ParseTable.actionRow g row).find? (g.terminalName t) = (row.find? t).map Action.encode := by
  refine Option.ext fun raw => ?_
  rw [Option.map_eq_some_iff]
  constructor
  · intro h
    obtain ⟨u, a, hname, ha, hraw⟩ := exists_of_find?_actionRow h
    obtain rfl := Grammar.terminalName_inj wf ht hname
    exact ⟨a, ha, hraw.symm⟩
  · rintro ⟨a, ha, rfl⟩
    refine OrderedMap.find?_ofList (List.mem_map.2 ⟨(t, a), (OrderedMap.find?_eq_some_iff _ _ _).1 ha,
      rfl⟩) fun raw hm => ?_
    obtain ⟨⟨u, b⟩, hu, he⟩ := List.mem_map.1 hm
    simp only [Prod.mk.injEq] at he
    obtain ⟨hname, rfl⟩ := he
    obtain rfl := Grammar.terminalName_inj wf ht hname.symm
    rw [(OrderedMap.find?_eq_some_iff _ _ _).2 hu] at ha
    rw [Option.some.inj ha]

/-- A cell of the table is read back from the code of what the row of the state holds. -/
theorem action?_eq_map_find? (wf : g.WellFormed) (hr : g.analyze.outcome = .ok r) {q t : Nat}
    {s : State} (hs : g.automaton.states[q]? = some s) (ht : t < g.terminals.size) {d : RowDraft}
    (hd : RowDraft.ofState g q s = .ok d) :
    r.table.action? q (g.terminalName t) =
      (d.row.find? t).map fun a => Action.decode a.encode := by
  obtain ⟨d', hd', hrows, -⟩ := exists_row hr hs
  rw [hd] at hd'
  cases hd'
  unfold ParseTable.action?
  rw [hrows.action]
  simp only [bind, Option.bind, find?_actionRow wf ht]
  cases d.row.find? t with
  | none => rfl
  | some a => rfl

/-- **The table holds what the row of the state holds.** -/
theorem action?_eq_find? (wf : g.WellFormed) (hfit : g.CodesFit) (hr : g.analyze.outcome = .ok r)
    {q t : Nat} {s : State} (hs : g.automaton.states[q]? = some s) (ht : t < g.terminals.size)
    {d : RowDraft} (hd : RowDraft.ofState g q s = .ok d) :
    r.table.action? q (g.terminalName t) = d.row.find? t := by
  rw [action?_eq_map_find? wf hr hs ht hd]
  cases hf : d.row.find? t with
  | none => rfl
  | some a =>
    have ha := candidate_of_row wf hs hd hf
    rw [Option.map_some, decode_candidate wf hfit.lengthsFit hs ha]

/-- **An action of the table is a candidate of its state.** -/
theorem action?_candidate (wf : g.WellFormed) (hfit : g.CodesFit) (hr : g.analyze.outcome = .ok r)
    {q : Nat} {kind : String} {a : Action} (h : r.table.action? q kind = some a) :
    ∃ s t, g.automaton.states[q]? = some s ∧ kind = g.terminalName t ∧ s.Candidate g t a := by
  unfold ParseTable.action? at h
  obtain ⟨row, hrow, h⟩ := Option.bind_eq_some_iff.1 h
  obtain ⟨raw, hraw, h⟩ := Option.bind_eq_some_iff.1 h
  obtain ⟨s, hs⟩ := exists_state hr (Or.inl (by rw [hrow]; simp))
  obtain ⟨d, hd, hrows, -⟩ := exists_row hr hs
  rw [hrows.action] at hrow
  cases hrow
  obtain ⟨t, b, rfl, hfind, rfl⟩ := exists_of_find?_actionRow hraw
  have hb := candidate_of_row wf hs hd hfind
  refine ⟨s, t, hs, rfl, ?_⟩
  rw [← Option.some.inj h, decode_candidate wf hfit.lengthsFit hs hb]
  exact hb

/-- **Without settled conflicts the table holds every candidate.** -/
theorem action?_of_candidate (wf : g.WellFormed) (hfit : g.CodesFit) (hr : g.analyze.outcome = .ok r)
    (hq : r.resolved = #[]) {q t : Nat} {s : State} {a : Action}
    (hs : g.automaton.states[q]? = some s) (ht : t < g.terminals.size) (ha : s.Candidate g t a) :
    r.table.action? q (g.terminalName t) = some a := by
  obtain ⟨d, hd, -, hres⟩ := exists_row hr hs
  rw [action?_eq_find? wf hfit hr hs ht hd]
  exact RowDraft.find?_of_candidate (nodup_edges wf hs) (eof_not_edge wf hs) hd (hres hq) ha

theorem mem_gotoEntries {s : State} {name : String} {p : Nat} :
    (name, p) ∈ (s.edges.filterMap fun
      | (.terminal _, _) => none
      | (.nonterminal n, target) => some (g.nonterminalName n, target)) ↔
      ∃ n, name = g.nonterminalName n ∧ (Symbol.nonterminal n, p) ∈ s.edges := by
  rw [List.mem_filterMap]
  constructor
  · rintro ⟨⟨x, p'⟩, hm, he⟩
    cases x with
    | terminal u => cases he
    | nonterminal n => cases he; exact ⟨n, rfl, hm⟩
  · rintro ⟨n, rfl, hm⟩
    exact ⟨_, hm, rfl⟩

/-- What a goto row has under a name is the target of an edge over a nonterminal of that name. -/
theorem exists_of_find?_gotoRow {s : State} {name : String} {p : Nat}
    (h : (ParseTable.gotoRow g s).find? name = some p) :
    ∃ n, name = g.nonterminalName n ∧ (Symbol.nonterminal n, p) ∈ s.edges :=
  mem_gotoEntries.1 (OrderedMap.mem_of_find?_ofList h)

theorem lt_of_nonterminal_edge (wf : g.WellFormed) {q n p : Nat} {s : State}
    (hs : g.automaton.states[q]? = some s) (h : (Symbol.nonterminal n, p) ∈ s.edges) :
    n < g.nonterminals.size := by
  obtain ⟨k, rule, hrule, hm⟩ := mem_symbols_of_transition wf ((mem_edges_iff wf hs).1 h)
  exact (wf.nonterminal hrule hm).2

theorem find?_gotoRow (wf : g.WellFormed) {q n : Nat} {s : State}
    (hs : g.automaton.states[q]? = some s) (hn : n < g.nonterminals.size) :
    (ParseTable.gotoRow g s).find? (g.nonterminalName n) =
      g.automaton.transition? q (.nonterminal n) := by
  refine Option.ext fun p => ?_
  rw [← mem_edges_iff wf hs]
  constructor
  · intro h
    obtain ⟨m, hname, hm⟩ := exists_of_find?_gotoRow h
    rwa [Grammar.nonterminalName_inj hn (lt_of_nonterminal_edge wf hs hm) hname]
  · intro h
    refine OrderedMap.find?_ofList (mem_gotoEntries.2 ⟨n, rfl, h⟩) fun p' hm => ?_
    obtain ⟨m, hname, hm⟩ := mem_gotoEntries.1 hm
    obtain rfl := Grammar.nonterminalName_inj hn (lt_of_nonterminal_edge wf hs hm) hname
    rw [mem_edges_iff wf hs] at h hm
    rw [h] at hm
    exact (Option.some.inj hm).symm

/-- **The gotos of the table are the transitions over nonterminals.** -/
theorem goto?_eq_transition? (wf : g.WellFormed) (hr : g.analyze.outcome = .ok r) {n : Nat}
    (hn : n < g.nonterminals.size) (q : Nat) :
    r.table.goto? q (g.nonterminalName n) = g.automaton.transition? q (.nonterminal n) := by
  unfold ParseTable.goto?
  cases hs : g.automaton.states[q]? with
  | none =>
    have hnone : r.table.goto.find? q = none := by
      by_contra hne
      obtain ⟨s, hs'⟩ := exists_state hr (Or.inr hne)
      rw [hs] at hs'
      cases hs'
    unfold Automaton.transition?
    rw [hnone, hs]
    rfl
  | some s =>
    obtain ⟨d, -, hrows, -⟩ := exists_row hr hs
    rw [hrows.goto, ← find?_gotoRow wf hs hn]
    split
    · rename_i h0
      -- a row without entries has nothing under any name
      have hempty : ParseTable.gotoRow g s = ∅ := OrderedMap.ext (List.eq_nil_of_length_eq_zero h0)
      rw [hempty]
      rfl
    · rfl

theorem goto?_of_transition (wf : g.WellFormed) (hr : g.analyze.outcome = .ok r) {q n p : Nat}
    (h : g.automaton.transition? q (.nonterminal n) = some p) :
    r.table.goto? q (g.nonterminalName n) = some p := by
  obtain ⟨k, rule, hrule, hm⟩ := mem_symbols_of_transition wf h
  rw [goto?_eq_transition? wf hr (wf.nonterminal hrule hm).2]
  exact h

end Table

end ParserGen
