import ParserGen.Proofs.Grammar.Operators
import ParserGen.Proofs.Table.ConflictReport

/-!
# The integers of a table

While a table is made its cells are integers already: an action is written as its code, and a reduction
that comes later reads the cell back before it competes. Codes of shifts to state `0` and of reductions
by rule `0` would be read as the accepting action. Neither is ever written, so the detour changes
nothing, and a finished table is read as it was written.

* `addStoredItem`, `ofStored`: a row that is kept as integers.
* `ofStored_eq`: **it comes to the same actions and the same records.**
* `accept_kept`: **no reduction takes the place of the accepting action**, as `$eof` is no operator.
* `table_reads_as_written`: **what the integers of a table mean.**
-/

namespace ParserGen

variable {V : Type} {g : Grammar V}

namespace RowDraft

/-! ## A row that is kept as integers -/

/-- The draft as it is read back from its integers. -/
def reread (d : RowDraft) : RowDraft :=
  { d with row := d.row.mapValues fun _ a => Action.decode a.encode }

/-- Adds the reductions of an item to a draft of integers. -/
def addStoredItem (g : Grammar V) (state : Nat) (d : RowDraft) (e : Item × TerminalSet) :
    Except UnresolvedConflict RowDraft :=
  if e.1.rule = 0 ∨ g.isComplete e.1 = false then .ok d
  else e.2.toList.foldlM (fun d t => addReduce g state e.1.rule d.reread t) d

/-- The row of a state that is kept as integers, with its settled conflicts. -/
def ofStored (g : Grammar V) (number : Nat) (s : State) : Except UnresolvedConflict RowDraft :=
  s.items.foldlM (addStoredItem g number) { row := shifts s, barred := ∅, resolved := #[] }

/-- No cell holds an action whose code is read as the accepting action. -/
def Readable (d : RowDraft) : Prop :=
  ∀ t a, d.row.find? t = some a → a ≠ .shift 0 ∧ a ≠ .reduce 0

theorem Readable.decode_encode {d : RowDraft} (h : d.Readable) {t : Nat} {a : Action}
    (ha : d.row.find? t = some a) : Action.decode a.encode = a :=
  Action.decode_encode (h t a ha).1 (h t a ha).2

theorem Readable.reread_eq {d : RowDraft} (h : d.Readable) : d.reread = d := by
  unfold reread
  rw [OrderedMap.mapValues_eq_self fun t a ha => h.decode_encode ha]

variable {q rule t : Nat} {d d' : RowDraft}

theorem Readable.insert (h : d.Readable) (hrule : rule ≠ 0) (t u : Nat) (a : Action)
    (ha : (d.row.insert t (.reduce rule)).find? u = some a) : a ≠ .shift 0 ∧ a ≠ .reduce 0 := by
  rw [OrderedMap.find?_insert] at ha
  by_cases hu : t = u
  · rw [if_pos hu] at ha
    cases ha
    simp [hrule]
  · rw [if_neg hu] at ha
    exact h u a ha

/-- **A reduction leaves a readable draft behind**: the rule that is kept is one of the two that
compete. -/
theorem Adds.readable (h : Adds g q rule t d d') (hd : d.Readable) (hrule : rule ≠ 0) :
    d'.Readable := by
  cases h with
  | barred _ => exact hd
  | free _ _ => exact hd.insert hrule t
  | @reduced existing kept _ _ _ hf hdecide _ =>
    have hkept : kept ≠ 0 := by
      rcases (decideReduceReduce?_cases hdecide).1 with rfl | rfl
      · rintro rfl
        exact (hd t _ hf).2 rfl
      · exact hrule
    exact hd.insert hkept t
  | shifted _ _ _ _ _ => exact hd
  | replaced _ _ _ _ => exact hd.insert hrule t
  | emptied _ _ _ _ =>
    intro u a ha
    simp only [record, OrderedMap.find?_erase] at ha
    split at ha
    · cases ha
    · exact hd u a ha

/-- **A row that is kept as integers comes to the same actions and records**, and fails at the same
conflict, if its shifts are readable. -/
theorem ofStored_eq {n : Nat} {s : State}
    (h0 : Readable { row := shifts s, barred := ∅, resolved := #[] }) :
    ofStored g n s = ofState g n s := by
  have hreduce : ∀ {k : Nat}, k ≠ 0 → ∀ b u b', Readable b → addReduce g n k b u = .ok b' →
      Readable b' :=
    fun hk _ _ _ hb hadd => (adds_of_addReduce hadd).readable hb hk
  refine foldlM_congr_of_invariant ?_ ?_ h0
  · intro b e hb
    unfold addStoredItem addItem
    by_cases hskip : e.1.rule = 0 ∨ g.isComplete e.1 = false
    · rw [if_pos hskip, if_pos hskip]
    · rw [if_neg hskip, if_neg hskip]
      refine foldlM_congr_of_invariant ?_ (hreduce (not_or.1 hskip).1) hb
      intro b u hb
      rw [hb.reread_eq]
  · intro b e b' hb hitem
    unfold addItem at hitem
    split at hitem
    · cases hitem
      exact hb
    · rename_i hskip
      exact foldlM_invariant (fun b u b' _ => hreduce (not_or.1 hskip).1 b u b') hb hitem

/-! ## The accepting action -/

/-- Against the accepting action the policy can only prefer what it takes for a shift. -/
theorem decideShiftReduce?_eof (hg : g.Defined) {resolution : Resolution}
    (h : g.decideShiftReduce? Terminal.eof rule = some resolution) : resolution = .shift := by
  unfold Grammar.decideShiftReduce? at h
  simp only [Grammar.terminalName_eof hg.wellFormed, hg.operator?_eof, bind, Option.bind, ite_self] at h
  split at h
  · cases h
    rfl
  · cases h

/-- **No reduction takes the place of the accepting action.** -/
theorem accept_kept (hg : g.Defined) {n : Nat} {s : State}
    (h0 : (shifts s).find? Terminal.eof = some .accept) (h : ofState g n s = .ok d) :
    d.row.find? Terminal.eof = some .accept := by
  refine (ofState_invariant (P := fun d => d.row.find? Terminal.eof = some .accept ∧
    d.barred.contains Terminal.eof = false) ⟨h0, IndexSet.contains_empty _⟩ ?_ h).1
  rintro rule t d d' - ⟨haccept, hfree⟩ hadds
  by_cases ht : Terminal.eof = t
  · subst ht
    -- the cell is occupied by the accepting action, which is the only one that may stay
    cases hadds with
    | barred _ => exact ⟨haccept, hfree⟩
    | free _ hf => rw [haccept] at hf; cases hf
    | reduced _ hf _ _ => rw [haccept] at hf; cases hf
    | shifted _ _ _ _ _ => exact ⟨haccept, hfree⟩
    | replaced _ _ _ hdecide => cases decideShiftReduce?_eof hg hdecide
    | emptied _ _ _ hdecide => cases decideShiftReduce?_eof hg hdecide
  · obtain ⟨hrow, hbarred, -⟩ := hadds.frame ht
    exact ⟨hrow.trans haccept, hbarred.trans hfree⟩

/-! ## Tables -/

/-- The integers by terminals' names are the codes of a draft's actions, and none of them is read as
anything else. -/
structure StoredIn (g : Grammar V) (d : RowDraft) (row : OrderedMap String Int) : Prop where
  /-- No cell holds a shift to state `0` or a reduction by rule `0`. -/
  readable : d.Readable
  /-- What was written last is stored. -/
  stored : ∀ {t : Nat} {a : Action}, d.row.find? t = some a →
    row.find? (g.terminalName t) = some a.encode
  /-- What is stored is read as what was written last, on a terminal that is not `$epsilon`. -/
  written : ∀ {name : String} {raw : Int}, row.find? name = some raw →
    ∃ t, name = g.terminalName t ∧ t ≠ Terminal.epsilon ∧ t < g.terminals.size ∧
      d.row.find? t = some (Action.decode raw)

end RowDraft

/-- What a table says is what was written into it, and what the automaton has. -/
structure ParseTable.ReadsAsWritten (g : Grammar V) (t : ParseTable) : Prop where
  /-- A row of actions stores what was written for its state. -/
  action : ∀ {q : Nat} {row : OrderedMap String Int}, t.action.find? q = some row →
    ∃ s d, g.automaton.states[q]? = some s ∧ RowDraft.ofStored g q s = .ok d ∧ d.StoredIn g row
  /-- The gotos are kept under nonterminals, and none leads to state `0`. -/
  goto : ∀ {q p : Nat} {row : OrderedMap String Nat} {name : String}, t.goto.find? q = some row →
    row.find? name = some p → p ≠ 0 ∧ ∃ n < g.nonterminals.size, name = g.nonterminalName n
  /-- The accepting action is on `$eof`, in the states where the start rule is complete before it. -/
  accept : ∀ {q : Nat} {name : String}, t.action? q name = some .accept ↔
    name = Token.eofKind ∧ ∃ s la, g.automaton.states[q]? = some s ∧
      s.lookahead? ⟨0, 1⟩ = some la ∧ la.contains Terminal.eof = true

section Table

variable {r : Synthesis}

/-- What a row was made of, it would be made of as well if it were kept as integers. -/
theorem ofStored_of_row (wf : g.WellFormed) (hlen : g.LengthsFit) {q : Nat} {s : State} {d : RowDraft}
    (hs : g.automaton.states[q]? = some s) (hd : RowDraft.ofState g q s = .ok d) :
    RowDraft.ofStored g q s = .ok d ∧ d.Readable := by
  have hnd := nodup_edges wf hs
  have hreadable : ∀ {d : RowDraft}, (∀ t a, d.row.find? t = some a → s.Candidate g t a) →
      d.Readable :=
    fun h t a ha => candidate_ne_zero wf hlen hs (h t a ha)
  refine ⟨?_, hreadable fun t a => candidate_of_row wf hs hd⟩
  rw [RowDraft.ofStored_eq, hd]
  refine hreadable fun t a ha => (State.mem_candidates hnd).1 ?_
  unfold State.candidates
  rw [← RowDraft.toList_find?_shifts hnd (eof_not_edge wf hs), ha]
  simp

theorem storedIn_of_row (wf : g.WellFormed) (hlen : g.LengthsFit) {q : Nat} {s : State} {d : RowDraft}
    (hs : g.automaton.states[q]? = some s) (hd : RowDraft.ofState g q s = .ok d) :
    d.StoredIn g (ParseTable.actionRow g d.row) where
  readable := (ofStored_of_row wf hlen hs hd).2
  stored ha := by
    have hlt := (candidate_bounds wf hs (candidate_of_row wf hs hd ha)).2
    rw [find?_actionRow wf hlt, ha]
    rfl
  written h := by
    obtain ⟨t, a, hname, ha, rfl⟩ := exists_of_find?_actionRow h
    obtain ⟨hne, hlt⟩ := candidate_bounds wf hs (candidate_of_row wf hs hd ha)
    refine ⟨t, hname, hne, hlt, ?_⟩
    rw [(ofStored_of_row wf hlen hs hd).2.decode_encode ha]
    exact ha

/-- A goto is kept under a nonterminal and leads on. -/
theorem goto_entry (wf : g.WellFormed) (hlen : g.LengthsFit) (hr : g.analyze.outcome = .ok r)
    {q p : Nat} {row : OrderedMap String Nat} {name : String} (hrow : r.table.goto.find? q = some row)
    (hp : row.find? name = some p) : p ≠ 0 ∧ ∃ n < g.nonterminals.size, name = g.nonterminalName n := by
  obtain ⟨s, hs⟩ := exists_state hr (Or.inr (by rw [hrow]; simp))
  obtain ⟨d, -, hrows, -⟩ := exists_row hr hs
  rw [hrows.goto] at hrow
  split at hrow
  · cases hrow
  · cases hrow
    obtain ⟨n, hname, hedge⟩ := exists_of_find?_gotoRow hp
    refine ⟨?_, n, lt_of_nonterminal_edge wf hs hedge, hname⟩
    rintro rfl
    exact transition_ne_zero wf hlen ((mem_edges_iff wf hs).1 hedge)

/-- What is read as the accepting action was proposed as that. -/
theorem accept_of_action? (wf : g.WellFormed) (hlen : g.LengthsFit) (hr : g.analyze.outcome = .ok r)
    {q : Nat} {name : String} (h : r.table.action? q name = some .accept) :
    name = Token.eofKind ∧ ∃ s la, g.automaton.states[q]? = some s ∧
      s.lookahead? ⟨0, 1⟩ = some la ∧ la.contains Terminal.eof = true := by
  unfold ParseTable.action? at h
  obtain ⟨row, hrow, hcell⟩ := Option.bind_eq_some_iff.1 h
  obtain ⟨raw, hraw, hdecode⟩ := Option.bind_eq_some_iff.1 hcell
  obtain ⟨s, hs⟩ := exists_state hr (Or.inl (by rw [hrow]; simp))
  obtain ⟨d, hd, hrows, -⟩ := exists_row hr hs
  rw [hrows.action] at hrow
  cases hrow
  obtain ⟨t, hname, -, -, hfind⟩ := (storedIn_of_row wf hlen hs hd).written hraw
  rw [Option.some.inj hdecode] at hfind
  have hcand := candidate_of_row wf hs hd hfind
  cases hcand with
  | accept hla hc ht =>
    subst ht
    exact ⟨hname.trans (Grammar.terminalName_eof wf), s, _, hs, hla, hc⟩

/-- Where the start rule is complete before `$eof`, the table accepts. -/
theorem action?_of_accept (hg : g.Defined) (hr : g.analyze.outcome = .ok r) {q : Nat} {s : State}
    {la : TerminalSet} (hs : g.automaton.states[q]? = some s) (hla : s.lookahead? ⟨0, 1⟩ = some la)
    (hc : la.contains Terminal.eof = true) : r.table.action? q Token.eofKind = some .accept := by
  have wf := hg.wellFormed
  obtain ⟨d, hd, -, -⟩ := exists_row hr hs
  have hshifts : (RowDraft.shifts s).find? Terminal.eof = some .accept := by
    rcases RowDraft.shifts_cases s with ⟨_, -, -, he⟩ | ⟨hno, -⟩
    · rw [he, OrderedMap.find?_insert, if_pos rfl]
    · rw [hno la hla] at hc
      cases hc
  rw [← Grammar.terminalName_eof wf, action?_eq_map_find? wf hr hs (Grammar.eof_lt wf) hd,
    RowDraft.accept_kept hg hshifts hd]
  rfl

/-- **A table is read as it was written.** No shift or goto leads to state `0` and no cell reduces by
rule `0`, so each integer is read as the action that was written last into its cell, both while the
table is made and afterwards. The accepting action, which is the integer `0`, is in the states where
the start rule is complete before `$eof`, and in no other cell. A right side is a list in memory, of
fewer than `2 ^ 63` symbols. -/
theorem table_reads_as_written (hg : g.Defined) (hlen : g.LengthsFit)
    (hr : g.analyze.outcome = .ok r) : r.table.ReadsAsWritten g := by
  have wf := hg.wellFormed
  refine ⟨?_, goto_entry wf hlen hr, accept_of_action? wf hlen hr, ?_⟩
  · intro q row hrow
    obtain ⟨s, hs⟩ := exists_state hr (Or.inl (by rw [hrow]; simp))
    obtain ⟨d, hd, hrows, -⟩ := exists_row hr hs
    rw [hrows.action] at hrow
    cases hrow
    exact ⟨s, d, hs, (ofStored_of_row wf hlen hs hd).1, storedIn_of_row wf hlen hs hd⟩
  · rintro ⟨rfl, s, la, hs, hla, hc⟩
    exact action?_of_accept hg hr hs hla hc

end Table

/-- A sentence is `a`, or again a sentence, so that the end of the input may be reduced forever. -/
def loopCalls : List (Call Nat) :=
  [.rule "S" ["S"], .rule "S" ["a"], .start "S", .resolve { Policy.none with shift := true }]

/-- The grammar of a sentence that may stand for itself. -/
def Grammar.looped : Grammar Nat :=
  (Grammar.define (loopCalls.forM Call.attempt)).toOption.get (by decide +kernel)

/-- The table of that grammar. -/
def loopSynthesis : Synthesis :=
  Grammar.looped.analyze.outcome.toOption.get (by decide +kernel)

/-- The accepting action stays where a reduction was settled against it. -/
theorem looped_reads_as_written :
    loopSynthesis.resolved.toList = [⟨1, Terminal.eof, .shiftReduce 1, .shift⟩] ∧
    loopSynthesis.table.action? 1 Token.eofKind = some .accept ∧
    loopSynthesis.table.ReadsAsWritten Grammar.looped := by
  have hlen : Grammar.looped.LengthsFit := by
    unfold Grammar.LengthsFit
    decide +kernel
  refine ⟨by decide +kernel, by decide +kernel, ?_⟩
  exact table_reads_as_written ⟨loopCalls, eq_ok_get _ _⟩ hlen (eq_ok_get _ _)

end ParserGen
