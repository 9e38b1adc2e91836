import ParserGen.Table.Synthesis
import ParserGen.Proofs.Automaton.Canonical
import ParserGen.Proofs.Fold

/-!
# The rows of a table

A row is filled in three passes: shifts, the accepting action, reductions. The first two put into a
cell the one action of that kind that the state has for it. The reductions come item after item, and
for each item terminal after terminal; one that finds its cell occupied is settled by the policy.

* `State.Candidate`, `State.candidates`: the actions that a state proposes on a terminal, and their
  list in the order in which they come.
* `toList_find?_shifts`: what the first two passes put into a cell.
* `adds_of_addReduce`, `error_of_addReduce`: **all that can happen when a reduction is added.**
-/

namespace ParserGen

variable {V : Type} {g : Grammar V}

/-! ## Candidates -/

/-- An action that a state proposes on a terminal. -/
inductive State.Candidate (g : Grammar V) (s : State) (t : Nat) : Action → Prop where
  | shift {p : Nat} (h : (Symbol.terminal t, p) ∈ s.edges) : Candidate g s t (.shift p)
  | accept {la : TerminalSet} (h : s.lookahead? ⟨0, 1⟩ = some la)
      (hla : la.contains Terminal.eof = true) (ht : t = Terminal.eof) : Candidate g s t .accept
  | reduce {i : Item} {la : TerminalSet} (h : (i, la) ∈ s.items) (h0 : i.rule ≠ 0)
      (hc : g.isComplete i = true) (ht : la.contains t = true) : Candidate g s t (.reduce i.rule)

/-- No state proposes to reduce by the start rule. -/
theorem State.Candidate.rule_ne_zero {s : State} {t k : Nat} (h : s.Candidate g t (.reduce k)) :
    k ≠ 0 := by
  generalize ha : Action.reduce k = a at h
  cases h with
  | shift _ => cases ha
  | accept _ _ _ => cases ha
  | reduce _ h0 _ _ =>
    cases ha
    exact h0

namespace State

/-- The reduction that an item proposes on a terminal: the item is complete, the terminal is in its
lookahead, and the rule is not the start rule. -/
def reduction? (g : Grammar V) (t : Nat) (e : Item × TerminalSet) : Option Action :=
  if (e.1.rule = 0 ∨ g.isComplete e.1 = false) ∨ e.2.contains t = false then none
  else some (.reduce e.1.rule)

/-- The shift of a state on a terminal, or the accepting action on `$eof`. -/
def openings (s : State) (t : Nat) : List Action :=
  ((s.edges.lookup (.terminal t)).map Action.shift).toList ++
    if t = Terminal.eof ∧ (s.lookahead? ⟨0, 1⟩).any (·.contains Terminal.eof) then [.accept] else []

/-- The actions that compete for the cell of a state and a terminal: the shift or the accepting
action, then the reductions in the order of the items. -/
def candidates (g : Grammar V) (s : State) (t : Nat) : List Action :=
  s.openings t ++ s.items.filterMap (reduction? g t)

theorem reduction?_eq_some {t : Nat} {e : Item × TerminalSet} {a : Action} :
    reduction? g t e = some a ↔
      e.1.rule ≠ 0 ∧ g.isComplete e.1 = true ∧ e.2.contains t = true ∧ a = .reduce e.1.rule := by
  unfold reduction?
  split
  · rename_i h
    simp only [reduceCtorEq, false_iff]
    rintro ⟨h0, hc, ht, -⟩
    simp [h0, hc, ht] at h
  · rename_i h
    simp only [not_or, Bool.not_eq_false] at h
    simp [h.1.1, h.1.2, h.2, eq_comm]

theorem reduction?_of_skipped {t : Nat} {e : Item × TerminalSet}
    (h : e.1.rule = 0 ∨ g.isComplete e.1 = false) : reduction? g t e = none := by
  unfold reduction?
  rw [if_pos (Or.inl h)]

theorem reduction?_of_complete {t : Nat} {e : Item × TerminalSet}
    (h : ¬ (e.1.rule = 0 ∨ g.isComplete e.1 = false)) :
    reduction? g t e = if e.2.contains t then some (.reduce e.1.rule) else none := by
  unfold reduction?
  cases e.2.contains t <;> simp [h]

theorem mem_openings {s : State} {t : Nat} {a : Action} (hnd : (s.edges.map (·.1)).Nodup) :
    a ∈ s.openings t ↔ (∃ p, a = .shift p ∧ (Symbol.terminal t, p) ∈ s.edges) ∨
      a = .accept ∧ t = Terminal.eof ∧
        ∃ la, s.lookahead? ⟨0, 1⟩ = some la ∧ la.contains Terminal.eof = true := by
  unfold openings
  rw [List.mem_append, Option.mem_toList, Option.map_eq_some_iff]
  refine or_congr ?_ ?_
  · simp only [lookup_eq_some_iff_mem hnd, eq_comm, and_comm]
  · rw [← Option.any_eq_true]
    split
    · rename_i h
      simp [h]
    · rename_i h
      simp only [List.not_mem_nil, false_iff, not_and]
      intro _ ht hany
      exact h ⟨ht, hany⟩

theorem mem_candidates {s : State} {t : Nat} {a : Action} (hnd : (s.edges.map (·.1)).Nodup) :
    a ∈ s.candidates g t ↔ s.Candidate g t a := by
  unfold candidates
  rw [List.mem_append, mem_openings hnd, List.mem_filterMap]
  constructor
  · rintro ((⟨p, rfl, hm⟩ | ⟨rfl, ht, la, hla, hc⟩) | ⟨⟨i, la⟩, hm, he⟩)
    · exact .shift hm
    · exact .accept hla hc ht
    · obtain ⟨h0, hc, ht, rfl⟩ := reduction?_eq_some.1 he
      exact .reduce hm h0 hc ht
  · rintro (hm | ⟨hla, hc, ht⟩ | ⟨hm, h0, hc, ht⟩)
    · exact Or.inl (Or.inl ⟨_, rfl, hm⟩)
    · exact Or.inl (Or.inr ⟨rfl, ht, _, hla, hc⟩)
    · exact Or.inr ⟨_, hm, reduction?_eq_some.2 ⟨h0, hc, ht, rfl⟩⟩

theorem nodup_reductions {s : State} {t : Nat} (hcore : s.core.Nodup) :
    (s.items.filterMap (reduction? g t)).Nodup := by
  have hpair : s.items.Pairwise fun e e' => e.1 ≠ e'.1 := List.pairwise_map.1 hcore
  rw [List.Nodup, List.pairwise_filterMap]
  refine hpair.imp ?_
  intro e e' hne a ha a' ha' haa'
  obtain ⟨-, hc, -, rfl⟩ := reduction?_eq_some.1 ha
  obtain ⟨-, hc', -, rfl⟩ := reduction?_eq_some.1 ha'
  have hrule : e.1.rule = e'.1.rule := Action.reduce.inj haa'
  have hdot : e.1.dot = e'.1.dot := by
    simp only [Grammar.isComplete, beq_iff_eq] at hc hc'
    rw [hc, hc', hrule]
  exact hne (by
    cases hi : e.1
    cases hi' : e'.1
    simp_all)

end State

/-! ## The first two passes -/

namespace RowDraft

/-- The shifts of a state. -/
def shiftEntries (s : State) : List (Nat × Action) :=
  s.edges.filterMap fun
    | (.terminal t, target) => some (t, .shift target)
    | (.nonterminal _, _) => none

theorem mem_shiftEntries {s : State} {t : Nat} {a : Action} :
    (t, a) ∈ shiftEntries s ↔ ∃ p, a = .shift p ∧ (Symbol.terminal t, p) ∈ s.edges := by
  unfold shiftEntries
  rw [List.mem_filterMap]
  constructor
  · rintro ⟨⟨x, p⟩, hm, he⟩
    cases x with
    | terminal u => cases he; exact ⟨p, rfl, hm⟩
    | nonterminal n => cases he
  · rintro ⟨p, rfl, hm⟩
    exact ⟨_, hm, rfl⟩

theorem shifts_cases (s : State) :
    (∃ la, s.lookahead? ⟨0, 1⟩ = some la ∧ la.contains Terminal.eof = true ∧
      shifts s = (OrderedMap.ofList (shiftEntries s)).insert Terminal.eof .accept) ∨
    ((∀ la, s.lookahead? ⟨0, 1⟩ = some la → la.contains Terminal.eof = false) ∧
      shifts s = OrderedMap.ofList (shiftEntries s)) := by
  cases hla : s.lookahead? ⟨0, 1⟩ with
  | none =>
    refine Or.inr ⟨by simp, ?_⟩
    unfold shifts
    rw [hla]
    rfl
  | some la =>
    cases hc : la.contains Terminal.eof with
    | true =>
      refine Or.inl ⟨la, rfl, hc, ?_⟩
      unfold shifts
      rw [hla]
      simp only [hc, if_true]
      rfl
    | false =>
      refine Or.inr ⟨by simpa using hc, ?_⟩
      unfold shifts
      rw [hla]
      simp only [hc]
      rfl

theorem find?_shiftEntries {s : State} (hnd : (s.edges.map (·.1)).Nodup) (t : Nat) :
    (OrderedMap.ofList (shiftEntries s)).find? t = (s.edges.lookup (.terminal t)).map .shift := by
  refine Option.ext fun a => ?_
  rw [Option.map_eq_some_iff]
  constructor
  · intro h
    obtain ⟨p, rfl, hm⟩ := mem_shiftEntries.1 (OrderedMap.mem_of_find?_ofList h)
    exact ⟨p, (lookup_eq_some_iff_mem hnd).2 hm, rfl⟩
  · rintro ⟨p, hp, rfl⟩
    have hm := (lookup_eq_some_iff_mem hnd).1 hp
    refine OrderedMap.find?_ofList (mem_shiftEntries.2 ⟨p, rfl, hm⟩) fun w hw => ?_
    obtain ⟨p', rfl, hm'⟩ := mem_shiftEntries.1 hw
    rw [(lookup_eq_some_iff_mem hnd).2 hm'] at hp
    rw [Option.some.inj hp]

/-- The first passes put the shift or the accepting action into a cell. There are not both, as no edge
leads over `$eof`. -/
theorem toList_find?_shifts {s : State} (hnd : (s.edges.map (·.1)).Nodup)
    (heof : ∀ p, (Symbol.terminal Terminal.eof, p) ∉ s.edges) (t : Nat) :
    ((shifts s).find? t).toList = s.openings t := by
  have hnone : s.edges.lookup (.terminal Terminal.eof) = none := by
    rw [Option.eq_none_iff_forall_not_mem]
    exact fun p hp => heof p ((lookup_eq_some_iff_mem hnd).1 hp)
  unfold State.openings
  rcases shifts_cases s with ⟨la, hla, hc, he⟩ | ⟨hno, he⟩
  · rw [he, OrderedMap.find?_insert]
    by_cases ht : t = Terminal.eof
    · subst ht
      simp [hnone, hla, hc]
    · rw [if_neg (Ne.symm ht), find?_shiftEntries hnd]
      simp [ht]
  · have hany : (s.lookahead? ⟨0, 1⟩).any (·.contains Terminal.eof) = false := by
      cases hla : s.lookahead? ⟨0, 1⟩ with
      | none => rfl
      | some la => exact hno la hla
    rw [he, find?_shiftEntries hnd, hany]
    simp

end RowDraft

/-! ## Adding a reduction -/

theorem decideShiftReduce?_cases {t rule : Nat} {resolution : Resolution}
    (h : g.decideShiftReduce? t rule = some resolution) :
    resolution = .shift ∨ ∃ decision, resolution = .precedence decision := by
  unfold Grammar.decideShiftReduce? at h
  simp only at h
  split at h
  · right
    split at h
    · cases h; exact ⟨_, rfl⟩
    · split at h
      · cases h; exact ⟨_, rfl⟩
      · split at h <;> cases h <;> exact ⟨_, rfl⟩
  · left
    split at h
    · cases h; rfl
    · cases h

theorem decideReduceReduce?_cases {existing rule kept : Nat} {resolution : Resolution}
    (h : g.decideReduceReduce? existing rule = some (kept, resolution)) :
    (kept = existing ∨ kept = rule) ∧ (resolution = .longerRule ∨ resolution = .earlierRule) := by
  have hone : ∀ {c : Prop} [Decidable c],
      (if c then existing else rule) = existing ∨ (if c then existing else rule) = rule := by
    intro c _
    split
    · exact Or.inl rfl
    · exact Or.inr rfl
  unfold Grammar.decideReduceReduce? at h
  simp only at h
  split at h
  · cases h; exact ⟨hone, Or.inl rfl⟩
  · split at h
    · cases h; exact ⟨hone, Or.inr rfl⟩
    · cases h

namespace RowDraft

/-- What adding a reduction does to a draft. -/
inductive Adds (g : Grammar V) (q rule t : Nat) (d : RowDraft) : RowDraft → Prop where
  | barred (h : d.barred.contains t = true) : Adds g q rule t d d
  | free (hb : d.barred.contains t = false) (hf : d.row.find? t = none) :
      Adds g q rule t d { d with row := d.row.insert t (.reduce rule) }
  /-- Of two reductions one is kept. -/
  | reduced {existing kept discarded : Nat} {resolution : Resolution}
      (hb : d.barred.contains t = false) (hf : d.row.find? t = some (.reduce existing))
      (hd : g.decideReduceReduce? existing rule = some (kept, resolution))
      (hk : discarded = if kept = existing then rule else existing) :
      Adds g q rule t d ({ d with row := d.row.insert t (.reduce kept) }.record q t
        (.reduceReduce kept discarded) resolution)
  /-- The shift is kept. -/
  | shifted {a : Action} {resolution : Resolution} (hb : d.barred.contains t = false)
      (hf : d.row.find? t = some a) (ha : ∀ k, a ≠ .reduce k)
      (hd : g.decideShiftReduce? t rule = some resolution)
      (hr : resolution = .shift ∨ resolution = .precedence .shift) :
      Adds g q rule t d (d.record q t (.shiftReduce rule) resolution)
  /-- The reduction takes the place of the shift. -/
  | replaced {a : Action} (hb : d.barred.contains t = false) (hf : d.row.find? t = some a)
      (ha : ∀ k, a ≠ .reduce k) (hd : g.decideShiftReduce? t rule = some (.precedence .reduce)) :
      Adds g q rule t d ({ d with row := d.row.insert t (.reduce rule) }.record q t
        (.shiftReduce rule) (.precedence .reduce))
  /-- The cell is emptied and stays so. -/
  | emptied {a : Action} (hb : d.barred.contains t = false) (hf : d.row.find? t = some a)
      (ha : ∀ k, a ≠ .reduce k) (hd : g.decideShiftReduce? t rule = some (.precedence .error)) :
      Adds g q rule t d ({ d with row := d.row.erase t, barred := d.barred.insert t }.record q t
        (.shiftReduce rule) (.precedence .error))

theorem adds_of_addReduce {q rule t : Nat} {d d' : RowDraft}
    (h : addReduce g q rule d t = .ok d') : Adds g q rule t d d' := by
  unfold addReduce at h
  by_cases hb : d.barred.contains t = true
  · rw [if_pos hb] at h
    cases h
    exact .barred hb
  rw [if_neg hb] at h
  rw [Bool.not_eq_true] at hb
  split at h
  · rename_i hf
    cases h
    exact .free hb hf
  · rename_i existing hf
    split at h
    · cases h
    · rename_i kept resolution hd
      cases h
      exact .reduced hb hf hd rfl
  · rename_i a hreduce hf
    have ha : ∀ k, a ≠ .reduce k := fun k hk => hreduce k hk
    split at h
    · cases h
    · rename_i resolution hd
      rcases decideShiftReduce?_cases hd with rfl | ⟨decision, rfl⟩
      · cases h
        exact .shifted hb hf ha hd (Or.inl rfl)
      · cases decision with
        | shift => cases h; exact .shifted hb hf ha hd (Or.inr rfl)
        | reduce => cases h; exact .replaced hb hf ha hd
        | error => cases h; exact .emptied hb hf ha hd

/-- What adding a reduction keeps, a whole row keeps. No reduction is by the start rule. -/
theorem ofState_invariant {n : Nat} {s : State} {P : RowDraft → Prop}
    (h0 : P { row := shifts s, barred := ∅, resolved := #[] })
    (hstep : ∀ rule t d d', rule ≠ 0 → P d → Adds g n rule t d d' → P d') {d : RowDraft}
    (h : ofState g n s = .ok d) : P d := by
  refine foldlM_invariant (fun d e d' _ hd hitem => ?_) h0 h
  unfold addItem at hitem
  split at hitem
  · cases hitem
    exact hd
  · rename_i hskip
    rw [not_or] at hskip
    exact foldlM_invariant (fun d t d' _ hd hadd =>
      hstep _ t d d' hskip.1 hd (adds_of_addReduce hadd)) hd hitem

/-- At most one conflict is noted, and it is one of the state's. -/
theorem Adds.resolved_cases {q rule t : Nat} {d d' : RowDraft} (h : Adds g q rule t d d') :
    d'.resolved = d.resolved ∨ ∃ c, d'.resolved = d.resolved.push c ∧ c.state = q := by
  cases h with
  | barred _ => exact Or.inl rfl
  | free _ _ => exact Or.inl rfl
  | reduced _ _ _ _ => exact Or.inr ⟨_, rfl, rfl⟩
  | shifted _ _ _ _ _ => exact Or.inr ⟨_, rfl, rfl⟩
  | replaced _ _ _ _ => exact Or.inr ⟨_, rfl, rfl⟩
  | emptied _ _ _ _ => exact Or.inr ⟨_, rfl, rfl⟩

/-- Adding a reduction fails only on a cell that is occupied, by an action against which the policy
does not decide. -/
theorem error_of_addReduce {q rule t : Nat} {d : RowDraft} {c : UnresolvedConflict}
    (h : addReduce g q rule d t = .error c) :
    (∃ existing, c = .reduceReduce q t existing rule ∧ d.row.find? t = some (.reduce existing) ∧
      g.decideReduceReduce? existing rule = none) ∨
    ∃ a, c = .shiftReduce q t rule ∧ d.row.find? t = some a ∧ (∀ k, a ≠ .reduce k) ∧
      g.decideShiftReduce? t rule = none := by
  unfold addReduce at h
  split at h
  · cases h
  · split at h
    · cases h
    · rename_i existing hf
      split at h
      · rename_i hd
        cases h
        exact Or.inl ⟨existing, rfl, hf, hd⟩
      · cases h
    · rename_i a hreduce hf
      split at h
      · rename_i hd
        cases h
        exact Or.inr ⟨a, rfl, hf, fun k hk => hreduce k hk, hd⟩
      · cases h

end RowDraft

end ParserGen
