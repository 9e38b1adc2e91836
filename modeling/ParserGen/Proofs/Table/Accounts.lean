import ParserGen.Proofs.Counting
import ParserGen.Proofs.Table.Rows

/-!
# The account of a cell

One cell of a row has no say in another. Seen from a cell, its candidates come one after the other:
the shift or the accepting action, then the reductions in the order of the items. The first one takes
the cell, and each of the others meets what the cell holds by then, which is noted. An operator that
does not associate empties the cell and ends its account.

* `Settles`: the records with which candidates are settled, and what the cell holds in the end.
* `Adds.accounts`, `Adds.frame`: a reduction is one more candidate of its own cell, and nothing to the
  others.
* `CellInvariant.ofState`: **what this keeps of a cell holds of each cell of a row.**
* `accounts_ofState`: **the records of a row are the accounts of its cells.**
* `candidate_of_ofState`: **an entry of a row is a candidate**, whatever the policy.
* `find?_of_candidate`: **without settled conflicts every candidate is an entry.**
-/

namespace ParserGen

variable {V : Type} {g : Grammar V}

/-! ## Candidates and records -/

/-- What a record makes of a cell in which a candidate met another action. -/
def ResolvedConflict.replay (c : ResolvedConflict) (cell candidate : Action) : Action :=
  match c.resolution, c.kind with
  | .precedence .reduce, _ => candidate
  | .longerRule, .reduceReduce kept _ => .reduce kept
  | .earlierRule, .reduceReduce kept _ => .reduce kept
  | _, _ => cell

/-- The record names the rule of the candidate and, if the cell holds a reduction, the rule of that. -/
def ResolvedConflict.Names (c : ResolvedConflict) : Action → Action → Prop
  | .reduce existing, .reduce rule =>
    c.kind = .reduceReduce existing rule ∨ c.kind = .reduceReduce rule existing
  | _, .reduce rule => c.kind = .shiftReduce rule
  | _, _ => False

theorem ResolvedConflict.names_shiftReduce {c : ResolvedConflict} {rule : Nat} {cell : Action}
    (hk : c.kind = .shiftReduce rule) (h : ∀ k, cell ≠ .reduce k) : c.Names cell (.reduce rule) := by
  cases cell with
  | reduce k => exact absurd rfl (h k)
  | shift p => exact hk
  | accept => exact hk

theorem ResolvedConflict.kept_of_names {c : ResolvedConflict} {cell candidate : Action}
    {kept discarded : Nat} (h : c.Names cell candidate) (hk : c.kind = .reduceReduce kept discarded) :
    .reduce kept = cell ∨ .reduce kept = candidate := by
  cases candidate with
  | shift p => cases cell <;> cases h
  | accept => cases cell <;> cases h
  | reduce rule =>
    cases cell with
    | reduce existing =>
      rcases h with h | h
      · rw [h] at hk
        cases hk
        exact Or.inl rfl
      · rw [h] at hk
        cases hk
        exact Or.inr rfl
    | shift p => exact absurd (hk.symm.trans h) (by simp)
    | accept => exact absurd (hk.symm.trans h) (by simp)

/-- A record leaves one of the two actions in the cell. -/
theorem ResolvedConflict.replay_cases {c : ResolvedConflict} {cell candidate : Action}
    (h : c.Names cell candidate) :
    c.replay cell candidate = cell ∨ c.replay cell candidate = candidate := by
  unfold replay
  split
  · exact Or.inr rfl
  · rename_i hk
    exact kept_of_names h hk
  · rename_i hk
    exact kept_of_names h hk
  · exact Or.inl rfl

/-- The records with which candidates are settled, one after the other, from what a cell holds, and
what it holds in the end. Nothing is noted after an operator that does not associate has emptied the
cell. -/
inductive Settles : Action → List Action → List ResolvedConflict → Option Action → Prop where
  | done (cell : Action) : Settles cell [] [] (some cell)
  | next {cell candidate : Action} {rest : List Action} {c : ResolvedConflict}
      {records : List ResolvedConflict} {final : Option Action} (hn : c.Names cell candidate)
      (hc : c.resolution ≠ .precedence .error)
      (h : Settles (c.replay cell candidate) rest records final) :
      Settles cell (candidate :: rest) (c :: records) final
  | bar {cell candidate : Action} {rest : List Action} {c : ResolvedConflict}
      (hn : c.Names cell candidate) (hc : c.resolution = .precedence .error) :
      Settles cell (candidate :: rest) [c] none

/-- The cell after several candidates, each with its record. -/
def replayAll (first : Action) (settled : List (Action × ResolvedConflict)) : Action :=
  settled.foldl (fun cell p => p.2.replay cell p.1) first

namespace Settles

variable {cell candidate a : Action} {rest : List Action} {c : ResolvedConflict}
  {records : List ResolvedConflict} {final : Option Action}

/-- One more candidate meets what the cell holds. -/
theorem snoc (h : Settles cell rest records (some a)) (hn : c.Names a candidate)
    (hc : c.resolution ≠ .precedence .error) :
    Settles cell (rest ++ [candidate]) (records ++ [c]) (some (c.replay a candidate)) := by
  generalize ha : some a = final at h
  induction h with
  | done cell => cases ha; exact .next hn hc (.done _)
  | next hn' hc' _ ih => exact .next hn' hc' (ih ha)
  | bar _ _ => cases ha

theorem snoc_bar (h : Settles cell rest records (some a)) (hn : c.Names a candidate)
    (hc : c.resolution = .precedence .error) :
    Settles cell (rest ++ [candidate]) (records ++ [c]) none := by
  generalize ha : some a = final at h
  induction h with
  | done cell => cases ha; exact .bar hn hc
  | next hn' hc' _ ih => exact .next hn' hc' (ih ha)
  | bar _ _ => cases ha

/-- Candidates that come after the cell was emptied are passed over. -/
theorem barred (h : Settles cell rest records none) :
    Settles cell (rest ++ [candidate]) records none := by
  generalize ha : none = final at h
  induction h with
  | done cell => cases ha
  | next hn hc _ ih => exact .next hn hc (ih ha)
  | bar hn hc => exact .bar hn hc

/-- **Each candidate but the first has its record, and replaying them gives the action.** -/
theorem replayAll_eq (h : Settles cell rest records final)
    (hne : ∀ c ∈ records, c.resolution ≠ .precedence .error) :
    records.length = rest.length ∧ final = some (replayAll cell (rest.zip records)) := by
  induction h with
  | done cell => exact ⟨rfl, rfl⟩
  | next hn hc _ ih =>
    obtain ⟨hlen, hfinal⟩ := ih fun c hm => hne c (List.mem_cons_of_mem _ hm)
    exact ⟨by simp [hlen], hfinal⟩
  | bar hn hc => exact absurd hc (hne _ List.mem_cons_self)

theorem names (h : Settles cell rest records final) {i : Nat} (hi : rest[i]? = some candidate)
    (hc : records[i]? = some c) :
    c.Names (replayAll cell ((rest.zip records).take i)) candidate := by
  induction h generalizing i with
  | done cell => cases hi
  | next hn _ _ ih =>
    cases i with
    | zero => cases hi; cases hc; exact hn
    | succ i => exact ih hi hc
  | bar hn _ =>
    cases i with
    | zero => cases hi; cases hc; exact hn
    | succ i => cases hc

theorem error_last (h : Settles cell rest records final) {i : Nat} (hi : records[i]? = some c)
    (hc : c.resolution = .precedence .error) : i + 1 = records.length ∧ final = none := by
  induction h generalizing i with
  | done cell => cases hi
  | next _ hne _ ih =>
    cases i with
    | zero => cases hi; exact absurd hc hne
    | succ i =>
      obtain ⟨hlen, hfinal⟩ := ih hi
      exact ⟨by simp [← hlen], hfinal⟩
  | bar _ _ =>
    cases i with
    | zero => exact ⟨rfl, rfl⟩
    | succ i => cases hi

/-- A cell holds one of the candidates. -/
theorem mem (h : Settles cell rest records (some a)) : a ∈ cell :: rest := by
  generalize ha : some a = final at h
  induction h with
  | done cell => cases ha; exact List.mem_cons_self
  | @next cell candidate rest c _ _ hn _ _ ih =>
    rcases List.mem_cons.1 (ih ha) with rfl | hm
    · rcases ResolvedConflict.replay_cases hn with hr | hr
      · rw [hr]; exact List.mem_cons_self
      · rw [hr]; exact List.mem_cons_of_mem _ List.mem_cons_self
    · exact List.mem_cons_of_mem _ (List.mem_cons_of_mem _ hm)
  | bar _ _ => cases ha

/-- Without records there was nothing to settle. -/
theorem of_nil (h : Settles cell rest [] final) : rest = [] ∧ final = some cell := by
  cases h
  exact ⟨rfl, rfl⟩

end Settles

/-! ## The cells of a row -/

namespace RowDraft

/-- The records about a terminal. -/
def notes (d : RowDraft) (t : Nat) : List ResolvedConflict :=
  d.resolved.toList.filter (·.lookahead == t)

/-- What a draft holds for a terminal is the account of the candidates that came so far. -/
def Accounts (d : RowDraft) (t : Nat) : List Action → Prop
  | [] => d.row.find? t = none ∧ d.barred.contains t = false ∧ d.notes t = []
  | first :: rest => Settles first rest (d.notes t) (d.row.find? t) ∧
      (d.barred.contains t = true ↔ d.row.find? t = none)

theorem Accounts.congr {d d' : RowDraft} {t : Nat} {cs : List Action} (h : d.Accounts t cs)
    (hf : d'.row.find? t = d.row.find? t) (hb : d'.barred.contains t = d.barred.contains t)
    (hn : d'.notes t = d.notes t) : d'.Accounts t cs := by
  cases cs with
  | nil => exact ⟨hf.trans h.1, hb.trans h.2.1, hn.trans h.2.2⟩
  | cons first rest =>
    unfold Accounts
    rw [hf, hb, hn]
    exact h

theorem notes_record (d : RowDraft) (q t u : Nat) (kind : ConflictKind) (resolution : Resolution) :
    (d.record q t kind resolution).notes u =
      if t = u then d.notes u ++ [⟨q, t, kind, resolution⟩] else d.notes u := by
  unfold notes record
  by_cases h : t = u
  · simp [h]
  · simp [h]

variable {q rule t : Nat} {d d' : RowDraft}

/-- Adding a reduction on a terminal leaves the other cells alone. -/
theorem Adds.frame (h : Adds g q rule t d d') {u : Nat} (hu : u ≠ t) :
    d'.row.find? u = d.row.find? u ∧ d'.barred.contains u = d.barred.contains u ∧
      d'.notes u = d.notes u := by
  cases h with
  | barred _ => exact ⟨rfl, rfl, rfl⟩
  | free _ _ => exact ⟨by simp [OrderedMap.find?_insert, hu.symm], rfl, rfl⟩
  | reduced _ _ _ _ =>
    exact ⟨by simp [record, OrderedMap.find?_insert, hu.symm], rfl,
      by rw [notes_record, if_neg hu.symm]; rfl⟩
  | shifted _ _ _ _ _ => exact ⟨rfl, rfl, by rw [notes_record, if_neg hu.symm]⟩
  | replaced _ _ _ _ =>
    exact ⟨by simp [record, OrderedMap.find?_insert, hu.symm], rfl,
      by rw [notes_record, if_neg hu.symm]; rfl⟩
  | emptied _ _ _ _ =>
    exact ⟨by simp [record, OrderedMap.find?_erase, hu.symm], by simp [record, hu.symm],
      by rw [notes_record, if_neg hu.symm]; rfl⟩

/-- **In its own cell the reduction is one more candidate.** -/
theorem Adds.accounts (h : Adds g q rule t d d') {cs : List Action} (hd : d.Accounts t cs) :
    d'.Accounts t (cs ++ [.reduce rule]) := by
  cases cs with
  | nil =>
    obtain ⟨hnone, hfree, hnotes⟩ := hd
    cases h with
    | barred hb => rw [hfree] at hb; cases hb
    | free _ _ =>
      refine ⟨?_, by simp [OrderedMap.find?_insert, hfree]⟩
      have hn : ({ d with row := d.row.insert t (.reduce rule) } : RowDraft).notes t = [] := hnotes
      rw [hn, OrderedMap.find?_insert, if_pos rfl]
      exact .done _
    | reduced _ hf _ _ => rw [hnone] at hf; cases hf
    | shifted _ hf _ _ _ => rw [hnone] at hf; cases hf
    | replaced _ hf _ _ => rw [hnone] at hf; cases hf
    | emptied _ hf _ _ => rw [hnone] at hf; cases hf
  | cons first rest =>
    obtain ⟨hs, hbar⟩ := hd
    cases h with
    | barred hb =>
      -- the cell was emptied before, so the candidate is passed over without a record
      have hnone := hbar.1 hb
      rw [hnone] at hs
      exact ⟨by rw [hnone]; exact hs.barred, hbar⟩
    | free hb hf => rw [hbar.2 hf] at hb; cases hb
    | @reduced existing kept discarded resolution hb hf hdecide hk =>
      rw [hf] at hs
      obtain ⟨hkept, hresolution⟩ := decideReduceReduce?_cases hdecide
      refine ⟨?_, by simp [record, OrderedMap.find?_insert, hb]⟩
      -- the record names both rules, in the order that tells which was kept
      have hnames : (⟨q, t, .reduceReduce kept discarded, resolution⟩ : ResolvedConflict).Names
          (.reduce existing) (.reduce rule) := by
        rcases hkept with rfl | rfl
        · exact Or.inl (by rw [hk, if_pos rfl])
        · by_cases he : kept = existing
          · exact Or.inl (by rw [hk, if_pos he, he])
          · exact Or.inr (by rw [hk, if_neg he])
      have hstep := hs.snoc hnames (by rcases hresolution with rfl | rfl <;> simp)
      have hreplay : (⟨q, t, .reduceReduce kept discarded, resolution⟩ : ResolvedConflict).replay
          (.reduce existing) (.reduce rule) = .reduce kept := by
        rcases hresolution with rfl | rfl <;> rfl
      rw [notes_record, if_pos rfl]
      rw [hreplay] at hstep
      simpa [record, OrderedMap.find?_insert, notes] using hstep
    | @shifted a resolution hb hf ha _ hr =>
      rw [hf] at hs
      refine ⟨?_, by simp [record, hf, hb]⟩
      have hstep := hs.snoc (c := ⟨q, t, .shiftReduce rule, resolution⟩)
        (ResolvedConflict.names_shiftReduce rfl ha) (by rcases hr with rfl | rfl <;> simp)
      have hreplay : (⟨q, t, .shiftReduce rule, resolution⟩ : ResolvedConflict).replay a
          (.reduce rule) = a := by
        rcases hr with rfl | rfl <;> rfl
      rw [notes_record, if_pos rfl]
      rw [hreplay] at hstep
      simpa [record, hf] using hstep
    | @replaced a hb hf ha _ =>
      rw [hf] at hs
      refine ⟨?_, by simp [record, OrderedMap.find?_insert, hb]⟩
      have hstep := hs.snoc (c := ⟨q, t, .shiftReduce rule, .precedence .reduce⟩)
        (ResolvedConflict.names_shiftReduce rfl ha) (by simp)
      rw [notes_record, if_pos rfl]
      simpa [record, OrderedMap.find?_insert, notes, ResolvedConflict.replay] using hstep
    | @emptied a hb hf ha _ =>
      rw [hf] at hs
      refine ⟨?_, by simp [record, OrderedMap.find?_erase]⟩
      have hstep := hs.snoc_bar (c := ⟨q, t, .shiftReduce rule, .precedence .error⟩)
        (ResolvedConflict.names_shiftReduce rfl ha) rfl
      rw [notes_record, if_pos rfl]
      simpa [record, OrderedMap.find?_erase, notes] using hstep

/-- What may be said of a draft, a cell and the candidates that came to the cell so far, if adding a
reduction keeps it: the reduction is one more candidate of its own cell, and nothing to the others. -/
structure CellInvariant (g : Grammar V) (q : Nat) (P : RowDraft → Nat → List Action → Prop) : Prop where
  own : ∀ {rule t : Nat} {d d' : RowDraft} {cs : List Action}, Adds g q rule t d d' → P d t cs →
    P d' t (cs ++ [.reduce rule])
  elsewhere : ∀ {rule t u : Nat} {d d' : RowDraft} {cs : List Action}, Adds g q rule t d d' → u ≠ t →
    P d u cs → P d' u cs

theorem accounts_invariant : CellInvariant g q Accounts where
  own h hd := h.accounts hd
  elsewhere h hu hd := hd.congr (h.frame hu).1 (h.frame hu).2.1 (h.frame hu).2.2

/-- An item adds its reduction to the cells of its lookahead. -/
theorem CellInvariant.addItem {P : RowDraft → Nat → List Action → Prop} (hP : CellInvariant g q P)
    {e : Item × TerminalSet} {cs : Nat → List Action} (hd : ∀ t, P d t (cs t)) :
    (∀ d', addItem g q d e = .ok d' → ∀ t, P d' t (cs t ++ (State.reduction? g t e).toList)) ∧
    ∀ c, addItem g q d e = .error c → ∃ t d', State.reduction? g t e = some (.reduce e.1.rule) ∧
      P d' t (cs t) ∧ addReduce g q e.1.rule d' t = .error c := by
  unfold RowDraft.addItem
  by_cases hskip : e.1.rule = 0 ∨ g.isComplete e.1 = false
  · rw [if_pos hskip]
    refine ⟨fun d' h t => ?_, fun c h => ?_⟩
    · cases h
      rw [State.reduction?_of_skipped hskip]
      simpa using hd t
    · cases h
  rw [if_neg hskip]
  -- each terminal of the lookahead comes once, and finds the cell as the earlier items left it
  have hnd := IndexSet.nodup_toList e.2
  obtain ⟨hok, herror⟩ := foldlM_cases (f := addReduce g q e.1.rule) (l := e.2.toList)
    (P := fun done d => ∀ u, P d u (if u ∈ done then cs u ++ [.reduce e.1.rule] else cs u))
    (b := d) (fun u => by simpa using hd u) (by
      intro done t b b' hpre hb hadd u
      have hadds := adds_of_addReduce hadd
      have hdone := not_mem_of_prefix hnd hpre
      by_cases hu : u = t
      · subst hu
        have hbu := hb u
        rw [if_neg hdone] at hbu
        rw [if_pos (by simp)]
        exact hP.own hadds hbu
      · have hmem : u ∈ done ++ [t] ↔ u ∈ done := by simp [hu]
        simp only [hmem]
        exact hP.elsewhere hadds hu (hb u))
  refine ⟨fun d' h t => ?_, fun c h => ?_⟩
  · have ht := hok d' h t
    rw [State.reduction?_of_complete hskip]
    by_cases hc : e.2.contains t = true
    · rw [if_pos (IndexSet.mem_toList.2 hc)] at ht
      rw [if_pos hc]
      exact ht
    · rw [if_neg fun hm => hc (IndexSet.mem_toList.1 hm)] at ht
      rw [if_neg hc]
      simpa using ht
  · obtain ⟨done, t, d', hpre, hcell, hadd⟩ := herror c h
    have hdone := not_mem_of_prefix hnd hpre
    have hmem : t ∈ e.2.toList := hpre.subset (by simp)
    have hcell := hcell t
    rw [if_neg hdone] at hcell
    refine ⟨t, d', ?_, hcell, hadd⟩
    rw [State.reduction?_of_complete hskip, if_pos (IndexSet.mem_toList.1 hmem)]

/-- **What adding a reduction keeps of each cell, holds of each cell and all its candidates.** If the
row fails, it does so at a candidate that meets an earlier one. -/
theorem CellInvariant.ofState {P : RowDraft → Nat → List Action → Prop} (hP : CellInvariant g q P)
    {s : State} (h0 : ∀ t, P { row := shifts s, barred := ∅, resolved := #[] } t (s.openings t)) :
    (∀ d, ofState g q s = .ok d → ∀ t, P d t (s.candidates g t)) ∧
    ∀ c, ofState g q s = .error c → ∃ rule t before after d,
      s.candidates g t = before ++ .reduce rule :: after ∧ P d t before ∧
        addReduce g q rule d t = .error c := by
  have hsnoc : ∀ t done e, s.openings t ++ List.filterMap (State.reduction? g t) (done ++ [e]) =
      s.openings t ++ List.filterMap (State.reduction? g t) done ++
        (State.reduction? g t e).toList := by
    intro t done e
    rw [List.filterMap_append, List.append_assoc]
    cases he : State.reduction? g t e <;> simp [he]
  obtain ⟨hok, herror⟩ := foldlM_cases (f := RowDraft.addItem g q) (l := s.items)
    (P := fun done d => ∀ t, P d t (s.openings t ++ done.filterMap (State.reduction? g t)))
    (b := { row := shifts s, barred := ∅, resolved := #[] })
    (fun t => by simpa using h0 t) (by
      intro done e b b' _ hb hadd t
      rw [hsnoc]
      exact (hP.addItem hb).1 b' hadd t)
  refine ⟨hok, fun c h => ?_⟩
  obtain ⟨done, e, d, hpre, hcells, hadd⟩ := herror c h
  obtain ⟨t, d', he, hcell, hadd'⟩ := (hP.addItem hcells).2 c hadd
  obtain ⟨rest, hrest⟩ := hpre
  refine ⟨e.1.rule, t, _, rest.filterMap (State.reduction? g t), d', ?_, hcell, hadd'⟩
  unfold State.candidates
  rw [← hrest, List.filterMap_append, ← List.append_assoc, hsnoc, he]
  simp

theorem Accounts.mem {a : Action} {cs : List Action} (h : d.Accounts t cs)
    (hf : d.row.find? t = some a) : a ∈ cs := by
  cases cs with
  | nil => rw [h.1] at hf; cases hf
  | cons first rest =>
    have hs := h.1
    rw [hf] at hs
    exact hs.mem

/-- A cell about which nothing was noted has at most one candidate, and holds it. -/
theorem Accounts.of_quiet {cs : List Action} (h : d.Accounts t cs) (hquiet : d.resolved = #[]) :
    cs.length ≤ 1 ∧ d.row.find? t = cs.head? := by
  have hnotes : d.notes t = [] := by simp [notes, hquiet]
  cases cs with
  | nil => exact ⟨Nat.zero_le 1, h.1⟩
  | cons first rest =>
    have hs := h.1
    rw [hnotes] at hs
    obtain ⟨rfl, hfinal⟩ := hs.of_nil
    exact ⟨le_rfl, hfinal⟩

section Row

variable {n : Nat} {s : State} (hnd : (s.edges.map (·.1)).Nodup)
  (heof : ∀ p, (Symbol.terminal Terminal.eof, p) ∉ s.edges)

include hnd heof

theorem accounts_shifts (t : Nat) :
    Accounts { row := shifts s, barred := ∅, resolved := #[] } t (s.openings t) := by
  rw [← toList_find?_shifts hnd heof t]
  cases hf : (shifts s).find? t with
  | none => exact ⟨hf, IndexSet.contains_empty t, rfl⟩
  | some a =>
    refine ⟨?_, by simp [hf]⟩
    show Settles a [] [] ((shifts s).find? t)
    rw [hf]
    exact .done a

/-- **The records of a row are the accounts of its cells.** If the row fails, it does so at a
candidate that meets an earlier one. -/
theorem accounts_ofState :
    (∀ d, ofState g n s = .ok d → ∀ t, d.Accounts t (s.candidates g t)) ∧
    ∀ c, ofState g n s = .error c → ∃ rule t before after d,
      s.candidates g t = before ++ .reduce rule :: after ∧ d.Accounts t before ∧
        addReduce g n rule d t = .error c :=
  accounts_invariant.ofState (accounts_shifts hnd heof)

/-- **An entry of a row is a candidate**, whatever the policy. -/
theorem candidate_of_ofState {d : RowDraft} (h : ofState g n s = .ok d) {t : Nat} {a : Action}
    (ha : d.row.find? t = some a) : s.Candidate g t a :=
  (State.mem_candidates hnd).1 (((accounts_ofState hnd heof).1 d h t).mem ha)

/-- **Without settled conflicts every candidate is an entry.** -/
theorem find?_of_candidate {d : RowDraft} (h : ofState g n s = .ok d) (hq : d.resolved = #[])
    {t : Nat} {a : Action} (ha : s.Candidate g t a) : d.row.find? t = some a := by
  have hmem := (State.mem_candidates hnd).2 ha
  obtain ⟨hle, hfind⟩ := ((accounts_ofState hnd heof).1 d h t).of_quiet hq
  rw [hfind]
  cases hc : s.candidates g t with
  | nil => rw [hc] at hmem; cases hmem
  | cons first rest =>
    rw [hc] at hle hmem
    obtain rfl := List.eq_nil_of_length_eq_zero (Nat.le_zero.1 (Nat.le_of_succ_le_succ hle))
    rw [List.mem_singleton.1 hmem, List.head?_cons]

end Row

end RowDraft

end ParserGen
