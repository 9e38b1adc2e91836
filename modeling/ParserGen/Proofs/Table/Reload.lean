import ParserGen.Proofs.Engine.Soundness
import ParserGen.Proofs.Text.Json
import ParserGen.Table.Json

/-!
# Tables that are read back

A table is written without white space, every row in its order, and the names of symbols may be any
text. Reading it gives the same entries in the same order, if its numbers are those of 64-bit words.
Loading also asks that no entry leads to a state without a row, which holds of every table that is
made from a grammar.

* `takes_rows`, `takes_table`: what is written for a table is read back.
* `dangling?_eq_none_iff`: loading refuses exactly the tables with an entry that leads nowhere.
* `load_production`: **a table is loaded as it was written, unless an entry leads nowhere.**
* `closed_of_synthesis`: **no entry of a grammar's table leads nowhere.**
* `table_reloads`: **writing and loading a table loses nothing.**
-/

namespace ParserGen

namespace ParseTable

/-- Every entry leads to a state that has a row of actions. -/
structure Closed (t : ParseTable) : Prop where
  shift : ∀ row ∈ t.action.entries, ∀ e ∈ row.2.entries, ∀ next, Action.decode e.2 = .shift next →
    t.action.contains next = true
  goto : ∀ row ∈ t.goto.entries, ∀ e ∈ row.2.entries, t.action.contains e.2 = true

/-- State numbers are words of 64 bits, and encoded actions are integers of 64 bits. -/
structure FitsWords (t : ParseTable) : Prop where
  action : ∀ state ∈ t.action.keys, state < UInt64.size
  goto : ∀ state ∈ t.goto.keys, state < UInt64.size
  raw : ∀ row ∈ t.action.entries, ∀ e ∈ row.2.entries,
    -(UInt64.size / 2 : Nat) ≤ e.2 ∧ e.2 < (UInt64.size / 2 : Nat)
  next : ∀ row ∈ t.goto.entries, ∀ e ∈ row.2.entries, e.2 < UInt64.size

/-! ## Reading what was written -/

section Rows

open Json (Takes Reader)

/-- A state number as a key. -/
def writeState (state : Nat) : List Char :=
  '"' :: ((toString state).toList ++ ['"'])

theorem takes_state {state : Nat} (h : state < UInt64.size) :
    Takes readState (writeState state) state where
  opens := ⟨'"', _, rfl, by decide⟩
  takes c rest _ := by
    have hread := (Json.takes_word h).takes '"' (c :: rest) (by decide)
    have htext : writeState state ++ c :: rest =
        '"' :: ((toString state).toList ++ '"' :: c :: rest) := by
      simp [writeState]
    rw [htext]
    unfold readState
    simp only [hread, bind, Option.bind, Json.expect, if_true, pure]

variable {ν : Type} {write : ν → String}

/-- A row as characters. -/
def writeRow (write : ν → String) (row : List (String × ν)) : List Char :=
  Json.writeObject (fun name => (Json.writeString name).toList) (fun v => (write v).toList) row

theorem toList_writeObject {κ μ : Type} {writeKey : κ → List Char} {writeValue : μ → List Char}
    {written : List String} {es : List (κ × μ)}
    (h : written.map String.toList = es.map (Json.writeMember writeKey writeValue)) :
    (writeObject written).toList = Json.writeObject writeKey writeValue es := by
  unfold Json.writeObject writeObject
  rw [← h]
  simp [String.toList_intercalate]

theorem toList_writeRows (m : OrderedMap Nat (OrderedMap String ν)) :
    (writeRows write m).toList =
      Json.writeObject writeState (writeRow write) (m.entries.map fun e => (e.1, e.2.entries)) := by
  have hrow : ∀ row : OrderedMap String ν,
      (writeObject (row.entries.map fun e => Json.writeString e.1 ++ ":" ++ write e.2)).toList =
        writeRow write row.entries := by
    intro row
    refine toList_writeObject ?_
    rw [List.map_map]
    refine List.map_congr_left fun e _ => ?_
    simp [Json.writeMember]
  refine toList_writeObject ?_
  rw [List.map_map, List.map_map]
  refine List.map_congr_left fun e _ => ?_
  simp [Json.writeMember, writeState, hrow]

theorem takes_rows {readEntry : Reader ν} {m : OrderedMap Nat (OrderedMap String ν)}
    (hstate : ∀ state ∈ m.keys, state < UInt64.size)
    (hentry : ∀ row ∈ m.entries, ∀ e ∈ row.2.entries, Takes readEntry (write e.2).toList e.2) :
    Takes (readRows readEntry) (writeRows write m).toList m := by
  have hobject : Takes (Json.readObject readState (Json.readObject Json.readString readEntry))
      (writeRows write m).toList (m.entries.map fun e => (e.1, e.2.entries)) := by
    rw [toList_writeRows]
    refine Json.takes_object ?_ ?_
    · rintro e he
      obtain ⟨⟨state, row⟩, hm, rfl⟩ := List.mem_map.1 he
      exact takes_state (hstate state (List.mem_map.2 ⟨_, hm, rfl⟩))
    · rintro e he
      obtain ⟨⟨state, row⟩, hm, rfl⟩ := List.mem_map.1 he
      exact Json.takes_object (fun e _ => Json.takes_string e.1) (hentry _ hm)
  refine ⟨hobject.opens, fun c rest hc => ?_⟩
  unfold readRows
  simp only [hobject.takes c rest hc, bind, Option.bind, pure, List.map_map, Function.comp_def,
    OrderedMap.ofList_entries]
  have hsame : m.entries.map (fun e => (e.1, e.2)) = m.entries := List.map_id _
  rw [hsame, OrderedMap.ofList_entries]

/-! ## The two fields -/

theorem readFields_field {parts parts' : Parts} {name : String} {written : List Char}
    (h : Takes (readField parts name) written parts') (fuel : Nat) (c : Char) (rest : List Char)
    (hc : c.isDigit = false) :
    readFields (fuel + 1) parts ((Json.writeString name).toList ++ ':' :: (written ++ c :: rest)) =
      match Json.skipSpace (c :: rest) with
      | ',' :: cs => readFields fuel parts' cs
      | '\x7d' :: cs => some (parts', cs)
      | _ => none := by
  have hname := Json.takes_string name
  have hkey := hname.takes ':' (written ++ c :: rest) (by decide)
  have hfield := h.takes c rest hc
  rw [readFields]
  simp only [hname.skipSpace, hkey, bind, Option.bind, Json.skipSpace_cons (c := ':') (by decide),
    Json.expect, if_true, h.skipSpace, hfield]
  rfl

variable {t : ParseTable}

theorem takes_actionField (hw : t.FitsWords) :
    Takes (readField {} "action") (writeRows (fun raw => toString raw) t.action).toList
      { action := some t.action } := by
  have hrows : Takes readActions (writeRows (fun raw => toString raw) t.action).toList t.action :=
    takes_rows hw.action fun row hrow e he =>
      Json.takes_int (hw.raw row hrow e he).1 (hw.raw row hrow e he).2
  refine ⟨hrows.opens, fun c rest hc => ?_⟩
  unfold readField
  rw [if_pos rfl, hrows.takes c rest hc]
  rfl

theorem takes_gotoField (hw : t.FitsWords) :
    Takes (readField { action := some t.action } "goto")
      (writeRows (fun next => toString next) t.goto).toList
      { action := some t.action, goto := some t.goto } := by
  have hrows : Takes readGotos (writeRows (fun next => toString next) t.goto).toList t.goto :=
    takes_rows hw.goto fun row hrow e he => Json.takes_word (hw.next row hrow e he)
  refine ⟨hrows.opens, fun c rest hc => ?_⟩
  unfold readField
  rw [if_neg (by decide), if_pos rfl, hrows.takes c rest hc]
  rfl

/-- The fields of a table as characters, up to the closing brace. -/
def writeFields (t : ParseTable) : List Char :=
  (Json.writeString "action").toList ++ ':' ::
    ((writeRows (fun raw => toString raw) t.action).toList ++ ',' ::
      ((Json.writeString "goto").toList ++ ':' ::
        ((writeRows (fun next => toString next) t.goto).toList ++ ['\x7d'])))

theorem toList_toJson (t : ParseTable) : t.toJson.toList = '\x7b' :: writeFields t := by
  have haction : (Json.writeString "action").toList = "\"action\"".toList := by decide
  have hgoto : (Json.writeString "goto").toList = "\"goto\"".toList := by decide
  unfold writeFields
  rw [haction, hgoto]
  simp [toJson, writeObject]

theorem readFields_written (hw : t.FitsWords) (fuel : Nat) (rest : List Char)
    (hfuel : 2 ≤ fuel) :
    readFields fuel {} (writeFields t ++ rest) =
      some ({ action := some t.action, goto := some t.goto }, rest) := by
  obtain ⟨fuel, rfl⟩ := Nat.exists_eq_add_of_le' hfuel
  have haction := readFields_field (takes_actionField hw) (fuel + 1) ','
    ((Json.writeString "goto").toList ++ ':' ::
      ((writeRows (fun next => toString next) t.goto).toList ++ '\x7d' :: rest)) (by decide)
  have hgoto := readFields_field (takes_gotoField hw) fuel '\x7d' rest (by decide)
  rw [Json.skipSpace_cons (by decide)] at haction hgoto
  have htext : writeFields t ++ rest = (Json.writeString "action").toList ++ ':' ::
      ((writeRows (fun raw => toString raw) t.action).toList ++ ',' ::
        ((Json.writeString "goto").toList ++ ':' ::
          ((writeRows (fun next => toString next) t.goto).toList ++ '\x7d' :: rest))) := by
    simp [writeFields]
  rw [htext]
  exact haction.trans hgoto

/-- **What is written for a table is read back.** -/
theorem takes_table (hw : t.FitsWords) : Takes readTable t.toJson.toList t := by
  refine ⟨⟨'\x7b', _, toList_toJson t, by decide⟩, fun c rest _ => ?_⟩
  have hfields := readFields_written hw ((writeFields t ++ c :: rest).length + 1) (c :: rest)
    (by rw [List.length_append, List.length_cons]; omega)
  rw [toList_toJson, List.cons_append]
  unfold readTable
  simp only [hfields, bind, Option.bind, pure]

end Rows

/-! ## Loading -/

section Load

variable {t : ParseTable}

theorem unknown?_eq_none_iff {state : Nat} {symbol : String} {target : Nat} :
    t.unknown? state symbol target = none ↔ t.action.contains target = true := by
  unfold unknown?
  split <;> simp_all

theorem unknownShift?_eq_none_iff {state : Nat} {e : String × Int} :
    t.unknownShift? state e = none ↔
      ∀ next, Action.decode e.2 = .shift next → t.action.contains next = true := by
  unfold unknownShift?
  split
  · rename_i next hnext
    simp [unknown?_eq_none_iff, hnext]
  · rename_i hne
    simpa using fun next hnext => absurd hnext (hne next)

/-- Loading refuses exactly the tables with an entry that leads nowhere. -/
theorem dangling?_eq_none_iff : t.dangling? = none ↔ t.Closed := by
  have hparts : t.dangling? = none ↔
      (t.action.entries.findSome? fun e => e.2.entries.findSome? (t.unknownShift? e.1)) = none ∧
        (t.goto.entries.findSome? fun e =>
          e.2.entries.findSome? fun entry => t.unknown? e.1 entry.1 entry.2) = none := by
    unfold dangling?
    split
    · rename_i hsome
      rw [hsome]
      simp
    · rename_i hnone
      exact ⟨fun h => ⟨hnone, h⟩, fun h => h.2⟩
  rw [hparts]
  simp only [List.findSome?_eq_none_iff, unknown?_eq_none_iff, unknownShift?_eq_none_iff]
  exact ⟨fun h => ⟨h.1, h.2⟩, fun h => ⟨h.shift, h.goto⟩⟩

theorem ofJson?_production (hw : t.FitsWords) : ofJson? t.production = some t := by
  have hread := (takes_table hw).takes '\n' [] (by decide)
  have hskip : Json.skipSpace (t.toJson.toList ++ ['\n']) = t.toJson.toList ++ ['\n'] :=
    (takes_table hw).skipSpace ['\n']
  have hspace : Json.skipSpace ['\n'] = [] := rfl
  unfold ofJson? production
  rw [String.toList_append]
  show (readTable (Json.skipSpace (t.toJson.toList ++ ['\n'])) >>= _) = _
  rw [hskip, hread]
  simp [hspace]

/-- **A table is loaded as it was written, unless an entry leads nowhere.** -/
theorem load_production (hw : t.FitsWords) : load t.production = .ok t ↔ t.Closed := by
  rw [← dangling?_eq_none_iff]
  unfold load
  simp only [ofJson?_production hw]
  cases t.dangling? <;> simp

end Load

end ParseTable

/-! ## The tables of grammars -/

variable {V : Type} {g : Grammar V} {r : Synthesis}

/-- An action in the table of a grammar is the code of a candidate. -/
theorem exists_candidate_of_entry (wf : g.WellFormed) (hr : g.analyze.outcome = .ok r)
    {row : Nat × OrderedMap String Int} {e : String × Int} (hrow : row ∈ r.table.action.entries)
    (he : e ∈ row.2.entries) :
    ∃ s t a, g.automaton.states[row.1]? = some s ∧ s.Candidate g t a ∧ e.2 = a.encode := by
  obtain ⟨state, row⟩ := row
  have hfind := (OrderedMap.find?_eq_some_iff _ _ _).2 hrow
  obtain ⟨s, hs⟩ := exists_state hr (Or.inl (by rw [hfind]; simp))
  obtain ⟨d, hd, hrows, -⟩ := exists_row hr hs
  rw [hrows.action] at hfind
  cases hfind
  obtain ⟨t, a, -, ha, hraw⟩ :=
    exists_of_find?_actionRow ((OrderedMap.find?_eq_some_iff _ _ _).2 he)
  exact ⟨s, t, a, hs, candidate_of_row wf hs hd ha, hraw⟩

/-- A goto in the table of a grammar is a transition. -/
theorem exists_transition_of_entry (wf : g.WellFormed) (hr : g.analyze.outcome = .ok r)
    {row : Nat × OrderedMap String Nat} {e : String × Nat} (hrow : row ∈ r.table.goto.entries)
    (he : e ∈ row.2.entries) :
    ∃ n, g.automaton.transition? row.1 (.nonterminal n) = some e.2 := by
  obtain ⟨state, row⟩ := row
  have hfind := (OrderedMap.find?_eq_some_iff _ _ _).2 hrow
  obtain ⟨s, hs⟩ := exists_state hr (Or.inr (by rw [hfind]; simp))
  obtain ⟨d, -, hrows, -⟩ := exists_row hr hs
  rw [hrows.goto] at hfind
  split at hfind
  · cases hfind
  · cases hfind
    obtain ⟨n, -, hm⟩ := exists_of_find?_gotoRow ((OrderedMap.find?_eq_some_iff _ _ _).2 he)
    exact ⟨n, (mem_edges_iff wf hs).1 hm⟩

theorem lt_size_of_row (hr : g.analyze.outcome = .ok r) {q : Nat}
    (h : q ∈ r.table.action.keys ∨ q ∈ r.table.goto.keys) : q < g.automaton.size := by
  have hfind : ∀ {ν : Type} {m : OrderedMap Nat ν}, q ∈ m.keys → m.find? q ≠ none := by
    intro ν m hm
    obtain ⟨v, hv⟩ := (OrderedMap.contains_iff m q).1 (List.contains_iff_mem.2 hm)
    rw [hv]
    exact Option.some_ne_none v
  obtain ⟨s, hs⟩ := exists_state hr (h.imp hfind hfind)
  exact (Array.getElem?_eq_some_iff.1 hs).1

/-- **No entry of a grammar's table leads nowhere.** -/
theorem closed_of_synthesis (wf : g.WellFormed) (hr : g.analyze.outcome = .ok r) : r.table.Closed where
  shift row hrow e he next hnext := by
    obtain ⟨s, t, a, hs, ha, hraw⟩ := exists_candidate_of_entry wf hr hrow he
    have hcode := Action.encode_decode e.2
    rw [hnext, hraw] at hcode
    -- only a shift is decoded as one, and its target is a state
    refine contains_of_lt hr ?_
    cases ha with
    | @shift p hp =>
      obtain rfl : next = p := Int.ofNat_inj.1 hcode
      exact transition?_lt wf ((mem_edges_iff wf hs).1 hp)
    | accept _ _ _ =>
      rw [hraw] at hnext
      cases hnext
    | @reduce i _ _ h0 _ _ =>
      simp only [Action.encode] at hcode
      omega
  goto row hrow e he := by
    obtain ⟨n, hn⟩ := exists_transition_of_entry wf hr hrow he
    exact contains_of_lt hr (transition?_lt wf hn)

/-- A grammar's table fits into words, if the numbers of its states do. Rules are numbered with 16
bits. -/
theorem fitsWords_of_synthesis (wf : g.WellFormed) (hr : g.analyze.outcome = .ok r)
    (hsize : g.automaton.size ≤ UInt64.size / 2) : r.table.FitsWords where
  action state hm := by
    have hlt := lt_size_of_row hr (Or.inl hm)
    simp only [UInt64.size] at hsize ⊢
    omega
  goto state hm := by
    have hlt := lt_size_of_row hr (Or.inr hm)
    simp only [UInt64.size] at hsize ⊢
    omega
  raw row hrow e he := by
    obtain ⟨s, t, a, hs, ha, hraw⟩ := exists_candidate_of_entry wf hr hrow he
    rw [hraw]
    simp only [UInt64.size] at hsize ⊢
    cases ha with
    | @shift p hp =>
      have hlt := transition?_lt wf ((mem_edges_iff wf hs).1 hp)
      simp only [Action.encode]
      omega
    | accept _ _ _ => decide
    | @reduce i la hi _ _ _ =>
      have hlt : i.rule < g.rules.size :=
        (isItem_of_mem_core wf hs (List.mem_map.2 ⟨_, hi, rfl⟩)).1
      have hrules := wf.size_le
      simp only [maxCount] at hrules
      simp only [Action.encode]
      omega

  next row hrow e he := by
    obtain ⟨n, hn⟩ := exists_transition_of_entry wf hr hrow he
    have hlt := transition?_lt wf hn
    simp only [UInt64.size] at hsize ⊢
    omega

/-- **Writing and loading a table loses nothing.** A table of 64-bit numbers is loaded with the same
entries in the same order, unless one of them leads nowhere; and no table of a grammar has such an
entry. -/
theorem table_reloads :
    (∀ t : ParseTable, t.FitsWords → (ParseTable.load t.production = .ok t ↔ t.Closed)) ∧
    ∀ (V : Type) (g : Grammar V) (r : Synthesis), g.Defined → g.analyze.outcome = .ok r →
      r.table.Closed ∧ (g.automaton.size ≤ UInt64.size / 2 →
        r.table.FitsWords ∧ ParseTable.load r.table.production = .ok r.table) := by
  refine ⟨fun t => ParseTable.load_production, fun V g r hg hr => ?_⟩
  have wf := hg.wellFormed
  have hclosed := closed_of_synthesis wf hr
  refine ⟨hclosed, fun hsize => ?_⟩
  have hwords := fitsWords_of_synthesis wf hr hsize
  exact ⟨hwords, (ParseTable.load_production hwords).2 hclosed⟩

/-- A table with names that are written with escapes, a name outside the first plane, and the largest
and smallest numbers. -/
def ParseTable.extremes : ParseTable where
  action := .ofList
    [(0, .ofList [("\"\\\n", 9223372036854775807), ("\x01/", -9223372036854775808), ("", 0)]),
     (9223372036854775807, .ofList [("😀é", -3)]), (18446744073709551615, ∅)]
  goto := .ofList [(9223372036854775807, .ofList [("\x7f\t", 18446744073709551615)])]

theorem ParseTable.extremes_fitsWords : extremes.FitsWords where
  action := by decide
  goto := by decide
  raw := by decide
  next := by decide

/-- The table of extremes reloads, and so does the table of brackets. -/
theorem extremes_reload :
    ParseTable.extremes.FitsWords ∧ ParseTable.extremes.Closed ∧
    ParseTable.load ParseTable.extremes.production = .ok ParseTable.extremes ∧
    ParseTable.load bracketSynthesis.table.production = .ok bracketSynthesis.table := by
  have hwords := ParseTable.extremes_fitsWords
  have hclosed : ParseTable.extremes.Closed := ParseTable.dangling?_eq_none_iff.1 (by decide)
  have hbrackets := table_reloads.2 Nat Grammar.brackets bracketSynthesis Grammar.brackets_defined
    brackets_analyzed
  exact ⟨hwords, hclosed, (table_reloads.1 _ hwords).2 hclosed, (hbrackets.2 (by decide +kernel)).2⟩

end ParserGen
