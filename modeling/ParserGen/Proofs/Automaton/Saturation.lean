import ParserGen.Proofs.Automaton.Flood
import ParserGen.Automaton.Basic
import ParserGen.Table.Synthesis

/-!
# Lookaheads by saturation

Flooding hands sets from node to node. The same is found one member at a time: the nodes that a
terminal is given to are the first, and all edges are followed again and again until no node is new.
This takes a few operations on bit masks for each edge, so the lookaheads of a given grammar can be
evaluated in a proof.

* `settle?_spec`: what is found is the least set of nodes that is closed under the edges.
* `flood_eq_of_saturate`: **saturation finds what flooding finds.**
* `automaton_of_saturated`: so it gives the automaton of the grammar.
-/

namespace ParserGen

open IndexSet (At)

/-- The set is closed under the edges. -/
def IndexSet.ClosedUnder (edges : List (Nat × Nat)) (s : IndexSet) : Prop :=
  ∀ e ∈ edges, s.contains e.1 = true → s.contains e.2 = true

/-- Follows an edge. -/
def IndexSet.follow (s : IndexSet) (e : Nat × Nat) : IndexSet :=
  if s.contains e.1 then s.insert e.2 else s

/-- Follows all edges one after the other until no node is new, unless that takes more than `fuel`
rounds. -/
def settle? (edges : List (Nat × Nat)) : Nat → IndexSet → Option IndexSet
  | 0, _ => none
  | fuel + 1, s =>
    if edges.foldl IndexSet.follow s = s then some s
    else settle? edges fuel (edges.foldl IndexSet.follow s)

section Settle

variable {edges : List (Nat × Nat)} {s : IndexSet}

theorem contains_follow {e : Nat × Nat} {i : Nat} : (s.follow e).contains i = true ↔
    s.contains i = true ∨ s.contains e.1 = true ∧ e.2 = i := by
  unfold IndexSet.follow
  split
  · rename_i h
    simp [h]
  · rename_i h
    simp [h]

theorem contains_foldl_follow {i : Nat} (h : s.contains i = true) :
    (edges.foldl IndexSet.follow s).contains i = true := by
  induction edges generalizing s with
  | nil => exact h
  | cons e rest ih => exact ih (contains_follow.2 (Or.inl h))

theorem foldl_follow_least {P : Nat → Prop} (hP : ∀ e ∈ edges, P e.1 → P e.2)
    (hs : ∀ i, s.contains i = true → P i) {i : Nat}
    (h : (edges.foldl IndexSet.follow s).contains i = true) : P i := by
  induction edges generalizing s with
  | nil => exact hs i h
  | cons e rest ih =>
    refine ih (fun e' he => hP e' (List.mem_cons_of_mem e he)) (fun j hj => ?_) h
    rcases contains_follow.1 hj with hj | ⟨hsource, rfl⟩
    · exact hs j hj
    · exact hP e List.mem_cons_self (hs _ hsource)

/-- What a node holds before a round has gone along its edges after it. -/
theorem contains_foldl_follow_target {e : Nat × Nat} (he : e ∈ edges) (h : s.contains e.1 = true) :
    (edges.foldl IndexSet.follow s).contains e.2 = true := by
  induction edges generalizing s with
  | nil => cases he
  | cons e' rest ih =>
    rcases List.mem_cons.1 he with rfl | hm
    · exact contains_foldl_follow (s := s.follow e) (contains_follow.2 (Or.inr ⟨h, rfl⟩))
    · exact ih hm (contains_follow.2 (Or.inl h))

/-- What is found is the least closed set. -/
theorem settle?_spec {fuel : Nat} {r : IndexSet} (h : settle? edges fuel s = some r) :
    (∀ i, s.contains i = true → r.contains i = true) ∧ r.ClosedUnder edges ∧
      ∀ P : Nat → Prop, (∀ e ∈ edges, P e.1 → P e.2) → (∀ i, s.contains i = true → P i) →
        ∀ i, r.contains i = true → P i := by
  induction fuel generalizing s with
  | zero => cases h
  | succ fuel ih =>
    unfold settle? at h
    split at h
    · rename_i hstable
      cases h
      refine ⟨fun _ hi => hi, fun e he hs => ?_, fun P _ hs => hs⟩
      rw [← hstable]
      exact contains_foldl_follow_target he hs
    · obtain ⟨hsub, hclosed, hleast⟩ := ih h
      refine ⟨fun i hi => hsub i (contains_foldl_follow hi), hclosed, fun P hP hs => ?_⟩
      exact hleast P hP fun i hi => foldl_follow_least hP hs hi

end Settle

/-- The edges as pairs. -/
def edgePairs (edges : Array (List Nat)) : List (Nat × Nat) :=
  (edges.toList.mapIdx fun v targets => targets.map fun w => (v, w)).flatten

/-- The nodes that a member is given to. -/
def sources (given : List (Nat × IndexSet)) (i : Nat) : IndexSet :=
  .ofList ((given.filter fun g => g.2.contains i).map (·.1))

/-- The nodes that each of some members reaches. -/
def reach? (edges : List (Nat × Nat)) (given : List (Nat × IndexSet)) (fuel : Nat) :
    List Nat → Option (List (Nat × IndexSet))
  | [] => some []
  | i :: rest => do
    let nodes ← settle? edges fuel (sources given i)
    let more ← reach? edges given fuel rest
    return (i, nodes) :: more

/-- What reaches each node, found one member at a time. -/
def saturate? (edges : Array (List Nat)) (given : List (Nat × IndexSet)) (fuel : Nat) :
    Option (List IndexSet) := do
  let reached ← reach? (edgePairs edges) given fuel (Flood.everything given).toList
  return (List.range edges.size).map fun v =>
    .ofList ((reached.filter fun r => r.2.contains v).map (·.1))

section Saturate

variable {edges : Array (List Nat)} {given : List (Nat × IndexSet)} {fuel : Nat}

theorem mem_edgePairs {v w : Nat} : (v, w) ∈ edgePairs edges ↔ w ∈ edges.getD v [] := by
  unfold edgePairs
  rw [List.mem_flatten]
  constructor
  · rintro ⟨l, hl, hm⟩
    obtain ⟨k, hk, rfl⟩ := List.mem_mapIdx.1 hl
    obtain ⟨w', hw', heq⟩ := List.mem_map.1 hm
    cases heq
    rw [Array.length_toList] at hk
    simpa [Array.getD, hk] using hw'
  · intro hw
    by_cases hv : v < edges.size
    · refine ⟨_, List.mem_mapIdx.2 ⟨v, by simpa using hv, rfl⟩, List.mem_map.2 ⟨w, ?_, rfl⟩⟩
      simpa [Array.getD, hv] using hw
    · simp [Array.getD, hv] at hw

theorem contains_sources {i v : Nat} :
    (sources given i).contains v = true ↔ ∃ s, (v, s) ∈ given ∧ s.contains i = true := by
  unfold sources
  rw [IndexSet.contains_ofList, List.mem_map]
  constructor
  · rintro ⟨⟨w, s⟩, hm, rfl⟩
    rw [List.mem_filter] at hm
    exact ⟨s, hm⟩
  · rintro ⟨s, hm⟩
    exact ⟨(v, s), List.mem_filter.2 hm, rfl⟩

theorem mem_of_reach? {pairs : List (Nat × Nat)} {members : List Nat} {l : List (Nat × IndexSet)}
    (h : reach? pairs given fuel members = some l) :
    (∀ i ∈ members, ∃ nodes, (i, nodes) ∈ l) ∧
      ∀ i nodes, (i, nodes) ∈ l → settle? pairs fuel (sources given i) = some nodes := by
  induction members generalizing l with
  | nil =>
    cases h
    exact ⟨by simp, by simp⟩
  | cons i rest ih =>
    obtain ⟨nodes, hnodes, h⟩ := Option.bind_eq_some_iff.1 h
    obtain ⟨more, hmore, h⟩ := Option.bind_eq_some_iff.1 h
    cases h
    obtain ⟨hmem, hsettle⟩ := ih hmore
    refine ⟨fun j hj => ?_, fun j nodes' hj => ?_⟩
    · rcases List.mem_cons.1 hj with rfl | hj
      · exact ⟨nodes, List.mem_cons_self⟩
      · obtain ⟨nodes', hm⟩ := hmem j hj
        exact ⟨nodes', List.mem_cons_of_mem _ hm⟩
    · rcases List.mem_cons.1 hj with heq | hj
      · cases heq
        exact hnodes
      · exact hsettle j nodes' hj

/-- **Saturation finds what flooding finds.** -/
theorem flood_eq_of_saturate {l : List IndexSet} (h : saturate? edges given fuel = some l) :
    (flood edges given).toList = l := by
  obtain ⟨reached, hreached, h⟩ := Option.bind_eq_some_iff.1 h
  cases h
  obtain ⟨hmem, hsettle⟩ := mem_of_reach? hreached
  -- a member has reached a node by one way if and only if it has by the other
  have hsame : ∀ v < edges.size, ∀ i, At (flood edges given) v i ↔
      ∃ nodes, (i, nodes) ∈ reached ∧ nodes.contains v = true := by
    intro v hv i
    constructor
    · refine flood_least (P := fun v i => ∃ nodes, (i, nodes) ∈ reached ∧ nodes.contains v = true)
        ?_ ?_
      · rintro v w i ⟨nodes, hm, hv⟩ hw
        exact ⟨nodes, hm, (settle?_spec (hsettle i nodes hm)).2.1 _ (mem_edgePairs.2 hw) hv⟩
      · intro v s i hg hi
        have hall : (Flood.everything given).contains i = true := given_bounded given _ hg i hi
        obtain ⟨nodes, hm⟩ := hmem i (IndexSet.mem_toList.2 hall)
        exact ⟨nodes, hm, (settle?_spec (hsettle i nodes hm)).1 v (contains_sources.2 ⟨s, hg, hi⟩)⟩
    · rintro ⟨nodes, hm, hv'⟩
      refine (settle?_spec (hsettle i nodes hm)).2.2
        (fun v => v < edges.size → At (flood edges given) v i) ?_ ?_ v hv' hv
      · rintro ⟨v, w⟩ he hat hw
        have hw' := mem_edgePairs.1 he
        have hv : v < edges.size := by
          by_contra hge
          simp [Array.getD, hge] at hw'
        exact flood_closed (hat hv) hw' hw
      · intro v hs hv
        obtain ⟨s, hg, hi⟩ := contains_sources.1 hs
        exact flood_given hg hv hi
  refine List.ext_getElem (by simp [size_flood]) fun v hv hv' => ?_
  have hlt : v < edges.size := by simpa [size_flood] using hv
  have hat : ∀ i, At (flood edges given) v i ↔ ((flood edges given).toList[v]).contains i = true := by
    intro i
    have hget : (flood edges given).getD v ∅ = (flood edges given).toList[v] := by
      simp [Array.getD, size_flood, hlt]
    unfold At
    rw [hget]
  refine IndexSet.ext_contains fun i => Bool.eq_iff_iff.2 ?_
  rw [← hat i, hsame v hlt i, List.getElem_map, List.getElem_range, IndexSet.contains_ofList,
    List.mem_map]
  constructor
  · rintro ⟨nodes, hm, hv⟩
    exact ⟨(i, nodes), List.mem_filter.2 ⟨hm, hv⟩, rfl⟩
  · rintro ⟨⟨j, nodes⟩, hm, rfl⟩
    exact ⟨nodes, List.mem_filter.1 hm⟩

end Saturate

/-! ## The automaton -/

variable {V : Type} {g : Grammar V}

/-- The automaton with lookaheads by saturation. -/
def Grammar.saturated? (g : Grammar V) (fuel : Nat) : Option Automaton := do
  let states := g.collection
  let first := FirstSets.compute g
  let layout := Layout.ofStates states
  let lookaheads ← saturate? (layout.edges g first) (layout.given g first) fuel
  let complete (s : CoreState) (items : List (Item × TerminalSet)) : State :=
    { items, kernelSize := s.kernel.length, edges := s.edges }
  return ⟨(List.zipWith complete states (distribute (states.map (·.items)) lookaheads)).toArray⟩

theorem automaton_of_saturated {fuel : Nat} {a : Automaton} (h : g.saturated? fuel = some a) :
    g.automaton = a := by
  obtain ⟨lookaheads, hl, h⟩ := Option.bind_eq_some_iff.1 h
  cases h
  unfold Grammar.automaton Grammar.lookaheads
  simp only [flood_eq_of_saturate hl]

/-- **The table of a grammar can be computed from lookaheads by saturation.** -/
theorem outcome_of_saturated {fuel : Nat} {a : Automaton} (h : g.saturated? fuel = some a) :
    g.analyze.outcome = g.synthesize a := by
  rw [← automaton_of_saturated h]
  rfl

end ParserGen
