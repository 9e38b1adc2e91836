import Mathlib.Logic.Relation
import ParserGen.Proofs.Automaton.Flood

/-!
# A flood finds what can be reached

In the end a node holds what was given to the nodes from which a way leads to it. This does not depend
on the order in which sets are given and waiting nodes are taken: each step keeps what was passed on,
and when no node waits the sets are the least ones closed under the edges.

Here the flood runs in the nodes of the graph, which keep their edges beside their sets. While a node
passes on, its edges are taken out of it; they are put back afterwards. A node that does not exist is
an error, and so is a flood that has not ended when the steps are used up.

* `pass_inPlace`: **a step in the nodes is a step of the flood.**
* `at_iff_of_settled`: **when no node waits, a node holds what can reach it.**
* `underway_of_runs`: this holds whichever nodes were taken.
* `flood_reachability`: with these, that the flood ends, and that the edges are what they were.
-/

namespace ParserGen

open IndexSet (At)

namespace Flood

/-- A way leads along the edges from one node to another. -/
def Leads (edges : Array (List Nat)) : Nat → Nat → Prop :=
  Relation.ReflTransGen fun v w => w ∈ edges.getD v []

/-- A member is given to some node from which a way leads to `v`. -/
def Reaches (edges : Array (List Nat)) (given : List (Nat × IndexSet)) (v i : Nat) : Prop :=
  ∃ u s, (u, s) ∈ given ∧ Leads edges u v ∧ s.contains i = true

theorem Reaches.tail {edges : Array (List Nat)} {given : List (Nat × IndexSet)} {v w i : Nat}
    (h : Reaches edges given v i) (hw : w ∈ edges.getD v []) : Reaches edges given w i := by
  obtain ⟨u, s, hm, hway, hs⟩ := h
  exact ⟨u, s, hm, Relation.ReflTransGen.tail hway hw, hs⟩

/-- Edges lead to nodes of the graph, and sets are given to such. -/
structure Within (edges : Array (List Nat)) (given : List (Nat × IndexSet)) : Prop where
  targets : ∀ ts ∈ edges, ∀ w ∈ ts, w < edges.size
  given : ∀ g ∈ given, g.1 < edges.size

theorem Within.target_lt {edges : Array (List Nat)} {given : List (Nat × IndexSet)}
    (h : Within edges given) {v w : Nat} (hw : w ∈ edges.getD v []) : w < edges.size := by
  by_cases hv : v < edges.size
  · rw [Array.getD_eq_getD_getElem?, Array.getElem?_eq_getElem hv, Option.getD_some] at hw
    exact h.targets _ (Array.getElem_mem hv) w hw
  · simp [Array.getD, hv] at hw

/-- A node of a graph, with what has reached it and the nodes it passes on to. -/
structure Node where
  reached : IndexSet
  targets : List Nat
deriving DecidableEq

/-- A flood under way in the nodes of a graph. -/
structure InPlace where
  nodes : Array Node
  /-- What has reached each node and was not yet passed on. -/
  fresh : Array IndexSet
  work : WorkList

namespace InPlace

/-- The graph before anything was given. -/
def initial (edges : Array (List Nat)) : InPlace where
  nodes := edges.map (Node.mk ∅)
  fresh := Array.replicate edges.size ∅
  work := ∅

/-- Gives a set to a node. Members that reached it before are dropped. -/
def deliver (f : InPlace) (node : Nat) (s : IndexSet) : Option InPlace := do
  let n ← f.nodes[node]?
  let added := s.diff n.reached
  if added.isEmpty then
    return f
  else
    let old ← f.fresh[node]?
    return {
      nodes := f.nodes.setIfInBounds node { n with reached := n.reached.union added }
      fresh := f.fresh.setIfInBounds node (old.union added)
      work := (f.work.push node).2 }

/-- Several deliveries one after the other. -/
def deliverAll (f : InPlace) (gifts : List (Nat × IndexSet)) : Option InPlace :=
  gifts.foldlM (fun f g => f.deliver g.1 g.2) f

/-- One step of a flood: `node`, taken from the work list, passes on what is fresh at it. Meanwhile its
edges are out of the graph. -/
def pass (f : InPlace) (node : Nat) (work : WorkList) : Option InPlace := do
  let passed ← f.fresh[node]?
  let n ← f.nodes[node]?
  let taken : InPlace :=
    { nodes := f.nodes.setIfInBounds node { n with targets := [] }
      fresh := f.fresh.setIfInBounds node ∅
      work }
  let rest ← taken.deliverAll (n.targets.map fun target => (target, passed))
  let after ← rest.nodes[node]?
  return { rest with nodes := rest.nodes.setIfInBounds node { after with targets := n.targets } }

/-- Lets waiting nodes pass on what they hold until none waits, unless `fuel` steps do not suffice. -/
def run : Nat → InPlace → Option InPlace
  | 0, _ => none
  | fuel + 1, f =>
    match f.work.pop with
    | none => some f
    | some (node, work) => (f.pass node work).bind (run fuel)

/-- The nodes after a flood. -/
def flood? (edges : Array (List Nat)) (given : List (Nat × IndexSet)) (fuel : Nat) :
    Option (Array Node) := do
  let start ← (initial edges).deliverAll given
  let last ← start.run fuel
  return last.nodes

/-- What a graph can come to in some steps, each of which takes any of the waiting nodes and leaves the
others in any order. -/
inductive Runs (start : InPlace) : Nat → InPlace → Prop
  | start : Runs start 0 start
  | step {steps node : Nat} {work : WorkList} {f f' : InPlace} (h : Runs start steps f)
      (htake : f.work.Takes node work) (hpass : f.pass node work = some f') :
      Runs start (steps + 1) f'

end InPlace

/-- A flood as one in the nodes of the graph. -/
def inPlace (edges : Array (List Nat)) (f : Flood) : InPlace where
  nodes := Array.zipWith Node.mk f.reached edges
  fresh := f.fresh
  work := f.work

/-! ## The same steps -/

section Nodes

variable {reached : Array IndexSet} {edges : Array (List Nat)}

theorem map_reached_nodes (h : reached.size = edges.size) :
    (Array.zipWith Node.mk reached edges).map (·.reached) = reached := by
  refine Array.ext (by simp [h]) fun v hv hv' => ?_
  simp

theorem map_targets_nodes (h : reached.size = edges.size) :
    (Array.zipWith Node.mk reached edges).map (·.targets) = edges := by
  refine Array.ext (by simp [h]) fun v hv hv' => ?_
  simp

theorem getElem?_nodes {v : Nat} (h : reached.size = edges.size) (hv : v < edges.size) :
    (Array.zipWith Node.mk reached edges)[v]? = some ⟨reached.getD v ∅, edges.getD v []⟩ := by
  have hr : v < reached.size := h ▸ hv
  simp [Array.getD, hr, hv]

/-- A node is replaced by replacing what has reached it and its edges. -/
theorem set_nodes (reached : Array IndexSet) (edges : Array (List Nat)) (v : Nat) (s : IndexSet)
    (targets : List Nat) :
    (Array.zipWith Node.mk reached edges).setIfInBounds v ⟨s, targets⟩ =
      Array.zipWith Node.mk (reached.setIfInBounds v s) (edges.setIfInBounds v targets) := by
  refine Array.ext (by simp) fun w hw hw' => ?_
  have hlt : w < reached.size ∧ w < edges.size := by simpa using hw
  rw [Array.getElem_setIfInBounds (by simpa using hw), Array.getElem_zipWith, Array.getElem_zipWith,
    Array.getElem_setIfInBounds hlt.1, Array.getElem_setIfInBounds hlt.2]
  split <;> rfl

theorem setIfInBounds_getD {α : Type} (a : Array α) (v : Nat) (d : α) :
    a.setIfInBounds v (a.getD v d) = a := by
  refine Array.ext (by simp) fun w hw hw' => ?_
  rw [Array.getElem_setIfInBounds hw']
  split
  · rename_i h
    subst h
    simp [Array.getD, hw']
  · rfl

theorem modify_eq_set {α : Type} (a : Array α) (v : Nat) (d : α) (g : α → α) :
    a.modify v g = a.setIfInBounds v (g (a.getD v d)) := by
  refine Array.ext (by simp) fun w hw hw' => ?_
  have hlt : w < a.size := by simpa using hw
  rw [Array.getElem_modify, Array.getElem_setIfInBounds hlt]
  split
  · rename_i h
    subst h
    simp [Array.getD, hlt]
  · rfl

end Nodes

section Same

variable {all : IndexSet} {edges : Array (List Nat)} {f : Flood} {node : Nat} {work : WorkList}

theorem initial_inPlace (edges : Array (List Nat)) :
    (initial edges.size).inPlace edges = .initial edges := by
  have hnodes : Array.zipWith Node.mk (Array.replicate edges.size ∅) edges =
      edges.map (Node.mk ∅) := by
    refine Array.ext (by simp) fun v hv hv' => ?_
    simp
  unfold inPlace initial InPlace.initial
  rw [hnodes]

theorem deliver_inPlace (h : Valid all edges.size f) (hnode : node < edges.size) (s : IndexSet) :
    (f.inPlace edges).deliver node s = some ((f.deliver node s).inPlace edges) := by
  have hreached : f.reached[node]? = some (f.reached.getD node ∅) := by
    simp [Array.getD, h.reached_size, hnode]
  have hfresh : f.fresh[node]? = some (f.fresh.getD node ∅) := by
    simp [Array.getD, h.fresh_size, hnode]
  unfold InPlace.deliver deliver inPlace
  simp only [getElem?_nodes h.reached_size hnode, hreached, hfresh, Option.bind_eq_bind,
    Option.bind_some, Option.pure_def]
  by_cases hempty : (s.diff (f.reached.getD node ∅)).isEmpty = true
  · rw [if_pos hempty, if_pos hempty]
  · rw [if_neg hempty, if_neg hempty, set_nodes, setIfInBounds_getD, modify_eq_set f.reached node ∅,
      modify_eq_set f.fresh node ∅]

theorem deliverAll_inPlace (edges : Array (List Nat)) (h : Valid all edges.size f)
    {gifts : List (Nat × IndexSet)}
    (hs : ∀ g ∈ gifts, ∀ i, g.2.contains i = true → all.contains i = true)
    (hlt : ∀ g ∈ gifts, g.1 < edges.size) :
    (f.inPlace edges).deliverAll gifts = some ((f.deliverAll gifts).inPlace edges) := by
  induction gifts generalizing f with
  | nil => rfl
  | cons g rest ih =>
    have hg := valid_deliver h (hs g List.mem_cons_self) g.1
    unfold InPlace.deliverAll
    rw [List.foldlM_cons, deliver_inPlace h (hlt g List.mem_cons_self)]
    exact ih hg (fun g' hg' => hs g' (List.mem_cons_of_mem g hg'))
      fun g' hg' => hlt g' (List.mem_cons_of_mem g hg')

/-- **A step in the nodes is a step of the flood.** No node is missing, and the edges of the node that
passes on are those it had before. -/
theorem pass_inPlace (h : Valid all edges.size f) (htake : f.work.Takes node work)
    (hnode : node < edges.size) (htargets : ∀ w ∈ edges.getD node [], w < edges.size) :
    (f.inPlace edges).pass node work = some ((f.pass edges node work).inPlace edges) := by
  have hvalid := (valid_pass edges h htake).1
  have hfresh : (f.inPlace edges).fresh[node]? = some (f.fresh.getD node ∅) := by
    simp [inPlace, Array.getD, h.fresh_size, hnode]
  have hn : (f.inPlace edges).nodes[node]? = some ⟨f.reached.getD node ∅, edges.getD node []⟩ :=
    getElem?_nodes h.reached_size hnode
  -- the edges without those of the node that passes on
  let others := edges.setIfInBounds node []
  have hothers : others.size = edges.size := Array.size_setIfInBounds
  have htaken : (f.inPlace edges).nodes.setIfInBounds node ⟨f.reached.getD node ∅, []⟩ =
      Array.zipWith Node.mk f.reached others := by
    unfold inPlace
    rw [set_nodes, setIfInBounds_getD]
  have hdeliver : InPlace.deliverAll ⟨Array.zipWith Node.mk f.reached others,
      f.fresh.setIfInBounds node ∅, work⟩
        ((edges.getD node []).map fun target => (target, f.fresh.getD node ∅)) =
      some ((f.pass edges node work).inPlace others) := by
    refine deliverAll_inPlace others (hothers ▸ valid_taken h htake)
      (gifts_bounded edges h) fun g hg => ?_
    obtain ⟨target, htarget, rfl⟩ := List.mem_map.1 hg
    exact hothers ▸ htargets target htarget
  have hafter : ((f.pass edges node work).inPlace others).nodes[node]? =
      some ⟨(f.pass edges node work).reached.getD node ∅, others.getD node []⟩ :=
    getElem?_nodes (hvalid.reached_size.trans hothers.symm) (hothers ▸ hnode)
  have hback : others.setIfInBounds node (edges.getD node []) = edges := by
    rw [Array.setIfInBounds_setIfInBounds, setIfInBounds_getD]
  unfold InPlace.pass
  simp only [hfresh, hn, Option.bind_eq_bind, Option.bind_some, htaken]
  show ((InPlace.deliverAll ⟨_, f.fresh.setIfInBounds node ∅, work⟩ _).bind _) = _
  rw [hdeliver]
  simp only [Option.bind_some, hafter, Option.pure_def]
  unfold inPlace
  rw [set_nodes, setIfInBounds_getD, hback]

end Same

/-! ## Floods under way -/

/-- What holds of a flood under way, whichever nodes were taken so far. -/
structure Underway (edges : Array (List Nat)) (given : List (Nat × IndexSet)) (f : Flood) : Prop where
  valid : Valid (everything given) edges.size f
  passed : Passed edges f
  waits : ∀ v ∈ f.work.toList, v < edges.size
  started : ∀ v i, At (start edges given).reached v i → At f.reached v i
  origin : ∀ v i, At f.reached v i → Reaches edges given v i

theorem waits_deliverAll {all : IndexSet} {n : Nat} {f : Flood} (h : Valid all n f)
    (hw : ∀ v ∈ f.work.toList, v < n) {gifts : List (Nat × IndexSet)}
    (hs : ∀ g ∈ gifts, ∀ i, g.2.contains i = true → all.contains i = true) :
    ∀ v ∈ (f.deliverAll gifts).work.toList, v < n := by
  induction gifts generalizing f with
  | nil => exact hw
  | cons g rest ih =>
    have hnext : ∀ v ∈ (f.deliver g.1 g.2).work.toList, v < n := by
      intro v hv
      rcases deliver_cases f g.1 g.2 with ⟨he, -⟩ | ⟨added, -, -, hlt, he⟩ <;> rw [he] at hv
      · exact hw v hv
      · rcases (WorkList.mem_push h.work g.1 v).1 hv with hv | rfl
        · exact hw v hv
        · exact h.reached_size ▸ hlt
    exact ih (valid_deliver h (hs g List.mem_cons_self) g.1) hnext
      fun g' hg' => hs g' (List.mem_cons_of_mem g hg')

section Underway

variable {edges : Array (List Nat)} {given : List (Nat × IndexSet)} {f : Flood} {node : Nat}
  {work : WorkList}

theorem underway_start (edges : Array (List Nat)) (given : List (Nat × IndexSet)) :
    Underway edges given (start edges given) where
  valid := valid_start edges given
  passed := passed_start edges given
  waits := waits_deliverAll (valid_initial _ _) (fun v hv => by cases hv) (given_bounded given)
  started _ _ h := h
  origin v i h := by
    obtain ⟨-, s, hm, hs⟩ := (at_start edges given v i).1 h
    exact ⟨v, s, hm, .refl, hs⟩

/-- **A step keeps what holds of a flood under way**, whichever node it takes. -/
theorem underway_pass (h : Underway edges given f) (htake : f.work.Takes node work) :
    Underway edges given (f.pass edges node work) where
  valid := (valid_pass edges h.valid htake).1
  passed := passed_pass h.valid htake h.passed
  waits := waits_deliverAll (valid_taken h.valid htake)
    (fun v hv => h.waits v (htake.perm.mem_iff.2 (List.mem_cons_of_mem node hv)))
    (gifts_bounded edges h.valid)
  started v i hi := (at_pass edges h.valid v i).2 (Or.inl (h.started v i hi))
  origin := origin_pass (fun _ _ _ => Reaches.tail) h.valid h.origin

/-- **When no node waits, a node holds what can reach it.** -/
theorem at_iff_of_settled (hwithin : Within edges given) (h : Underway edges given f)
    (hdone : f.work.toList = []) {v i : Nat} : At f.reached v i ↔ Reaches edges given v i := by
  refine ⟨h.origin v i, ?_⟩
  rintro ⟨u, s, hm, hway, hs⟩
  have hu := (at_start edges given u i).2 ⟨hwithin.given _ hm, s, hm, hs⟩
  -- along the way, what has reached a node has reached the next one
  induction hway with
  | refl => exact h.started u i hu
  | tail _ hstep ih =>
    exact closed_of_settled h.valid h.passed hdone ih hstep (hwithin.target_lt hstep)

/-- Floods that have ended leave the same sets. -/
theorem reached_eq_of_settled {given' : List (Nat × IndexSet)} {f' : Flood}
    (hwithin : Within edges given) (hwithin' : Within edges given')
    (hsame : ∀ g, g ∈ given' ↔ g ∈ given) (h : Underway edges given f)
    (h' : Underway edges given' f') (hdone : f.work.toList = []) (hdone' : f'.work.toList = []) :
    f'.reached = f.reached := by
  refine Array.ext (h'.valid.reached_size.trans h.valid.reached_size.symm) fun v hv hv' => ?_
  refine IndexSet.ext_contains fun i => Bool.eq_iff_iff.2 ?_
  have hat : At f'.reached v i ↔ At f.reached v i := by
    rw [at_iff_of_settled hwithin h hdone, at_iff_of_settled hwithin' h' hdone']
    simp only [Reaches, hsame]
  simpa [At, Array.getD, hv, hv'] using hat

theorem exists_settled (edges : Array (List Nat)) (given : List (Nat × IndexSet)) :
    ∃ f, Underway edges given f ∧ f.work.toList = [] ∧ f.reached = flood edges given := by
  have hdone := WorkList.toList_eq_nil_of_pop
    (run_settled edges _ (valid_start edges given) (potential_start edges given)).1
  obtain ⟨hvalid, hpassed, hstarted, horigin⟩ := flood_invariant edges given
    (P := Reaches edges given) (fun _ _ _ => Reaches.tail)
    fun v s _ hm hs => ⟨v, s, hm, .refl, hs⟩
  exact ⟨_, ⟨hvalid, hpassed, fun v hv => by simp [hdone] at hv, hstarted, horigin⟩, hdone, rfl⟩

end Underway

/-- What a flood that has ended leaves in the nodes of a graph: the edges that were there before, and
all that is given to a node from which a way leads to the node. -/
structure Flooded (edges : Array (List Nat)) (given : List (Nat × IndexSet)) (nodes : Array Node) :
    Prop where
  targets : nodes.map (·.targets) = edges
  reached : nodes.map (·.reached) = flood edges given
  reaches : ∀ v i, At (nodes.map (·.reached)) v i ↔ Reaches edges given v i

section Runs

variable {edges : Array (List Nat)} {given : List (Nat × IndexSet)}

theorem start_inPlace (h : Within edges given) :
    (InPlace.initial edges).deliverAll given = some ((start edges given).inPlace edges) := by
  rw [← initial_inPlace]
  exact deliverAll_inPlace edges (valid_initial _ _) (given_bounded given) h.given

theorem Underway.pass_inPlace {f : Flood} {node : Nat} {work : WorkList}
    (hwithin : Within edges given) (h : Underway edges given f) (htake : f.work.Takes node work) :
    (f.inPlace edges).pass node work = some ((f.pass edges node work).inPlace edges) :=
  Flood.pass_inPlace h.valid htake (h.waits node (htake.perm.mem_iff.2 List.mem_cons_self))
    fun _ => hwithin.target_lt

theorem flooded_of_settled (hwithin : Within edges given) {f : Flood} (h : Underway edges given f)
    (hdone : f.work.toList = []) : Flooded edges given (f.inPlace edges).nodes := by
  have hreached : (f.inPlace edges).nodes.map (·.reached) = f.reached :=
    map_reached_nodes h.valid.reached_size
  obtain ⟨f', h', hdone', heq⟩ := exists_settled edges given
  refine ⟨map_targets_nodes h.valid.reached_size, ?_, fun v i => ?_⟩
  · rw [hreached, ← heq]
    exact reached_eq_of_settled hwithin hwithin (fun _ => Iff.rfl) h' h hdone' hdone
  · rw [hreached]
    exact at_iff_of_settled hwithin h hdone

/-- **A flood in the nodes goes through the steps of the flood**, whichever nodes it takes, and each
step lowers the potential. -/
theorem underway_of_runs (hwithin : Within edges given) {steps : Nat} {p : InPlace}
    (h : InPlace.Runs ((start edges given).inPlace edges) steps p) :
    ∃ f, Underway edges given f ∧ f.inPlace edges = p ∧
      potential (everything given) f + steps ≤ bound edges.size given := by
  induction h with
  | start => exact ⟨_, underway_start edges given, rfl, potential_start edges given⟩
  | step _ htake hpass ih =>
    obtain ⟨f, hf, rfl, hsteps⟩ := ih
    have htake' : f.work.Takes _ _ := htake
    rw [hf.pass_inPlace hwithin htake'] at hpass
    cases hpass
    have hlt := (valid_pass edges hf.valid htake').2
    exact ⟨_, underway_pass hf htake', rfl, by omega⟩

/-- **A flood in the nodes that always takes the next waiting node ends.** -/
theorem run_inPlace (hwithin : Within edges given) {f : Flood} (h : Underway edges given f)
    {fuel : Nat} (hfuel : potential (everything given) f < fuel) :
    ∃ f', Underway edges given f' ∧ f'.work.toList = [] ∧
      (f.inPlace edges).run fuel = some (f'.inPlace edges) := by
  induction fuel generalizing f with
  | zero => omega
  | succ fuel ih =>
    cases hpop : f.work.pop with
    | none =>
      have hpop' : (f.inPlace edges).work.pop = none := hpop
      refine ⟨f, h, WorkList.toList_eq_nil_of_pop hpop, ?_⟩
      rw [InPlace.run, hpop']
    | some p =>
      obtain ⟨node, work⟩ := p
      have hpop' : (f.inPlace edges).work.pop = some (node, work) := hpop
      have htake := WorkList.takes_of_pop h.valid.work hpop
      have hlt := (valid_pass edges h.valid htake).2
      obtain ⟨f', hf', hdone, hrun⟩ := ih (underway_pass h htake) (by omega)
      refine ⟨f', hf', hdone, ?_⟩
      rw [InPlace.run, hpop']
      show ((f.inPlace edges).pass node work).bind (InPlace.run fuel) = _
      rw [h.pass_inPlace hwithin htake, Option.bind_some, hrun]

end Runs

end Flood

/-- **A flood finds exactly what can be reached.** In a graph whose edges lead to its nodes, cycles,
loops and repeated edges included, it ends and leaves in each node what was given to the nodes from
which a way leads to it, with the edges as they were. The same comes out whichever waiting nodes are
taken, each time in at most as many steps, without ever missing a node; and in whatever order the sets
are given. -/
theorem flood_reachability {edges : Array (List Nat)} {given : List (Nat × IndexSet)}
    (h : Flood.Within edges given) :
    (∀ fuel, Flood.bound edges.size given < fuel →
      ∃ nodes, Flood.InPlace.flood? edges given fuel = some nodes ∧
        Flood.Flooded edges given nodes) ∧
    (∃ start, (Flood.InPlace.initial edges).deliverAll given = some start ∧
      ∀ steps p, Flood.InPlace.Runs start steps p →
        steps ≤ Flood.bound edges.size given ∧
        (∀ node work, p.work.Takes node work → ∃ p', p.pass node work = some p') ∧
        (p.work.toList = [] → Flood.Flooded edges given p.nodes)) ∧
    ∀ given', given'.Perm given → flood edges given' = flood edges given := by
  refine ⟨fun fuel hfuel => ?_, ⟨_, Flood.start_inPlace h, fun steps p hruns => ?_⟩,
    fun given' hperm => ?_⟩
  · have hstart := lt_of_le_of_lt (potential_start edges given) hfuel
    obtain ⟨f, hf, hdone, hrun⟩ := Flood.run_inPlace h (Flood.underway_start edges given) hstart
    refine ⟨_, ?_, Flood.flooded_of_settled h hf hdone⟩
    unfold Flood.InPlace.flood?
    rw [Flood.start_inPlace h]
    simp only [Option.bind_eq_bind, Option.bind_some, hrun, Option.pure_def]
  · obtain ⟨f, hf, rfl, hsteps⟩ := Flood.underway_of_runs h hruns
    exact ⟨by omega, fun node work htake => ⟨_, hf.pass_inPlace h htake⟩,
      Flood.flooded_of_settled h hf⟩
  · have h' : Flood.Within edges given' := ⟨h.targets, fun g hg => h.given g (hperm.mem_iff.1 hg)⟩
    obtain ⟨f, hf, hdone, hreached⟩ := Flood.exists_settled edges given
    obtain ⟨f', hf', hdone', hreached'⟩ := Flood.exists_settled edges given'
    rw [← hreached, ← hreached']
    exact Flood.reached_eq_of_settled h h' (fun _ => hperm.mem_iff) hf hf' hdone hdone'

/-- Two nodes on a cycle, one of which has two edges to the other, a node with a loop, and one without
edges. -/
def tangledEdges : Array (List Nat) :=
  #[[1, 1], [0, 2], [2, 3], [], [2]]

/-- Sets for three of the nodes, for one of them in two parts. -/
def tangledGiven : List (Nat × IndexSet) :=
  [(1, .ofList [5]), (4, .ofList [7, 8]), (2, .ofList [6]), (1, .ofList [5, 9])]

/-- The nodes of the graph after the flood. -/
def tangledNodes : Array Flood.Node :=
  #[⟨.ofList [5, 9], [1, 1]⟩, ⟨.ofList [5, 9], [0, 2]⟩, ⟨.ofList [5, 6, 7, 8, 9], [2, 3]⟩,
    ⟨.ofList [5, 6, 7, 8, 9], []⟩, ⟨.ofList [7, 8], [2]⟩]

theorem tangled_flooded : Flood.Within tangledEdges tangledGiven ∧
    Flood.InPlace.flood? tangledEdges tangledGiven 31 = some tangledNodes ∧
    Flood.Flooded tangledEdges tangledGiven tangledNodes ∧
    flood tangledEdges tangledGiven.reverse = flood tangledEdges tangledGiven := by
  have hwithin : Flood.Within tangledEdges tangledGiven := ⟨by decide, by decide⟩
  have hbound : Flood.bound tangledEdges.size tangledGiven < 31 := by decide +kernel
  have hflood : Flood.InPlace.flood? tangledEdges tangledGiven 31 = some tangledNodes := by
    decide +kernel
  obtain ⟨hends, -, horder⟩ := flood_reachability hwithin
  obtain ⟨nodes, hnodes, hflooded⟩ := hends 31 hbound
  rw [hflood] at hnodes
  cases hnodes
  exact ⟨hwithin, hflood, hflooded, horder _ (List.reverse_perm _)⟩

end ParserGen
