import Mathlib.Tactic.ByContra
import ParserGen.Automaton.Flood
import ParserGen.Proofs.Counting

/-!
# What a flood reaches

A node that waits holds all it has not passed on, and a node that does not wait has passed on all it
holds; so when no node waits, the sets are closed under the edges. Every delivery that lets a node
wait gives it a new member, and every step takes a node from the list: waiting nodes and missing
members together go down by one with each step.

* `at_deliverAll`: what a node holds after deliveries.
* `valid_pass`, `passed_pass`: what a step keeps, whichever of the waiting nodes it takes.
* `run_settled`: a flood given enough steps ends with nothing to pass on.
* `flood_given`, `flood_closed`, `flood_least`: the flood is the least family of sets that holds what
  was given and is closed under the edges.
* `flood_stable`: steps beyond the bound change nothing.
-/

namespace ParserGen

open IndexSet (At deficit)

namespace IndexSet

theorem at_modify {sets : Array IndexSet} {node v i : Nat} {s : IndexSet} :
    At (sets.modify node (·.union s)) v i ↔
      At sets v i ∨ v = node ∧ v < sets.size ∧ s.contains i = true := by
  unfold At
  simp only [Array.getD_eq_getD_getElem?, Array.getElem?_modify]
  by_cases hv : v < sets.size
  · by_cases hn : node = v
    · subst hn
      simp [hv]
    · have hn' : v ≠ node := fun e => hn e.symm
      simp [hn, hn', hv]
  · simp [hv]

theorem at_clear {sets : Array IndexSet} {node v i : Nat} :
    At (sets.setIfInBounds node ∅) v i ↔ At sets v i ∧ v ≠ node := by
  unfold At
  simp only [Array.getD_eq_getD_getElem?, Array.getElem?_setIfInBounds]
  by_cases hn : node = v
  · subst hn
    by_cases hv : node < sets.size <;> simp [hv]
  · have hn' : v ≠ node := fun e => hn e.symm
    simp [hn, hn']

theorem not_at_replicate (n v i : Nat) : ¬ At (Array.replicate n ∅) v i := by
  unfold At
  by_cases hv : v < n <;> simp [Array.getD_eq_getD_getElem?, hv]

end IndexSet

/-- `i` is one of the waiting indices, and the others wait in `v`, in whatever order. -/
structure WorkList.Takes (w : WorkList) (i : Nat) (v : WorkList) : Prop where
  perm : w.toList.Perm (i :: v.toList)
  valid : v.Valid

theorem WorkList.takes_of_pop {w v : WorkList} {i : Nat} (hw : w.Valid) (h : w.pop = some (i, v)) :
    w.Takes i v :=
  ⟨toList_pop h ▸ List.Perm.refl _, valid_pop hw h⟩

namespace Flood

variable {all : IndexSet} {n : Nat} {f : Flood}

/-- The two arrays have `n` sets, nothing outside `all` is in them, and a node with something to
pass on waits. -/
structure Valid (all : IndexSet) (n : Nat) (f : Flood) : Prop where
  reached_size : f.reached.size = n
  fresh_size : f.fresh.size = n
  fresh_reached : ∀ v i, At f.fresh v i → At f.reached v i
  bounded : ∀ v i, At f.reached v i → all.contains i = true
  work : f.work.Valid
  waiting : ∀ v i, At f.fresh v i → v ∈ f.work.toList

/-- The waiting nodes and the members that can still arrive. -/
def potential (all : IndexSet) (f : Flood) : Nat :=
  f.work.toList.length + deficit all f.reached

theorem valid_initial (all : IndexSet) (n : Nat) : Valid all n (initial n) where
  reached_size := Array.size_replicate
  fresh_size := Array.size_replicate
  fresh_reached _ _ h := h
  bounded v i h := absurd h (IndexSet.not_at_replicate n v i)
  work := WorkList.valid_empty
  waiting v i h := absurd h (IndexSet.not_at_replicate n v i)

/-- What a delivery does: nothing if all of it was there before, otherwise the node gets what is new
and waits. -/
theorem deliver_cases (f : Flood) (node : Nat) (s : IndexSet) :
    (f.deliver node s = f ∧ ∀ i, s.contains i = true → node < f.reached.size → At f.reached node i) ∨
    ∃ added : IndexSet, (∀ i, added.contains i = true ↔ s.contains i = true ∧ ¬ At f.reached node i) ∧
      (∃ i, added.contains i = true) ∧ node < f.reached.size ∧
      f.deliver node s =
        { reached := f.reached.modify node (·.union added)
          fresh := f.fresh.modify node (·.union added)
          work := (f.work.push node).2 } := by
  unfold deliver
  cases hold : f.reached[node]? with
  | none =>
    have hge : ¬ node < f.reached.size := by simpa using hold
    exact Or.inl ⟨rfl, fun i _ hlt => absurd hlt hge⟩
  | some old =>
    have hadded : ∀ i, (s.diff old).contains i = true ↔ s.contains i = true ∧ ¬ At f.reached node i := by
      intro i
      unfold At
      rw [Array.getD_eq_getD_getElem?, hold, Option.getD_some]
      simp
    -- the node waits again only if something is new to it
    by_cases hempty : (s.diff old).isEmpty = true
    · left
      simp only [hempty, if_true, true_and]
      intro i hs _
      by_contra hn
      have hi := (hadded i).2 ⟨hs, hn⟩
      rw [IndexSet.isEmpty_iff.1 hempty i] at hi
      cases hi
    · right
      simp only [hempty]
      refine ⟨s.diff old, hadded, ?_, (Array.getElem?_eq_some_iff.1 hold).1, rfl⟩
      by_contra hall
      refine hempty (IndexSet.isEmpty_iff.2 fun i => ?_)
      simpa using not_exists.1 hall i

theorem at_reached_deliver (f : Flood) (node : Nat) (s : IndexSet) (v i : Nat) :
    At (f.deliver node s).reached v i ↔
      At f.reached v i ∨ v = node ∧ v < f.reached.size ∧ s.contains i = true := by
  rcases deliver_cases f node s with ⟨he, hold⟩ | ⟨added, hadded, -, hlt, he⟩
  · rw [he]
    constructor
    · exact Or.inl
    · rintro (h | ⟨rfl, hlt, hs⟩)
      · exact h
      · exact hold i hs hlt
  · rw [he, IndexSet.at_modify, hadded]
    constructor
    · rintro (h | ⟨hv, hlt, hs, -⟩)
      · exact Or.inl h
      · exact Or.inr ⟨hv, hlt, hs⟩
    · rintro (h | ⟨rfl, hlt, hs⟩)
      · exact Or.inl h
      · by_cases hr : At f.reached v i
        · exact Or.inl hr
        · exact Or.inr ⟨rfl, hlt, hs, hr⟩

theorem at_fresh_deliver (h : f.fresh.size = f.reached.size) (node : Nat) (s : IndexSet)
    (v i : Nat) :
    At (f.deliver node s).fresh v i ↔ At f.fresh v i ∨
      v = node ∧ v < f.reached.size ∧ s.contains i = true ∧ ¬ At f.reached v i := by
  rcases deliver_cases f node s with ⟨he, hold⟩ | ⟨added, hadded, -, -, he⟩
  · rw [he]
    constructor
    · exact Or.inl
    · rintro (h | ⟨rfl, hlt, hs, hn⟩)
      · exact h
      · exact absurd (hold i hs hlt) hn
  · rw [he, IndexSet.at_modify, hadded, h]
    constructor
    · rintro (h | ⟨rfl, hlt, hs, hn⟩)
      · exact Or.inl h
      · exact Or.inr ⟨rfl, hlt, hs, hn⟩
    · rintro (h | ⟨rfl, hlt, hs, hn⟩)
      · exact Or.inl h
      · exact Or.inr ⟨rfl, hlt, hs, hn⟩

theorem valid_deliver (h : Valid all n f) {s : IndexSet}
    (hs : ∀ i, s.contains i = true → all.contains i = true) (node : Nat) :
    Valid all n (f.deliver node s) := by
  have hsize : f.fresh.size = f.reached.size := h.fresh_size.trans h.reached_size.symm
  have hsizes : (f.deliver node s).reached.size = n ∧ (f.deliver node s).fresh.size = n := by
    rcases deliver_cases f node s with ⟨he, -⟩ | ⟨added, -, -, -, he⟩ <;> rw [he]
    · exact ⟨h.reached_size, h.fresh_size⟩
    · simp [h.reached_size, h.fresh_size]
  refine ⟨hsizes.1, hsizes.2, fun v i hv => ?_, fun v i hv => ?_, ?_, fun v i hv => ?_⟩
  · rw [at_reached_deliver]
    rcases (at_fresh_deliver hsize node s v i).1 hv with hf | ⟨rfl, hlt, hs, -⟩
    · exact Or.inl (h.fresh_reached v i hf)
    · exact Or.inr ⟨rfl, hlt, hs⟩
  · rcases (at_reached_deliver f node s v i).1 hv with hf | ⟨-, -, hi⟩
    · exact h.bounded v i hf
    · exact hs i hi
  · rcases deliver_cases f node s with ⟨he, -⟩ | ⟨added, -, -, -, he⟩ <;> rw [he]
    · exact h.work
    · exact WorkList.valid_push h.work node
  · rcases deliver_cases f node s with ⟨he, -⟩ | ⟨added, -, -, -, he⟩ <;> rw [he] at hv ⊢
    · exact h.waiting v i hv
    · rw [WorkList.mem_push h.work]
      rcases IndexSet.at_modify.1 hv with hf | ⟨rfl, -⟩
      · exact Or.inl (h.waiting v i hf)
      · exact Or.inr rfl

/-- **A delivery does not raise the potential**: a node waits anew only for a new member. -/
theorem potential_deliver (h : Valid all n f) {s : IndexSet}
    (hs : ∀ i, s.contains i = true → all.contains i = true) (node : Nat) :
    potential all (f.deliver node s) ≤ potential all f := by
  have hgrow : ∀ v i, At f.reached v i → At (f.deliver node s).reached v i := fun v i hv =>
    (at_reached_deliver f node s v i).2 (Or.inl hv)
  have hsize := h.reached_size.trans (valid_deliver h hs node).reached_size.symm
  unfold potential
  rcases deliver_cases f node s with ⟨he, -⟩ | ⟨added, hadded, ⟨i, hi⟩, hlt, he⟩
  · rw [he]
  · -- one node more may wait, and one member less is missing
    have hnew := (hadded i).1 hi
    have hdef := IndexSet.deficit_lt hsize hgrow hlt (hs i hnew.1)
      ((at_reached_deliver f node s node i).2 (Or.inr ⟨rfl, hlt, hnew.1⟩)) hnew.2
    have hlen : (f.deliver node s).work.toList.length ≤ f.work.toList.length + 1 := by
      rw [he, WorkList.toList_push]
      split <;> simp
    omega

/-- Several deliveries one after the other. -/
def deliverAll (f : Flood) (gifts : List (Nat × IndexSet)) : Flood :=
  gifts.foldl (fun f g => f.deliver g.1 g.2) f

theorem valid_deliverAll (h : Valid all n f) {gifts : List (Nat × IndexSet)}
    (hs : ∀ g ∈ gifts, ∀ i, g.2.contains i = true → all.contains i = true) :
    Valid all n (f.deliverAll gifts) ∧ potential all (f.deliverAll gifts) ≤ potential all f := by
  induction gifts generalizing f with
  | nil => exact ⟨h, le_rfl⟩
  | cons g rest ih =>
    have hg := hs g List.mem_cons_self
    obtain ⟨hv, hp⟩ := ih (valid_deliver h hg g.1) fun g' hg' => hs g' (List.mem_cons_of_mem g hg')
    exact ⟨hv, hp.trans (potential_deliver h hg g.1)⟩

/-- **What the nodes hold after deliveries**: what they held and what was delivered to them. -/
theorem at_deliverAll (gifts : List (Nat × IndexSet)) (f : Flood) (v i : Nat) :
    At (f.deliverAll gifts).reached v i ↔
      At f.reached v i ∨ v < f.reached.size ∧ ∃ s, (v, s) ∈ gifts ∧ s.contains i = true := by
  induction gifts generalizing f with
  | nil => simp [deliverAll]
  | cons g rest ih =>
    have hsize : (f.deliver g.1 g.2).reached.size = f.reached.size := by
      rcases deliver_cases f g.1 g.2 with ⟨he, -⟩ | ⟨added, -, -, -, he⟩ <;> simp [he]
    show At ((f.deliver g.1 g.2).deliverAll rest).reached v i ↔ _
    rw [ih, at_reached_deliver, hsize]
    constructor
    · rintro ((h | ⟨rfl, hlt, hs⟩) | ⟨hlt, s, hm, hs⟩)
      · exact Or.inl h
      · exact Or.inr ⟨hlt, g.2, List.mem_cons_self, hs⟩
      · exact Or.inr ⟨hlt, s, List.mem_cons_of_mem g hm, hs⟩
    · rintro (h | ⟨hlt, s, hm, hs⟩)
      · exact Or.inl (Or.inl h)
      · rcases List.mem_cons.1 hm with rfl | hm
        · exact Or.inl (Or.inr ⟨rfl, hlt, hs⟩)
        · exact Or.inr ⟨hlt, s, hm, hs⟩

/-- What is new to a node stays to be passed on. -/
theorem fresh_deliverAll (h : Valid all n f) {gifts : List (Nat × IndexSet)}
    (hs : ∀ g ∈ gifts, ∀ i, g.2.contains i = true → all.contains i = true) {v i : Nat} :
    (At f.fresh v i → At (f.deliverAll gifts).fresh v i) ∧
    (At (f.deliverAll gifts).reached v i → At f.reached v i ∨ At (f.deliverAll gifts).fresh v i) := by
  induction gifts generalizing f with
  | nil => exact ⟨id, Or.inl⟩
  | cons g rest ih =>
    have hg := hs g List.mem_cons_self
    have hfresh := at_fresh_deliver (h.fresh_size.trans h.reached_size.symm) g.1 g.2 v i
    obtain ⟨hkeep, hnew⟩ := ih (valid_deliver h hg g.1) fun g' hg' =>
      hs g' (List.mem_cons_of_mem g hg')
    refine ⟨fun hf => hkeep (hfresh.2 (Or.inl hf)), fun hr => ?_⟩
    rcases hnew hr with hr | hf
    · -- it came with the first gift, or was there before
      by_cases hold : At f.reached v i
      · exact Or.inl hold
      · rcases (at_reached_deliver f g.1 g.2 v i).1 hr with hr | ⟨rfl, hlt, hi⟩
        · exact Or.inl hr
        · exact Or.inr (hkeep (hfresh.2 (Or.inr ⟨rfl, hlt, hi, hold⟩)))
    · exact Or.inr hf

variable {edges : Array (List Nat)}

/-- One step of a flood: `node`, taken from the work list, passes on what is fresh at it. -/
def pass (edges : Array (List Nat)) (f : Flood) (node : Nat) (work : WorkList) : Flood :=
  let rest : Flood := { reached := f.reached, fresh := f.fresh.setIfInBounds node ∅, work }
  rest.deliverAll ((edges.getD node []).map fun target => (target, f.fresh.getD node ∅))

theorem run_succ {node : Nat} {work : WorkList} (h : f.work.pop = some (node, work)) (fuel : Nat) :
    run edges (fuel + 1) f = run edges fuel (f.pass edges node work) := by
  rw [run, h]
  unfold pass deliverAll
  rw [List.foldl_map]

theorem run_of_pop_none (h : f.work.pop = none) (fuel : Nat) : run edges fuel f = f := by
  cases fuel with
  | zero => rfl
  | succ fuel => rw [run, h]

/-- What was passed on along an edge has arrived. -/
def Passed (edges : Array (List Nat)) (f : Flood) : Prop :=
  ∀ v i, At f.reached v i → ¬ At f.fresh v i →
    ∀ w ∈ edges.getD v [], w < f.reached.size → At f.reached w i

section Step

variable {node : Nat} {work : WorkList}

theorem valid_taken (h : Valid all n f) (htake : f.work.Takes node work) :
    Valid all n { reached := f.reached, fresh := f.fresh.setIfInBounds node ∅, work } := by
  refine ⟨h.reached_size, by simp [h.fresh_size], fun v i hv => ?_, h.bounded, htake.valid,
    fun v i hv => ?_⟩
  · exact h.fresh_reached v i (IndexSet.at_clear.1 hv).1
  · obtain ⟨hf, hne⟩ := IndexSet.at_clear.1 hv
    have hm := htake.perm.mem_iff.1 (h.waiting v i hf)
    exact (List.mem_cons.1 hm).resolve_left hne

theorem gifts_bounded (edges : Array (List Nat)) (h : Valid all n f) : ∀ g ∈ (edges.getD node []).map fun target => (target, f.fresh.getD node ∅),
    ∀ i, g.2.contains i = true → all.contains i = true := by
  intro g hg i hi
  obtain ⟨target, -, rfl⟩ := List.mem_map.1 hg
  exact h.bounded node i (h.fresh_reached node i hi)

/-- **A step keeps the arrays in order and lowers the potential.** -/
theorem valid_pass (edges : Array (List Nat)) (h : Valid all n f)
    (htake : f.work.Takes node work) : Valid all n (f.pass edges node work) ∧
      potential all (f.pass edges node work) < potential all f := by
  obtain ⟨hv, hp⟩ := valid_deliverAll (valid_taken h htake) (gifts_bounded edges h)
  refine ⟨hv, lt_of_le_of_lt hp ?_⟩
  unfold potential
  rw [htake.perm.length_eq, List.length_cons]
  show work.toList.length + deficit all f.reached < _
  omega

theorem at_pass (edges : Array (List Nat)) (h : Valid all n f) (v i : Nat) : At (f.pass edges node work).reached v i ↔
    At f.reached v i ∨ v < n ∧ v ∈ edges.getD node [] ∧ At f.fresh node i := by
  unfold pass
  rw [at_deliverAll, h.reached_size]
  refine or_congr_right (and_congr_right fun _ => ?_)
  simp only [List.mem_map, Prod.mk.injEq]
  constructor
  · rintro ⟨s, ⟨target, hm, rfl, rfl⟩, hi⟩
    exact ⟨hm, hi⟩
  · rintro ⟨hm, hi⟩
    exact ⟨_, ⟨v, hm, rfl, rfl⟩, hi⟩

/-- **A step keeps what was passed on.** -/
theorem passed_pass (h : Valid all n f) (htake : f.work.Takes node work)
    (hp : Passed edges f) : Passed edges (f.pass edges node work) := by
  intro v i hr hn w hw hin
  have hvalid := (valid_pass edges h htake).1
  obtain ⟨hkeep, hnew⟩ := fresh_deliverAll (valid_taken h htake) (gifts_bounded edges h)
    (v := v) (i := i)
  have hlt : w < n := hvalid.reached_size ▸ hin
  -- a member that is no longer fresh was there before the step
  have hold : At f.reached v i := (hnew hr).resolve_right hn
  rw [at_pass edges h]
  by_cases hfresh : At f.fresh v i
  · have hv : v = node := by
      by_contra hne
      exact hn (hkeep (IndexSet.at_clear.2 ⟨hfresh, hne⟩))
    subst hv
    exact Or.inr ⟨hlt, hw, hfresh⟩
  · exact Or.inl (hp v i hold hfresh w hw (h.reached_size ▸ hlt))

/-- What arrives in a step was fresh at the node taken, so a family of members that the edges do not
leave is not left by the step. -/
theorem origin_pass {P : Nat → Nat → Prop} (hP : ∀ v w i, P v i → w ∈ edges.getD v [] → P w i)
    (h : Valid all n f) (hf : ∀ v i, At f.reached v i → P v i) (v i : Nat)
    (hv : At (f.pass edges node work).reached v i) : P v i := by
  rcases (at_pass edges h v i).1 hv with hv | ⟨-, hm, hi⟩
  · exact hf v i hv
  · exact hP node v i (hf node i (h.fresh_reached node i hi)) hm

end Step

/-- **When no node waits, what has reached a node has reached those it passes on to.** -/
theorem closed_of_settled (h : Valid all n f) (hp : Passed edges f) (hdone : f.work.toList = [])
    {v w i : Nat} (hr : At f.reached v i) (hw : w ∈ edges.getD v []) (hlt : w < n) :
    At f.reached w i := by
  refine hp v i hr (fun hf => ?_) w hw (by rw [h.reached_size]; exact hlt)
  -- nothing is fresh any more
  have hm := h.waiting v i hf
  rw [hdone] at hm
  cases hm

/-- **Enough steps leave nothing to pass on**, and further steps change nothing. -/
theorem run_settled (edges : Array (List Nat)) (fuel : Nat) (h : Valid all n f) (hfuel : potential all f ≤ fuel) :
    (run edges fuel f).work.pop = none ∧ ∀ more, fuel ≤ more → run edges more f = run edges fuel f := by
  induction fuel generalizing f with
  | zero =>
    -- a waiting node alone makes the potential positive
    have hpop : f.work.pop = none := by
      cases hp : f.work.pop with
      | none => rfl
      | some p =>
        have hlen := congrArg List.length (WorkList.toList_pop hp)
        unfold potential at hfuel
        simp only [List.length_cons] at hlen
        omega
    exact ⟨hpop, fun more _ => run_of_pop_none hpop more⟩
  | succ fuel ih =>
    cases hp : f.work.pop with
    | none => exact ⟨by rw [run_of_pop_none hp]; exact hp, fun more _ => by
        rw [run_of_pop_none hp, run_of_pop_none hp]⟩
    | some p =>
      obtain ⟨node, work⟩ := p
      obtain ⟨hv, hlt⟩ := valid_pass edges h (WorkList.takes_of_pop h.work hp)
      obtain ⟨hdone, hmore⟩ := ih hv (by omega)
      refine ⟨by rw [run_succ hp]; exact hdone, fun more hle => ?_⟩
      obtain ⟨more, rfl⟩ : ∃ k, more = k + 1 := ⟨more - 1, by omega⟩
      rw [run_succ hp, run_succ hp, hmore more (by omega)]

/-- A run keeps the invariants; `P` is any family of members that the edges do not leave. -/
theorem run_invariant {P : Nat → Nat → Prop} (hP : ∀ v w i, P v i → w ∈ edges.getD v [] → P w i)
    (fuel : Nat) (h : Valid all n f) (hp : Passed edges f) (hf : ∀ v i, At f.reached v i → P v i) :
    Valid all n (run edges fuel f) ∧ Passed edges (run edges fuel f) ∧
      (∀ v i, At f.reached v i → At (run edges fuel f).reached v i) ∧
      ∀ v i, At (run edges fuel f).reached v i → P v i := by
  induction fuel generalizing f with
  | zero => exact ⟨h, hp, fun v i => id, hf⟩
  | succ fuel ih =>
    cases hpop : f.work.pop with
    | none =>
      rw [run_of_pop_none hpop]
      exact ⟨h, hp, fun v i => id, hf⟩
    | some p =>
      obtain ⟨node, work⟩ := p
      rw [run_succ hpop]
      have htake := WorkList.takes_of_pop h.work hpop
      obtain ⟨hv, hpass, hgrow, horigin⟩ :=
        ih (valid_pass edges h htake).1 (passed_pass h htake hp) (origin_pass hP h hf)
      exact ⟨hv, hpass, fun v i hi => hgrow v i ((at_pass edges h v i).2 (Or.inl hi)), horigin⟩

end Flood

section Result

/-- The flood before its first step. -/
def Flood.start (edges : Array (List Nat)) (given : List (Nat × IndexSet)) : Flood :=
  (Flood.initial edges.size).deliverAll given

/-- Everything that is given to some node. -/
def Flood.everything (given : List (Nat × IndexSet)) : IndexSet :=
  given.foldl (fun s g => s.union g.2) ∅

variable (edges : Array (List Nat)) (given : List (Nat × IndexSet))

theorem contains_foldl_union (given : List (Nat × IndexSet)) (s : IndexSet) (i : Nat) :
    (given.foldl (fun s g => s.union g.2) s).contains i = true ↔
      s.contains i = true ∨ ∃ g ∈ given, g.2.contains i = true := by
  induction given generalizing s with
  | nil => simp
  | cons g rest ih => simp [ih, or_assoc]

theorem given_bounded : ∀ g ∈ given, ∀ i, g.2.contains i = true →
    (Flood.everything given).contains i = true :=
  fun g hg i hi => (contains_foldl_union given ∅ i).2 (Or.inr ⟨g, hg, hi⟩)

theorem valid_start : Flood.Valid (Flood.everything given) edges.size
    (Flood.start edges given) :=
  (Flood.valid_deliverAll (Flood.valid_initial _ _) (given_bounded given)).1

theorem potential_start : Flood.potential (Flood.everything given)
    (Flood.start edges given) ≤ Flood.bound edges.size given := by
  refine (Flood.valid_deliverAll (Flood.valid_initial _ _) (given_bounded given)).2.trans ?_
  have hdef := IndexSet.deficit_le_mul (Flood.everything given)
    (Flood.initial edges.size).reached
  have hsize : (Flood.initial edges.size).reached.size = edges.size := Array.size_replicate
  rw [hsize] at hdef
  have hwork : (Flood.initial edges.size).work.toList.length = 0 := rfl
  have hbound : Flood.bound edges.size given = edges.size * ((Flood.everything given).size + 1) := rfl
  unfold Flood.potential
  rw [hwork, hbound, Nat.mul_succ]
  omega

theorem at_start (v i : Nat) : At (Flood.start edges given).reached v i ↔
    v < edges.size ∧ ∃ s, (v, s) ∈ given ∧ s.contains i = true := by
  have hsize : (Flood.initial edges.size).reached.size = edges.size := Array.size_replicate
  unfold Flood.start
  rw [Flood.at_deliverAll, hsize]
  exact or_iff_right (IndexSet.not_at_replicate edges.size v i)

theorem passed_start : Flood.Passed edges (Flood.start edges given) := by
  intro v i hr hn
  -- before the first step everything is still to be passed on
  have hnew := (Flood.fresh_deliverAll (Flood.valid_initial _ _) (given_bounded given)).2 hr
  exact absurd (hnew.resolve_left (IndexSet.not_at_replicate edges.size v i)) hn

theorem flood_invariant {P : Nat → Nat → Prop} (hP : ∀ v w i, P v i → w ∈ edges.getD v [] → P w i)
    (hgiven : ∀ v s i, (v, s) ∈ given → s.contains i = true → P v i) :
    let f := Flood.run edges (Flood.bound edges.size given) (Flood.start edges given)
    Flood.Valid (Flood.everything given) edges.size f ∧ Flood.Passed edges f ∧
      (∀ v i, At (Flood.start edges given).reached v i → At f.reached v i) ∧
      ∀ v i, At f.reached v i → P v i := by
  refine Flood.run_invariant hP _ (valid_start edges given) (passed_start edges given) ?_
  intro v i hv
  obtain ⟨-, s, hm, hs⟩ := (at_start edges given v i).1 hv
  exact hgiven v s i hm hs

theorem size_flood : (flood edges given).size = edges.size :=
  (flood_invariant edges given (P := fun _ _ => True) (fun _ _ _ _ _ => trivial)
    fun _ _ _ _ _ => trivial).1.reached_size

variable {edges given} {v w i : Nat}

/-- **What is given to a node reaches it.** -/
theorem flood_given {s : IndexSet} (hm : (v, s) ∈ given) (hv : v < edges.size)
    (hi : s.contains i = true) : At (flood edges given) v i :=
  (flood_invariant edges given (P := fun _ _ => True) (fun _ _ _ _ _ => trivial)
    fun _ _ _ _ _ => trivial).2.2.1 v i ((at_start edges given v i).2 ⟨hv, s, hm, hi⟩)

/-- **What reaches a node reaches the nodes it passes on to.** -/
theorem flood_closed (hr : At (flood edges given) v i) (hw : w ∈ edges.getD v [])
    (hlt : w < edges.size) : At (flood edges given) w i := by
  obtain ⟨hvalid, hpassed, -⟩ := flood_invariant edges given (P := fun _ _ => True)
    (fun _ _ _ _ _ => trivial) fun _ _ _ _ _ => trivial
  have hdone := (Flood.run_settled edges _ (valid_start edges given)
    (potential_start edges given)).1
  exact Flood.closed_of_settled hvalid hpassed (WorkList.toList_eq_nil_of_pop hdone) hr hw hlt

/-- **Nothing else reaches a node.** -/
theorem flood_least {P : Nat → Nat → Prop} (hP : ∀ v w i, P v i → w ∈ edges.getD v [] → P w i)
    (hgiven : ∀ v s i, (v, s) ∈ given → s.contains i = true → P v i)
    (hr : At (flood edges given) v i) : P v i :=
  (flood_invariant edges given hP hgiven).2.2.2 v i hr

/-- **Steps beyond the bound change nothing.** -/
theorem flood_stable {fuel : Nat} (h : Flood.bound edges.size given ≤ fuel) :
    (Flood.run edges fuel (given.foldl (fun f g => f.deliver g.1 g.2)
      (Flood.initial edges.size))).reached = flood edges given :=
  congrArg Flood.reached ((Flood.run_settled edges _ (valid_start edges given)
    (potential_start edges given)).2 fuel h)

end Result

end ParserGen
