import ParserGen.Proofs.Automaton.Collection
import ParserGen.Proofs.Automaton.Layout

/-!
# The canonical collection

The automaton of a grammar is the canonical collection of its item sets: its states are the closures
of the kernels that are reached from the start item by moving dots, each kernel once.

* `Automaton.walk?`: the state to which a word of symbols leads.
* `Grammar.Canonical`: what it is to be the canonical collection.
* `canonical_automaton`: the automaton of a grammar is canonical.
* `automaton_is_canonical_collection`: the same with the end of the construction: none of its loops
  is cut short by its bound, and a kernel that is not in the index gets the number of kernels so far.
-/

namespace ParserGen

variable {V : Type} {g : Grammar V}

theorem lookup_eq_some_iff_mem {α β : Type} [DecidableEq α] {l : List (α × β)}
    (hnd : (l.map (·.1)).Nodup) {k : α} {b : β} : l.lookup k = some b ↔ (k, b) ∈ l := by
  induction l with
  | nil => simp
  | cons e rest ih =>
    obtain ⟨k', b'⟩ := e
    rw [List.map_cons, List.nodup_cons] at hnd
    rw [List.lookup_cons, List.mem_cons, Prod.mk.injEq]
    by_cases hk : k = k'
    · subst hk
      have hno : (k, b) ∉ rest := fun hm => hnd.1 (List.mem_map.2 ⟨(k, b), hm, rfl⟩)
      simp [hno, eq_comm]
    · have hne : (k == k') = false := beq_eq_false_iff_ne.2 hk
      simp [hk, hne, ih hnd.2]

namespace State

/-- The items of a state without their lookaheads. -/
def core (s : State) : List Item :=
  s.items.map (·.1)

/-- The items with which a state is entered, without their lookaheads. -/
def coreKernel (s : State) : List Item :=
  s.kernel.map (·.1)

end State

/-- The state to which a word of symbols leads from the first one. -/
def Automaton.walk? (a : Automaton) (w : List Symbol) : Option Nat :=
  w.foldlM a.transition? 0

theorem Automaton.walk?_append {a : Automaton} {w : List Symbol} {q : Nat} (h : a.walk? w = some q)
    (x : Symbol) : a.walk? (w ++ [x]) = a.transition? q x := by
  unfold Automaton.walk? at h ⊢
  rw [List.foldlM_append, h]
  simp

theorem Automaton.walk?_concat {a : Automaton} {w : List Symbol} {x : Symbol} {q : Nat}
    (h : a.walk? (w ++ [x]) = some q) : ∃ p, a.walk? w = some p ∧ a.transition? p x = some q := by
  cases hw : a.walk? w with
  | some p => exact ⟨p, rfl, by rw [← Automaton.walk?_append hw]; exact h⟩
  | none =>
    unfold Automaton.walk? at h hw
    rw [List.foldlM_append, hw] at h
    cases h

/-- The automaton is the canonical collection of the grammar's item sets. -/
structure Grammar.Canonical (g : Grammar V) (a : Automaton) : Prop where
  /-- The first state is entered with the start item. -/
  initial : ∃ s, a.states[0]? = some s ∧ s.coreKernel = [Item.start]
  /-- The items begin with the kernel. -/
  kernel_first : ∀ {q : Nat} {s : State}, a.states[q]? = some s →
    s.kernelSize ≤ s.core.length ∧ s.coreKernel = s.core.take s.kernelSize
  nodup : ∀ {q : Nat} {s : State}, a.states[q]? = some s → s.core.Nodup
  /-- The items are the closure of the kernel. -/
  mem_core : ∀ {q : Nat} {s : State}, a.states[q]? = some s →
    ∀ i, i ∈ s.core ↔ g.Closure s.coreKernel i
  /-- A symbol leads on from a state exactly if it stands after a dot. -/
  transition_iff : ∀ {q : Nat} {x : Symbol}, (∃ p, a.transition? q x = some p) ↔
    ∃ s, a.states[q]? = some s ∧ ∃ i ∈ s.core, g.symbolAfterDot i = some x
  /-- It leads to the state whose kernel holds exactly the items moved over it. -/
  target : ∀ {q p : Nat} {x : Symbol} {s : State}, a.states[q]? = some s →
    a.transition? q x = some p → ∃ t, a.states[p]? = some t ∧
      ∀ j, j ∈ t.coreKernel ↔ ∃ i ∈ s.core, g.symbolAfterDot i = some x ∧ j = i.advance
  /-- Different states have different kernels. -/
  distinct : ∀ {q p : Nat} {s t : State}, a.states[q]? = some s → a.states[p]? = some t →
    (∀ i, i ∈ s.coreKernel ↔ i ∈ t.coreKernel) → q = p
  /-- Every state is reached from the first one. -/
  reachable : ∀ q < a.size, ∃ w, a.walk? w = some q
  /-- Looking an item up in a state finds it exactly if the state has it. -/
  lookahead_iff : ∀ {q : Nat} {s : State}, a.states[q]? = some s → ∀ (i : Item) (la : TerminalSet),
    s.lookahead? i = some la ↔ (i, la) ∈ s.items

namespace Discovery

variable {d : Discovery}

theorem keys_of_leads {l : List (Symbol × List Item)} {edges : List (Symbol × Nat)}
    (h : List.Forall₂ d.Leads l edges) : edges.map (·.1) = l.map (·.1) := by
  induction h with
  | nil => rfl
  | cons hl _ ih => rw [List.map_cons, List.map_cons, ih, hl.1]

theorem exists_leads {l : List (Symbol × List Item)} {edges : List (Symbol × Nat)}
    (h : List.Forall₂ d.Leads l edges) {f : Symbol × Nat} (hf : f ∈ edges) :
    ∃ e ∈ l, d.Leads e f := by
  induction h with
  | nil => cases hf
  | @cons e _ _ _ hl _ ih =>
    rcases List.mem_cons.1 hf with rfl | hf
    · exact ⟨e, List.mem_cons_self, hl⟩
    · obtain ⟨e', hm, hl'⟩ := ih hf
      exact ⟨e', List.mem_cons_of_mem e hm, hl'⟩

end Discovery

section Collection

variable {d : Discovery} (wf : g.WellFormed) (hex : Discovery.Explores g 0 .initial g.collection d)

include wf hex

theorem valid_found : d.Valid g :=
  hex.valid wf (Discovery.valid_initial wf)

theorem describes_found {q : Nat} {c : CoreState} (hc : g.collection[q]? = some c) :
    d.Describes g q c := by
  have h := hex.describes wf (Discovery.valid_initial wf) hc
  rwa [Nat.zero_add] at h

theorem size_found : g.collection.length = d.kernels.size := by
  have h := hex.length wf (Discovery.valid_initial wf) (Nat.zero_le _)
  rwa [Nat.zero_add] at h

theorem isKernel_found {q : Nat} {c : CoreState} (hc : g.collection[q]? = some c) :
    g.IsKernel c.kernel :=
  (valid_found wf hex).kernels _ (Array.mem_of_getElem? (describes_found wf hex hc).kernel)

theorem prefix_items {q : Nat} {c : CoreState} (hc : g.collection[q]? = some c) :
    c.kernel <+: c.items := by
  rw [(describes_found wf hex hc).items]
  exact Grammar.prefix_closure wf c.kernel

theorem collection_of_kernel {q : Nat} {k : List Item} (hk : d.kernels[q]? = some k) :
    ∃ c, g.collection[q]? = some c ∧ c.kernel = k := by
  have hlt := (Array.getElem?_eq_some_iff.1 hk).1
  rw [← size_found wf hex] at hlt
  have hc : g.collection[q]? = some g.collection[q] := List.getElem?_eq_getElem hlt
  have hd := (describes_found wf hex hc).kernel
  rw [hk] at hd
  exact ⟨_, hc, (Option.some.inj hd).symm⟩

theorem collection_zero : ∃ c, g.collection[0]? = some c ∧ c.kernel = [Item.start] := by
  have hk : d.kernels[0]? = some [Item.start] :=
    Discovery.getElem?_grow (hex.grows wf (Discovery.valid_initial wf)) rfl
  exact collection_of_kernel wf hex hk

end Collection

theorem completed_state {q : Nat} {c : CoreState} (hc : g.collection[q]? = some c) :
    g.automaton.states[q]? = some (g.completed q c) := by
  rw [automaton_state, hc]
  rfl

theorem core_completed {q : Nat} {c : CoreState} (hc : g.collection[q]? = some c) :
    (g.completed q c).core = c.items :=
  map_fst_completed hc

theorem coreKernel_completed (wf : g.WellFormed) {q : Nat} {c : CoreState}
    (hc : g.collection[q]? = some c) : (g.completed q c).coreKernel = c.kernel := by
  obtain ⟨d, hex⟩ := g.explores_collection wf
  have hpre := prefix_items wf hex hc
  -- the state takes as many of its items for the kernel as it was entered with
  unfold State.coreKernel State.kernel
  rw [List.map_take]
  exact (congrArg (List.take _) (core_completed hc)).trans (List.prefix_iff_eq_take.1 hpre).symm

/-- A state of the automaton is a state of the collection with lookaheads. -/
theorem state_cases (wf : g.WellFormed) {q : Nat} {s : State}
    (hs : g.automaton.states[q]? = some s) :
    ∃ c, g.collection[q]? = some c ∧ s.core = c.items ∧ s.coreKernel = c.kernel := by
  rw [automaton_state] at hs
  obtain ⟨c, hc, rfl⟩ := Option.map_eq_some_iff.1 hs
  exact ⟨c, hc, core_completed hc, coreKernel_completed wf hc⟩

theorem nodup_core (wf : g.WellFormed) {q : Nat} {c : CoreState} (hc : g.collection[q]? = some c) :
    c.items.Nodup := by
  obtain ⟨d, hex⟩ := g.explores_collection wf
  rw [(describes_found wf hex hc).items]
  exact Grammar.nodup_closure wf (isKernel_found wf hex hc).1

/-- A state has each of its items once. -/
theorem nodup_core_of_state (wf : g.WellFormed) {q : Nat} {s : State}
    (hs : g.automaton.states[q]? = some s) : s.core.Nodup := by
  obtain ⟨c, hc, hcore, -⟩ := state_cases wf hs
  rw [hcore]
  exact nodup_core wf hc

theorem mem_core_iff (wf : g.WellFormed) {q : Nat} {c : CoreState} (hc : g.collection[q]? = some c)
    (i : Item) : i ∈ c.items ↔ g.Closure c.kernel i := by
  obtain ⟨d, hex⟩ := g.explores_collection wf
  rw [(describes_found wf hex hc).items]
  exact Grammar.mem_closure_iff wf

theorem transition?_eq (wf : g.WellFormed) {q p : Nat} {x : Symbol} :
    g.automaton.transition? q x = some p ↔ ∃ c, g.collection[q]? = some c ∧ (x, p) ∈ c.edges := by
  obtain ⟨d, hex⟩ := g.explores_collection wf
  unfold Automaton.transition?
  rw [automaton_state]
  cases hc : g.collection[q]? with
  | none => simp
  | some c =>
    have hnd : (c.edges.map (·.1)).Nodup := by
      rw [Discovery.keys_of_leads (describes_found wf hex hc).edges]
      exact Grammar.nodup_keys_successorKernels c.items
    simpa [Grammar.completed] using lookup_eq_some_iff_mem hnd

theorem transition?_lookup {q : Nat} {c : CoreState} (hc : g.collection[q]? = some c) (x : Symbol) :
    g.automaton.transition? q x = c.edges.lookup x := by
  unfold Automaton.transition?
  rw [completed_state hc]
  rfl

theorem exists_edge_iff (wf : g.WellFormed) {q : Nat} {c : CoreState} (hc : g.collection[q]? = some c)
    {x : Symbol} : (∃ p, (x, p) ∈ c.edges) ↔ ∃ i ∈ c.items, g.symbolAfterDot i = some x := by
  obtain ⟨d, hex⟩ := g.explores_collection wf
  have hedge : (∃ p, (x, p) ∈ c.edges) ↔ x ∈ c.edges.map (·.1) := by simp
  have hkernel : (∃ kernel, (x, kernel) ∈ g.successorKernels c.items) ↔
      x ∈ (g.successorKernels c.items).map (·.1) := by simp
  rw [hedge, Discovery.keys_of_leads (describes_found wf hex hc).edges, ← hkernel]
  constructor
  · rintro ⟨kernel, hk⟩
    exact (Grammar.mem_successorKernels.1 hk).1
  · intro hi
    exact ⟨_, Grammar.mem_successorKernels.2 ⟨hi, rfl⟩⟩

/-- **An edge leads to the state of the moved items.** -/
theorem mem_target_kernel (wf : g.WellFormed) (hfit : g.CodesFit) {q p : Nat} {c : CoreState}
    {x : Symbol} (hc : g.collection[q]? = some c) (he : (x, p) ∈ c.edges) :
    ∃ t, g.collection[p]? = some t ∧
      ∀ j, j ∈ t.kernel ↔ ∃ i ∈ c.items, g.symbolAfterDot i = some x ∧ j = i.advance := by
  obtain ⟨d, hex⟩ := g.explores_collection wf
  obtain ⟨⟨y, kernel⟩, hm, hx, k, hk, hkey⟩ :=
    Discovery.exists_leads (describes_found wf hex hc).edges he
  obtain rfl : y = x := hx
  obtain ⟨t, ht, rfl⟩ := collection_of_kernel wf hex hk
  refine ⟨t, ht, fun j => ?_⟩
  -- the codes of the items fit, so equal keys belong to equal sets
  have hfits : ∀ i ∈ t.kernel, i.Fits := fun i hi => ((isKernel_found wf hex ht).2 i hi).fits hfit
  have hfits' : ∀ i ∈ kernel, i.Fits := fun i hi =>
    ((Grammar.isKernel_successor (nodup_core wf hc) hm).2 i hi).fits hfit
  rw [(Kernel.key_eq_iff hfits hfits').1 hkey j, Grammar.mem_successorKernel hm]

/-- No edge leads back to the first state, which is entered with a dot that has not been moved. -/
theorem transition_ne_zero (wf : g.WellFormed) (hlen : g.LengthsFit) {q : Nat}
    {x : Symbol} : g.automaton.transition? q x ≠ some 0 := by
  intro h
  obtain ⟨c, hc, he⟩ := (transition?_eq wf).1 h
  obtain ⟨d, hex⟩ := g.explores_collection wf
  obtain ⟨⟨y, kernel⟩, hm, hy, k, hk, hkey⟩ :=
    Discovery.exists_leads (describes_found wf hex hc).edges he
  obtain rfl : y = x := hy
  obtain ⟨c₀, hc₀, hstart⟩ := collection_zero wf hex
  obtain ⟨c₀', hc₀', hkernel⟩ := collection_of_kernel wf hex hk
  obtain rfl : c₀ = c₀' := Option.some.inj (hc₀.symm.trans hc₀')
  -- some item was moved over the symbol, and its code is one of those of the start kernel
  obtain ⟨i, hi, hx⟩ := (Grammar.mem_successorKernels.1 hm).1
  have hmoved : i.advance ∈ kernel := (Grammar.mem_successorKernel hm).2 ⟨i, hi, hx, rfl⟩
  have hcode : i.advance.code ∈ Kernel.key [Item.start] := by
    have hsame : Kernel.key [Item.start] = Kernel.key kernel := by rw [← hstart, hkernel, hkey]
    rw [hsame]
    exact Kernel.mem_key.2 ⟨_, hmoved, rfl⟩
  obtain ⟨j, hj, hzero⟩ := Kernel.mem_key.1 hcode
  rw [List.mem_singleton.1 hj] at hzero
  have hitem := Grammar.isItem_advance hx
  have hlt := hlen _ hitem.1
  have hle : i.advance.dot ≤ g.ruleLength i.advance.rule := hitem.2
  exact Item.code_ne_zero (Nat.succ_pos i.dot) (by omega) hzero.symm

/-- A transition leads to a state. -/
theorem transition?_lt (wf : g.WellFormed) {q p : Nat} {x : Symbol}
    (h : g.automaton.transition? q x = some p) : p < g.automaton.size := by
  obtain ⟨c, hc, he⟩ := (transition?_eq wf).1 h
  obtain ⟨d, hex⟩ := g.explores_collection wf
  obtain ⟨-, -, -, k, hk, -⟩ := Discovery.exists_leads (describes_found wf hex hc).edges he
  obtain ⟨t, ht, -⟩ := collection_of_kernel wf hex hk
  unfold Automaton.size
  rw [size_automaton]
  exact (List.getElem?_eq_some_iff.1 ht).1

theorem isItem_of_mem_core (wf : g.WellFormed) {q : Nat} {s : State}
    (hs : g.automaton.states[q]? = some s) {i : Item} (hi : i ∈ s.core) : g.IsItem i := by
  obtain ⟨c, hc, hcore, -⟩ := state_cases wf hs
  obtain ⟨d, hex⟩ := g.explores_collection wf
  rw [hcore] at hi
  exact Grammar.isItem_of_closure (isKernel_found wf hex hc).2 ((mem_core_iff wf hc i).1 hi)

/-- Every state is entered by a path from the first one. -/
theorem exists_walk (wf : g.WellFormed) (q : Nat) (hq : q < g.collection.length) :
    ∃ w, g.automaton.walk? w = some q := by
  obtain ⟨d, hex⟩ := g.explores_collection wf
  induction q using Nat.strongRecOn with
  | _ q ih =>
    rcases Nat.eq_zero_or_pos q with rfl | hpos
    · exact ⟨[], rfl⟩
    · -- a later state is entered from one with a smaller number
      rw [size_found wf hex] at hq
      have hone : Discovery.initial.kernels.size = 1 := rfl
      obtain ⟨k, c, x, hc, hlt, he⟩ := hex.entered wf (Discovery.valid_initial wf) (by omega) hq
      rw [Nat.zero_add] at hlt
      obtain ⟨w, hw⟩ := ih k hlt (List.getElem?_eq_some_iff.1 hc).1
      exact ⟨w ++ [x], by rw [Automaton.walk?_append hw]; exact (transition?_eq wf).2 ⟨c, hc, he⟩⟩

/-- **The automaton of a grammar is canonical.** -/
theorem canonical_automaton (wf : g.WellFormed) (hfit : g.CodesFit) : g.Canonical g.automaton where
  initial := by
    obtain ⟨d, hex⟩ := g.explores_collection wf
    obtain ⟨c, hc, hkernel⟩ := collection_zero wf hex
    exact ⟨_, completed_state hc, (coreKernel_completed wf hc).trans hkernel⟩
  kernel_first := by
    intro q s hs
    refine ⟨?_, by unfold State.coreKernel State.kernel State.core; rw [List.map_take]⟩
    rw [automaton_state] at hs
    obtain ⟨c, hc, rfl⟩ := Option.map_eq_some_iff.1 hs
    obtain ⟨d, hex⟩ := g.explores_collection wf
    rw [core_completed hc]
    exact (prefix_items wf hex hc).length_le
  nodup := nodup_core_of_state wf
  mem_core := by
    intro q s hs i
    obtain ⟨c, hc, hcore, hkernel⟩ := state_cases wf hs
    rw [hcore, hkernel]
    exact mem_core_iff wf hc i
  transition_iff := by
    intro q x
    constructor
    · rintro ⟨p, hp⟩
      obtain ⟨c, hc, he⟩ := (transition?_eq wf).1 hp
      refine ⟨_, completed_state hc, ?_⟩
      rw [core_completed hc]
      exact (exists_edge_iff wf hc).1 ⟨p, he⟩
    · rintro ⟨s, hs, hi⟩
      obtain ⟨c, hc, hcore, -⟩ := state_cases wf hs
      rw [hcore] at hi
      obtain ⟨p, he⟩ := (exists_edge_iff wf hc).2 hi
      exact ⟨p, (transition?_eq wf).2 ⟨c, hc, he⟩⟩
  target := by
    intro q p x s hs hp
    obtain ⟨c, hc, hcore, -⟩ := state_cases wf hs
    obtain ⟨c', hc', he⟩ := (transition?_eq wf).1 hp
    rw [hc] at hc'
    cases hc'
    obtain ⟨t, ht, hmem⟩ := mem_target_kernel wf hfit hc he
    refine ⟨_, completed_state ht, ?_⟩
    rw [hcore, coreKernel_completed wf ht]
    exact hmem
  distinct := by
    intro q p s t hs ht he
    obtain ⟨d, hex⟩ := g.explores_collection wf
    obtain ⟨c, hc, -, hkernel⟩ := state_cases wf hs
    obtain ⟨c', hc', -, hkernel'⟩ := state_cases wf ht
    rw [hkernel, hkernel'] at he
    -- states are told apart by their kernels when they are registered
    exact (valid_found wf hex).eq_of_mem_iff (describes_found wf hex hc).kernel
      (describes_found wf hex hc').kernel he
  reachable := by
    intro q hq
    unfold Automaton.size at hq
    rw [size_automaton] at hq
    exact exists_walk wf q hq
  lookahead_iff := by
    intro q s hs i la
    exact lookup_eq_some_iff_mem (nodup_core_of_state wf hs)

/-- The loops of the construction come to an end by themselves: more fuel than they are given changes
nothing. -/
structure Grammar.BuildEnds (g : Grammar V) : Prop where
  /-- The closure of a kernel. -/
  closure : ∀ (kernel : List Item) (fuel : Nat), kernel.length + g.rules.size ≤ fuel →
    g.closeItems fuel kernel (IndexSet.ofList ((kernel.filter (·.dot == 0)).map (·.rule))) =
      g.closure kernel
  /-- The queue of states: the exploration without fuel ends with the collection. -/
  queue : ∃ d, Discovery.Explores g 0 .initial g.collection d
  states : ∀ fuel, g.collection.length < fuel → Discovery.explore g fuel 0 .initial = g.collection
  /-- The flood of lookaheads. -/
  lookaheads : ∀ (first : FirstSets) (fuel : Nat),
    let edges := (Layout.ofStates g.collection).edges g first
    let given := (Layout.ofStates g.collection).given g first
    Flood.bound edges.size given ≤ fuel →
      (Flood.run edges fuel (given.foldl (fun f s => f.deliver s.1 s.2)
        (Flood.initial edges.size))).reached = flood edges given

theorem build_ends (wf : g.WellFormed) : g.BuildEnds where
  closure kernel fuel hfuel :=
    Grammar.closeItems_stable wf ((Grammar.closure_fuel g kernel _).trans hfuel)
      (Grammar.closure_fuel g kernel _)
  queue := g.explores_collection wf
  states fuel hfuel := by
    obtain ⟨d, hex⟩ := g.explores_collection wf
    exact hex.explore_eq hfuel
  lookaheads _ _ hfuel := flood_stable hfuel

/-- The discoveries with which the exploration comes to state `n`. -/
inductive Discovery.Visits (g : Grammar V) : Nat → Discovery → Prop where
  | initial : Visits g 0 .initial
  | step {n : Nat} {d : Discovery} {kernel : List Item} (h : Visits g n d)
      (hk : d.kernels[n]? = some kernel) : Visits g (n + 1) (expand g kernel d).2

theorem Discovery.Visits.valid (wf : g.WellFormed) {n : Nat} {d : Discovery} (h : Visits g n d) :
    d.Valid g := by
  induction h with
  | initial => exact Discovery.valid_initial wf
  | step _ hk ih => exact (Discovery.expand_spec wf ih hk).1

/-- Whenever a kernel that is not in the index is met, it is new to the index and gets the number of
states so far. The first is the start item's; the others are met, after the edges `before` of the
state, while the exploration works through the successors of a state. -/
structure Grammar.NumbersNewStates (g : Grammar V) : Prop where
  first : ((∅ : KernelIndex).insert [Item.start]).1 = (0, true)
  next : ∀ {n : Nat} {d : Discovery} {kernel : List Item} {before after : List (Symbol × List Item)}
    {e : Symbol × List Item}, Discovery.Visits g n d → d.kernels[n]? = some kernel →
    g.successorKernels (g.closure kernel) = before ++ e :: after →
    let d' := (Discovery.registerAll before d).2
    d'.index.find? e.2 = none → (d'.index.insert e.2).1 = (d'.kernels.size, true)

theorem numbers_newStates (wf : g.WellFormed) : g.NumbersNewStates where
  first := rfl
  next := by
    intro n d kernel before after e hd hk hsucc d' hfind
    have hv := hd.valid wf
    have hnd := Grammar.nodup_closure wf (hv.kernels kernel (Array.mem_of_getElem? hk)).1
    have hbefore : ∀ e ∈ before, g.IsKernel e.2 := by
      intro e he
      refine Grammar.isKernel_successor hnd ?_
      rw [hsucc]
      exact List.mem_append_left _ he
    exact (Discovery.registerAll_spec hbefore hv).1.insert_new hfind

/-- **The automaton is the canonical collection.** For a grammar whose item codes fit, the
construction ends, gives exactly the closures of the kernels reached from the start item, each once,
and numbers each new state with the number of states so far. -/
theorem automaton_is_canonical_collection (hg : g.Defined) (hfit : g.CodesFit) :
    g.BuildEnds ∧ g.Canonical g.automaton ∧ g.NumbersNewStates :=
  ⟨build_ends hg.wellFormed, canonical_automaton hg.wellFormed hfit, numbers_newStates hg.wellFormed⟩

theorem brackets_canonical_collection : Grammar.brackets.automaton.size = 5 ∧
    Grammar.brackets.BuildEnds ∧ Grammar.brackets.Canonical Grammar.brackets.automaton ∧
    Grammar.brackets.NumbersNewStates :=
  ⟨by decide +kernel,
    automaton_is_canonical_collection Grammar.brackets_defined Grammar.brackets_codesFit⟩

end ParserGen
