import Mathlib.Data.Finset.Card
import Mathlib.Data.Finset.Range
import Mathlib.Data.Set.Insert
import ParserGen.Pattern.Search

/-!
# Threads that follow a program without reading

Threads run in the order of preference until each waits for a character or accepts, and no instruction
is run twice. Here this is a relation between the threads to run and those that wait in the end, with
the set of instructions that have been run before and after. What comes of a thread depends on that set
only as far as the instructions that matter are concerned.

* `Explores`: what becomes of threads, given the instructions that are not run again.
* `spawn_explores`: the fuel of the program's threads suffices.
* `Explores.saturated`: where a thread has been, all that can be reached from there has been run.
* `Explores.findSome?_eq`: **instructions that nothing comes of make no difference.**
-/

namespace ParserGen.Pattern

namespace Program

variable (p : Program) (holds : Assertion → Bool) (pos : Nat)

/-- Where the program goes on from an instruction without reading. Nothing is told of one that waits for
a character or accepts. -/
def exits? (i : Nat) : Option (List Nat) :=
  match p.instrs[i]? with
  | some (.fork targets) => some targets
  | some (.assertion a next) => some (if holds a then [next] else [])
  | some (.mark _ next) => some [next]
  | some _ => none
  | none => some []

/-- The threads that a thread becomes without reading. Nothing is told of one that waits for a character
or accepts. -/
def moves? (t : Thread) : Option (List Thread) :=
  match p.instrs[t.place]? with
  | some (.fork targets) => some (targets.map fun place => { t with place })
  | some (.assertion a next) => some (if holds a then [{ t with place := next }] else [])
  | some (.mark slot next) =>
    some [{ t with place := next, marks := t.marks.setIfInBounds slot (some pos) }]
  | some _ => none
  | none => some []

/-- What becomes of threads, the first one preferred, if they run until each waits. The instructions of
a set are not run again, nor those that are left out from the beginning. -/
inductive Explores (within : Set Nat) : List Thread → Set Nat → List Thread → Set Nat → Prop
  | done (seen : Set Nat) : Explores within [] seen [] seen
  | skip {t : Thread} {todo waiting : List Thread} {seen seen' : Set Nat}
      (h : t.place ∈ seen ∨ t.place ∉ within) (hrest : Explores within todo seen waiting seen') :
      Explores within (t :: todo) seen waiting seen'
  | wait {t : Thread} {todo waiting : List Thread} {seen seen' : Set Nat} (hnew : t.place ∉ seen)
      (hin : t.place ∈ within) (hmoves : p.moves? holds pos t = none)
      (hrest : Explores within todo (insert t.place seen) waiting seen') :
      Explores within (t :: todo) seen (t :: waiting) seen'
  | move {t : Thread} {ts todo waiting : List Thread} {seen seen' : Set Nat} (hnew : t.place ∉ seen)
      (hin : t.place ∈ within) (hmoves : p.moves? holds pos t = some ts)
      (hrest : Explores within (ts ++ todo) (insert t.place seen) waiting seen') :
      Explores within (t :: todo) seen waiting seen'

/-- No instruction starts more than two threads. -/
def Binary : Prop :=
  ∀ (i : Nat) (targets : List Nat), p.instrs[i]? = some (.fork targets) → targets.length ≤ 2

variable {p holds pos}

theorem map_moves? (pos : Nat) (t : Thread) :
    (p.moves? holds pos t).map (·.map Thread.place) = p.exits? holds t.place := by
  unfold moves? exits?
  split
  · simp [Function.comp_def]
  · split <;> rfl
  · rfl
  · rfl
  · rfl

theorem exits?_of_moves? {t : Thread} {ts : List Thread} (h : p.moves? holds pos t = some ts) :
    p.exits? holds t.place = some (ts.map Thread.place) := by
  rw [← map_moves? pos, h]
  rfl

theorem exits?_of_waits {t : Thread} (h : p.moves? holds pos t = none) :
    p.exits? holds t.place = none := by
  rw [← map_moves? pos, h]
  rfl

/-! ## Running with fuel -/

theorem follow_cons (fuel : Nat) (t : Thread) (todo : List Thread) (f : Frontier) :
    p.follow holds pos (fuel + 1) (t :: todo) f =
      if f.seen.contains t.place then p.follow holds pos fuel todo f
      else match p.moves? holds pos t with
        | some ts => p.follow holds pos fuel (ts ++ todo) { f with seen := f.seen.insert t.place }
        | none =>
          p.follow holds pos fuel todo { threads := t :: f.threads, seen := f.seen.insert t.place } := by
  rw [follow]
  split
  · rfl
  unfold moves?
  cases hi : p.instrs[t.place]? with
  | none => rfl
  | some instr =>
    cases instr with
    | assertion a next => by_cases ha : holds a = true <;> simp [ha]
    | _ => rfl

/-- The instructions that have not been reached. -/
def unseen (p : Program) (seen : IndexSet) : Finset Nat :=
  (Finset.range p.instrs.size).filter fun i => seen.contains i = false

theorem card_unseen_le (seen : IndexSet) : (p.unseen seen).card ≤ p.instrs.size :=
  (Finset.card_filter_le _ _).trans_eq (Finset.card_range _)

theorem card_unseen_insert {seen : IndexSet} {i : Nat} (hi : i < p.instrs.size)
    (hnew : seen.contains i = false) :
    (p.unseen (seen.insert i)).card + 1 = (p.unseen seen).card := by
  have hmem : i ∈ p.unseen seen := Finset.mem_filter.2 ⟨Finset.mem_range.2 hi, hnew⟩
  have herase : p.unseen (seen.insert i) = (p.unseen seen).erase i := by
    ext j
    simp only [unseen, Finset.mem_filter, Finset.mem_erase, Finset.mem_range, IndexSet.contains_insert,
      Bool.or_eq_false_iff, decide_eq_false_iff_not]
    constructor
    · rintro ⟨hj, hseen, hne⟩
      exact ⟨Ne.symm hne, hj, hseen⟩
    · rintro ⟨hne, hj, hseen⟩
      exact ⟨hj, hseen, Ne.symm hne⟩
  rw [herase, Finset.card_erase_add_one hmem]

theorem Binary.length_moves (hb : p.Binary) {t : Thread} {ts : List Thread}
    (h : p.moves? holds pos t = some ts) :
    ts.length ≤ 2 ∧ (p.instrs.size ≤ t.place → ts = []) := by
  unfold moves? at h
  cases hi : p.instrs[t.place]? with
  | none =>
    rw [hi] at h
    cases h
    exact ⟨by simp, fun _ => rfl⟩
  | some instr =>
    have hlt : t.place < p.instrs.size := (Array.getElem?_eq_some_iff.1 hi).1
    refine ⟨?_, fun hle => by omega⟩
    rw [hi] at h
    cases instr with
    | fork targets =>
      cases h
      rw [List.length_map]
      exact hb t.place targets hi
    | assertion a next =>
      cases h
      by_cases ha : holds a = true <;> simp [ha]
    | mark slot next =>
      cases h
      simp
    | char s next => cases h
    | accept => cases h

/-- The instructions of a set of indices. -/
def places (seen : IndexSet) : Set Nat :=
  {i | seen.contains i = true}

theorem places_insert (seen : IndexSet) (i : Nat) : places (seen.insert i) = insert i (places seen) := by
  refine Set.ext fun j => ?_
  change (seen.insert i).contains j = true ↔ j = i ∨ seen.contains j = true
  rw [IndexSet.contains_insert, Bool.or_eq_true, decide_eq_true_eq, or_comm, eq_comm]

/-- **With fuel for every instruction that has not been run, the threads run until each waits.** -/
theorem follow_explores (hb : p.Binary) (holds : Assertion → Bool) (pos : Nat) {fuel : Nat}
    {todo : List Thread} {f : Frontier}
    (hfuel : todo.length + 2 * (p.unseen f.seen).card ≤ fuel) :
    ∃ waiting, p.Explores holds pos Set.univ todo (places f.seen) waiting
        (places (p.follow holds pos fuel todo f).seen) ∧
      (p.follow holds pos fuel todo f).threads = waiting.reverse ++ f.threads := by
  induction fuel generalizing todo f with
  | zero =>
    obtain rfl := List.length_eq_zero_iff.1 (show todo.length = 0 by omega)
    exact ⟨[], .done _, rfl⟩
  | succ fuel ih =>
    cases todo with
    | nil => exact ⟨[], .done _, rfl⟩
    | cons t todo =>
      rw [List.length_cons] at hfuel
      rw [follow_cons]
      -- a thread at an instruction that has been run is dropped; any other one uses up its instruction, and at
      -- most two come of it
      cases hseen : f.seen.contains t.place with
      | true =>
        have hfuel' : todo.length + 2 * (p.unseen f.seen).card ≤ fuel := by omega
        obtain ⟨waiting, hexplores, hthreads⟩ := ih hfuel'
        exact ⟨waiting, .skip (Or.inl hseen) hexplores, hthreads⟩
      | false =>
        have hnew : t.place ∉ places f.seen := fun hmem => by
          rw [show f.seen.contains t.place = true from hmem] at hseen
          cases hseen
        have hle : (p.unseen (f.seen.insert t.place)).card ≤ (p.unseen f.seen).card := by
          refine Finset.card_le_card fun i hi => ?_
          simp only [unseen, Finset.mem_filter, IndexSet.contains_insert, Bool.or_eq_false_iff] at hi ⊢
          exact ⟨hi.1, hi.2.1⟩
        cases hmoves : p.moves? holds pos t with
        | none =>
          have hfuel' : todo.length +
              2 * (p.unseen (Frontier.mk (t :: f.threads) (f.seen.insert t.place)).seen).card ≤ fuel := by
            simp only
            omega
          obtain ⟨waiting, hexplores, hthreads⟩ := ih hfuel'
          rw [places_insert] at hexplores
          refine ⟨t :: waiting, .wait hnew (Set.mem_univ _) hmoves hexplores, hthreads.trans ?_⟩
          rw [List.reverse_cons, List.append_assoc]
          rfl
        | some ts =>
          obtain ⟨htwo, hnone⟩ := hb.length_moves hmoves
          have hfuel' : (ts ++ todo).length + 2 * (p.unseen (f.seen.insert t.place)).card ≤ fuel := by
            rw [List.length_append]
            by_cases hi : t.place < p.instrs.size
            · have := card_unseen_insert hi hseen
              omega
            · rw [hnone (by omega), List.length_nil]
              omega
          obtain ⟨waiting, hexplores, hthreads⟩ :=
            ih (f := { f with seen := f.seen.insert t.place }) hfuel'
          rw [places_insert] at hexplores
          exact ⟨waiting, .move hnew (Set.mem_univ _) hmoves hexplores, hthreads⟩

/-- The threads that a thread becomes join those that wait already, behind them. -/
theorem spawn_explores (hb : p.Binary) (holds : Assertion → Bool) (pos : Nat) (t : Thread)
    (f : Frontier) :
    ∃ waiting, p.Explores holds pos Set.univ [t] (places f.seen) waiting
        (places (p.spawn holds pos t f).seen) ∧
      (p.spawn holds pos t f).threads.reverse = f.threads.reverse ++ waiting := by
  have hcard := card_unseen_le (p := p) f.seen
  have hfuel : [t].length + 2 * (p.unseen f.seen).card ≤ 2 * p.instrs.size + 2 := by
    rw [List.length_singleton]
    omega
  obtain ⟨waiting, hexplores, hthreads⟩ := follow_explores hb holds pos hfuel
  refine ⟨waiting, hexplores, ?_⟩
  unfold spawn
  rw [hthreads, List.reverse_append, List.reverse_reverse]

/-! ## What has been explored -/

section Explores

variable {within region seen seen' seen₂ seen₂' : Set Nat}
  {todo first second waiting waiting₂ : List Thread}

/-- Threads run one after the other. -/
theorem Explores.split (h : p.Explores holds pos within (first ++ second) seen waiting seen') :
    ∃ waiting₁ between waiting₂, p.Explores holds pos within first seen waiting₁ between ∧
      p.Explores holds pos within second between waiting₂ seen' ∧ waiting = waiting₁ ++ waiting₂ := by
  generalize htodo : first ++ second = todo at h
  induction h generalizing first with
  | done seen =>
    obtain ⟨rfl, rfl⟩ := List.append_eq_nil_iff.1 htodo
    exact ⟨[], seen, [], .done _, .done _, rfl⟩
  | skip hskip hrest ih =>
    cases first with
    | nil =>
      obtain rfl : second = _ := htodo
      exact ⟨[], _, _, .done _, .skip hskip hrest, rfl⟩
    | cons t first =>
      obtain ⟨rfl, hrest'⟩ := List.cons.inj htodo
      obtain ⟨waiting₁, between, waiting₂, h₁, h₂, hwaiting⟩ := ih hrest'
      exact ⟨waiting₁, between, waiting₂, .skip hskip h₁, h₂, hwaiting⟩
  | wait hnew hin hmoves hrest ih =>
    cases first with
    | nil =>
      obtain rfl : second = _ := htodo
      exact ⟨[], _, _, .done _, .wait hnew hin hmoves hrest, rfl⟩
    | cons t first =>
      obtain ⟨rfl, hrest'⟩ := List.cons.inj htodo
      obtain ⟨waiting₁, between, waiting₂, h₁, h₂, hwaiting⟩ := ih hrest'
      exact ⟨t :: waiting₁, between, waiting₂, .wait hnew hin hmoves h₁, h₂, congrArg (t :: ·) hwaiting⟩
  | @move _ ts todo _ _ _ hnew hin hmoves hrest ih =>
    cases first with
    | nil =>
      obtain rfl : second = _ := htodo
      exact ⟨[], _, _, .done _, .move hnew hin hmoves hrest, rfl⟩
    | cons t first =>
      obtain ⟨rfl, hrest'⟩ := List.cons.inj htodo
      have happend : ts ++ first ++ second = ts ++ todo := by
        rw [List.append_assoc]
        exact congrArg (ts ++ ·) hrest'
      obtain ⟨waiting₁, between, waiting₂, h₁, h₂, hwaiting⟩ := ih happend
      exact ⟨waiting₁, between, waiting₂, .move hnew hin hmoves h₁, h₂, hwaiting⟩

/-- What was run before has been run, and so have the instructions of all threads. -/
theorem Explores.subset (h : p.Explores holds pos Set.univ todo seen waiting seen') :
    seen ⊆ seen' ∧ ∀ t ∈ todo, t.place ∈ seen' := by
  induction h with
  | done => exact ⟨Set.Subset.rfl, by simp⟩
  | skip hskip hrest ih =>
    have hmem := hskip.resolve_right (not_not_intro (Set.mem_univ _))
    exact ⟨ih.1, List.forall_mem_cons.2 ⟨ih.1 hmem, ih.2⟩⟩
  | wait hnew hin hmoves hrest ih =>
    exact ⟨fun i hi => ih.1 (Set.mem_insert_of_mem _ hi),
      List.forall_mem_cons.2 ⟨ih.1 (Set.mem_insert _ _), ih.2⟩⟩
  | move hnew hin hmoves hrest ih =>
    exact ⟨fun i hi => ih.1 (Set.mem_insert_of_mem _ hi),
      List.forall_mem_cons.2 ⟨ih.1 (Set.mem_insert _ _), fun t ht => ih.2 t (List.mem_append_right _ ht)⟩⟩

/-- The set is not left without reading. -/
def Encloses (p : Program) (holds : Assertion → Bool) (region : Set Nat) : Prop :=
  ∀ i ∈ region, ∀ js, p.exits? holds i = some js → ∀ j ∈ js, j ∈ region

theorem Encloses.moves (h : p.Encloses holds region) {t : Thread} {ts : List Thread}
    (ht : t.place ∈ region) (hmoves : p.moves? holds pos t = some ts) :
    ∀ u ∈ ts, u.place ∈ region := fun u hu =>
  h t.place ht _ (exits?_of_moves? hmoves) u.place (List.mem_map_of_mem hu)

theorem encloses_univ : p.Encloses holds Set.univ := fun _ _ _ _ j _ => Set.mem_univ j

/-- Threads that wait in the end are where a thread of a set that is not left can be. -/
theorem Explores.waiting_mem (h : p.Explores holds pos within todo seen waiting seen')
    (hregion : p.Encloses holds region) (htodo : ∀ t ∈ todo, t.place ∈ region) :
    ∀ u ∈ waiting, u.place ∈ region ∧ p.moves? holds pos u = none := by
  induction h with
  | done => simp
  | skip hskip hrest ih => exact ih (List.forall_mem_cons.1 htodo).2
  | wait hnew hin hmoves hrest ih =>
    obtain ⟨ht, htodo⟩ := List.forall_mem_cons.1 htodo
    exact List.forall_mem_cons.2 ⟨⟨ht, hmoves⟩, ih htodo⟩
  | move hnew hin hmoves hrest ih =>
    obtain ⟨ht, htodo⟩ := List.forall_mem_cons.1 htodo
    exact ih (List.forall_mem_append.2 ⟨hregion.moves ht hmoves, htodo⟩)

/-- Of the instructions of a set that have been run, those that can be reached have been run or are still
to be run, and those that wait are among the threads that wait. -/
structure Saturated (p : Program) (holds : Assertion → Bool) (region seen waiting todo : Set Nat) :
    Prop where
  waits : ∀ i ∈ seen, i ∈ region → p.exits? holds i = none → i ∈ waiting
  leads : ∀ i ∈ seen, i ∈ region → ∀ js, p.exits? holds i = some js → ∀ j ∈ js, j ∈ seen ∨ j ∈ todo

theorem Saturated.pending (h : p.Saturated holds region seen seen' ∅) (todo : Set Nat) :
    p.Saturated holds region seen seen' todo :=
  ⟨h.waits, fun i hi hr js he j hj =>
    Or.inl ((h.leads i hi hr js he j hj).resolve_right (Set.notMem_empty j))⟩

/-- The instructions at which threads stand. -/
def stands (ts : List Thread) : Set Nat :=
  {i | ∃ t ∈ ts, t.place = i}

theorem stands_nil : stands [] = ∅ :=
  Set.ext fun i => iff_of_false (fun ⟨t, ht, _⟩ => by cases ht) (Set.notMem_empty i)

theorem stands_append (first second : List Thread) :
    stands (first ++ second) = stands first ∪ stands second := by
  refine Set.ext fun i => ?_
  change (∃ t ∈ first ++ second, _) ↔ (∃ t ∈ first, _) ∨ ∃ t ∈ second, _
  simp only [List.mem_append, or_and_right, exists_or]

theorem stands_cons (t : Thread) (ts : List Thread) :
    stands (t :: ts) = insert t.place (stands ts) := by
  refine Set.ext fun i => ?_
  change (∃ u ∈ t :: ts, u.place = i) ↔ i = t.place ∨ ∃ u ∈ ts, u.place = i
  rw [List.exists_mem_cons_iff, eq_comm]

/-- **Where a thread has been, all that can be reached from there has been run in the end.** -/
theorem Explores.saturated (h : p.Explores holds pos Set.univ todo seen waiting seen') {before : Set Nat}
    (hs : p.Saturated holds region seen before (stands todo)) :
    p.Saturated holds region seen' (before ∪ stands waiting) ∅ := by
  induction h generalizing before with
  | done seen =>
    rw [stands_nil] at hs ⊢
    rwa [Set.union_empty]
  | skip hskip hrest ih =>
    have hmem := hskip.resolve_right (not_not_intro (Set.mem_univ _))
    rw [stands_cons] at hs
    refine ih ⟨hs.waits, fun i hi hr js he j hj => ?_⟩
    rcases hs.leads i hi hr js he j hj with hj | rfl | hj
    · exact Or.inl hj
    · exact Or.inl hmem
    · exact Or.inr hj
  | @wait t todo waiting seen seen' hnew hin hmoves hrest ih =>
    -- the instruction at which the thread waits has been run, and leads nowhere without reading
    rw [stands_cons] at hs
    have hnext : p.Saturated holds region (insert t.place seen) (insert t.place before)
        (stands todo) := by
      constructor
      · rintro i (rfl | hi) hr he
        · exact Or.inl rfl
        · exact Or.inr (hs.waits i hi hr he)
      · rintro i (rfl | hi) hr js he j hj
        · rw [exits?_of_waits hmoves] at he
          cases he
        · exact or_assoc.2 (or_left_comm.1 (hs.leads i hi hr js he j hj))
    rw [stands_cons, Set.union_insert, ← Set.insert_union]
    exact ih hnext
  | @move t ts todo waiting seen seen' hnew hin hmoves hrest ih =>
    -- what the instruction leads to is where the threads stand that take the thread's place
    rw [stands_cons] at hs
    refine ih ⟨?_, ?_⟩
    · rintro i (rfl | hi) hr he
      · rw [exits?_of_moves? hmoves] at he
        cases he
      · exact hs.waits i hi hr he
    · rw [stands_append]
      rintro i (rfl | hi) hr js he j hj
      · rw [exits?_of_moves? hmoves] at he
        obtain rfl := Option.some.inj he
        exact Or.inr (Or.inl (List.mem_map.1 hj))
      · rcases hs.leads i hi hr js he j hj with hj | hj | hj
        · exact Or.inl (Or.inr hj)
        · exact Or.inl (Or.inl hj)
        · exact Or.inr (Or.inr hj)

/-! ## What makes no difference -/

/-- The run is determined by its threads and the instructions that are not run again. -/
theorem Explores.unique (h : p.Explores holds pos within todo seen waiting seen')
    (h₂ : p.Explores holds pos within todo seen waiting₂ seen₂') : waiting = waiting₂ := by
  induction h generalizing waiting₂ with
  | done => cases h₂; rfl
  | skip hskip hrest ih =>
    cases h₂ with
    | skip _ hrest₂ => exact ih hrest₂
    | wait hnew hin _ _ => exact absurd hin (hskip.resolve_left hnew)
    | move hnew hin _ _ => exact absurd hin (hskip.resolve_left hnew)
  | wait hnew hin hmoves hrest ih =>
    cases h₂ with
    | skip hskip _ => exact absurd hin (hskip.resolve_left hnew)
    | wait _ _ _ hrest₂ => rw [ih hrest₂]
    | move _ _ hmoves₂ _ => rw [hmoves] at hmoves₂; cases hmoves₂
  | move hnew hin hmoves hrest ih =>
    cases h₂ with
    | skip hskip _ => exact absurd hin (hskip.resolve_left hnew)
    | wait _ _ hmoves₂ _ => rw [hmoves] at hmoves₂; cases hmoves₂
    | move _ _ hmoves₂ hrest₂ =>
      rw [hmoves] at hmoves₂
      cases hmoves₂
      exact ih hrest₂

/-- Threads at instructions that are left out change nothing. -/
theorem Explores.of_append (h : p.Explores holds pos within (first ++ second) seen waiting seen')
    (hout : ∀ t ∈ first, t.place ∉ within) : p.Explores holds pos within second seen waiting seen' := by
  induction first with
  | nil => exact h
  | cons t first ih =>
    obtain ⟨ht, hfirst⟩ := List.forall_mem_cons.1 hout
    cases h with
    | skip _ hrest => exact ih hrest hfirst
    | wait _ hin _ _ => exact absurd hin ht
    | move _ hin _ _ => exact absurd hin ht

/-- From no other instruction can one of the set be reached without reading. -/
def Absorbs (p : Program) (holds : Assertion → Bool) (region within : Set Nat) : Prop :=
  ∀ i ∈ region, i ∉ within → ∀ js, p.exits? holds i = some js → ∀ j ∈ js, j ∉ within

variable {β : Type} {out : Thread → Option β}

/-- One more instruction is run both times. -/
theorem same_insert {j : Nat} (h : ∀ i ∈ region, i ∈ within → (i ∈ seen ↔ i ∈ seen₂)) :
    ∀ i ∈ region, i ∈ within → (i ∈ insert j seen ↔ i ∈ insert j seen₂) :=
  fun i hi hin => or_congr Iff.rfl (h i hi hin)

/-- An instruction that is left out is run only once. -/
theorem same_insert_left {j : Nat} (hj : j ∉ within)
    (h : ∀ i ∈ region, i ∈ within → (i ∈ seen ↔ i ∈ seen₂)) :
    ∀ i ∈ region, i ∈ within → (i ∈ insert j seen ↔ i ∈ seen₂) := by
  intro i hi hin
  rw [← h i hi hin, Set.mem_insert_iff, or_iff_right]
  rintro rfl
  exact hj hin

/-- Leaving out instructions that nothing comes of changes nothing. By induction on the run that leaves
none out; a thread that moves at such an instruction becomes threads at such instructions. -/
theorem Explores.restrict (h : p.Explores holds pos Set.univ todo seen waiting seen')
    (hregion : p.Encloses holds region) (habsorbs : p.Absorbs holds region within)
    (htodo : ∀ t ∈ todo, t.place ∈ region) (hout : ∀ u, u.place ∈ region → u.place ∉ within → out u = none)
    (hsame : ∀ i ∈ region, i ∈ within → (i ∈ seen ↔ i ∈ seen₂)) :
    ∃ waiting₂ seen₂', p.Explores holds pos within todo seen₂ waiting₂ seen₂' ∧
      waiting.findSome? out = waiting₂.findSome? out ∧
      ∀ i ∈ region, i ∈ within → (i ∈ seen' ↔ i ∈ seen₂') := by
  induction h generalizing seen₂ with
  | done seen => exact ⟨[], seen₂, .done _, rfl, hsame⟩
  | @skip t todo waiting seen seen' hskip hrest ih =>
    obtain ⟨ht, htodo⟩ := List.forall_mem_cons.1 htodo
    have hmem := hskip.resolve_right (not_not_intro (Set.mem_univ _))
    obtain ⟨waiting₂, seen₂', hexplores, heq, hsame'⟩ := ih htodo hsame
    refine ⟨waiting₂, seen₂', .skip ?_ hexplores, heq, hsame'⟩
    by_cases hin : t.place ∈ within
    · exact Or.inl ((hsame t.place ht hin).1 hmem)
    · exact Or.inr hin
  | @wait t todo waiting seen seen' hnew _ hmoves hrest ih =>
    obtain ⟨ht, htodo⟩ := List.forall_mem_cons.1 htodo
    by_cases hin : t.place ∈ within
    · obtain ⟨waiting₂, seen₂', hexplores, heq, hsame'⟩ := ih htodo (same_insert hsame)
      refine ⟨t :: waiting₂, seen₂', .wait ?_ hin hmoves hexplores, ?_, hsame'⟩
      · exact fun hmem => hnew ((hsame t.place ht hin).2 hmem)
      · rw [List.findSome?_cons, List.findSome?_cons, heq]
    · obtain ⟨waiting₂, seen₂', hexplores, heq, hsame'⟩ := ih htodo (same_insert_left hin hsame)
      refine ⟨waiting₂, seen₂', .skip (Or.inr hin) hexplores, ?_, hsame'⟩
      rw [List.findSome?_cons, hout t ht hin]
      exact heq
  | @move t ts todo waiting seen seen' hnew _ hmoves hrest ih =>
    obtain ⟨ht, htodo⟩ := List.forall_mem_cons.1 htodo
    have hts := hregion.moves ht hmoves
    by_cases hin : t.place ∈ within
    · obtain ⟨waiting₂, seen₂', hexplores, heq, hsame'⟩ :=
        ih (List.forall_mem_append.2 ⟨hts, htodo⟩) (same_insert hsame)
      refine ⟨waiting₂, seen₂', .move ?_ hin hmoves hexplores, heq, hsame'⟩
      exact fun hmem => hnew ((hsame t.place ht hin).2 hmem)
    · obtain ⟨waiting₂, seen₂', hexplores, heq, hsame'⟩ :=
        ih (List.forall_mem_append.2 ⟨hts, htodo⟩) (same_insert_left hin hsame)
      -- what comes of such an instruction stands at such instructions, and drops out thread by thread
      have hdrop : ∀ u ∈ ts, u.place ∉ within := fun u hu =>
        habsorbs t.place ht hin _ (exits?_of_moves? hmoves) u.place (List.mem_map_of_mem hu)
      exact ⟨waiting₂, seen₂', .skip (Or.inr hin) (hexplores.of_append hdrop), heq, hsame'⟩

/-- **Instructions that nothing comes of make no difference**: what comes of the threads depends on the
instructions run before only as far as something comes of these. -/
theorem Explores.findSome?_eq (h : p.Explores holds pos Set.univ todo seen waiting seen')
    (h₂ : p.Explores holds pos Set.univ todo seen₂ waiting₂ seen₂')
    (hregion : p.Encloses holds region) (habsorbs : p.Absorbs holds region within)
    (htodo : ∀ t ∈ todo, t.place ∈ region) (hout : ∀ u, u.place ∈ region → u.place ∉ within → out u = none)
    (hsame : ∀ i ∈ region, i ∈ within → (i ∈ seen ↔ i ∈ seen₂)) :
    waiting.findSome? out = waiting₂.findSome? out := by
  obtain ⟨first, _, hfirst, heq, -⟩ :=
    h.restrict hregion habsorbs htodo hout hsame
  have hself : ∀ i ∈ region, i ∈ within → (i ∈ seen₂ ↔ i ∈ seen₂) := fun _ _ _ => Iff.rfl
  obtain ⟨second, _, hsecond, heq₂, -⟩ := h₂.restrict hregion habsorbs htodo hout hself
  rw [heq, heq₂, hfirst.unique hsecond]

end Explores

end Program

end ParserGen.Pattern
