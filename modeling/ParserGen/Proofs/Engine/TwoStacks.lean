import Mathlib.Data.Nat.PSub
import ParserGen.Proofs.Engine.Soundness
import ParserGen.Proofs.Table.Reload

/-!
# The engine on two stacks

The engine keeps the value of a symbol and the state entered with it in one frame. Here they are on two
stacks of their own, with state `0` at the bottom of the first, and a reduction takes from both as many
entries as the rule has components. On two stacks a step can fail in more ways: there may be no state,
and a stack may be shorter than what is taken from it. Whatever the table says, neither happens, and
the run is that of the engine.

* `moves_of_step`: what a step on two stacks can do.
* `stepStacks_stacks`: **a step on two stacks is a step of the engine.**
* `heights_of_run`, `position_of_run`: the stacks keep in step, and the cursor counts the shifts.
* `hasRows_of_run`: on a table that was loaded, every state on the stack has a row of actions.
* `engine_safe_on_every_table`: all of this, for every table.
-/

namespace ParserGen

/-- Whether the action takes a token. -/
def Action.isShift : Action → Bool
  | .shift _ => true
  | _ => false

namespace ParseTable

variable {t : ParseTable} {state next : Nat}

theorem closed_of_load {text : String} (h : load text = .ok t) : t.Closed := by
  unfold load at h
  split at h
  · cases h
  · split at h
    · cases h
    · rename_i hdangling
      cases h
      exact dangling?_eq_none_iff.1 hdangling

theorem contains_of_action? (hc : t.Closed) {terminal : String}
    (h : t.action? state terminal = some (.shift next)) : t.action.contains next = true := by
  obtain ⟨row, hrow, h⟩ := Option.bind_eq_some_iff.1 h
  obtain ⟨raw, hraw, h⟩ := Option.bind_eq_some_iff.1 h
  exact hc.shift _ ((OrderedMap.find?_eq_some_iff _ _ _).1 hrow) _
    ((OrderedMap.find?_eq_some_iff _ _ _).1 hraw) _ (Option.some.inj h)

theorem contains_of_goto? (hc : t.Closed) {nonterminal : String}
    (h : t.goto? state nonterminal = some next) : t.action.contains next = true := by
  obtain ⟨row, hrow, h⟩ := Option.bind_eq_some_iff.1 h
  exact hc.goto _ ((OrderedMap.find?_eq_some_iff _ _ _).1 hrow) _
    ((OrderedMap.find?_eq_some_iff _ _ _).1 h)

end ParseTable

/-- The engine between two steps, with the states and the values on stacks of their own. The last entry
of a stack is the one on top. -/
structure Stacks (V : Type) where
  states : List Nat
  values : List V
  stream : TokenStream

/-- Why a run on two stacks fails. -/
inductive StacksError where
  | parse (error : ParseError)
  /-- There is no state. -/
  | emptyStateStack
  /-- More entries are taken from a stack than it has. -/
  | negativeHeight

/-- What a step on two stacks leads to. -/
inductive StacksStep (V : Type) where
  | next (s : Stacks V)
  | done (result : Except StacksError V)

variable {V : Type}

namespace Stacks

/-- The stacks before the first step. -/
def initial (stream : TokenStream) : Stacks V :=
  { states := [0], values := [], stream }

end Stacks

namespace Machine

/-- The states of frames with state `0` beneath them, the top one last. -/
def stateStack (stack : List (Frame V)) : List Nat :=
  0 :: (stack.map (·.state)).reverse

/-- The values of frames, the top one last. -/
def valueStack (stack : List (Frame V)) : List V :=
  (stack.map (·.value)).reverse

/-- The machine on two stacks. -/
def onStacks (m : Machine V) : Stacks V where
  states := stateStack m.stack
  values := valueStack m.stack
  stream := m.stream

section Frames

variable {stack : List (Frame V)}

@[simp] theorem length_stateStack : (stateStack stack).length = stack.length + 1 := by
  simp [stateStack]

@[simp] theorem length_valueStack : (valueStack stack).length = stack.length := by
  simp [valueStack]

@[simp] theorem stateStack_cons (f : Frame V) :
    stateStack (f :: stack) = stateStack stack ++ [f.state] := by
  simp [stateStack]

@[simp] theorem valueStack_cons (f : Frame V) :
    valueStack (f :: stack) = valueStack stack ++ [f.value] := by
  simp [valueStack]

theorem getLast?_stateStack (stack : List (Frame V)) :
    (stateStack stack).getLast? = some (topState stack) := by
  cases stack with
  | nil => rfl
  | cons f rest => simp [topState]

theorem take_stateStack {n : Nat} (h : n ≤ stack.length) :
    (stateStack stack).take (stack.length + 1 - n) = stateStack (stack.drop n) := by
  rw [Nat.sub_add_comm h]
  simp only [stateStack, List.take_succ_cons, List.take_reverse, List.length_map, List.map_drop]
  rw [Nat.sub_sub_self h]

theorem take_valueStack {n : Nat} (h : n ≤ stack.length) :
    (valueStack stack).take (stack.length - n) = valueStack (stack.drop n) := by
  simp only [valueStack, List.take_reverse, List.length_map, List.map_drop]
  rw [Nat.sub_sub_self h]

theorem drop_valueStack {n : Nat} (h : n ≤ stack.length) :
    (valueStack stack).drop (stack.length - n) = valueStack (stack.take n) := by
  simp only [valueStack, List.drop_reverse, List.length_map, List.map_take]
  rw [Nat.sub_sub_self h]

end Frames

end Machine

/-- What a step leads to, on two stacks. -/
def Step.onStacks : Step V → StacksStep V
  | .next m => .next m.onStacks
  | .done result _ => .done (result.mapError .parse)

namespace Engine

variable (e : Engine V)

/-- Pushes the current token and moves on. -/
def shiftStacks (state : Nat) (s : Stacks V) : StacksStep V :=
  match s.stream.advance with
  | .ok stream =>
    .next { states := s.states ++ [state], values := s.values ++ [e.ofToken s.stream.current], stream }
  | .error error => .done (.error (.parse (.stream error)))

/-- Takes as many entries from both stacks as the rule has components, and pushes its left side. -/
def reduceStacks (rule : Nat) (s : Stacks V) : StacksStep V :=
  match e.reductions.lhs rule, e.reductions.arity rule with
  | some lhs, some arity =>
    if arity > s.values.length ∨ arity ≥ s.states.length then
      .done (.error (.parse (.stackUnderflow rule)))
    else
      match s.states.length.psub arity, s.values.length.psub arity with
      | some height, some count =>
        let states := s.states.take height
        let value := e.reductions.reduce rule (s.values.drop count)
        match states.getLast? with
        | none => .done (.error .emptyStateStack)
        | some top =>
          match e.table.goto? top lhs with
          | none => .done (.error (.parse (.missingGoto top lhs)))
          | some next =>
            .next { s with states := states ++ [next], values := s.values.take count ++ [value] }
      | _, _ => .done (.error .negativeHeight)
  | _, _ => .done (.error (.parse (.unknownRule rule)))

/-- Ends the run with the value on top. -/
def acceptStacks (s : Stacks V) : StacksStep V :=
  match s.values.getLast? with
  | some value => .done (.ok value)
  | none => .done (.error (.parse .emptyValueStack))

/-- One step on two stacks. -/
def stepStacks (s : Stacks V) : StacksStep V :=
  match s.states.getLast? with
  | none => .done (.error .emptyStateStack)
  | some state =>
    match e.table.action? state s.stream.current.kind with
    | some (.shift next) => e.shiftStacks next s
    | some (.reduce rule) => e.reduceStacks rule s
    | some .accept => acceptStacks s
    | none => .done (.error (.parse (.unexpectedToken s.stream.current (e.table.expected state))))

/-- Runs for at most `fuel` steps on two stacks. -/
def runStacks : Nat → Stacks V → Option (Except StacksError V)
  | 0, _ => none
  | fuel + 1, s =>
    match e.stepStacks s with
    | .next s => runStacks fuel s
    | .done result => some result

/-- What a step that goes on does to the stacks, by the action that the table gives. -/
inductive Moves (s : Stacks V) : Action → Stacks V → Prop
  | shift {state : Nat} {stream : TokenStream} (hstream : s.stream.advance = .ok stream) :
      Moves s (.shift state) ⟨s.states ++ [state], s.values ++ [e.ofToken s.stream.current], stream⟩
  /-- The last values, as many as the rule has components, are its arguments in the order in which they
  lie on the stack; as many states are taken away, and the left side is looked up in the one below. -/
  | reduce {rule top next : Nat} {lhs : String} {below popped : List Nat} {kept args : List V}
      (hlhs : e.reductions.lhs rule = some lhs) (harity : e.reductions.arity rule = some args.length)
      (hvalues : s.values = kept ++ args) (hstates : s.states = below ++ [top] ++ popped)
      (hpopped : popped.length = args.length) (hgoto : e.table.goto? top lhs = some next) :
      Moves s (.reduce rule)
        ⟨below ++ [top] ++ [next], kept ++ [e.reductions.reduce rule args], s.stream⟩

/-- The action that the table gives for the state on top and the current token. -/
def actionOn (s : Stacks V) : Option Action :=
  s.states.getLast?.bind fun state => e.table.action? state s.stream.current.kind

variable {e}

theorem moves_of_reduce {rule : Nat} {s s' : Stacks V} (h : e.reduceStacks rule s = .next s') :
    e.Moves s (.reduce rule) s' := by
  unfold reduceStacks at h
  split at h
  · rename_i lhs arity hlhs harity
    split at h
    · cases h
    · split at h
      · rename_i height count hheight hcount
        rw [Nat.psub_eq_some] at hheight hcount
        dsimp only at h
        split at h
        · cases h
        · rename_i top htop
          obtain ⟨below, hbelow⟩ := List.getLast?_eq_some_iff.1 htop
          split at h
          · cases h
          · rename_i next hgoto
            cases h
            have hargs : (s.values.drop count).length = arity := by
              rw [List.length_drop]
              omega
            have hpopped : (s.states.drop height).length = arity := by
              rw [List.length_drop]
              omega
            rw [hbelow]
            exact .reduce hlhs (hargs ▸ harity) (List.take_append_drop count s.values).symm
              (hbelow ▸ (List.take_append_drop height s.states).symm) (hpopped.trans hargs.symm) hgoto
      · cases h
  · cases h

/-- **What a step on two stacks can do**: it shifts or reduces, as the table says. -/
theorem moves_of_step {s s' : Stacks V} (h : e.stepStacks s = .next s') :
    ∃ a, e.actionOn s = some a ∧ e.Moves s a s' := by
  unfold stepStacks at h
  split at h
  · cases h
  · rename_i state htop
    have haction : e.actionOn s = e.table.action? state s.stream.current.kind := by
      unfold actionOn
      rw [htop, Option.bind_some]
    split at h
    · rename_i next ha
      refine ⟨_, haction.trans ha, ?_⟩
      unfold shiftStacks at h
      split at h
      · rename_i stream hstream
        cases h
        exact .shift hstream
      · cases h
    · rename_i rule ha
      exact ⟨_, haction.trans ha, moves_of_reduce h⟩
    · unfold acceptStacks at h
      split at h <;> cases h
    · cases h

/-! ## The same steps -/

theorem shiftStacks_stacks (state : Nat) (m : Machine V) :
    e.shiftStacks state m.onStacks = (e.shift state m).onStacks := by
  unfold shiftStacks shift Machine.onStacks
  dsimp only
  cases m.stream.advance with
  | error error => rfl
  | ok stream => simp [Step.onStacks, Machine.onStacks]

theorem reduceStacks_stacks (rule : Nat) (m : Machine V) :
    e.reduceStacks rule m.onStacks = (e.reduce rule m).onStacks := by
  unfold reduceStacks reduce Machine.onStacks
  cases e.reductions.lhs rule with
  | none => rfl
  | some lhs =>
    cases e.reductions.arity rule with
    | none => rfl
    | some arity =>
      dsimp only
      rw [Machine.length_stateStack, Machine.length_valueStack]
      by_cases hshort : arity > m.stack.length
      · rw [if_pos (by omega), if_pos hshort]
        rfl
      · have hle : arity ≤ m.stack.length := by omega
        rw [if_neg (by omega), if_neg hshort, Nat.psub_eq_sub (by omega), Nat.psub_eq_sub hle]
        dsimp only
        rw [Machine.take_stateStack hle, Machine.take_valueStack hle, Machine.drop_valueStack hle,
          Machine.getLast?_stateStack]
        dsimp only
        cases e.table.goto? (Machine.topState (m.stack.drop arity)) lhs with
        | none => rfl
        | some next => simp [Step.onStacks, Machine.onStacks, Machine.valueStack]

/-- **A step on two stacks is a step of the engine.** -/
theorem stepStacks_stacks (m : Machine V) : e.stepStacks m.onStacks = (e.step m).onStacks := by
  unfold stepStacks step
  have htop : m.onStacks.states.getLast? = some (Machine.topState m.stack) :=
    Machine.getLast?_stateStack m.stack
  have hstream : m.onStacks.stream = m.stream := rfl
  rw [htop]
  dsimp only
  rw [hstream]
  cases e.table.action? (Machine.topState m.stack) m.stream.current.kind with
  | none => rfl
  | some a =>
    cases a with
    | shift state => exact shiftStacks_stacks state m
    | reduce rule => exact reduceStacks_stacks rule m
    | accept =>
      unfold acceptStacks accept Machine.onStacks
      cases m.stack with
      | nil => rfl
      | cons f rest => simp [Step.onStacks, Except.mapError]

/-- **A run on two stacks ends like that of the engine.** -/
theorem runStacks_stacks (fuel : Nat) (m : Machine V) :
    e.runStacks fuel m.onStacks = (e.run fuel m).map fun r => r.1.mapError .parse := by
  induction fuel generalizing m with
  | zero => rfl
  | succ fuel ih =>
    rw [runStacks, run, stepStacks_stacks]
    cases e.step m with
    | next m' => exact ih m'
    | done result m' => rfl

/-! ## Runs -/

/-- A run on two stacks from the first token on, with the actions done on the way. -/
inductive RunStacks (e : Engine V) (start : TokenStream) : List Action → Stacks V → Prop
  | initial : RunStacks e start [] (.initial start)
  | step {actions : List Action} {s s' : Stacks V} {a : Action} (h : RunStacks e start actions s)
      (ha : e.actionOn s = some a) (hs : e.stepStacks s = .next s') :
      RunStacks e start (actions ++ [a]) s'

section Run

variable {start : TokenStream} {actions : List Action} {s : Stacks V}

/-- **A run on two stacks is a run of the engine.** -/
theorem exists_machine_of_run (h : e.RunStacks start actions s) :
    ∃ m, e.Reaches (.initial start) m ∧ m.onStacks = s := by
  induction h with
  | initial => exact ⟨.initial start, .refl, rfl⟩
  | @step actions s s' a h ha hs ih =>
    obtain ⟨m, hm, rfl⟩ := ih
    rw [stepStacks_stacks] at hs
    cases hstep : e.step m with
    | next m' =>
      rw [hstep] at hs
      cases hs
      exact ⟨m', hm.tail hstep, rfl⟩
    | done result m' =>
      rw [hstep] at hs
      cases hs

/-- **The stack of states is one longer than that of the values.** -/
theorem heights_of_run (h : e.RunStacks start actions s) :
    s.states.length = s.values.length + 1 := by
  obtain ⟨m, -, rfl⟩ := exists_machine_of_run h
  simp [Machine.onStacks]

/-- A step on two stacks fails as one of the engine does. -/
theorem parse_of_done (h : e.RunStacks start actions s) {error : StacksError}
    (hdone : e.stepStacks s = .done (.error error)) : ∃ cause, error = .parse cause := by
  obtain ⟨m, -, rfl⟩ := exists_machine_of_run h
  rw [stepStacks_stacks] at hdone
  cases hstep : e.step m with
  | next m' =>
    rw [hstep] at hdone
    cases hdone
  | done result m' =>
    rw [hstep] at hdone
    cases result with
    | ok v => cases hdone
    | error cause =>
      cases hdone
      exact ⟨cause, rfl⟩

/-- The cursor moves on by one with a shift, and stays with a reduction. -/
theorem position_of_moves {a : Action} {s' : Stacks V} (h : e.Moves s a s') :
    s'.stream.position = s.stream.position + if a.isShift then 1 else 0 := by
  cases h with
  | shift hstream => exact (TokenStream.advance_eq_ok_iff.1 hstream).2
  | reduce _ _ _ _ _ _ => rfl

/-- **The cursor counts the shifts.** -/
theorem position_of_run (h : e.RunStacks start actions s) :
    s.stream.position = start.position + actions.countP Action.isShift := by
  induction h with
  | initial => rfl
  | @step actions s s' a h ha hs ih =>
    obtain ⟨a', ha', hmoves⟩ := moves_of_step hs
    rw [ha] at ha'
    cases ha'
    rw [position_of_moves hmoves, ih, List.countP_append, List.countP_singleton, Nat.add_assoc]

/-- At the bottom lies state `0`, and on a table without dangling entries all states above it have a
row of actions. -/
theorem hasRows_of_run (h : e.RunStacks start actions s) :
    ∃ above, s.states = 0 :: above ∧
      (e.table.Closed → ∀ q ∈ above, e.table.action.contains q = true) := by
  induction h with
  | initial => exact ⟨[], rfl, by simp⟩
  | @step actions s s' a h ha hs ih =>
    obtain ⟨above, habove, hrows⟩ := ih
    obtain ⟨a', ha', hmoves⟩ := moves_of_step hs
    rw [ha] at ha'
    cases ha'
    cases hmoves with
    | @shift state stream hstream =>
      refine ⟨above ++ [state], by rw [habove, List.cons_append], fun hc q hq => ?_⟩
      rcases List.mem_append.1 hq with hq | hq
      · exact hrows hc q hq
      · rw [List.mem_singleton.1 hq]
        obtain ⟨top, -, htop⟩ := Option.bind_eq_some_iff.1 ha
        exact ParseTable.contains_of_action? hc htop
    | @reduce rule top next lhs below popped kept args hlhs harity hvalues hstates hpopped hgoto =>
      -- what is left of the stack begins with the bottom as before
      rw [habove, List.cons_eq_append_iff] at hstates
      rcases hstates with ⟨hnil, -⟩ | ⟨left, hleft, rfl⟩
      · simp at hnil
      · refine ⟨left ++ [next], by rw [hleft, List.cons_append], fun hc q hq => ?_⟩
        rcases List.mem_append.1 hq with hq | hq
        · exact hrows hc q (List.mem_append_left _ hq)
        · rw [List.mem_singleton.1 hq]
          exact ParseTable.contains_of_goto? hc hgoto

end Run

/-- What holds of two stacks that a run from the first token `start` has come to by some actions. -/
structure SafeAt (e : Engine V) (start : TokenStream) (actions : List Action) (s : Stacks V) :
    Prop where
  /-- The engine comes to the same states and values. -/
  engine : ∃ m, e.Reaches (.initial start) m ∧ m.onStacks = s
  heights : s.states.length = s.values.length + 1
  /-- The two conditions under which a reduction is refused agree. -/
  refused : ∀ arity, arity > s.values.length ↔ arity ≥ s.states.length
  stateOnTop : e.stepStacks s ≠ .done (.error .emptyStateStack)
  heightsLeft : e.stepStacks s ≠ .done (.error .negativeHeight)
  moves : ∀ s', e.stepStacks s = .next s' → ∃ a, e.actionOn s = some a ∧ e.Moves s a s'
  position : s.stream.position = start.position + actions.countP Action.isShift
  forward : ∀ s', e.stepStacks s = .next s' → s.stream.position ≤ s'.stream.position
  bottom : ∃ above, s.states = 0 :: above ∧
    ∀ text, ParseTable.load text = .ok e.table → ∀ q ∈ above, e.table.action.contains q = true

/-- **The engine is safe on every table.** Whatever the table and the rules say and whatever the stream
holds, the engine does what it would do with states and values on stacks of their own. On these there is
always one state more than values, so that there is a state on top and a reduction that is not refused
finds its entries on both stacks. A reduction takes the last values in their order, the cursor counts
the shifts, and on a table that was loaded each state above the bottom has a row of actions. -/
theorem engine_safe_on_every_table (e : Engine V) (start : TokenStream) :
    (∀ fuel, e.runStacks fuel (.initial start) =
      (e.run fuel (.initial start)).map fun r => r.1.mapError .parse) ∧
    ∀ actions s, e.RunStacks start actions s → e.SafeAt start actions s := by
  refine ⟨fun fuel => runStacks_stacks fuel (.initial start), fun actions s h => ?_⟩
  have hheights := heights_of_run h
  obtain ⟨above, habove, hrows⟩ := hasRows_of_run h
  exact {
    engine := exists_machine_of_run h
    heights := hheights
    refused := fun arity => by omega
    stateOnTop := fun hdone => by
      obtain ⟨cause, hcause⟩ := parse_of_done h hdone
      cases hcause
    heightsLeft := fun hdone => by
      obtain ⟨cause, hcause⟩ := parse_of_done h hdone
      cases hcause
    moves := fun s' => moves_of_step
    position := position_of_run h
    forward := fun s' hs => by
      obtain ⟨a, -, hmoves⟩ := moves_of_step hs
      rw [position_of_moves hmoves]
      exact Nat.le_add_right _ _
    bottom := ⟨above, habove, fun text hload => hrows (ParseTable.closed_of_load hload)⟩ }

/-- A table that was made for no grammar: state `7` shifts to itself and always reduces by rule `3`. -/
def corruptTable : ParseTable where
  action := .ofList [(0, .ofList [("a", 7)]), (7, .ofList [("a", 7), (Token.eofKind, -3)])]
  goto := .ofList [(0, .ofList [("S", 7)])]

/-- The engine on that table. The value of a token is its place, and those of components are put
together. -/
def corruptEngine : Engine (List Nat) where
  table := corruptTable
  reductions :=
    { lhs := fun _ => some "S", arity := fun _ => some 2, reduce := fun _ args => args.flatten }
  ofToken t := [t.offset]

/-- Two tokens and `$eof`. -/
def twoTokens : TokenStream :=
  .ofTokens #[⟨"a", "a", 1, 1⟩, ⟨"a", "a", 1, 2⟩]

/-- The table is one that can be loaded. After two shifts and a reduction the next reduction is refused,
as there is one value only. -/
theorem corrupt_safe : (∃ text, ParseTable.load text = .ok corruptEngine.table) ∧
    ∃ s, corruptEngine.RunStacks twoTokens [.shift 7, .shift 7, .reduce 3] s ∧
      s.states = [0, 7] ∧ s.values = [[1, 2]] ∧
      corruptEngine.SafeAt twoTokens [.shift 7, .shift 7, .reduce 3] s ∧
      corruptEngine.runStacks 4 (.initial twoTokens) =
        some (.error (.parse (.stackUnderflow 3))) := by
  have hload : ParseTable.load corruptTable.toJson = .ok corruptEngine.table := by decide +kernel
  have h0 : corruptEngine.RunStacks twoTokens [] (.initial twoTokens) := .initial
  have h1 := RunStacks.step (a := .shift 7) h0 (by decide +kernel) (by rfl)
  have h2 := RunStacks.step (a := .shift 7) h1 (by decide +kernel) (by rfl)
  have h3 := RunStacks.step (a := .reduce 3) h2 (by decide +kernel) (by rfl)
  have hrun : (corruptEngine.run 4 (.initial twoTokens)).map (·.1) =
      some (.error (.stackUnderflow 3)) := by
    decide +kernel
  obtain ⟨hsame, hsafe⟩ := engine_safe_on_every_table corruptEngine twoTokens
  refine ⟨⟨_, hload⟩, _, h3, rfl, rfl, hsafe _ _ h3, ?_⟩
  obtain ⟨r, hr, hresult⟩ := Option.map_eq_some_iff.1 hrun
  rw [hsame, hr, Option.map_some, hresult]
  rfl

end Engine

end ParserGen
