import Mathlib.Data.List.Basic
import ParserGen.Grammar.Definition

/-!
# Defined grammars are well formed

Whatever calls a definition has seen, failing ones included, its drafts use only names that are
neither empty nor reserved. So in a finished grammar the reserved symbols stand in no right side but
that of the start rule, and the numbers of rules, terminals and nonterminals are those the automaton
and the table count on.

* `Grammar.Defined`: the grammars that a sequence of calls defines.
* `Grammar.WellFormed`: what the later stages rely on.
* `Call.effect_of_run`: what a call can do to a definition, from which follows what every call keeps.
* `Defined.wellFormed`: **every defined grammar is well formed.**
-/

namespace ParserGen

variable {V : Type}

/-- A call that changes a definition. -/
inductive Call (V : Type) where
  | rule (name : String) (components : List String)
  | callback (f : List V → V)
  | prec (priority : Nat)
  | operators (group : List String)
  | assoc (assoc : Associativity)
  | start (name : String)
  | resolve (policy : Policy)

namespace Call

/-- The call as a builder. -/
def builder : Call V → Builder V Unit
  | .rule name components => do let _ ← Builder.rule name components
  | .callback f => Builder.call f
  | .prec priority => Builder.prec priority
  | .operators group => Builder.operators group
  | .assoc a => Builder.assoc a
  | .start name => Builder.start name
  | .resolve policy => Builder.resolve policy

/-- The call with its failure passed over. -/
def attempt (c : Call V) : Builder V Unit :=
  tryCatch c.builder fun _ => pure ()

/-- The definition that the call leaves behind, whether it fails or not. -/
def after (d : Definition V) (c : Call V) : Definition V :=
  (c.builder.run.run d).2

end Call

/-- The grammar can be defined by calls, of which some may fail. -/
def Grammar.Defined (g : Grammar V) : Prop :=
  ∃ calls : List (Call V), Grammar.define (calls.forM Call.attempt) = .ok g

/-- What the automaton, the table and the engine rely on. -/
structure Grammar.WellFormed (g : Grammar V) : Prop where
  /-- Rule `0` is `$start → start symbol`. -/
  startRule : ∃ r, g.rules[0]? = some r ∧ r.left = Nonterminal.start ∧
    r.symbols = [.nonterminal g.start]
  /-- A rule is found under its number. -/
  number : ∀ {i : Nat} {r : Rule V}, g.rules[i]? = some r → r.number = i
  /-- Rule numbers fit into 16 bits. -/
  size_le : g.rules.size ≤ maxCount + 1
  /-- The number and the name of a left side belong together. -/
  name : ∀ {i : Nat} {r : Rule V}, g.rules[i]? = some r → g.nonterminals.name? r.left = some r.name
  /-- Right sides by name and by number have the same length. -/
  length : ∀ {i : Nat} {r : Rule V}, g.rules[i]? = some r → r.components.length = r.symbols.length
  /-- The terminals of right sides are none of the reserved ones. -/
  terminal : ∀ {i : Nat} {r : Rule V}, g.rules[i]? = some r → ∀ {t : Nat}, Symbol.terminal t ∈ r.symbols →
    Terminal.reserved ≤ t ∧ t < g.terminals.size
  /-- The nonterminals of right sides are not `$start`. -/
  nonterminal : ∀ {i : Nat} {r : Rule V}, g.rules[i]? = some r → ∀ {n : Nat}, Symbol.nonterminal n ∈ r.symbols →
    n ≠ Nonterminal.start ∧ n < g.nonterminals.size
  /-- Only rule `0` has `$start` on the left. -/
  left_ne : ∀ {i : Nat} {r : Rule V}, g.rules[i]? = some r → i ≠ 0 → r.left ≠ Nonterminal.start
  /-- The alternatives of a nonterminal are the rules with it on the left. -/
  mem_alternatives : ∀ {n i : Nat}, i ∈ g.alternatives n ↔ ∃ r, g.rules[i]? = some r ∧ r.left = n
  /-- Alternatives are listed in ascending order. -/
  alternatives_sorted : ∀ n, (g.alternatives n).Pairwise (· < ·)
  eof : g.terminals.name? Terminal.eof = some Token.eofKind
  epsilon : g.terminals.name? Terminal.epsilon = some Terminal.epsilonName
  /-- No terminal has the empty name. -/
  terminal_ne : ∀ t, g.terminals.name? t ≠ some ""

namespace Definition

/-- There are not too many drafts, and all their names are fit. -/
def Fit (d : Definition V) : Prop :=
  d.rules.size ≤ maxCount ∧
    ∀ r ∈ d.rules, ∀ name ∈ r.name :: r.components, nameError? name = none

theorem fit_empty : (empty : Definition V).Fit :=
  ⟨Nat.zero_le _, by simp [empty]⟩

/-- Fitness looks at the names and the components of the drafts only. -/
theorem Fit.congr {d d' : Definition V} (h : d.Fit)
    (hr : d'.rules.map (fun r => (r.name, r.components)) =
      d.rules.map fun r => (r.name, r.components)) : d'.Fit := by
  refine ⟨?_, ?_⟩
  · have := congrArg Array.size hr
    simp only [Array.size_map] at this
    rw [this]; exact h.1
  · intro r hr' name hn
    have hm : (r.name, r.components) ∈ d'.rules.map fun r => (r.name, r.components) :=
      Array.mem_map.2 ⟨r, hr', rfl⟩
    rw [hr] at hm
    obtain ⟨s, hs, he⟩ := Array.mem_map.1 hm
    simp only [Prod.mk.injEq] at he
    exact h.2 s hs name (by rw [he.1, he.2]; exact hn)

theorem map_modifyLastRule (d : Definition V) {f : RuleDraft V → RuleDraft V}
    (hf : ∀ r, ((f r).name, (f r).components) = (r.name, r.components)) :
    (d.modifyLastRule f).rules.map (fun r => (r.name, r.components)) =
      d.rules.map fun r => (r.name, r.components) := by
  apply Array.ext
  · simp [modifyLastRule]
  · intro i h₁ h₂
    simp only [modifyLastRule, Array.getElem_map, Array.getElem_modify]
    split
    · exact hf _
    · rfl

theorem modifyLastRule_push (d : Definition V) (r : RuleDraft V) (cursor : Cursor)
    (f : RuleDraft V → RuleDraft V) :
    { d with rules := d.rules.push r, cursor }.modifyLastRule f =
      { d with rules := d.rules.push (f r), cursor } := by
  unfold modifyLastRule
  congr 1
  refine Array.ext_getElem? fun i => ?_
  rw [Array.getElem?_modify, Array.getElem?_push, Array.getElem?_push]
  simp only [Array.size_push, Nat.add_sub_cancel]
  by_cases hi : i = d.rules.size
  · simp [hi]
  · simp [hi, Ne.symm hi]

theorem Fit.addRule {d : Definition V} (h : d.Fit) {name : String} {components : List String}
    (hn : (name :: components).findSome? nameError? = none) (hs : d.rules.size + 1 ≤ maxCount)
    (c : Cursor) :
    { d with rules := d.rules.push ⟨name, components, none, none⟩, cursor := c }.Fit := by
  refine ⟨by simpa using hs, ?_⟩
  intro r hr x hx
  rcases Array.mem_push.1 hr with hr | rfl
  · exact h.2 r hr x hx
  · exact List.findSome?_eq_none_iff.1 hn x hx

end Definition

/-! ## What a call does -/

/-- The definition with some more operators, which group to the left with priority one. -/
def Definition.declare (d : Definition V) (names : List String) : Definition V :=
  { d with operators := names.foldl (fun ops name => ops.insert name ⟨1, .left⟩) d.operators }

/-- The operators that a call declares before it can fail: those before the first unfit name. -/
def Call.declaredFirst : Call V → List String
  | .operators group => group.takeWhile fun name => (Definition.nameError? name).isNone
  | _ => []

/-- What a call can do to a definition. It succeeds and changes the definition in its own way; or it
fails, and leaves nothing behind but the operators that were declared before. -/
inductive Call.Effect (d : Definition V) :
    Call V → Except DefinitionError Unit → Definition V → Prop
  | rule {name : String} {components : List String}
      (hfit : (name :: components).findSome? Definition.nameError? = none)
      (hsize : d.rules.size + 1 ≤ maxCount) :
      Effect d (.rule name components) (.ok ())
        { d with rules := d.rules.push ⟨name, components, none, none⟩, cursor := .rule }
  | callback {f : List V → V} (hcursor : d.cursor = .rule) :
      Effect d (.callback f) (.ok ()) (d.modifyLastRule fun r => { r with callback := some f })
  | precOfRule {priority : Nat} (hcursor : d.cursor = .rule) :
      Effect d (.prec priority) (.ok ())
        (d.modifyLastRule fun r => { r with precedence := some priority })
  | precOfGroup {priority : Nat} {group : List String} (hcursor : d.cursor = .operators group) :
      Effect d (.prec priority) (.ok ()) (d.modifyOperators group fun p => { p with priority })
  | operators {group : List String} (hfit : group.findSome? Definition.nameError? = none) :
      Effect d (.operators group) (.ok ())
        { d.declare (Call.operators group : Call V).declaredFirst with cursor := .operators group }
  | assoc {assoc : Associativity} {group : List String} (hcursor : d.cursor = .operators group) :
      Effect d (.assoc assoc) (.ok ()) (d.modifyOperators group fun p => { p with assoc })
  | start {name : String} : Effect d (.start name) (.ok ()) { d with start := some name }
  | resolve {policy : Policy} : Effect d (.resolve policy) (.ok ()) { d with resolution := policy }
  | failed {c : Call V} {e : DefinitionError} : Effect d c (.error e) (d.declare c.declaredFirst)

theorem Builder.rule_of_fit {d : Definition V} {name : String} {components : List String}
    (hfit : (name :: components).findSome? Definition.nameError? = none)
    (hsize : d.rules.size + 1 ≤ maxCount) :
    Builder.rule name components d = (.ok (d.rules.size + 1), { d with
      rules := d.rules.push ⟨name, components, none, none⟩, cursor := .rule }) := by
  unfold Builder.rule
  rw [hfit]
  exact if_neg (by omega)

/-- A rule with an unfit name, or one too many, is refused; any other is added under the next number. -/
theorem Builder.rule_cases (d : Definition V) (name : String) (components : List String) :
    (∃ e, Builder.rule name components d = (.error e, d)) ∨
      (name :: components).findSome? Definition.nameError? = none ∧ d.rules.size + 1 ≤ maxCount ∧
        Builder.rule name components d = (.ok (d.rules.size + 1), { d with
          rules := d.rules.push ⟨name, components, none, none⟩, cursor := .rule }) := by
  cases hfit : (name :: components).findSome? Definition.nameError? with
  | some e =>
    refine Or.inl ⟨e, ?_⟩
    unfold Builder.rule
    rw [hfit]
  | none =>
    by_cases hsize : d.rules.size + 1 ≤ maxCount
    · exact Or.inr ⟨rfl, hsize, Builder.rule_of_fit hfit hsize⟩
    · refine Or.inl ⟨.overflow .rules, ?_⟩
      unfold Builder.rule
      rw [hfit]
      exact if_pos (by omega)

/-- A call for a rule passes over the number of the rule. -/
theorem Call.run_rule (d : Definition V) (name : String) (components : List String) :
    (Call.rule name components).builder.run.run d =
      match Builder.rule name components d with
      | (.ok _, d') => (.ok (), d')
      | (.error e, d') => (.error e, d') := by
  show (Builder.rule name components >>= fun _ => pure ()) d = _
  simp only [bind, ExceptT.bind, ExceptT.mk, StateT.bind, ExceptT.bindCont]
  rcases Builder.rule name components d with ⟨_ | _, d'⟩ <;> rfl

/-- **A call does one of these things.** -/
theorem Call.effect_of_run {d d' : Definition V} {c : Call V} {result : Except DefinitionError Unit}
    (h : c.builder.run.run d = (result, d')) : Call.Effect d c result d' := by
  cases c with
  | rule name components =>
    rw [Call.run_rule] at h
    rcases Builder.rule_cases d name components with ⟨e, he⟩ | ⟨hfit, hsize, hok⟩
    · rw [he] at h
      cases h
      exact .failed
    · rw [hok] at h
      cases h
      exact .rule hfit hsize
  | callback f =>
    change Builder.call f d = _ at h
    unfold Builder.call at h
    split at h
    · rename_i hcursor
      cases h
      exact .callback hcursor
    · cases h
      exact .failed
  | prec priority =>
    change Builder.prec priority d = _ at h
    unfold Builder.prec at h
    split at h
    · rename_i hcursor
      cases h
      exact .precOfRule hcursor
    · rename_i group hcursor
      cases h
      exact .precOfGroup hcursor
    · cases h
      exact .failed
  | operators group =>
    change Builder.operators group d = _ at h
    unfold Builder.operators at h
    dsimp only at h
    split at h
    · cases h
      exact .failed
    · rename_i hfit
      cases h
      exact .operators hfit
  | assoc a =>
    change Builder.assoc a d = _ at h
    unfold Builder.assoc at h
    split at h
    · rename_i group hcursor
      cases h
      exact .assoc hcursor
    · cases h
      exact .failed
  | start name =>
    cases h
    exact .start
  | resolve policy =>
    cases h
    exact .resolve

theorem Call.after_effect (d : Definition V) (c : Call V) :
    ∃ result, (c.builder.run.run d).1 = result ∧ Call.Effect d c result (c.after d) :=
  ⟨_, rfl, Call.effect_of_run rfl⟩

/-- **A call leaves a fit definition behind**, also when it fails. -/
theorem Call.after_fit {d : Definition V} (h : d.Fit) (c : Call V) : (c.after d).Fit := by
  obtain ⟨result, -, heffect⟩ := c.after_effect d
  generalize c.after d = d' at heffect ⊢
  cases heffect with
  | rule hfit hsize => exact h.addRule hfit hsize .rule
  | callback | precOfRule => exact h.congr (Definition.map_modifyLastRule d fun _ => rfl)
  | precOfGroup | operators | assoc | start | resolve | failed => exact h

theorem fit_foldl_after {d : Definition V} (h : d.Fit) (calls : List (Call V)) :
    (calls.foldl Call.after d).Fit := by
  induction calls generalizing d with
  | nil => exact h
  | cons c rest ih => exact ih (Call.after_fit h c)

theorem Call.attempt_run (c : Call V) (d : Definition V) :
    c.attempt.run.run d = (.ok (), c.after d) := by
  unfold Call.attempt Call.after
  show (tryCatch c.builder fun _ => pure ()) d = (.ok (), (c.builder d).2)
  simp only [tryCatch, tryCatchThe, MonadExceptOf.tryCatch, ExceptT.tryCatch, ExceptT.mk, bind, StateT.bind]
  rcases c.builder d with ⟨_ | _, d'⟩ <;> rfl

/-- Passing over failures, a sequence of calls ends in the definition that its last call leaves
behind. -/
theorem run_attempts (calls : List (Call V)) (d : Definition V) :
    (calls.forM Call.attempt : Builder V Unit).run.run d = (.ok (), calls.foldl Call.after d) := by
  induction calls generalizing d with
  | nil => rfl
  | cons c rest ih =>
    have hc := Call.attempt_run c d
    show (Call.attempt c >>= fun _ => rest.forM Call.attempt) d = _
    simp only [bind, ExceptT.bind, ExceptT.mk, StateT.bind]
    have hc' : c.attempt d = (.ok (), c.after d) := hc
    rw [hc']
    exact ih (c.after d)

/-- A defined grammar is that of the definition which the calls leave behind. -/
theorem Grammar.Defined.exists_calls {g : Grammar V} (h : g.Defined) :
    ∃ calls : List (Call V), (calls.foldl Call.after .empty).finish = .ok g := by
  obtain ⟨calls, hc⟩ := h
  unfold Grammar.define at hc
  rw [run_attempts] at hc
  exact ⟨calls, hc⟩

theorem Grammar.Defined.exists_finish {g : Grammar V} (h : g.Defined) :
    ∃ d : Definition V, d.Fit ∧ d.finish = .ok g := by
  obtain ⟨calls, hc⟩ := h.exists_calls
  exact ⟨calls.foldl Call.after .empty, fit_foldl_after Definition.fit_empty calls, hc⟩

namespace Definition

/-- The added rule `$start → start`. -/
def startRule (start : String) (id : Nat) : Rule V where
  number := 0
  name := Nonterminal.startName
  left := Nonterminal.start
  components := [start]
  symbols := [.nonterminal id]
  precedence := none
  callback := none

/-- All rules of the finished grammar. -/
def numberedRules (d : Definition V) (start : String) (id : Nat) : List (Rule V) :=
  startRule start id :: d.rules.toList.mapIdx fun i draft =>
    numberRule d.nonterminals (d.terminals d.nonterminals) (i + 1) draft

/-- What a finished grammar is made of. -/
theorem finish_cases {d : Definition V} {g : Grammar V} (h : d.finish = .ok g) :
    ∃ start, d.start = some start ∧ nameError? start = none ∧
      d.nonterminals.idOf? start = some g.start ∧
      g.terminals = d.terminals d.nonterminals ∧ g.nonterminals = d.nonterminals ∧
      g.rules = (d.numberedRules start g.start).toArray ∧
      g.groups = groupRules d.nonterminals.size (d.numberedRules start g.start) ∧
      (d.terminals d.nonterminals).size ≤ maxCount ∧ d.nonterminals.size ≤ maxCount := by
  unfold finish at h
  split at h
  · cases h
  · rename_i start hstart
    unfold checkName at h
    split at h
    · cases h
    · rename_i hn
      simp only [bind, Except.bind] at h
      split at h
      · cases h
      · rename_i id hid
        split at h
        · cases h
        · rename_i hterminals
          split at h
          · cases h
          · rename_i hnonterminals
            cases h
            exact ⟨start, hstart, hn, hid, rfl, rfl, rfl, rfl, Nat.le_of_not_lt hterminals,
              Nat.le_of_not_lt hnonterminals⟩

theorem getElem?_numberedRules_succ (d : Definition V) (start : String) (id i : Nat) :
    (d.numberedRules start id)[i + 1]? =
      d.rules[i]?.map (numberRule d.nonterminals (d.terminals d.nonterminals) (i + 1)) := by
  simp [numberedRules]

theorem number_numberedRules {d : Definition V} {start : String} {id i : Nat} {r : Rule V}
    (h : (d.numberedRules start id)[i]? = some r) : r.number = i := by
  cases i with
  | zero => cases h; rfl
  | succ i =>
    rw [getElem?_numberedRules_succ] at h
    obtain ⟨draft, -, rfl⟩ := Option.map_eq_some_iff.1 h
    rfl

theorem getD_groupRules (count : Nat) (rules : List (Rule V)) (n : Nat) :
    (groupRules count rules).getD n [] =
      if n < count then (rules.filter fun r => r.left == n).map (·.number) else [] := by
  have hsize : (groupRules count rules).size = count := by
    unfold groupRules
    induction rules with
    | nil => simp
    | cons r rest ih => rw [List.foldr_cons, Array.size_modify, ih]
  split
  · rename_i hn
    unfold groupRules at hsize ⊢
    induction rules with
    | nil => simp [hn]
    | cons r rest ih =>
      have hs : (List.foldr (fun r groups => Array.modify groups r.left (r.number :: ·))
          (Array.replicate count []) rest).size = count := by
        simpa using hsize
      have ih := ih hs
      rw [Array.getD_eq_getD_getElem?] at ih ⊢
      rw [List.foldr_cons, Array.getElem?_modify]
      -- a rule is put in front of the group of its left side and leaves the other groups alone
      by_cases hr : r.left = n
      · subst hr
        have hlt : r.left < (List.foldr (fun r groups => Array.modify groups r.left (r.number :: ·))
          (Array.replicate count []) rest).size := by omega
        rw [Array.getElem?_eq_getElem hlt] at ih ⊢
        simp at ih ⊢
        exact ih
      · simp [hr, ih]
  · rename_i hn
    have hlt : ¬ n < (groupRules count rules).size := by omega
    simp [hlt]

/-- The nonterminals are `$start` and the left sides. -/
theorem mem_nonterminals {d : Definition V} {name : String} :
    name ∈ d.nonterminals.toList ↔
      name = Nonterminal.startName ∨ ∃ r ∈ d.rules, r.name = name := by
  unfold nonterminals
  rw [NameTable.mem_insertAll, NameTable.mem_insert]
  have : (NameTable.empty : NameTable).toList = [] := rfl
  simp [this]

theorem name?_nonterminals_start (d : Definition V) :
    d.nonterminals.name? Nonterminal.start = some Nonterminal.startName := by
  unfold nonterminals
  exact NameTable.name?_insertAll rfl _

/-- The terminals are the reserved ones and the components that are no left side. -/
theorem mem_terminals {d : Definition V} {nonterminals : NameTable} {name : String} :
    name ∈ (d.terminals nonterminals).toList ↔
      name = Token.eofKind ∨ name = Terminal.epsilonName ∨
        ∃ r ∈ d.rules, name ∈ r.components ∧ nonterminals.contains name = false := by
  have key : ∀ (rules : List (RuleDraft V)) (t : NameTable),
      name ∈ (rules.foldl (fun t r => t.insertAll
        (r.components.filter fun c => !nonterminals.contains c)) t).toList ↔
      name ∈ t.toList ∨ ∃ r ∈ rules, name ∈ r.components ∧ nonterminals.contains name = false := by
    intro rules
    induction rules with
    | nil => intro t; simp
    | cons r rest ih =>
      intro t
      rw [List.foldl_cons, ih, NameTable.mem_insertAll]
      simp [or_assoc]
  unfold terminals
  rw [key, NameTable.mem_insert, NameTable.mem_insert]
  have : (NameTable.empty : NameTable).toList = [] := rfl
  simp [this, or_assoc]

theorem name?_terminals {d : Definition V} {nonterminals : NameTable} {name : String} {i : Nat}
    (h : ((NameTable.empty.insert Token.eofKind).insert Terminal.epsilonName).name? i = some name) :
    (d.terminals nonterminals).name? i = some name := by
  have key : ∀ (rules : List (RuleDraft V)) (t : NameTable), t.name? i = some name →
      (rules.foldl (fun t r => t.insertAll
        (r.components.filter fun c => !nonterminals.contains c)) t).name? i = some name := by
    intro rules
    induction rules with
    | nil => intro t ht; exact ht
    | cons r rest ih => intro t ht; exact ih _ (NameTable.name?_insertAll ht _)
  exact key _ _ h

theorem name_ne_of_fit {name : String} (h : nameError? name = none) :
    name ≠ "" ∧ name ≠ Nonterminal.startName ∧ name ≠ Terminal.epsilonName ∧
      name ≠ Token.eofKind := by
  unfold nameError? at h
  split at h
  · cases h
  · rename_i hne
    split at h
    · cases h
    · rename_i hr
      simp only [reservedNames, List.contains_eq_mem, List.mem_cons, List.not_mem_nil, or_false,
        not_or, decide_eq_true_eq] at hr
      exact ⟨hne, hr.1, hr.2.1, hr.2.2⟩

/-- A component becomes a symbol in range that is none of the reserved ones. -/
theorem intern_cases {d : Definition V} {r : RuleDraft V} {c : String} (hr : r ∈ d.rules)
    (hc : c ∈ r.components) (hn : nameError? c = none) :
    (∃ n, intern d.nonterminals (d.terminals d.nonterminals) c = .nonterminal n ∧
      n ≠ Nonterminal.start ∧ n < d.nonterminals.size) ∨
    ∃ t, intern d.nonterminals (d.terminals d.nonterminals) c = .terminal t ∧
      Terminal.reserved ≤ t ∧ t < (d.terminals d.nonterminals).size := by
  obtain ⟨-, hstart, heps, heof⟩ := name_ne_of_fit hn
  unfold intern
  cases hid : d.nonterminals.idOf? c with
  | some n =>
    have hname := NameTable.idOf?_eq_some_iff.1 hid
    refine Or.inl ⟨n, rfl, ?_, NameTable.lt_size_of_name? hname⟩
    rintro rfl
    rw [name?_nonterminals_start] at hname
    exact hstart (Option.some.inj hname).symm
  | none =>
    have hcn : d.nonterminals.contains c = false := by simp [NameTable.contains, hid]
    have hmem : c ∈ (d.terminals d.nonterminals).toList :=
      mem_terminals.2 (Or.inr (Or.inr ⟨r, hr, hc, hcn⟩))
    obtain ⟨t, ht⟩ := NameTable.mem_toList_iff.1 hmem
    refine Or.inr ⟨t, by simp [NameTable.idOf?_eq_some_iff.2 ht], ?_, NameTable.lt_size_of_name? ht⟩
    -- the first two numbers belong to the reserved names
    have h0 : (d.terminals d.nonterminals).name? 0 = some Token.eofKind :=
      name?_terminals (by decide)
    have h1 : (d.terminals d.nonterminals).name? 1 = some Terminal.epsilonName :=
      name?_terminals (by decide)
    rcases t with _ | _ | t
    · rw [h0] at ht; exact absurd (Option.some.inj ht).symm heof
    · rw [h1] at ht; exact absurd (Option.some.inj ht).symm heps
    · exact Nat.le_add_left 2 t

theorem symbol_numberRule {d : Definition V} (hd : d.Fit) {draft : RuleDraft V}
    (hr : draft ∈ d.rules) {number : Nat} {x : Symbol}
    (hx : x ∈ (numberRule d.nonterminals (d.terminals d.nonterminals) number draft).symbols) :
    (∃ n, x = .nonterminal n ∧ n ≠ Nonterminal.start ∧ n < d.nonterminals.size) ∨
    ∃ t, x = .terminal t ∧ Terminal.reserved ≤ t ∧ t < (d.terminals d.nonterminals).size := by
  obtain ⟨c, hc, rfl⟩ := List.mem_map.1 hx
  exact intern_cases hr hc (hd.2 draft hr c (List.mem_cons_of_mem _ hc))

theorem name?_left_numberRule {d : Definition V} {draft : RuleDraft V} (hr : draft ∈ d.rules)
    (number : Nat) :
    d.nonterminals.name? (numberRule d.nonterminals (d.terminals d.nonterminals) number draft).left =
      some draft.name := by
  have hm : draft.name ∈ d.nonterminals.toList := mem_nonterminals.2 (Or.inr ⟨draft, hr, rfl⟩)
  obtain ⟨n, hn⟩ := NameTable.mem_toList_iff.1 hm
  simp only [numberRule, NameTable.idOf?_eq_some_iff.2 hn, Option.getD_some]
  exact hn

/-- A rule of a finished grammar is the start rule or comes from a draft. -/
theorem numberedRules_cases {d : Definition V} {start : String} {id i : Nat} {r : Rule V}
    (h : (d.numberedRules start id)[i]? = some r) :
    (i = 0 ∧ r = startRule start id) ∨ i ≠ 0 ∧ ∃ draft ∈ d.rules,
      r = numberRule d.nonterminals (d.terminals d.nonterminals) i draft := by
  cases i with
  | zero => exact Or.inl ⟨rfl, (Option.some.inj h).symm⟩
  | succ i =>
    rw [getElem?_numberedRules_succ] at h
    obtain ⟨draft, hd, rfl⟩ := Option.map_eq_some_iff.1 h
    exact Or.inr ⟨by omega, draft, Array.mem_of_getElem? hd, rfl⟩

theorem left_lt_numberedRules {d : Definition V} {start : String} {id i : Nat} {r : Rule V}
    (h : (d.numberedRules start id)[i]? = some r) : r.left < d.nonterminals.size := by
  rcases numberedRules_cases h with ⟨-, rfl⟩ | ⟨-, draft, hd, rfl⟩
  · exact NameTable.lt_size_of_name? (name?_nonterminals_start d)
  · exact NameTable.lt_size_of_name? (name?_left_numberRule hd i)

/-- The groups list exactly the rules of each nonterminal, in ascending order. -/
theorem getD_groupRules_numberedRules {d : Definition V} {start : String} {id : Nat} (n : Nat) :
    (groupRules d.nonterminals.size (d.numberedRules start id)).getD n [] =
      ((d.numberedRules start id).filter fun r => r.left == n).map (·.number) := by
  rw [getD_groupRules]
  split
  · rfl
  · rename_i hn
    symm
    rw [List.map_eq_nil_iff, List.filter_eq_nil_iff]
    intro r hr
    obtain ⟨i, hi⟩ := List.mem_iff_getElem?.1 hr
    have := left_lt_numberedRules hi
    simp only [beq_iff_eq]
    omega

theorem numberedRules_sorted (d : Definition V) (start : String) (id : Nat) :
    (d.numberedRules start id).Pairwise fun r s => r.number < s.number := by
  rw [List.pairwise_iff_getElem]
  intro i j hi hj hij
  rw [number_numberedRules (List.getElem?_eq_getElem hi),
    number_numberedRules (List.getElem?_eq_getElem hj)]
  exact hij

section NumberedRules

variable {d : Definition V} {start : String} {id i : Nat} {r : Rule V}

theorem name?_left_numberedRules (h : (d.numberedRules start id)[i]? = some r) :
    d.nonterminals.name? r.left = some r.name := by
  rcases numberedRules_cases h with ⟨-, rfl⟩ | ⟨-, draft, hm, rfl⟩
  · exact name?_nonterminals_start d
  · exact name?_left_numberRule hm i

theorem length_numberedRules (h : (d.numberedRules start id)[i]? = some r) :
    r.components.length = r.symbols.length := by
  rcases numberedRules_cases h with ⟨-, rfl⟩ | ⟨-, draft, hm, rfl⟩
  · rfl
  · simp [numberRule]

theorem terminal_numberedRules (hd : d.Fit) (h : (d.numberedRules start id)[i]? = some r) {t : Nat}
    (ht : Symbol.terminal t ∈ r.symbols) :
    Terminal.reserved ≤ t ∧ t < (d.terminals d.nonterminals).size := by
  rcases numberedRules_cases h with ⟨-, rfl⟩ | ⟨-, draft, hm, rfl⟩
  · simp [startRule] at ht
  · rcases symbol_numberRule hd hm ht with ⟨n, hx, -⟩ | ⟨u, hx, hb⟩
    · cases hx
    · cases hx
      exact hb

theorem nonterminal_numberedRules (hd : d.Fit) (h : (d.numberedRules start id)[i]? = some r)
    (hid : id ≠ Nonterminal.start ∧ id < d.nonterminals.size) {n : Nat}
    (hn : Symbol.nonterminal n ∈ r.symbols) : n ≠ Nonterminal.start ∧ n < d.nonterminals.size := by
  rcases numberedRules_cases h with ⟨-, rfl⟩ | ⟨-, draft, hm, rfl⟩
  · simp only [startRule, List.mem_singleton, Symbol.nonterminal.injEq] at hn
    rw [hn]
    exact hid
  · rcases symbol_numberRule hd hm hn with ⟨m, hx, hb⟩ | ⟨u, hx, -⟩
    · cases hx
      exact hb
    · cases hx

theorem left_ne_numberedRules (hd : d.Fit) (h : (d.numberedRules start id)[i]? = some r)
    (hi : i ≠ 0) : r.left ≠ Nonterminal.start := by
  intro hl
  rcases numberedRules_cases h with ⟨h0, -⟩ | ⟨-, draft, hm, rfl⟩
  · exact hi h0
  · have hleft := name?_left_numberRule hm i
    rw [hl, name?_nonterminals_start] at hleft
    have hfit := hd.2 draft hm draft.name List.mem_cons_self
    exact (name_ne_of_fit hfit).2.1 (Option.some.inj hleft).symm

theorem mem_groupRules_numberedRules {n : Nat} :
    i ∈ (groupRules d.nonterminals.size (d.numberedRules start id)).getD n [] ↔
      ∃ r, (d.numberedRules start id)[i]? = some r ∧ r.left = n := by
  rw [getD_groupRules_numberedRules, List.mem_map]
  constructor
  · rintro ⟨r, hm, rfl⟩
    obtain ⟨hm, hl⟩ := List.mem_filter.1 hm
    obtain ⟨j, hj⟩ := List.mem_iff_getElem?.1 hm
    refine ⟨r, ?_, by simpa using hl⟩
    rw [number_numberedRules hj]
    exact hj
  · rintro ⟨r, hi, rfl⟩
    exact ⟨r, List.mem_filter.2 ⟨List.mem_of_getElem? hi, by simp⟩, number_numberedRules hi⟩

end NumberedRules

theorem terminal_ne_empty {d : Definition V} (hd : d.Fit) (t : Nat) :
    (d.terminals d.nonterminals).name? t ≠ some "" := by
  intro h
  rcases mem_terminals.1 (NameTable.mem_toList_iff.2 ⟨t, h⟩) with h | h | ⟨r, hr, hc, -⟩
  · exact absurd h (by decide)
  · exact absurd h (by decide)
  · exact (name_ne_of_fit (hd.2 r hr "" (List.mem_cons_of_mem _ hc))).1 rfl

/-- The start symbol is a left side of the definition, and not `$start`. -/
theorem start_bounds {d : Definition V} {start : String} {id : Nat} (hstart : nameError? start = none)
    (hid : d.nonterminals.idOf? start = some id) :
    id ≠ Nonterminal.start ∧ id < d.nonterminals.size := by
  have hname := NameTable.idOf?_eq_some_iff.1 hid
  refine ⟨?_, NameTable.lt_size_of_name? hname⟩
  rintro rfl
  rw [name?_nonterminals_start] at hname
  exact (name_ne_of_fit hstart).2.1 (Option.some.inj hname).symm

/-- **A fit definition finishes in a well-formed grammar.** -/
theorem wellFormed_of_finish {d : Definition V} (hd : d.Fit) {g : Grammar V}
    (h : d.finish = .ok g) : g.WellFormed := by
  obtain ⟨start, -, hstart, hid, ht, hn, hr, hg, -, -⟩ := finish_cases h
  have hget : ∀ i : Nat, g.rules[i]? = (d.numberedRules start g.start)[i]? := fun i => by simp [hr]
  have hgroup : ∀ n, g.alternatives n =
      (groupRules d.nonterminals.size (d.numberedRules start g.start)).getD n [] := fun n => by
    rw [Grammar.alternatives, hg]
  refine
    { startRule := ⟨startRule start g.start, by rw [hget]; rfl, rfl, rfl⟩
      number := fun h => number_numberedRules ((hget _).symm.trans h)
      size_le := ?_
      name := fun h => hn ▸ name?_left_numberedRules ((hget _).symm.trans h)
      length := fun h => length_numberedRules ((hget _).symm.trans h)
      terminal := fun h _ => ht ▸ terminal_numberedRules hd ((hget _).symm.trans h)
      nonterminal := fun h _ => hn ▸ nonterminal_numberedRules hd ((hget _).symm.trans h)
        (start_bounds hstart hid)
      left_ne := fun h => left_ne_numberedRules hd ((hget _).symm.trans h)
      mem_alternatives := fun {n i} => by rw [hgroup, mem_groupRules_numberedRules, hget]
      alternatives_sorted := fun n => ?_
      eof := ht ▸ name?_terminals (by decide)
      epsilon := ht ▸ name?_terminals (by decide)
      terminal_ne := fun t => ht ▸ terminal_ne_empty hd t }
  · have hsize : g.rules.size = d.rules.size + 1 := by simp [hr, numberedRules]
    have hmax := hd.1
    omega
  · rw [hgroup, getD_groupRules_numberedRules, List.pairwise_map]
    exact (numberedRules_sorted d start g.start).filter _

end Definition

theorem Grammar.Defined.wellFormed {g : Grammar V} (h : g.Defined) : g.WellFormed := by
  obtain ⟨d, hd, hf⟩ := h.exists_finish
  exact Definition.wellFormed_of_finish hd hf

theorem eq_ok_get {ε α : Type} (r : Except ε α) (h : r.toOption.isSome = true) :
    r = .ok (r.toOption.get h) := by
  cases r with
  | error e => cases h
  | ok a => rfl

/-- Nested brackets, whose value is the depth of the nesting. -/
def bracketCalls : List (Call Nat) :=
  [.rule "S" ["(", "S", ")"], .callback fun args => args.getD 1 0 + 1, .rule "S" [], .start "S"]

/-- The grammar `S → ( S )`, `S →`. -/
def Grammar.brackets : Grammar Nat :=
  (Grammar.define (bracketCalls.forM Call.attempt)).toOption.get (by decide +kernel)

theorem Grammar.brackets_defined : Grammar.brackets.Defined :=
  ⟨bracketCalls, eq_ok_get _ _⟩

end ParserGen
