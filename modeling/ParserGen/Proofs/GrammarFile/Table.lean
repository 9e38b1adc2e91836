import ParserGen.GrammarFile.Reader
import ParserGen.Proofs.Automaton.Saturation
import ParserGen.Proofs.Engine.Reader

/-!
# The table of grammar files

The grammar of grammar files is evaluated once. It has no conflicts, and its symbols can be given a worth
that pays for all steps of a run.

* `run_rules`: a list of rules with callbacks is added as it is given.
* `rule_cases`, `exists_rule`: the rules of the grammar are those of the format.
* `exists_table`: **there is a table without settled conflicts**, and the steps for each token suffice.
* `exists_reader`: **the reader of grammar files has this table**, and its engine runs on the grammar.
-/

namespace ParserGen

/-! ## Rules with callbacks -/

section Rules

variable {V : Type}

/-- The draft of a rule with a callback. -/
def RuleDraft.ofRule (r : String × List String × (List V → V)) : RuleDraft V :=
  { name := r.1, components := r.2.1, precedence := none, callback := some r.2.2 }

/-- A call that succeeds is followed by the next one. -/
theorem Builder.bind_of_ok {α β : Type} {x : Builder V α} {f : α → Builder V β} {d d' : Definition V}
    {a : α} (h : x d = (.ok a, d')) : (x >>= f) d = f a d' := by
  simp only [bind, ExceptT.bind, ExceptT.mk, StateT.bind]
  rw [h]
  rfl

/-- A rule with fit names and its callback are added. -/
theorem run_rule_call {d : Definition V} {name : String} {components : List String}
    (callback : List V → V) (hfit : ∀ n ∈ name :: components, Definition.nameError? n = none)
    (hsize : d.rules.size < maxCount) :
    (Builder.rule name components >>= fun _ => Builder.call callback) d =
      (.ok (), { d with
        rules := d.rules.push (.ofRule (name, components, callback)), cursor := .rule }) := by
  have hnone : (name :: components).findSome? Definition.nameError? = none :=
    List.findSome?_eq_none_iff.2 hfit
  rw [Builder.bind_of_ok (Builder.rule_of_fit hnone hsize)]
  unfold Builder.call
  simp only [Definition.modifyLastRule_push]
  rfl

/-- Rules with fit names and their callbacks are added one after the other. -/
theorem run_rules (rules : List (String × List String × (List V → V))) (d : Definition V)
    (hfit : ∀ r ∈ rules, ∀ n ∈ r.1 :: r.2.1, Definition.nameError? n = none)
    (hsize : d.rules.size + rules.length ≤ maxCount) :
    ∃ cursor, (rules.forM fun (name, components, callback) => do
        let _ ← Builder.rule name components
        Builder.call callback : Builder V Unit) d =
      (.ok (), { d with rules := d.rules ++ (rules.map .ofRule).toArray, cursor }) := by
  induction rules generalizing d with
  | nil => exact ⟨d.cursor, by simp; rfl⟩
  | cons r rules ih =>
    obtain ⟨name, components, callback⟩ := r
    obtain ⟨hr, hrest⟩ := List.forall_mem_cons.1 hfit
    rw [List.length_cons] at hsize
    have hadd := run_rule_call (d := d) callback hr (by omega)
    obtain ⟨cursor, hloop⟩ := ih { d with
      rules := d.rules.push (.ofRule (name, components, callback)), cursor := .rule } hrest (by
        simp only [Array.size_push]
        omega)
    refine ⟨cursor, ?_⟩
    rw [List.forM, Builder.bind_of_ok hadd, hloop]
    simp

end Rules

namespace GrammarFile

/-- The definition of the format's grammar. -/
def definition : Definition Node :=
  (calls.run.run .empty).2

theorem rules_fit : ∀ r ∈ rules, ∀ name ∈ r.1 :: r.2.1, Definition.nameError? name = none := by
  have hall : (rules.all fun r => (r.1 :: r.2.1).all fun name =>
      (Definition.nameError? name).isNone) = true := by
    decide +kernel
  intro r hr name hname
  have hr := List.all_eq_true.1 hall r hr
  exact Option.isNone_iff_eq_none.1 (List.all_eq_true.1 hr name hname)

/-- The calls succeed, and give the rules of the format. -/
theorem run_calls : calls .empty = (.ok (), definition) ∧
    definition.rules = (rules.map RuleDraft.ofRule).toArray ∧ definition.start = some "Decls" := by
  obtain ⟨cursor, hloop⟩ := run_rules rules .empty rules_fit (by decide +kernel)
  have hcalls : calls .empty = (.ok (), { rules := (rules.map RuleDraft.ofRule).toArray
                                          start := some "Decls", operators := ∅
                                          resolution := .none, cursor }) := by
    unfold calls
    rw [Builder.bind_of_ok hloop]
    rfl
  have hdefinition : definition = (calls .empty).2 := rfl
  rw [hdefinition, hcalls]
  exact ⟨rfl, rfl, rfl⟩

theorem definition_fit : definition.Fit := by
  rw [Definition.Fit, run_calls.2.1]
  have hlen : rules.length ≤ maxCount := by decide +kernel
  refine ⟨by simpa using hlen, fun r hr => ?_⟩
  obtain ⟨rule, hrule, rfl⟩ := List.mem_map.1 (List.mem_toArray.1 hr)
  exact rules_fit rule hrule

/-- The grammar of the format. -/
def grammar : Grammar Node :=
  definition.finish.toOption.get (by decide +kernel)

theorem finish_definition : definition.finish = .ok grammar :=
  eq_ok_get _ _

theorem define_calls : Grammar.define calls = .ok grammar := by
  have hrun : calls.run.run .empty = (.ok (), definition) := run_calls.1
  unfold Grammar.define
  rw [hrun]
  exact finish_definition

theorem grammar_wellFormed : grammar.WellFormed :=
  Definition.wellFormed_of_finish definition_fit finish_definition

theorem grammar_numbered : grammar.Numbered "Decls" definition.drafts := by
  obtain ⟨start, hstart, hnumbered⟩ := Definition.numbered_of_finish definition_fit finish_definition
  rw [run_calls.2.2] at hstart
  cases hstart
  exact hnumbered

theorem reduce_of_getElem? {k : Nat} {r : Rule Node} (hr : grammar.rules[k]? = some r)
    (args : List Node) : grammar.reduce k args =
      r.callback.elim (args.headD default) fun callback => callback args := by
  unfold Grammar.reduce
  rw [hr, Option.bind_some]
  cases r.callback <;> rfl

theorem rules_eq : grammar.rules = (definition.numberedRules "Decls" grammar.start).toArray := by
  obtain ⟨start, hstart, -, -, -, -, hrules, -⟩ := Definition.finish_cases finish_definition
  rw [run_calls.2.2] at hstart
  obtain rfl : "Decls" = start := Option.some.inj hstart
  exact hrules

/-- A rule of the grammar is the start rule, or one of those given. -/
theorem rule_cases {k : Nat} {r : Rule Node} (hr : grammar.rules[k]? = some r) :
    (r.name = "$start" ∧ r.components = ["Decls"] ∧ ∀ v, grammar.reduce k [v] = v) ∨
      ∃ callback, (r.name, r.components, callback) ∈ rules ∧ grammar.reduce k = callback := by
  have hreduce := reduce_of_getElem? hr
  rw [rules_eq, List.getElem?_toArray] at hr
  rcases Definition.numberedRules_cases hr with ⟨-, rfl⟩ | ⟨-, draft, hdraft, rfl⟩
  · exact Or.inl ⟨rfl, rfl, fun v => hreduce [v]⟩
  · rw [run_calls.2.1] at hdraft
    obtain ⟨⟨name, components, callback⟩, hrule, rfl⟩ := List.mem_map.1 (List.mem_toArray.1 hdraft)
    exact Or.inr ⟨callback, hrule, funext hreduce⟩

/-- Each rule given is one of the grammar. -/
theorem exists_rule {name : String} {components : List String} {callback : List Node → Node}
    (h : (name, components, callback) ∈ rules) : ∃ k r, grammar.rules[k]? = some r ∧ r.name = name ∧
      r.components = components ∧ grammar.reduce k = callback := by
  obtain ⟨i, hi⟩ := List.mem_iff_getElem?.1 h
  have hdraft : definition.rules[i]? = some (.ofRule (name, components, callback)) := by
    rw [run_calls.2.1, List.getElem?_toArray, List.getElem?_map, hi]
    rfl
  have hr : grammar.rules[i + 1]? = some (Definition.numberRule definition.nonterminals
      (definition.terminals definition.nonterminals) (i + 1)
      (.ofRule (name, components, callback))) := by
    rw [rules_eq, List.getElem?_toArray, Definition.getElem?_numberedRules_succ, hdraft]
    rfl
  exact ⟨i + 1, _, hr, rfl, rfl, funext (reduce_of_getElem? hr)⟩

/-- The kinds of tokens in files. -/
def tokenKinds : List String :=
  keywords ++ ["IDENT", "QUOTED", "INT"]

theorem mem_terminals {kind : String} (h : kind ∈ tokenKinds) : kind ∈ grammar.terminals.toList := by
  have hall : ∀ kind ∈ tokenKinds, kind ∈ grammar.terminals.toList := by decide +kernel
  exact hall kind h

theorem nameOf_start : grammar.NameOf (.nonterminal grammar.start) "Decls" := by
  obtain ⟨r, hr, -, -, hcomponents, hsymbols⟩ := grammar_numbered.startRule
  have hnames := grammar_numbered.symbols r (Array.mem_of_getElem? hr)
  rw [hcomponents, hsymbols] at hnames
  cases hnames with
  | cons h _ => exact h.1

theorem grammar_codesFit : grammar.CodesFit := by
  unfold Grammar.CodesFit
  decide +kernel

/-- What the symbols on the stack are worth. -/
def worth : Worth where
  symbol
    | .terminal _ => 3
    | .nonterminal n =>
      if ["Sequence", "Symbol"].contains (grammar.nonterminalName n) then 2
      else if ["Alternative", "Decl"].contains (grammar.nonterminalName n) then 1
      else 0
  top
    | none => 1
    | some (.terminal _) => 4
    | some (.nonterminal n) => if grammar.nonterminalName n = "Sequence" then 1 else 0

/-- **The format has a table without settled conflicts**, and its runs are paid for. -/
theorem exists_table : ∃ r, grammar.analyze.outcome = .ok r ∧ r.resolved = #[] ∧
    worth.Pays grammar grammar.automaton stepsPerToken := by
  -- one evaluation gives the automaton and the table
  have hlaid : ((grammar.saturated? 8).bind fun a =>
      (grammar.synthesize a).toOption.map fun r => (a, r)).any
      (fun p => decide (p.2.resolved = #[] ∧ worth.Pays grammar p.1 stepsPerToken)) = true := by
    decide +kernel
  obtain ⟨⟨a, r⟩, hr, hlaid⟩ := (Option.any_eq_true _ _).1 hlaid
  obtain ⟨a', ha, hr⟩ := Option.bind_eq_some_iff.1 hr
  obtain ⟨r', hr, heq⟩ := Option.map_eq_some_iff.1 hr
  cases heq
  obtain ⟨hclean, hpays⟩ := of_decide_eq_true hlaid
  refine ⟨r, ?_, hclean, ?_⟩
  · rw [outcome_of_saturated ha]
    cases hs : grammar.synthesize a with
    | error c => rw [hs] at hr; cases hr
    | ok r' => rw [hs] at hr; cases hr; rfl
  · rw [automaton_of_saturated ha]
    exact hpays

-- from here on nothing depends on how the grammar is computed
attribute [irreducible] grammar

/-- The engine of the format, with a table. -/
def engine (t : ParseTable) : Engine Node :=
  (Parser.mk grammar t).engine Node.token

/-- The reader of the format, with a lexer and a table. -/
def reader (l : SimpleLexer) (t : ParseTable) : Reader Node :=
  { lexer := l, parser := { grammar, table := t } }

/-- **The reader of grammar files has such a table.** -/
theorem exists_reader : ∃ l t, lexer = .ok l ∧ reader? = some (reader l t) ∧ (engine t).RunsOn grammar ∧
    (engine t).Decided grammar ∧ worth.Pays grammar grammar.automaton stepsPerToken := by
  obtain ⟨y, hy, hclean, hpays⟩ := exists_table
  have hlexer : lexer.toOption.isSome = true := by decide +kernel
  have he : (engine y.table).RunsOn grammar :=
    runsOn_of_wellFormed grammar_wellFormed grammar_codesFit hy Node.token
  exact ⟨_, y.table, eq_ok_get _ hlexer, Reader.ofParts?_eq (eq_ok_get _ hlexer) define_calls hy, he,
    decided_of_unresolved he hy hclean rfl, hpays⟩

end GrammarFile

end ParserGen
