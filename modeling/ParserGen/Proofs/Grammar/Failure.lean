import ParserGen.Proofs.Grammar.Numbering

/-!
# Calls that fail

A call checks what it is given before it changes anything, so that a definition in which it fails stays
as it was. The one exception is a group of operators: its names are checked one by one as they are
declared, and those before the first unfit one stay declared, as new operators even where they had a
priority or an associativity before.

* `Call.eq_declare_of_error`: **what a failing call leaves behind.**
* `failing_call_harmless_iff`: when that is the definition as it was.
* `failing_group_resets_priority`: a failing call that changes the priority of an operator.
-/

namespace ParserGen

variable {V : Type}

theorem Definition.declare_eq_self_iff {d : Definition V} {names : List String} :
    d.declare names = d ↔ ∀ name ∈ names, d.operators.find? name = some ⟨1, .left⟩ := by
  rw [← OrderedMap.foldl_insert_const_eq_iff]
  constructor
  · intro h
    exact congrArg Definition.operators h
  · intro h
    unfold declare
    rw [h]

/-- **What a failing call leaves behind**: the definition as it was, but with the operators before the
first unfit name declared. -/
theorem Call.eq_declare_of_error {d d' : Definition V} {c : Call V} {e : DefinitionError}
    (h : c.builder.run.run d = (.error e, d')) : d' = d.declare c.declaredFirst := by
  cases Call.effect_of_run h with
  | failed => rfl

/-- **When a failing call changes nothing.** A failing call leaves the definition as it was, except that
a group of operators stays declared up to its first unfit name. So nothing changes exactly if these
operators were there before, grouping to the left with priority one; a call for anything else names
none. -/
theorem failing_call_harmless_iff {d d' : Definition V} {c : Call V} {e : DefinitionError}
    (h : c.builder.run.run d = (.error e, d')) :
    d' = d.declare c.declaredFirst ∧
      (d' = d ↔ ∀ name ∈ c.declaredFirst, d.operators.find? name = some ⟨1, .left⟩) := by
  have hleft := Call.eq_declare_of_error h
  refine ⟨hleft, ?_⟩
  rw [hleft]
  exact Definition.declare_eq_self_iff

/-- The definition of sums of priority three. -/
def prioritizedSums : Definition Nat :=
  [.rule "S" ["a", "+", "a"], .operators ["+"], .prec 3].foldl Call.after .empty

/-- A rule with an unfit component is not added. -/
theorem failing_rule_harmless : ∃ d',
    (Call.rule "T" ["S", "$eof"]).builder.run.run prioritizedSums =
      (.error (.reservedName "$eof"), d') ∧ d' = prioritizedSums := by
  have hrun : (Call.rule "T" ["S", "$eof"]).builder.run.run prioritizedSums =
      (.error (.reservedName "$eof"), prioritizedSums) := by
    rfl
  exact ⟨_, hrun, (failing_call_harmless_iff hrun).2.2 (by simp [Call.declaredFirst])⟩

/-- A group that fails at its second name takes the priority from the first. -/
theorem failing_group_resets_priority :
    ((Call.operators ["+", "$eof"]).builder.run.run prioritizedSums).1 =
      .error (.reservedName "$eof") ∧
    prioritizedSums.operators.find? "+" = some ⟨3, .left⟩ ∧
    ((Call.operators ["+", "$eof"]).after prioritizedSums).operators.find? "+" = some ⟨1, .left⟩ ∧
    (Call.operators ["+", "$eof"]).after prioritizedSums ≠ prioritizedSums := by
  have hbefore : prioritizedSums.operators.find? "+" = some ⟨3, .left⟩ := by decide +kernel
  have hafter : ((Call.operators ["+", "$eof"]).after prioritizedSums).operators.find? "+" =
      some ⟨1, .left⟩ := by
    decide +kernel
  refine ⟨rfl, hbefore, hafter, ?_⟩
  intro hsame
  rw [hsame, hbefore] at hafter
  exact absurd hafter (by decide)

end ParserGen
