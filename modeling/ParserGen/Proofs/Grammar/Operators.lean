import Mathlib.Data.List.TakeWhile
import ParserGen.Proofs.Grammar.WellFormed

/-!
# The operators of a defined grammar

An operator is declared under a name that was looked at first, so no grammar has an operator under an
empty or a reserved name. In particular `$eof` is none: what ends the input never competes by priority.

* `Call.after_operatorsFit`: **a call declares operators under fit names only**, also when it fails.
* `settings_of_finish`: a finished grammar has the operators and the policy of its definition.
* `operator?_eof`: **`$eof` is no operator.**
-/

namespace ParserGen

variable {V : Type}

/-- The operators have names that are neither empty nor reserved. -/
def Definition.OperatorsFit (d : Definition V) : Prop :=
  ∀ name p, d.operators.find? name = some p → Definition.nameError? name = none

theorem Definition.OperatorsFit.modifyOperators {d : Definition V} (h : d.OperatorsFit)
    (group : List String) {f : Precedence → Precedence} (hf : ∀ p, f (f p) = f p) :
    (d.modifyOperators group f).OperatorsFit := by
  intro name p hp
  unfold Definition.modifyOperators at hp
  rw [OrderedMap.find?_foldl_modify hf] at hp
  split at hp
  · obtain ⟨p', hp', -⟩ := Option.map_eq_some_iff.1 hp
    exact h name p' hp'
  · exact h name p hp

theorem Definition.OperatorsFit.declare {d : Definition V} (h : d.OperatorsFit) {names : List String}
    (hnames : ∀ name ∈ names, Definition.nameError? name = none) : (d.declare names).OperatorsFit := by
  intro name p hp
  unfold Definition.declare at hp
  rw [OrderedMap.find?_foldl_insert_const] at hp
  split at hp
  · rename_i hname
    exact hnames name hname
  · exact h name p hp

theorem Call.fit_of_mem_declaredFirst {c : Call V} {name : String} (h : name ∈ c.declaredFirst) :
    Definition.nameError? name = none := by
  cases c with
  | operators group => simpa using List.mem_takeWhile_imp h
  | _ => cases h

/-- **A call declares operators under fit names only**, also when it fails. -/
theorem Call.after_operatorsFit {d : Definition V} (h : d.OperatorsFit) (c : Call V) :
    (c.after d).OperatorsFit := by
  obtain ⟨result, -, heffect⟩ := c.after_effect d
  generalize c.after d = d' at heffect ⊢
  cases heffect with
  | rule | callback | precOfRule | start | resolve => exact h
  | precOfGroup | assoc => exact h.modifyOperators _ fun _ => rfl
  | operators | failed => exact h.declare fun _ => Call.fit_of_mem_declaredFirst

theorem operatorsFit_foldl_after {d : Definition V} (h : d.OperatorsFit) (calls : List (Call V)) :
    (calls.foldl Call.after d).OperatorsFit := by
  induction calls generalizing d with
  | nil => exact h
  | cons c rest ih => exact ih (Call.after_operatorsFit h c)

/-- A finished grammar has the operators and the policy of its definition. -/
theorem Definition.settings_of_finish {d : Definition V} {g : Grammar V} (h : d.finish = .ok g) :
    g.operators = d.operators ∧ g.resolution = d.resolution := by
  unfold finish at h
  split at h
  · cases h
  · rename_i start _
    cases hn : checkName start with
    | error e => simp [hn, bind, Except.bind] at h
    | ok _ =>
      simp only [hn, bind, Except.bind] at h
      split at h
      · cases h
      · split at h
        · cases h
        · split at h
          · cases h
          · cases h
            exact ⟨rfl, rfl⟩

namespace Grammar.Defined

variable {g : Grammar V}

theorem nameError?_of_operator? (hg : g.Defined) {name : String} {p : Precedence}
    (h : g.operator? name = some p) : Definition.nameError? name = none := by
  obtain ⟨calls, hfinish⟩ := hg.exists_calls
  have hempty : (Definition.empty : Definition V).OperatorsFit := by
    intro name p hp
    cases hp
  have hfit := operatorsFit_foldl_after hempty calls
  refine hfit name p ?_
  rw [← (Definition.settings_of_finish hfinish).1]
  exact h

/-- **`$eof` is no operator.** -/
theorem operator?_eof (hg : g.Defined) : g.operator? Token.eofKind = none := by
  cases h : g.operator? Token.eofKind with
  | none => rfl
  | some p => exact absurd (hg.nameError?_of_operator? h) (by decide)

end Grammar.Defined

end ParserGen
