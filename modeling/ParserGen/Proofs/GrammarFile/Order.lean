import ParserGen.GrammarFile.Lowering
import ParserGen.Proofs.Fold
import ParserGen.Proofs.Grammar.Numbering
import ParserGen.Proofs.Grammar.Operators

/-!
# The order of the declarations

The declarations of a grammar file are applied to one definition, and a precedence or an associativity
goes to what was declared last. Each declaration brings its own, so nothing leaks from one to the next:
a file is lowered if each declaration is sound by itself and there are not too many alternatives, and
the grammar depends on the declarations of each kind alone.

* `Declaration.extend`: the definition with a sound declaration added to it.
* `applyDeclaration_eq_ok_iff`: **a declaration is applied exactly if it is sound.**
* `lower_eq_ok_iff`: so is a file.
* `lowering_follows_order`: **what the grammar has from which declaration**, and that it stays the same if
  declarations of different kinds change places.
-/

namespace ParserGen

namespace GrammarFile

/-! ## The kinds of declarations -/

/-- What a declaration is about. -/
inductive Kind where
  | start
  | resolve
  | operators
  | rule
deriving DecidableEq

namespace Declaration

/-- The kind of a declaration. -/
def kind : Declaration → Kind
  | .start _ => .start
  | .resolve _ _ => .resolve
  | .operators _ _ _ => .operators
  | .rule _ _ => .rule

/-- The start symbols that a declaration names. -/
@[simp] def starts : Declaration → List String
  | .start name => [name]
  | _ => []

/-- The lists of modes that a declaration sets. -/
@[simp] def modes : Declaration → List (List String)
  | .resolve modes _ => [modes]
  | _ => []

/-- The operators that a declaration mentions, with their associativity and their level. -/
@[simp] def mentions : Declaration → List (String × Associativity × Number)
  | .operators assoc level symbols => symbols.map fun name => (name, assoc, level)
  | _ => []

/-- The alternatives that a declaration gives, with their left side. -/
@[simp] def alternatives : Declaration → List (String × Alternative)
  | .rule name alternatives => alternatives.map fun a => (name, a)
  | _ => []

end Declaration

variable (f : GrammarFile)

/-- The declarations of a kind, in the order of the file. -/
def ofKind (k : Kind) : List Declaration :=
  f.declarations.filter fun decl => decl.kind = k

/-- The start symbols in the order of the file. -/
def starts : List String :=
  f.declarations.flatMap (·.starts)

/-- The lists of modes in the order of the file. -/
def modes : List (List String) :=
  f.declarations.flatMap (·.modes)

/-- The operators in the order of the file, as often as they are mentioned. -/
def mentions : List (String × Associativity × Number) :=
  f.declarations.flatMap (·.mentions)

/-- The alternatives of all rules in the order of the file. -/
def alternatives : List (String × Alternative) :=
  f.declarations.flatMap (·.alternatives)

/-- Another file with the same declarations, in which those of each kind have the same order. -/
def Rearranges (f' : GrammarFile) : Prop :=
  ∀ k, f'.ofKind k = f.ofKind k

variable {f} {V : Type}

/-! ## Sound declarations -/

/-- The names are neither empty nor reserved. -/
def FitNames (names : List String) : Prop :=
  ∀ name ∈ names, Definition.nameError? name = none

/-- An alternative has fit names, and its precedence, if it has one, is a number. -/
structure Alternative.Sound (a : Alternative) (name : String) : Prop where
  names : FitNames (name :: a.components)
  precedence : ∀ n, a.precedence = some n → n.value?.isSome = true

/-- A declaration can be applied: its modes are known, its numbers are such and its names are fit. The
name of a rule without alternatives is not looked at, and neither is that of the start symbol. -/
def Declaration.Sound : Declaration → Prop
  | .start _ => True
  | .resolve modes _ => (Policy.ofNames? modes).isSome = true
  | .operators _ level symbols => FitNames symbols ∧ level.value?.isSome = true
  | .rule name alternatives => ∀ a ∈ alternatives, a.Sound name

/-- The draft of an alternative. -/
def Alternative.draft (name : String) (a : Alternative) : RuleDraft V where
  name := name
  components := a.components
  precedence := a.precedence.bind Number.value?
  callback := none

/-- The precedence of a mention. -/
def precedenceOf (assoc : Associativity) (level : Number) : Precedence :=
  ⟨level.value?.getD 1, assoc⟩

/-- The definition with a declaration added to it. -/
def Declaration.extend (d : Definition V) : Declaration → Definition V
  | .start name => { d with start := some name }
  | .resolve modes _ => { d with resolution := (Policy.ofNames? modes).getD d.resolution }
  | .operators assoc level symbols =>
    { d with
      operators := symbols.foldl (fun ops name => ops.insert name (precedenceOf assoc level)) d.operators
      cursor := .operators symbols }
  | .rule name alternatives =>
    { d with
      rules := d.rules ++ (alternatives.map (Alternative.draft name)).toArray
      cursor := if alternatives = [] then d.cursor else .rule }

/-! ## Applying a declaration -/

theorem findSome?_nameError? {names : List String} :
    names.findSome? Definition.nameError? = none ↔ FitNames names :=
  List.findSome?_eq_none_iff

theorem policyOf_eq_ok_iff {modes : List String} {line : Nat} {p : Policy} :
    policyOf modes line = .ok p ↔ Policy.ofNames? modes = some p := by
  unfold policyOf Policy.ofNames?
  generalize Policy.none = start
  induction modes generalizing start with
  | nil => simp [pure, Except.pure]
  | cons mode rest ih =>
    rw [List.foldlM_cons, List.foldlM_cons]
    cases Policy.ofName? mode with
    | none => simp [bind, Except.bind]
    | some q => exact ih _

theorem apply_rule_eq_ok_iff {name : String} {components : List String} {d d' : Definition V} :
    apply (Builder.rule name components) d = .ok d' ↔
      FitNames (name :: components) ∧ d.rules.size + 1 ≤ maxCount ∧
        d' = { d with rules := d.rules.push ⟨name, components, none, none⟩, cursor := .rule } := by
  rw [← findSome?_nameError?]
  unfold apply Builder.rule
  cases (name :: components).findSome? Definition.nameError? with
  | some e => simp
  | none =>
    by_cases hsize : d.rules.size + 1 > maxCount
    · simp [hsize, Nat.not_le_of_gt hsize]
    · simp [hsize, Nat.le_of_not_gt hsize, eq_comm]

theorem apply_operators_eq_ok_iff {symbols : List String} {d d' : Definition V} :
    apply (Builder.operators symbols) d = .ok d' ↔ FitNames symbols ∧
      d' = { d with
        operators := symbols.foldl (fun ops name => ops.insert name ⟨1, .left⟩) d.operators
        cursor := .operators symbols } := by
  rw [← findSome?_nameError?]
  unfold apply Builder.operators
  dsimp only
  cases h : symbols.findSome? Definition.nameError? with
  | some e => simp
  | none =>
    have hall : symbols.takeWhile (fun name => (Definition.nameError? name).isNone) = symbols := by
      rw [List.takeWhile_eq_self_iff]
      intro name hname
      rw [findSome?_nameError?.1 h name hname]
      rfl
    simp [hall, eq_comm]

theorem applyPrecedence_eq_ok_iff {n : Number} {d d' : Definition V} :
    applyPrecedence n d = .ok d' ↔ ∃ priority, n.value? = some priority ∧
      apply (Builder.prec priority) d = .ok d' := by
  unfold applyPrecedence
  cases n.value? with
  | none => simp
  | some priority => simp

/-- **An alternative is applied exactly if it is sound**, and there are not too many of them. -/
theorem applyAlternative_eq_ok_iff {name : String} {a : Alternative} {d d' : Definition V} :
    applyAlternative name d a = .ok d' ↔ a.Sound name ∧ d.rules.size + 1 ≤ maxCount ∧
      d' = { d with rules := d.rules.push (a.draft name), cursor := .rule } := by
  unfold applyAlternative
  rw [bind_eq_ok_iff]
  simp only [apply_rule_eq_ok_iff]
  cases hp : a.precedence with
  | none =>
    constructor
    · rintro ⟨d₁, ⟨hnames, hsize, rfl⟩, hd⟩
      cases hd
      refine ⟨⟨hnames, by simp [hp]⟩, hsize, ?_⟩
      simp [Alternative.draft, hp]
    · rintro ⟨hsound, hsize, rfl⟩
      refine ⟨_, ⟨hsound.names, hsize, rfl⟩, ?_⟩
      simp [Alternative.draft, hp, pure, Except.pure]
  | some n =>
    simp only [applyPrecedence_eq_ok_iff]
    -- the precedence goes to the rule that was added just before
    have hprec : ∀ priority, apply (Builder.prec priority) { d with
        rules := d.rules.push ⟨name, a.components, none, none⟩, cursor := .rule } = .ok { d with
        rules := d.rules.push ⟨name, a.components, some priority, none⟩, cursor := .rule } := by
      intro priority
      simp [apply, Builder.prec, Definition.modifyLastRule_push]
    constructor
    · rintro ⟨d₁, ⟨hnames, hsize, rfl⟩, priority, hvalue, hd⟩
      rw [hprec] at hd
      cases hd
      refine ⟨⟨hnames, by simp [hp, hvalue]⟩, hsize, ?_⟩
      simp [Alternative.draft, hp, hvalue]
    · rintro ⟨hsound, hsize, rfl⟩
      obtain ⟨priority, hvalue⟩ := Option.isSome_iff_exists.1 (hsound.precedence n hp)
      refine ⟨_, ⟨hsound.names, hsize, rfl⟩, priority, hvalue, ?_⟩
      rw [hprec]
      simp [Alternative.draft, hp, hvalue]

theorem foldl_alternatives (name : String) (alternatives : List Alternative) (d : Definition V) :
    alternatives.foldl (fun d a => { d with rules := d.rules.push (a.draft name), cursor := .rule }) d =
      Declaration.extend d (.rule name alternatives) := by
  induction alternatives generalizing d with
  | nil => simp [Declaration.extend]
  | cons a rest ih =>
    rw [List.foldl_cons, ih]
    simp [Declaration.extend]

/-- A group that was just declared gets its associativity and its level. -/
theorem apply_group (d : Definition V) (assoc : Associativity) (priority : Nat)
    (symbols : List String) :
    (apply (Builder.assoc assoc) { d with
        operators := symbols.foldl (fun ops name => ops.insert name ⟨1, .left⟩) d.operators
        cursor := .operators symbols } >>= apply (Builder.prec priority)) =
      .ok { d with
        operators := symbols.foldl (fun ops name => ops.insert name ⟨priority, assoc⟩) d.operators
        cursor := .operators symbols } := by
  have hassoc := OrderedMap.foldl_modify_foldl_insert symbols
    (f := fun p : Precedence => { p with assoc }) (fun _ => rfl) ⟨1, .left⟩ d.operators
  have hlevel := OrderedMap.foldl_modify_foldl_insert symbols
    (f := fun p : Precedence => { p with priority }) (fun _ => rfl) ⟨1, assoc⟩ d.operators
  simp only [apply, Builder.assoc, Builder.prec, Definition.modifyOperators, bind, Except.bind,
    hassoc, hlevel]

/-- **A declaration is applied exactly if it is sound**, and there are not too many alternatives. Its
precedence and its associativity stay its own. -/
theorem applyDeclaration_eq_ok_iff {decl : Declaration} {d d' : Definition V}
    (hd : d.rules.size ≤ maxCount) : applyDeclaration d decl = .ok d' ↔
      decl.Sound ∧ (decl.extend d).rules.size ≤ maxCount ∧ d' = decl.extend d := by
  cases decl with
  | start name =>
    have hok : applyDeclaration d (.start name) = .ok (Declaration.extend d (.start name)) := rfl
    rw [hok]
    simp [Declaration.Sound, Declaration.extend, hd, eq_comm]
  | resolve modes line =>
    unfold applyDeclaration
    rw [bind_eq_ok_iff]
    simp only [policyOf_eq_ok_iff]
    have hok : ∀ policy, apply (Builder.resolve policy) d = .ok { d with resolution := policy } :=
      fun _ => rfl
    simp only [hok]
    cases hp : Policy.ofNames? modes with
    | none => simp [Declaration.Sound, hp]
    | some policy => simp [Declaration.Sound, Declaration.extend, hp, hd, eq_comm]
  | operators assoc level symbols =>
    unfold applyDeclaration
    simp only [bind_eq_ok_iff, apply_operators_eq_ok_iff, applyPrecedence_eq_ok_iff]
    constructor
    · rintro ⟨d₁, ⟨hfit, rfl⟩, d₂, hassoc, priority, hvalue, hprec⟩
      have hgroup := apply_group d assoc priority symbols
      rw [hassoc] at hgroup
      obtain rfl := Except.ok.inj (hprec.symm.trans hgroup)
      refine ⟨⟨hfit, by simp [hvalue]⟩, hd, ?_⟩
      simp [Declaration.extend, precedenceOf, hvalue]
    · rintro ⟨⟨hfit, hlevel⟩, -, rfl⟩
      obtain ⟨priority, hvalue⟩ := Option.isSome_iff_exists.1 hlevel
      -- the calls behind the group are about this group
      obtain ⟨d₂, hassoc, hprec⟩ := bind_eq_ok_iff.1
        (apply_group d assoc priority symbols)
      refine ⟨_, ⟨hfit, rfl⟩, d₂, hassoc, priority, hvalue, ?_⟩
      simpa [Declaration.extend, precedenceOf, hvalue] using hprec
  | rule name alternatives =>
    rw [← foldl_alternatives]
    refine foldlM_eq_ok_iff (S := fun a : Alternative => a.Sound name)
      (B := fun d : Definition V => d.rules.size ≤ maxCount) ?_ ?_ hd
    · intro d a d' _
      rw [applyAlternative_eq_ok_iff, Array.size_push]
    · intro d a hsize
      rw [Array.size_push] at hsize
      omega

/-! ## Applying a file -/

/-- All declarations can be applied, and there are not too many alternatives. -/
structure Sound (f : GrammarFile) : Prop where
  declarations : ∀ decl ∈ f.declarations, decl.Sound
  count : f.alternatives.length ≤ maxCount

/-- The definition with all declarations of a file. -/
def declared (f : GrammarFile) : Definition V :=
  f.declarations.foldl Declaration.extend .empty

/-- **Each part of a definition comes from the declarations of one kind.** -/
theorem foldl_extend (decls : List Declaration) (d : Definition V) :
    (decls.foldl Declaration.extend d).rules =
        d.rules ++ ((decls.flatMap (·.alternatives)).map fun e => e.2.draft e.1).toArray ∧
      (decls.foldl Declaration.extend d).start =
        ((decls.flatMap (·.starts)).getLast?).or d.start ∧
      (decls.foldl Declaration.extend d).resolution =
        (decls.flatMap (·.modes)).foldl (fun p modes => (Policy.ofNames? modes).getD p) d.resolution ∧
      (decls.foldl Declaration.extend d).operators =
        (decls.flatMap (·.mentions)).foldl
          (fun ops m => ops.insert m.1 (precedenceOf m.2.1 m.2.2)) d.operators := by
  induction decls generalizing d with
  | nil => simp
  | cons decl rest ih =>
    rw [List.foldl_cons]
    obtain ⟨hrules, hstart, hresolution, hoperators⟩ := ih (decl.extend d)
    rw [hrules, hstart, hresolution, hoperators]
    cases decl with
    | start name => simp [Declaration.extend, List.getLast?_cons]
    | resolve modes line => simp [Declaration.extend]
    | operators assoc level symbols => simp [Declaration.extend, List.foldl_map]
    | rule name alternatives => simp [Declaration.extend, Function.comp_def]

theorem size_le_of_extend {decl : Declaration} {d : Definition V}
    (h : (decl.extend d).rules.size ≤ maxCount) : d.rules.size ≤ maxCount := by
  cases decl with
  | start name => exact h
  | resolve modes line => exact h
  | operators assoc level symbols => exact h
  | rule name alternatives =>
    simp only [Declaration.extend, Array.size_append] at h
    omega

/-- **A file is lowered exactly if it is sound**, and its declarations give a finished definition. -/
theorem lower_eq_ok_iff {f : GrammarFile} {g : Grammar V} :
    f.lower = .ok g ↔ f.Sound ∧ f.declared.finish = .ok g := by
  have hfinish : ∀ {r : Except DefinitionError (Grammar V)},
      r.mapError Error.definition = .ok g ↔ r = .ok g := by
    intro r
    cases r with
    | error e => simp [Except.mapError]
    | ok g' => simp [Except.mapError]
  have hfold : ∀ d : Definition V, f.declarations.foldlM applyDeclaration .empty = .ok d ↔
      (∀ decl ∈ f.declarations, decl.Sound) ∧ (f.declared (V := V)).rules.size ≤ maxCount ∧
        d = f.declared := by
    intro d
    refine foldlM_eq_ok_iff (B := fun d : Definition V => d.rules.size ≤ maxCount) ?_ ?_ (Nat.zero_le _)
    · intro d decl d' hd
      exact applyDeclaration_eq_ok_iff hd
    · intro d decl
      exact size_le_of_extend
  have hsize : (f.declared (V := V)).rules.size = f.alternatives.length := by
    unfold declared alternatives
    rw [(foldl_extend f.declarations _).1]
    simp [Definition.empty]
  unfold lower
  rw [bind_eq_ok_iff]
  simp only [hfinish, hfold, hsize]
  constructor
  · rintro ⟨d, ⟨hsound, hcount, rfl⟩, hg⟩
    exact ⟨⟨hsound, hcount⟩, hg⟩
  · rintro ⟨hsound, hg⟩
    exact ⟨_, ⟨hsound.declarations, hsound.count, rfl⟩, hg⟩

/-! ## What a grammar has from where -/

/-- The grammar follows the file. -/
structure Follows (f : GrammarFile) (g : Grammar V) : Prop where
  /-- Behind the start rule the rules are the alternatives with their precedences, if they have any. -/
  rules : g.rules.toList.tail.map (fun r => (r.number, r.name, r.components, r.precedence.map some)) =
    f.alternatives.mapIdx fun i e =>
      (i + 1, e.1, e.2.components, e.2.precedence.map Number.value?)
  /-- The start symbol is named last. -/
  start : f.starts.getLast? = some g.startName
  /-- The policy unites the modes set last. -/
  policy : (f.modes.getLast?.map Policy.ofNames?).getD (some .standard) = some g.resolution
  /-- The operators come in the order in which they are mentioned first. -/
  keys : g.operators.keys = (f.mentions.map (·.1)).eraseDups
  /-- An operator has the level and the associativity with which it is mentioned last. -/
  operator : ∀ name, (g.operator? name).map some =
    ((f.mentions.filter fun m => m.1 = name).getLast?).map fun m =>
      m.2.2.value?.map fun priority => ⟨priority, m.2.1⟩

namespace Sound

variable {f : GrammarFile} (h : f.Sound)

include h

theorem alternative {e : String × Alternative} (he : e ∈ f.alternatives) : e.2.Sound e.1 := by
  obtain ⟨decl, hdecl, he⟩ := List.mem_flatMap.1 he
  have hsound := h.declarations decl hdecl
  cases decl with
  | rule name alternatives =>
    obtain ⟨a, ha, rfl⟩ := List.mem_map.1 he
    exact hsound a ha
  | start name => cases he
  | resolve modes line => cases he
  | operators assoc level symbols => cases he

theorem policy {modes : List String} (hm : modes ∈ f.modes) :
    (Policy.ofNames? modes).isSome = true := by
  obtain ⟨decl, hdecl, hm⟩ := List.mem_flatMap.1 hm
  have hsound := h.declarations decl hdecl
  cases decl with
  | resolve modes line =>
    obtain rfl := List.mem_singleton.1 hm
    exact hsound
  | start name => cases hm
  | operators assoc level symbols => cases hm
  | rule name alternatives => cases hm

theorem level {m : String × Associativity × Number} (hm : m ∈ f.mentions) :
    m.2.2.value?.isSome = true := by
  obtain ⟨decl, hdecl, hm⟩ := List.mem_flatMap.1 hm
  have hsound := h.declarations decl hdecl
  cases decl with
  | operators assoc level symbols =>
    obtain ⟨name, -, rfl⟩ := List.mem_map.1 hm
    exact hsound.2
  | start name => cases hm
  | resolve modes line => cases hm
  | rule name alternatives => cases hm

end Sound

section Declared

variable {f : GrammarFile}

theorem rules_declared : (f.declared (V := V)).rules.toList =
    f.alternatives.map fun e => e.2.draft e.1 := by
  unfold declared
  rw [(foldl_extend f.declarations _).1]
  simp [Definition.empty, alternatives]

theorem start_declared : (f.declared (V := V)).start = f.starts.getLast? := by
  unfold declared
  rw [(foldl_extend f.declarations _).2.1]
  simp [Definition.empty, starts]

theorem resolution_declared : (f.declared (V := V)).resolution =
    f.modes.foldl (fun p modes => (Policy.ofNames? modes).getD p) .standard := by
  unfold declared
  rw [(foldl_extend f.declarations _).2.2.1]
  rfl

theorem operators_declared : (f.declared (V := V)).operators =
    .ofList (f.mentions.map fun m => (m.1, precedenceOf m.2.1 m.2.2)) := by
  unfold declared
  rw [(foldl_extend f.declarations _).2.2.2]
  simp [Definition.empty, mentions, OrderedMap.ofList, List.foldl_map]

end Declared

/-- **A grammar follows the file it is lowered from.** -/
theorem follows_of_lower {f : GrammarFile} {g : Grammar V} (h : f.lower = .ok g) : f.Follows g := by
  obtain ⟨hsound, hfinish⟩ := lower_eq_ok_iff.1 h
  obtain ⟨hoperators, hresolution⟩ := Definition.settings_of_finish hfinish
  obtain ⟨start, hstart, -, hid, ht, hn, hr, -, -, -⟩ := Definition.finish_cases hfinish
  rw [operators_declared] at hoperators
  refine ⟨?_, ?_, ?_, ?_, ?_⟩
  · -- the rules behind the first one
    have htail : g.rules.toList.tail = (f.alternatives.map fun e => e.2.draft e.1).mapIdx fun i draft =>
        Definition.numberRule g.nonterminals g.terminals (i + 1) draft := by
      rw [hr, ht, hn, ← rules_declared (V := V)]
      rfl
    rw [htail]
    refine List.ext_getElem? fun i => ?_
    simp only [List.getElem?_map, List.getElem?_mapIdx, Option.map_map]
    cases he : f.alternatives[i]? with
    | none => rfl
    | some e =>
      have hlevel := (hsound.alternative (List.mem_of_getElem? he)).precedence
      cases hp : e.2.precedence with
      | none => simp [Definition.numberRule, Alternative.draft, hp]
      | some n =>
        obtain ⟨priority, hvalue⟩ := Option.isSome_iff_exists.1 (hlevel n hp)
        simp [Definition.numberRule, Alternative.draft, hp, hvalue]
  · -- the start symbol
    rw [← start_declared (V := V), hstart]
    unfold Grammar.startName Grammar.nonterminalName
    rw [hn, NameTable.name_eq (NameTable.idOf?_eq_some_iff.1 hid)]
  · -- the policy, which only the last declaration of one decides
    rw [hresolution, resolution_declared]
    rcases List.eq_nil_or_concat f.modes with hnil | ⟨earlier, last, hlast⟩
    · rw [hnil]
      rfl
    · have hmem : last ∈ f.modes := by simp [hlast]
      obtain ⟨policy, hpolicy⟩ := Option.isSome_iff_exists.1 (hsound.policy hmem)
      simp [hlast, hpolicy]
  · -- the operators in their order; what each of them was declared as last is the case below
    rw [hoperators, OrderedMap.keys_ofList]
    simp [Function.comp_def]
  · intro name
    unfold Grammar.operator?
    rw [hoperators, OrderedMap.find?_ofList_last, List.filter_map, List.getLast?_map]
    simp only [Function.comp_def, Option.map_map]
    cases hlast : (f.mentions.filter fun m => m.1 = name).getLast? with
    | none => rfl
    | some m =>
      have hmem := (List.mem_filter.1 (List.mem_of_getLast? hlast)).1
      obtain ⟨priority, hvalue⟩ := Option.isSome_iff_exists.1 (hsound.level hmem)
      simp [precedenceOf, hvalue]

/-! ## Files that differ in the order of declarations -/

/-- Whatever is taken from the declarations of one kind, a rearranged file has as well. -/
theorem Rearranges.flatMap_eq {f f' : GrammarFile} (h : f.Rearranges f') {α : Type}
    {F : Declaration → List α} {k : Kind} (hF : ∀ decl, decl.kind ≠ k → F decl = []) :
    f'.declarations.flatMap F = f.declarations.flatMap F := by
  have hkind : ∀ decls : List Declaration,
      decls.flatMap F = (decls.filter fun decl => decl.kind = k).flatMap F := by
    intro decls
    induction decls with
    | nil => rfl
    | cons decl rest ih =>
      rw [List.flatMap_cons, List.filter_cons, ih]
      by_cases hk : decl.kind = k
      · simp [hk]
      · simp [hk, hF decl hk]
  rw [hkind, hkind f.declarations]
  exact congrArg (List.flatMap F) (h k)

theorem Rearranges.symm {f f' : GrammarFile} (h : f.Rearranges f') : f'.Rearranges f :=
  fun k => (h k).symm

theorem Rearranges.parts_eq {f f' : GrammarFile} (h : f.Rearranges f') :
    f'.alternatives = f.alternatives ∧ f'.starts = f.starts ∧ f'.modes = f.modes ∧
      f'.mentions = f.mentions := by
  refine ⟨h.flatMap_eq (k := .rule) ?_, h.flatMap_eq (k := .start) ?_,
    h.flatMap_eq (k := .resolve) ?_, h.flatMap_eq (k := .operators) ?_⟩
  all_goals
    intro decl hk
    cases decl <;> simp [Declaration.kind] at hk ⊢

theorem Rearranges.sound {f f' : GrammarFile} (h : f.Rearranges f') (hf : f.Sound) : f'.Sound := by
  refine ⟨fun decl hdecl => ?_, ?_⟩
  · have hkind : decl ∈ f'.ofKind decl.kind := List.mem_filter.2 ⟨hdecl, by simp⟩
    rw [h decl.kind] at hkind
    exact hf.declarations decl (List.mem_filter.1 hkind).1
  · rw [h.parts_eq.1]
    exact hf.count

/-- A definition finishes as it does whatever was declared last in it. -/
theorem finish_congr {d d' : Definition V} (hrules : d.rules = d'.rules) (hstart : d.start = d'.start)
    (hoperators : d.operators = d'.operators) (hresolution : d.resolution = d'.resolution) :
    d.finish = d'.finish := by
  cases d
  cases d'
  cases hrules
  cases hstart
  cases hoperators
  cases hresolution
  rfl

theorem Rearranges.finish_eq {f f' : GrammarFile} (h : f.Rearranges f') :
    (f'.declared (V := V)).finish = f.declared.finish := by
  obtain ⟨halternatives, hstarts, hmodes, hmentions⟩ := h.parts_eq
  refine finish_congr ?_ ?_ ?_ ?_
  · rw [← Array.toList_inj, rules_declared, rules_declared, halternatives]
  · rw [start_declared, start_declared, hstarts]
  · rw [operators_declared, operators_declared, hmentions]
  · rw [resolution_declared, resolution_declared, hmodes]

/-- **The order of the declarations within each kind decides, and nothing else.** A grammar has the
alternatives of a file in their order, the start symbol and the policy that are declared last, and each
operator as it is mentioned last. If the declarations of different kinds change places, the file is
lowered as before, and to the same grammar, which has the same automaton, table and conflicts. -/
theorem lowering_follows_order (f : GrammarFile) :
    (∀ g : Grammar V, f.lower = .ok g → f.Follows g) ∧
    ∀ f', f.Rearranges f' → ∀ g : Grammar V, f'.lower = .ok g ↔ f.lower = .ok g := by
  refine ⟨fun g => follows_of_lower, fun f' h g => ?_⟩
  rw [lower_eq_ok_iff, lower_eq_ok_iff, h.finish_eq]
  exact ⟨fun ⟨hsound, hg⟩ => ⟨h.symm.sound hsound, hg⟩, fun ⟨hsound, hg⟩ => ⟨h.sound hsound, hg⟩⟩

/-- Sums and products with declarations of all kinds, some of them made twice. -/
def mixedFile : GrammarFile :=
  ⟨[.operators .left ⟨"1", 1⟩ ["+", "*"], .rule "E" [⟨["E", "+", "E"], none⟩, ⟨["E", "*", "E"], none⟩],
    .start "S", .operators .right ⟨"2", 4⟩ ["*"], .resolve ["shift"] 5, .start "E",
    .rule "E" [⟨["n"], some ⟨"3", 7⟩⟩], .resolve ["operators", "earlier"] 8]⟩

/-- The same declarations, one kind after the other. -/
def sortedFile : GrammarFile :=
  ⟨[.resolve ["shift"] 5, .resolve ["operators", "earlier"] 8, .start "S", .start "E",
    .rule "E" [⟨["E", "+", "E"], none⟩, ⟨["E", "*", "E"], none⟩], .rule "E" [⟨["n"], some ⟨"3", 7⟩⟩],
    .operators .left ⟨"1", 1⟩ ["+", "*"], .operators .right ⟨"2", 4⟩ ["*"]]⟩

/-- Sorting the declarations by their kinds leaves the grammar as it is; the product groups as it was
declared last. -/
theorem sorted_lowered : ∃ g : Grammar Nat, mixedFile.lower = .ok g ∧ sortedFile.lower = .ok g ∧
    mixedFile.Follows g ∧ g.operator? "*" = some ⟨2, .right⟩ := by
  have hrearranged : mixedFile.Rearranges sortedFile := by
    intro k
    cases k <;> rfl
  have hok : (mixedFile.lower : Except Error (Grammar Nat)).toOption.isSome = true := by
    decide +kernel
  have hlower := eq_ok_get _ hok
  obtain ⟨hfollows, hsame⟩ := lowering_follows_order (V := Nat) mixedFile
  have hfollow := hfollows _ hlower
  refine ⟨_, hlower, (hsame _ hrearranged _).2 hlower, hfollow, ?_⟩
  -- the last mention of the product is that of the second group
  have hlast : ((mixedFile.mentions.filter fun m => m.1 = "*").getLast?).map (fun m =>
      m.2.2.value?.map fun priority => (⟨priority, m.2.1⟩ : Precedence)) = some (some ⟨2, .right⟩) := by
    decide +kernel
  obtain ⟨p, hp, hsome⟩ := Option.map_eq_some_iff.1 ((hfollow.operator "*").trans hlast)
  cases hsome
  exact hp

end GrammarFile

end ParserGen
