import Mathlib.Data.List.Forall2
import ParserGen.Proofs.Grammar.WellFormed

/-!
# The numbers of a finished grammar

The calls that define a grammar may fail, and a definition goes on after a call that has failed. The
rules of the finished grammar are those of the calls that have succeeded, in their order, and each name
in them has become one symbol: a nonterminal if it stands on the left of some rule, a terminal
otherwise. Names and numbers belong to each other one to one, and all numbers fit into 16 bits.

* `drafts_foldl_after`: **what a sequence of calls has given**, failing ones included.
* `Grammar.Numbered`: how a grammar is numbered.
* `overflow_of_finish`: there are too many symbols only where there are too many names.
* `define_numbered`: **every finished grammar is numbered so.**
-/

namespace ParserGen

variable {V : Type}

/-! ## What the calls have given -/

/-- A rule by name, with its number. -/
structure GivenRule where
  number : Nat
  name : String
  components : List String
deriving DecidableEq

namespace Call

/-- The rule that a call gives, under the number that it returns, if it is one for a rule and
succeeds. -/
def rule? (d : Definition V) : Call V → Option GivenRule
  | .rule name components =>
    match (Builder.rule name components d).1 with
    | .ok number => some ⟨number, name, components⟩
    | .error _ => none
  | _ => none

/-- The rules that a sequence of calls gives, one for each call for a rule that succeeds. -/
def rulesGiven (d : Definition V) : List (Call V) → List GivenRule
  | [] => []
  | c :: rest => (c.rule? d).toList ++ rulesGiven (c.after d) rest

/-- The start symbol that a call names. -/
def start? : Call V → Option String
  | .start name => some name
  | _ => none

/-- The start symbol that is named last. -/
def lastStart? (calls : List (Call V)) : Option String :=
  (calls.filterMap start?).getLast?

end Call

namespace Call

variable {d : Definition V} {c : Call V} {e : DefinitionError}

theorem rule?_of_ok {name : String} {components : List String}
    (h : ((Call.rule name components).builder.run.run d).1 = .ok ()) :
    (Call.rule name components).rule? d = some ⟨d.rules.size + 1, name, components⟩ := by
  unfold rule?
  rw [run_rule] at h
  rcases Builder.rule_cases d name components with ⟨e, he⟩ | ⟨-, -, hok⟩
  · rw [he] at h
    cases h
  · simp only [hok]

theorem rule?_of_error (h : (c.builder.run.run d).1 = .error e) : c.rule? d = none := by
  cases c with
  | rule name components =>
    unfold rule?
    rw [run_rule] at h
    rcases Builder.rule_cases d name components with ⟨e', he⟩ | ⟨-, -, hok⟩
    · simp only [he]
    · rw [hok] at h
      cases h
  | _ => rfl

theorem start?_of_error (h : (c.builder.run.run d).1 = .error e) : c.start? = none := by
  cases c with
  | start name => cases h
  | _ => rfl

end Call

namespace Definition

/-- The rules of a definition with their numbers. -/
def drafts (d : Definition V) : List GivenRule :=
  d.rules.toList.mapIdx fun i r => ⟨i + 1, r.name, r.components⟩

theorem drafts_eq (d : Definition V) :
    d.drafts = (d.rules.map fun r => (r.name, r.components)).toList.mapIdx fun i r =>
      ⟨i + 1, r.1, r.2⟩ := by
  unfold drafts
  rw [Array.toList_map]
  exact List.ext_getElem? fun i => by simp [Function.comp_def]

theorem drafts_congr {d d' : Definition V}
    (h : d'.rules.map (fun r => (r.name, r.components)) =
      d.rules.map fun r => (r.name, r.components)) : d'.drafts = d.drafts := by
  rw [drafts_eq, h, ← drafts_eq]

/-- A call adds the rule that it gives. -/
theorem drafts_after (d : Definition V) (c : Call V) :
    (c.after d).drafts = d.drafts ++ (c.rule? d).toList := by
  have hsame : ∀ {d' : Definition V}, d'.rules.map (fun r => (r.name, r.components)) =
      d.rules.map (fun r => (r.name, r.components)) → d'.drafts = d.drafts ++ [] := fun h => by
    rw [drafts_congr h, List.append_nil]
  obtain ⟨result, hresult, heffect⟩ := c.after_effect d
  generalize c.after d = d' at heffect ⊢
  cases heffect with
  | rule =>
    rw [Call.rule?_of_ok hresult]
    simp [drafts, List.mapIdx_append]
  | callback | precOfRule => exact hsame (map_modifyLastRule d fun _ => rfl)
  | precOfGroup | operators | assoc | start | resolve => exact hsame rfl
  | failed =>
    rw [Call.rule?_of_error hresult]
    exact hsame rfl

/-- **The rules of a definition are those that the calls have given.** -/
theorem drafts_foldl_after (d : Definition V) (calls : List (Call V)) :
    (calls.foldl Call.after d).drafts = d.drafts ++ Call.rulesGiven d calls := by
  induction calls generalizing d with
  | nil => exact (List.append_nil _).symm
  | cons c rest ih => rw [List.foldl_cons, ih, drafts_after, List.append_assoc, Call.rulesGiven]

theorem start_after (d : Definition V) (c : Call V) : (c.after d).start = c.start?.or d.start := by
  obtain ⟨result, hresult, heffect⟩ := c.after_effect d
  generalize c.after d = d' at heffect ⊢
  cases heffect with
  | rule | callback | precOfRule | precOfGroup | operators | assoc | start | resolve => rfl
  | failed =>
    rw [Call.start?_of_error hresult]
    rfl

/-- The start symbol of a definition is the one named last. -/
theorem start_foldl_after (d : Definition V) (calls : List (Call V)) :
    (calls.foldl Call.after d).start = (Call.lastStart? calls).or d.start := by
  induction calls generalizing d with
  | nil => rfl
  | cons c rest ih =>
    rw [List.foldl_cons, ih, start_after]
    unfold Call.lastStart?
    cases hc : c.start? with
    | none => rw [List.filterMap_cons_none hc]; rfl
    | some name =>
      rw [List.filterMap_cons_some hc, List.getLast?_cons]
      cases (rest.filterMap Call.start?).getLast? <;> rfl

end Definition

/-! ## How a grammar is numbered -/

namespace Grammar

/-- The name of a symbol of the grammar. -/
def NameOf (g : Grammar V) : Symbol → String → Prop
  | .terminal t, name => g.terminals.name? t = some name
  | .nonterminal n, name => g.nonterminals.name? n = some name

/-- How the rules that were `given` are numbered, with `start` as the start symbol. -/
structure Numbered (g : Grammar V) (start : String) (given : List GivenRule) : Prop where
  /-- Rule `0` is `$start → start`. -/
  startRule : ∃ r, g.rules[0]? = some r ∧ r.number = 0 ∧ r.name = Nonterminal.startName ∧
    r.components = [start] ∧ r.symbols = [.nonterminal g.start]
  /-- The others are those that were given. -/
  given : g.rules.toList.tail.map (fun r : Rule V => ⟨r.number, r.name, r.components⟩) = given
  /-- A rule stands at the place of its number. -/
  number : ∀ (i : Nat) (r : Rule V), g.rules[i]? = some r → r.number = i
  /-- The left side of a rule has the name of the rule. -/
  left : ∀ r ∈ g.rules, g.nonterminals.name? r.left = some r.name
  /-- Each component has become the symbol of that name, a nonterminal if some rule has the name on the
  left. -/
  symbols : ∀ r ∈ g.rules, List.Forall₂ (fun x c => g.NameOf x c ∧
    ((∃ n, x = .nonterminal n) ↔ ∃ r' ∈ g.rules, r'.name = c)) r.symbols r.components
  nodup_terminals : g.terminals.toList.Nodup
  nodup_nonterminals : g.nonterminals.toList.Nodup
  disjoint : ∀ name ∈ g.terminals.toList, name ∉ g.nonterminals.toList
  eof : g.terminals.name? Terminal.eof = some Token.eofKind
  epsilon : g.terminals.name? Terminal.epsilon = some Terminal.epsilonName
  start : g.nonterminals.name? Nonterminal.start = some Nonterminal.startName
  /-- No rule but rule `0` has a reserved name in it. -/
  reserved : ∀ r ∈ g.rules, r.number ≠ 0 → ∀ name ∈ r.name :: r.components,
    name ∉ Definition.reservedNames
  /-- The alternatives of a nonterminal are its rules in ascending order. -/
  sorted : ∀ n, (g.alternatives n).Pairwise (· < ·)
  alternatives : ∀ n i, i ∈ g.alternatives n ↔ ∃ r, g.rules[i]? = some r ∧ r.left = n
  /-- Every nonterminal has an alternative. -/
  alternatives_ne_nil : ∀ n < g.nonterminals.size, g.alternatives n ≠ []
  /-- The look-ups by name and by number are inverse to each other. -/
  terminal_iff : ∀ name t, g.terminals.idOf? name = some t ↔ g.terminals.name? t = some name
  nonterminal_iff : ∀ name n, g.nonterminals.idOf? name = some n ↔
    g.nonterminals.name? n = some name
  /-- Numbers of rules, terminals and nonterminals are the same in 16 bits. -/
  fits : ∀ i, i < g.rules.size ∨ i < g.terminals.size ∨ i < g.nonterminals.size →
    (UInt16.ofNat i).toNat = i

end Grammar

namespace Definition

/-- A component has become the symbol of its name. -/
theorem nameOf_intern {d : Definition V} {g : Grammar V} (ht : g.terminals = d.terminals d.nonterminals)
    (hn : g.nonterminals = d.nonterminals) {r : RuleDraft V} {c : String} (hr : r ∈ d.rules)
    (hc : c ∈ r.components) : g.NameOf (intern d.nonterminals (d.terminals d.nonterminals) c) c ∧
      ((∃ n, intern d.nonterminals (d.terminals d.nonterminals) c = .nonterminal n) ↔
        c ∈ d.nonterminals.toList) := by
  unfold intern
  cases hid : d.nonterminals.idOf? c with
  | some n =>
    have hname := NameTable.idOf?_eq_some_iff.1 hid
    refine ⟨?_, fun _ => NameTable.mem_toList_iff.2 ⟨n, hname⟩, fun _ => ⟨n, rfl⟩⟩
    show g.nonterminals.name? n = some c
    rw [hn]
    exact hname
  | none =>
    have hcontains : d.nonterminals.contains c = false := by simp [NameTable.contains, hid]
    have hnot : c ∉ d.nonterminals.toList := fun hmem => by
      rw [NameTable.contains_iff.2 hmem] at hcontains
      cases hcontains
    obtain ⟨t, htname⟩ := NameTable.mem_toList_iff.1
      (mem_terminals.2 (Or.inr (Or.inr ⟨r, hr, hc, hcontains⟩)))
    refine ⟨?_, fun h => ?_, fun hmem => absurd hmem hnot⟩
    · show g.terminals.name? _ = some c
      rw [NameTable.idOf?_eq_some_iff.2 htname, ht]
      exact htname
    · obtain ⟨n, h⟩ := h
      cases h

/-- The names on the left of the finished rules are the nonterminals. -/
theorem mem_nonterminals_iff_left {d : Definition V} (start : String) (id : Nat) {name : String} :
    name ∈ d.nonterminals.toList ↔ ∃ r ∈ d.numberedRules start id, r.name = name := by
  rw [mem_nonterminals]
  constructor
  · rintro (rfl | ⟨draft, hd, rfl⟩)
    · exact ⟨_, List.mem_cons_self, rfl⟩
    · obtain ⟨i, hi, hget⟩ := Array.getElem_of_mem hd
      have hrule := getElem?_numberedRules_succ d start id i
      rw [Array.getElem?_eq_getElem hi, hget] at hrule
      exact ⟨_, List.mem_of_getElem? hrule, rfl⟩
  · rintro ⟨r, hr, rfl⟩
    obtain ⟨i, hi⟩ := List.mem_iff_getElem?.1 hr
    rcases numberedRules_cases hi with ⟨-, rfl⟩ | ⟨-, draft, hd, rfl⟩
    · exact Or.inl rfl
    · exact Or.inr ⟨draft, hd, rfl⟩

theorem forall₂_symbols {d : Definition V} {g : Grammar V} {start : String}
    (ht : g.terminals = d.terminals d.nonterminals) (hn : g.nonterminals = d.nonterminals)
    (hid : d.nonterminals.idOf? start = some g.start) {r : Rule V}
    (hr : r ∈ d.numberedRules start g.start) :
    List.Forall₂ (fun x c => g.NameOf x c ∧ ((∃ n, x = .nonterminal n) ↔ c ∈ d.nonterminals.toList))
      r.symbols r.components := by
  obtain ⟨i, hi⟩ := List.mem_iff_getElem?.1 hr
  rcases numberedRules_cases hi with ⟨-, rfl⟩ | ⟨-, draft, hd, rfl⟩
  · have hname := NameTable.idOf?_eq_some_iff.1 hid
    refine .cons ⟨?_, fun _ => NameTable.mem_toList_iff.2 ⟨_, hname⟩, fun _ => ⟨_, rfl⟩⟩ .nil
    show g.nonterminals.name? g.start = some start
    rw [hn]
    exact hname
  · exact List.forall₂_map_left_iff.2 (List.forall₂_same.2 fun c hc => nameOf_intern ht hn hd hc)

/-- No name is that of a terminal and of a nonterminal. -/
theorem not_mem_nonterminals_of_mem_terminals {d : Definition V} (hd : d.Fit) {name : String}
    (h : name ∈ (d.terminals d.nonterminals).toList) : name ∉ d.nonterminals.toList := by
  -- the reserved names are those of no left side
  have hreserved : ∀ reserved, reserved ≠ Nonterminal.startName → nameError? reserved ≠ none →
      reserved ∉ d.nonterminals.toList := by
    intro reserved hne herror hmem
    rcases mem_nonterminals.1 hmem with heq | ⟨r, hr, rfl⟩
    · exact hne heq
    · exact herror (hd.2 r hr r.name List.mem_cons_self)
  rcases mem_terminals.1 h with rfl | rfl | ⟨-, -, -, hcontains⟩
  · exact hreserved _ (by decide) (by decide)
  · exact hreserved _ (by decide) (by decide)
  · intro hmem
    rw [NameTable.contains_iff.2 hmem] at hcontains
    cases hcontains

theorem tail_numberedRules (d : Definition V) (start : String) (id : Nat) :
    (d.numberedRules start id).tail.map (fun r : Rule V => ⟨r.number, r.name, r.components⟩) =
      d.drafts := by
  unfold numberedRules drafts
  rw [List.tail_cons]
  exact List.ext_getElem? fun i => by simp [numberRule, Function.comp_def]

/-- **A fit definition finishes in a numbered grammar.** -/
theorem numbered_of_finish {d : Definition V} (hd : d.Fit) {g : Grammar V} (h : d.finish = .ok g) :
    ∃ start, d.start = some start ∧ g.Numbered start d.drafts := by
  have wf := wellFormed_of_finish hd h
  obtain ⟨start, hstart, hfit, hid, ht, hn, hr, -, htcount, hncount⟩ := finish_cases h
  have hrules : g.rules.toList = d.numberedRules start g.start := by rw [hr]
  have hmem : ∀ r, r ∈ g.rules ↔ r ∈ d.numberedRules start g.start := fun r => by
    rw [← hrules, Array.mem_toList_iff]
  have hleft : ∀ name, name ∈ d.nonterminals.toList ↔ ∃ r ∈ g.rules, r.name = name := fun name => by
    rw [mem_nonterminals_iff_left start g.start]
    simp only [hmem]
  refine ⟨start, hstart,
    { startRule := ⟨startRule start g.start, by rw [hr]; rfl, rfl, rfl, rfl, rfl⟩
      given := by rw [hrules, tail_numberedRules]
      number := fun _ _ h => wf.number h
      left := fun r hr => ?_
      symbols := fun r hr => ?_
      nodup_terminals := g.terminals.nodup_toList
      nodup_nonterminals := g.nonterminals.nodup_toList
      disjoint := fun name hname => ?_
      eof := wf.eof
      epsilon := wf.epsilon
      start := hn ▸ name?_nonterminals_start d
      reserved := fun r hr h0 => ?_
      sorted := wf.alternatives_sorted
      alternatives := fun n i => wf.mem_alternatives
      alternatives_ne_nil := fun n hlt => ?_
      terminal_iff := fun _ _ => NameTable.idOf?_eq_some_iff
      nonterminal_iff := fun _ _ => NameTable.idOf?_eq_some_iff
      fits := fun i hi => ?_ }⟩
  · obtain ⟨i, hi⟩ := Array.mem_iff_getElem?.1 hr
    exact wf.name hi
  · have hall := forall₂_symbols ht hn hid ((hmem r).1 hr)
    simpa only [hleft] using hall
  · rw [ht] at hname
    rw [hn]
    exact not_mem_nonterminals_of_mem_terminals hd hname
  · obtain ⟨i, hi⟩ := List.mem_iff_getElem?.1 ((hmem r).1 hr)
    rcases numberedRules_cases hi with ⟨-, rfl⟩ | ⟨-, draft, hdraft, rfl⟩
    · exact absurd rfl h0
    · intro name hname hreserved
      have hok := hd.2 draft hdraft name hname
      obtain ⟨-, hs, heps, heof⟩ := name_ne_of_fit hok
      simp only [reservedNames, List.mem_cons, List.not_mem_nil, or_false] at hreserved
      rcases hreserved with rfl | rfl | rfl
      · exact hs rfl
      · exact heps rfl
      · exact heof rfl
  · -- the name of the nonterminal stands on the left of a rule
    have hname := NameTable.name?_of_lt hlt
    have hmem' : g.nonterminals.name n ∈ d.nonterminals.toList := by
      rw [← hn]
      exact NameTable.mem_toList_iff.2 ⟨n, hname⟩
    obtain ⟨r, hr, hrname⟩ := (hleft _).1 hmem'
    obtain ⟨i, hi⟩ := Array.mem_iff_getElem?.1 hr
    have hsame : r.left = n := NameTable.name?_inj (wf.name hi) (hrname ▸ hname)
    exact List.ne_nil_of_mem (wf.mem_alternatives.2 ⟨r, hi, hsame⟩)
  · have hsize := wf.size_le
    rw [ht, hn] at hi
    have hmax : maxCount = 65535 := rfl
    have hwords : UInt16.size = 65536 := rfl
    exact UInt16.toNat_ofNat_of_lt (by omega)

/-- There are too many symbols only where there are too many names. -/
theorem overflow_of_finish {d : Definition V} {limit : Limit}
    (h : d.finish = .error (.overflow limit)) :
    (limit = .terminals ∧ maxCount < (d.terminals d.nonterminals).size) ∨
      limit = .nonterminals ∧ maxCount < d.nonterminals.size := by
  unfold finish at h
  split at h
  · cases h
  · rename_i start _
    have hcheck : checkName start ≠ .error (.overflow limit) := by
      unfold checkName nameError?
      split_ifs <;> simp
    cases hc : checkName start with
    | error e =>
      rw [hc] at h
      cases h
      exact absurd hc hcheck
    | ok u =>
      rw [hc] at h
      simp only [bind, Except.bind] at h
      split at h
      · cases h
      · split at h
        · cases h
          exact Or.inl ⟨rfl, by assumption⟩
        · split at h
          · cases h
            exact Or.inr ⟨rfl, by assumption⟩
          · cases h

end Definition

/-- A name that the grammar of some rules has for a terminal: a reserved one, or that of a component
that stands on no left side. -/
def IsTerminalName (given : List GivenRule) (name : String) : Prop :=
  name = Token.eofKind ∨ name = Terminal.epsilonName ∨
    (∃ r ∈ given, name ∈ r.components) ∧ ∀ r ∈ given, r.name ≠ name

/-- A name that the grammar of some rules has for a nonterminal. -/
def IsNonterminalName (given : List GivenRule) (name : String) : Prop :=
  name = Nonterminal.startName ∨ ∃ r ∈ given, r.name = name

namespace Definition

theorem mem_drafts {d : Definition V} {name : String} {components : List String} :
    (∃ r ∈ d.drafts, r.name = name ∧ r.components = components) ↔
      ∃ r ∈ d.rules, r.name = name ∧ r.components = components := by
  unfold drafts
  constructor
  · rintro ⟨r, hr, rfl, rfl⟩
    obtain ⟨i, hi, rfl⟩ := List.mem_mapIdx.1 hr
    exact ⟨d.rules[i], Array.getElem_mem _, rfl, rfl⟩
  · rintro ⟨r, hr, rfl, rfl⟩
    obtain ⟨i, hi, rfl⟩ := Array.getElem_of_mem hr
    exact ⟨_, List.mem_mapIdx.2 ⟨i, hi, rfl⟩, rfl, rfl⟩

theorem isNonterminalName_iff {d : Definition V} {name : String} :
    IsNonterminalName d.drafts name ↔ name ∈ d.nonterminals.toList := by
  rw [mem_nonterminals]
  refine or_congr_right ⟨?_, ?_⟩
  · rintro ⟨r, hr, rfl⟩
    obtain ⟨r', hr', hname, -⟩ := mem_drafts.1 ⟨r, hr, rfl, rfl⟩
    exact ⟨r', hr', hname⟩
  · rintro ⟨r, hr, rfl⟩
    obtain ⟨r', hr', hname, -⟩ := mem_drafts.2 ⟨r, hr, rfl, rfl⟩
    exact ⟨r', hr', hname⟩

theorem isTerminalName_of_mem {d : Definition V} {name : String}
    (h : name ∈ (d.terminals d.nonterminals).toList) : IsTerminalName d.drafts name := by
  rcases mem_terminals.1 h with h | h | ⟨r, hr, hc, hcontains⟩
  · exact Or.inl h
  · exact Or.inr (Or.inl h)
  · obtain ⟨r', hr', -, hcomponents⟩ := mem_drafts.2 ⟨r, hr, rfl, rfl⟩
    refine Or.inr (Or.inr ⟨⟨r', hr', hcomponents ▸ hc⟩, fun r'' hr'' heq => ?_⟩)
    have hmem := isNonterminalName_iff.1 (Or.inr ⟨r'', hr'', heq⟩)
    rw [NameTable.contains_iff.2 hmem] at hcontains
    cases hcontains

end Definition

/-- **Every finished grammar is well numbered.** Whatever calls have been made, and whether they have
failed or not: if the definition can be finished, then its rules are those of the successful calls, and
the grammar is numbered as they ask for. It cannot be finished for the number of its symbols only if
they have more than 65535 names. -/
theorem define_numbered (calls : List (Call V)) :
    (∀ g, Grammar.define (calls.forM Call.attempt) = .ok g →
      ∃ start, Call.lastStart? calls = some start ∧
        g.Numbered start (Call.rulesGiven .empty calls)) ∧
    ∀ limit, Grammar.define (calls.forM Call.attempt) = .error (.overflow limit) →
      ∃ names : List String, names.Nodup ∧ 65535 < names.length ∧
        ((limit = .terminals ∧
            ∀ name ∈ names, IsTerminalName (Call.rulesGiven .empty calls) name) ∨
          limit = .nonterminals ∧
            ∀ name ∈ names, IsNonterminalName (Call.rulesGiven .empty calls) name) := by
  have hdrafts : (calls.foldl Call.after .empty).drafts = Call.rulesGiven .empty calls :=
    (Definition.drafts_foldl_after _ calls).trans (List.nil_append _)
  have hstart := Definition.start_foldl_after .empty calls
  have hdefine : Grammar.define (calls.forM Call.attempt) = (calls.foldl Call.after .empty).finish := by
    unfold Grammar.define
    rw [run_attempts]
  rw [hdefine, ← hdrafts]
  refine ⟨fun g h => ?_, fun limit h => ?_⟩
  · obtain ⟨start, hs, hnumbered⟩ :=
      Definition.numbered_of_finish (fit_foldl_after Definition.fit_empty calls) h
    refine ⟨start, ?_, hnumbered⟩
    rw [hstart] at hs
    simpa [Definition.empty] using hs
  · rcases Definition.overflow_of_finish h with ⟨rfl, hlt⟩ | ⟨rfl, hlt⟩
    · exact ⟨_, NameTable.nodup_toList _, hlt, Or.inl ⟨rfl, fun name hname =>
        Definition.isTerminalName_of_mem hname⟩⟩
    · exact ⟨_, NameTable.nodup_toList _, hlt, Or.inr ⟨rfl, fun name hname =>
        Definition.isNonterminalName_iff.2 hname⟩⟩

/-- Calls of which the second, the third and the fifth fail. -/
def faultyCalls : List (Call Nat) :=
  [.rule "S" ["a", "T"], .rule "T" ["$eof"], .rule "" [], .start "T", .assoc .left,
    .rule "T" ["S", "a"], .start "S"]

/-- The grammar `S → a T`, `T → S a`. -/
def Grammar.faulty : Grammar Nat :=
  (Grammar.define (faultyCalls.forM Call.attempt)).toOption.get (by decide +kernel)

/-- The failed calls have left nothing behind. -/
theorem faulty_numbered : Call.lastStart? faultyCalls = some "S" ∧
    Call.rulesGiven .empty faultyCalls = [⟨1, "S", ["a", "T"]⟩, ⟨2, "T", ["S", "a"]⟩] ∧
    Grammar.faulty.Numbered "S" [⟨1, "S", ["a", "T"]⟩, ⟨2, "T", ["S", "a"]⟩] := by
  have hgiven : Call.rulesGiven .empty faultyCalls =
      [⟨1, "S", ["a", "T"]⟩, ⟨2, "T", ["S", "a"]⟩] := by decide +kernel
  have hstart : Call.lastStart? faultyCalls = some "S" := rfl
  obtain ⟨start, hs, hnumbered⟩ := (define_numbered faultyCalls).1 Grammar.faulty (eq_ok_get _ _)
  rw [hstart] at hs
  cases hs
  rw [hgiven] at hnumbered
  exact ⟨hstart, hgiven, hnumbered⟩

end ParserGen
