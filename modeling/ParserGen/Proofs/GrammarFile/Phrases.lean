import ParserGen.Proofs.GrammarFile.Notation
import ParserGen.Proofs.GrammarFile.Table

/-!
# The phrases of grammar files

What the callback of a rule makes of the values of its components is what the tokens of the phrase say,
if the values of the components are. And all that can be written is a phrase. Both are shown rule by
rule; what is said is a relation between tokens and values for each of the names in the rules.

* `Means`: what a phrase with a name says.
* `means_callback`: the callbacks give their phrases the values that these say.
* `Phrase.means`: **the value of a phrase is what the phrase says.**
* `phraseOf_start_iff`: **the texts of the grammar are the files, and their values the declarations.**
-/

namespace ParserGen.GrammarFile

/-! ## What phrases say -/

/-- The value is what the tokens of a phrase with the name say. Tokens stand for themselves. -/
def Means (name : String) (ts : List Token) (v : Node) : Prop :=
  match name with
  | "$start" => ∃ ds, v = .declarations ds ∧ Spells ts ds
  | "Decls" => ∃ ds, v = .declarations ds ∧ Spells ts ds
  | "Decl" => ∃ d, v = .declaration d ∧ SpellsDeclaration ts d
  | "Assoc" => ∃ keyword a, ts = [keyword] ∧ v = .assoc a ∧ keyword.kind = assocKeyword a
  | "Names" => v = .names (ts.map (·.value)) ∧ ts ≠ [] ∧ ∀ t ∈ ts, t.kind = "IDENT"
  | "Symbols" => ∃ names, v = .names names ∧ SpellsSymbols ts names ∧ ts ≠ []
  | "Symbol" => ∃ t name, ts = [t] ∧ v = .name name ∧ SpellsSymbol t name
  | "Alternatives" => ∃ as, v = .alternatives as ∧ SpellsAlternatives ts as
  | "Alternative" => ∃ a, v = .alternative a ∧ SpellsAlternative ts a
  | "Sequence" => ∃ names, v = .names names ∧ SpellsSymbols ts names
  | "Prec" => ∃ p, v = .precedence p ∧ SpellsPrecedence ts p
  | kind => ∃ t, ts = [t] ∧ v = .token t ∧ t.kind = kind

/-- The names with a meaning of their own. -/
def phraseNames : List String :=
  ["$start", "Decls", "Decl", "Assoc", "Names", "Symbols", "Symbol", "Alternatives", "Alternative",
   "Sequence", "Prec"]

theorem means_token {token : Token} (h : token.kind ∉ phraseNames) :
    Means token.kind [token] (.token token) := by
  have hself : ∃ t, [token] = [t] ∧ Node.token token = .token t ∧ t.kind = token.kind :=
    ⟨token, rfl, rfl, rfl⟩
  unfold Means
  split
  all_goals first
    | exact hself
    | rename_i hkind
      exact absurd hkind (fun hkind => h (by rw [hkind]; decide))

/-- A phrase with a value does not have a broken one. -/
theorem Means.ne_broken {name : String} {ts : List Token} {v : Node} (h : Means name ts v) :
    v ≠ .broken := by
  rintro rfl
  unfold Means at h
  split at h <;> simp at h

/-- If the token is a quoted symbol, it stands between two quotes. -/
def Enclosed (token : Token) : Prop :=
  token.kind = "QUOTED" → ∃ quote inner, isQuote quote = true ∧
    token.value.toList = quote :: (inner ++ [quote])

theorem unquote_eq {quoted : String} {quote : Char} {inner : List Char} (hq : isQuote quote = true)
    (hv : quoted.toList = quote :: (inner ++ [quote])) : unquote quoted = String.ofList inner := by
  unfold unquote
  rw [hv]
  simp [hq]

/-! ## Rules, name by name -/

/-- The rules of the format for a name. -/
def rulesOf (name : String) : List (String × List String × (List Node → Node)) :=
  rules.filter (·.1 = name)

theorem rules_eq_flatMap : rules = phraseNames.flatMap rulesOf := by
  rfl

/-- What the callback of a rule makes of what the components say is what the phrase says. -/
def Faithful (r : String × List String × (List Node → Node)) : Prop :=
  ∀ ts vs, (∀ t ∈ ts, Enclosed t) → Each Means r.2.1 ts vs → Means r.1 ts (r.2.2 vs)

theorem faithful_declarations : (rulesOf "Decls").Forall Faithful := by
  show Faithful _ ∧ Faithful _
  refine ⟨?more, ?none⟩
  case more =>
    intro ts vs _ h
    obtain ⟨first, last, _, _, rfl, rfl, ⟨ds, rfl, hds⟩, d, rfl, hd⟩ := h.of_two
    exact ⟨_, rfl, hds.more hd⟩
  case none =>
    rintro ts vs _ ⟨rfl, rfl⟩
    exact ⟨_, rfl, .nil⟩

theorem faithful_declaration : (rulesOf "Decl").Forall Faithful := by
  show Faithful _ ∧ Faithful _ ∧ Faithful _ ∧ Faithful _
  refine ⟨?start, ?resolve, ?operators, ?rule⟩
  case start =>
    intro ts vs _ h
    obtain ⟨_, _, _, _, _, _, rfl, rfl, ⟨keyword, rfl, rfl, hk⟩, ⟨name, rfl, rfl, hn⟩,
      semicolon, rfl, rfl, hs⟩ := h.of_three
    exact ⟨_, rfl, .start hk hn hs⟩
  case resolve =>
    intro ts vs _ h
    obtain ⟨_, modes, _, _, _, _, rfl, rfl, ⟨keyword, rfl, rfl, hk⟩, ⟨rfl, hne, hm⟩,
      semicolon, rfl, rfl, hs⟩ := h.of_three
    exact ⟨_, rfl, .resolve hk hm hne hs⟩
  case operators =>
    intro ts vs _ h
    obtain ⟨_, _, symbols, _, _, _, _, _, rfl, rfl, ⟨keyword, a, rfl, rfl, hk⟩, ⟨int, rfl, rfl, hi⟩,
      ⟨names, rfl, hsymbols, hne⟩, semicolon, rfl, rfl, hs⟩ := h.of_four
    exact ⟨_, rfl, .operators hk hi hsymbols hne hs⟩
  case rule =>
    intro ts vs _ h
    obtain ⟨_, _, alternatives, _, _, _, _, _, rfl, rfl, ⟨name, rfl, rfl, hn⟩, ⟨colon, rfl, rfl, hc⟩,
      ⟨as, rfl, has⟩, semicolon, rfl, rfl, hs⟩ := h.of_four
    exact ⟨_, rfl, .rule hn hc has hs⟩

theorem faithful_assoc : (rulesOf "Assoc").Forall Faithful := by
  show Faithful _ ∧ Faithful _ ∧ Faithful _
  refine ⟨?left, ?right, ?nonassoc⟩
  case left =>
    intro ts vs _ h
    obtain ⟨_, rfl, keyword, rfl, rfl, hk⟩ := h.of_one
    exact ⟨keyword, .left, rfl, rfl, hk⟩
  case right =>
    intro ts vs _ h
    obtain ⟨_, rfl, keyword, rfl, rfl, hk⟩ := h.of_one
    exact ⟨keyword, .right, rfl, rfl, hk⟩
  case nonassoc =>
    intro ts vs _ h
    obtain ⟨_, rfl, keyword, rfl, rfl, hk⟩ := h.of_one
    exact ⟨keyword, .nonassoc, rfl, rfl, hk⟩

theorem faithful_names : (rulesOf "Names").Forall Faithful := by
  show Faithful _ ∧ Faithful _
  refine ⟨?more, ?first⟩
  case more =>
    intro ts vs _ h
    obtain ⟨first, last, _, _, rfl, rfl, ⟨rfl, -, hnames⟩, name, rfl, rfl, hn⟩ := h.of_two
    refine ⟨by simp, by simp, List.forall_mem_append.2 ⟨hnames, ?_⟩⟩
    simpa using hn
  case first =>
    intro ts vs _ h
    obtain ⟨_, rfl, name, rfl, rfl, hn⟩ := h.of_one
    exact ⟨rfl, by simp, by simpa using hn⟩

theorem faithful_symbols : (rulesOf "Symbols").Forall Faithful := by
  show Faithful _ ∧ Faithful _
  refine ⟨?more, ?first⟩
  case more =>
    intro ts vs _ h
    obtain ⟨first, last, _, _, rfl, rfl, ⟨names, rfl, hnames, -⟩, t, name, rfl, rfl, hs⟩ := h.of_two
    exact ⟨_, rfl, hnames.more hs, by simp⟩
  case first =>
    intro ts vs _ h
    obtain ⟨_, rfl, t, name, rfl, rfl, hs⟩ := h.of_one
    exact ⟨_, rfl, SpellsSymbols.nil.more hs, by simp⟩

theorem faithful_symbol : (rulesOf "Symbol").Forall Faithful := by
  show Faithful _ ∧ Faithful _
  refine ⟨?ident, ?quoted⟩
  case ident =>
    intro ts vs _ h
    obtain ⟨_, rfl, t, rfl, rfl, hk⟩ := h.of_one
    exact ⟨t, _, rfl, rfl, .ident hk⟩
  case quoted =>
    intro ts vs henclosed h
    obtain ⟨_, rfl, t, rfl, rfl, hk⟩ := h.of_one
    obtain ⟨quote, inner, hq, hv⟩ := henclosed t (by simp) hk
    refine ⟨t, _, rfl, rfl, .quoted hk hq ?_⟩
    rw [unquote_eq hq hv, String.toList_ofList]
    exact hv

theorem faithful_alternatives : (rulesOf "Alternatives").Forall Faithful := by
  show Faithful _ ∧ Faithful _
  refine ⟨?more, ?first⟩
  case more =>
    intro ts vs _ h
    obtain ⟨first, _, last, _, _, _, rfl, rfl, ⟨as, rfl, has⟩, ⟨bar, rfl, rfl, hb⟩, a, rfl, ha⟩ :=
      h.of_three
    exact ⟨_, rfl, has.more hb ha⟩
  case first =>
    intro ts vs _ h
    obtain ⟨_, rfl, a, rfl, ha⟩ := h.of_one
    exact ⟨_, rfl, .first ha⟩

theorem faithful_alternative : (rulesOf "Alternative").Forall Faithful := by
  show Faithful _ ∧ Faithful _
  refine ⟨?symbols, ?empty⟩
  case symbols =>
    intro ts vs _ h
    obtain ⟨first, last, _, _, rfl, rfl, ⟨names, rfl, hnames⟩, p, rfl, hp⟩ := h.of_two
    exact ⟨_, rfl, .symbols hnames hp⟩
  case empty =>
    intro ts vs _ h
    obtain ⟨_, last, _, _, rfl, rfl, ⟨keyword, rfl, rfl, hk⟩, p, rfl, hp⟩ := h.of_two
    exact ⟨_, rfl, .empty hk hp⟩

theorem faithful_sequence : (rulesOf "Sequence").Forall Faithful := by
  show Faithful _ ∧ Faithful _
  refine ⟨?more, ?none⟩
  case more =>
    intro ts vs _ h
    obtain ⟨first, last, _, _, rfl, rfl, ⟨names, rfl, hnames⟩, t, name, rfl, rfl, hs⟩ := h.of_two
    exact ⟨_, rfl, hnames.more hs⟩
  case none =>
    rintro ts vs _ ⟨rfl, rfl⟩
    exact ⟨_, rfl, .nil⟩

theorem faithful_prec : (rulesOf "Prec").Forall Faithful := by
  show Faithful _ ∧ Faithful _
  refine ⟨?some, ?none⟩
  case some =>
    intro ts vs _ h
    obtain ⟨_, _, _, _, rfl, rfl, ⟨keyword, rfl, rfl, hk⟩, int, rfl, rfl, hi⟩ := h.of_two
    exact ⟨_, rfl, .some hk hi⟩
  case none =>
    rintro ts vs _ ⟨rfl, rfl⟩
    exact ⟨_, rfl, .none⟩

/-- **What a callback makes of what the components say is what the phrase says.** -/
theorem means_callback : ∀ r ∈ rules, Faithful r := by
  have hnames : phraseNames.Forall fun name => (rulesOf name).Forall Faithful := by
    -- the rule for the whole text is none of the format's own
    have hstart : (rulesOf "$start").Forall Faithful := trivial
    exact ⟨hstart, faithful_declarations, faithful_declaration, faithful_assoc, faithful_names,
      faithful_symbols, faithful_symbol, faithful_alternatives, faithful_alternative, faithful_sequence,
      faithful_prec⟩
  intro r hr
  rw [rules_eq_flatMap] at hr
  obtain ⟨name, hname, hr⟩ := List.mem_flatMap.1 hr
  exact List.forall_iff_forall_mem.1 (List.forall_iff_forall_mem.1 hnames name hname) r hr

/-! ## All phrases -/

/-- The phrases of the grammar with a name, with their values. -/
def Phrase (name : String) (ts : List Token) (v : Node) : Prop :=
  grammar.PhraseNamed grammar.reduce Node.token name ts v

theorem not_mem_phraseNames {kind : String} (h : kind ∈ grammar.terminals.toList) :
    kind ∉ phraseNames := by
  have hall : ∀ kind ∈ grammar.terminals.toList, kind ∉ phraseNames := by decide +kernel
  exact hall kind h

/-- **The value of a phrase is what the phrase says.** -/
theorem Phrase.means {name : String} {ts : List Token} {v : Node} (h : Phrase name ts v)
    (ht : ∀ t ∈ ts, Enclosed t) : Means name ts v := by
  refine Grammar.PhraseNamed.least (M := fun name ts v => (∀ t ∈ ts, Enclosed t) → Means name ts v)
    grammar_numbered ?token ?rule h ht
  case token =>
    intro token hkind _
    exact means_token (not_mem_phraseNames hkind)
  case rule =>
    intro k r ts vs hr heach ht
    have heach := heach.of_forall ht
    rcases rule_cases hr with ⟨hname, hcomponents, hvalue⟩ | ⟨callback, hrule, hreduce⟩
    · rw [hcomponents] at heach
      obtain ⟨v, rfl, ds, rfl, hds⟩ := heach.of_one
      rw [hname, hvalue]
      exact ⟨ds, rfl, hds⟩
    · rw [hreduce]
      exact means_callback _ hrule ts vs ht heach

theorem phrase_token {t : Token} {kind : String} (hk : t.kind = kind) (h : kind ∈ tokenKinds) :
    Phrase kind [t] (.token t) := by
  subst hk
  exact Grammar.phraseNamed_token (mem_terminals h)

/-- The callback of the rule with these names. -/
def callback? (name : String) (components : List String) : Option (List Node → Node) :=
  (rules.find? fun r => r.1 = name ∧ r.2.1 = components).map (·.2.2)

/-- Phrases for the components of a rule make up a phrase. -/
theorem phrase_rule (name : String) (components : List String) {callback : List Node → Node}
    (hrule : callback? name components = some callback) {ts : List Token} {vs : List Node} {v : Node}
    (h : Each Phrase components ts vs) (hv : callback vs = v) : Phrase name ts v := by
  obtain ⟨⟨name', components', callback'⟩, hfind, hcallback⟩ := Option.map_eq_some_iff.1 hrule
  obtain rfl : callback' = callback := hcallback
  have hnames := List.find?_some hfind
  simp only [decide_eq_true_eq] at hnames
  obtain ⟨rfl, rfl⟩ := hnames
  obtain ⟨k, r, hr, rfl, rfl, hreduce⟩ := exists_rule (List.mem_of_find?_eq_some hfind)
  have hphrase := Grammar.phraseNamed_rule grammar_numbered hr h
  rw [hreduce, hv] at hphrase
  exact hphrase

/-! ## What is written -/

section Written

variable {t : Token} {ts : List Token} {names : List String}

theorem phrase_symbol {name : String} (h : SpellsSymbol t name) : Phrase "Symbol" [t] (.name name) := by
  cases h with
  | ident hk => exact phrase_rule "Symbol" ["IDENT"] rfl (.last (phrase_token hk (by decide))) rfl
  | quoted hk hq hv =>
    refine phrase_rule "Symbol" ["QUOTED"] rfl (.last (phrase_token hk (by decide))) ?_
    simp only
    rw [unquote_eq hq hv, String.ofList_toList]

theorem phrase_sequence (h : SpellsSymbols ts names) : Phrase "Sequence" ts (.names names) := by
  induction h with
  | nil => exact phrase_rule "Sequence" [] rfl .nil rfl
  | more _ hs ih =>
    exact phrase_rule "Sequence" ["Sequence", "Symbol"] rfl (.cons ih (.last (phrase_symbol hs))) rfl

theorem phrase_symbols (h : SpellsSymbols ts names) (hne : ts ≠ []) :
    Phrase "Symbols" ts (.names names) := by
  induction h with
  | nil => exact absurd rfl hne
  | @more ts names t name h hs ih =>
    have hlast := phrase_symbol hs
    cases h with
    | nil => exact phrase_rule "Symbols" ["Symbol"] rfl (.last hlast) rfl
    | more =>
      exact phrase_rule "Symbols" ["Symbols", "Symbol"] rfl (.cons (ih (by simp)) (.last hlast)) rfl

theorem phrase_names (h : ∀ t ∈ ts, t.kind = "IDENT") (hne : ts ≠ []) :
    Phrase "Names" ts (.names (ts.map (·.value))) := by
  induction ts using List.reverseRecOn with
  | nil => exact absurd rfl hne
  | append_singleton ts t ih =>
    obtain ⟨hts, ht⟩ := List.forall_mem_append.1 h
    have hlast := phrase_token (ht t (by simp)) (by decide)
    rw [List.map_append]
    by_cases hts' : ts = []
    · subst hts'
      exact phrase_rule "Names" ["IDENT"] rfl (.last hlast) rfl
    · exact phrase_rule "Names" ["Names", "IDENT"] rfl (.cons (ih hts hts') (.last hlast)) rfl

theorem phrase_prec {p : Option Number} (h : SpellsPrecedence ts p) :
    Phrase "Prec" ts (.precedence p) := by
  cases h with
  | none => exact phrase_rule "Prec" [] rfl .nil rfl
  | some hk hi =>
    exact phrase_rule "Prec" ["%prec", "INT"] rfl
      (.cons (phrase_token hk (by decide)) (.last (phrase_token hi (by decide)))) rfl

theorem phrase_alternative {a : Alternative} (h : SpellsAlternative ts a) :
    Phrase "Alternative" ts (.alternative a) := by
  cases h with
  | symbols h hp =>
    exact phrase_rule "Alternative" ["Sequence", "Prec"] rfl
      (.cons (phrase_sequence h) (.last (phrase_prec hp))) rfl
  | empty hk hp =>
    exact phrase_rule "Alternative" ["%empty", "Prec"] rfl
      (.cons (phrase_token hk (by decide)) (.last (phrase_prec hp))) rfl

theorem phrase_alternatives {as : List Alternative} (h : SpellsAlternatives ts as) :
    Phrase "Alternatives" ts (.alternatives as) := by
  induction h with
  | first ha => exact phrase_rule "Alternatives" ["Alternative"] rfl (.last (phrase_alternative ha)) rfl
  | more _ hb ha ih =>
    exact phrase_rule "Alternatives" ["Alternatives", "|", "Alternative"] rfl
      (.cons ih (.cons (phrase_token hb (by decide)) (.last (phrase_alternative ha)))) rfl

theorem phrase_assoc {a : Associativity} (hk : t.kind = assocKeyword a) :
    Phrase "Assoc" [t] (.assoc a) := by
  cases a with
  | left => exact phrase_rule "Assoc" ["%left"] rfl (.last (phrase_token hk (by decide))) rfl
  | right => exact phrase_rule "Assoc" ["%right"] rfl (.last (phrase_token hk (by decide))) rfl
  | nonassoc => exact phrase_rule "Assoc" ["%nonassoc"] rfl (.last (phrase_token hk (by decide))) rfl

theorem phrase_declaration {d : Declaration} (h : SpellsDeclaration ts d) :
    Phrase "Decl" ts (.declaration d) := by
  cases h with
  | start hk hn hs =>
    exact phrase_rule "Decl" ["%start", "IDENT", ";"] rfl (.cons (phrase_token hk (by decide))
      (.cons (phrase_token hn (by decide)) (.last (phrase_token hs (by decide))))) rfl
  | resolve hk hm hne hs =>
    exact phrase_rule "Decl" ["%resolve", "Names", ";"] rfl (.cons (phrase_token hk (by decide))
      (.cons (phrase_names hm hne) (.last (phrase_token hs (by decide))))) rfl
  | operators hk hi h hne hs =>
    exact phrase_rule "Decl" ["Assoc", "INT", "Symbols", ";"] rfl (.cons (phrase_assoc hk)
      (.cons (phrase_token hi (by decide)) (.cons (phrase_symbols h hne)
        (.last (phrase_token hs (by decide)))))) rfl
  | rule hn hc h hs =>
    exact phrase_rule "Decl" ["IDENT", ":", "Alternatives", ";"] rfl
      (.cons (phrase_token hn (by decide)) (.cons (phrase_token hc (by decide))
        (.cons (phrase_alternatives h) (.last (phrase_token hs (by decide)))))) rfl

theorem phrase_declarations {ds : List Declaration} (h : Spells ts ds) :
    Phrase "Decls" ts (.declarations ds) := by
  induction h with
  | nil => exact phrase_rule "Decls" [] rfl .nil rfl
  | more _ hd ih =>
    exact phrase_rule "Decls" ["Decls", "Decl"] rfl (.cons ih (.last (phrase_declaration hd))) rfl

end Written

/-- **The texts of the grammar are the files, and their values the declarations.** -/
theorem phraseOf_start_iff {ts : List Token} {v : Node} (ht : ∀ t ∈ ts, Enclosed t) :
    grammar.PhraseOf grammar.reduce Node.token (.nonterminal grammar.start) ts v ↔
      ∃ ds, v = .declarations ds ∧ Spells ts ds := by
  constructor
  · intro h
    have hphrase : Phrase "Decls" ts v := ⟨_, nameOf_start, h⟩
    exact hphrase.means ht
  · rintro ⟨ds, rfl, hds⟩
    obtain ⟨x, hx, hphrase⟩ := phrase_declarations hds
    rwa [grammar_numbered.nameOf_unique hx nameOf_start] at hphrase

end ParserGen.GrammarFile
