import ParserGen.Proofs.GrammarFile.Order
import ParserGen.Proofs.GrammarFile.Reading

/-!
# What quotes are for

Quotes let a symbol be written that is no identifier, and the name of the symbol is what stands between
them. They do not make it a terminal: a component is a terminal exactly if no rule of the file has its
name, whether it is quoted or not. So a quoted keyword that is also the name of a rule stands for that
rule.

* `written`: the alternatives of a file as they are written, token by token.
* `written_of_spells`: they are those that the file is read as.
* `terminal_iff_not_declared`: **what each component of a source becomes.**
* `quoted_rule_name`: a quoted component that is no terminal.
-/

namespace ParserGen.GrammarFile

/-! ## Lists side by side -/

section SideBySide

variable {α β γ : Type} {as : List α} {bs : List β} {cs : List γ}

theorem map_eq_of_forall₂ {f : α → γ} {g : β → γ} (h : List.Forall₂ (fun a b => f a = g b) as bs) :
    as.map f = bs.map g := by
  induction h with
  | nil => rfl
  | cons hab _ ih => rw [List.map_cons, List.map_cons, hab, ih]

theorem forall₂_comp {R : α → β → Prop} {S : β → γ → Prop} {T : α → γ → Prop}
    (hT : ∀ a b c, R a b → S b c → T a c) (h : List.Forall₂ R as bs) (h' : List.Forall₂ S bs cs) :
    List.Forall₂ T as cs := by
  induction h generalizing cs with
  | nil =>
    cases h'
    exact .nil
  | cons hab _ ih =>
    cases h' with
    | cons hbc hrest => exact .cons (hT _ _ _ hab hbc) (ih hrest)

end SideBySide

/-! ## Alternatives as they are written -/

/-- An alternative as it is written. -/
structure WrittenAlternative where
  /-- The token of the left side. -/
  left : Token
  /-- The tokens of the components. -/
  components : List Token
deriving DecidableEq

/-- Whether a token is a symbol. -/
def isSymbol (t : Token) : Bool :=
  t.kind == "IDENT" || t.kind == "QUOTED"

/-- The components of an alternative, up to its precedence. -/
def writtenComponents (ts : List Token) : List Token :=
  ts.takeWhile isSymbol

/-- The alternatives of a declaration, which is given without its semicolon. Only rules have a colon,
and it is their second token. -/
def writtenAlternatives : List Token → List WrittenAlternative
  | name :: colon :: rest =>
    if colon.kind = ":" then
      (rest.splitOnP (·.kind == "|")).map fun ts => ⟨name, writtenComponents ts⟩
    else []
  | _ => []

/-- All alternatives of a file, in order. -/
def written (ts : List Token) : List WrittenAlternative :=
  (ts.splitOnP (·.kind == ";")).flatMap writtenAlternatives

/-- The alternative with its left side is written so. -/
def WrittenAlternative.Spells (w : WrittenAlternative) (e : String × Alternative) : Prop :=
  w.left.value = e.1 ∧ List.Forall₂ SpellsSymbol w.components e.2.components

theorem SpellsSymbol.isSymbol {t : Token} {name : String} (h : SpellsSymbol t name) :
    isSymbol t = true := by
  cases h with
  | ident hk => simp [GrammarFile.isSymbol, hk]
  | quoted hk => simp [GrammarFile.isSymbol, hk]

theorem SpellsSymbols.forall₂ {ts : List Token} {names : List String} (h : SpellsSymbols ts names) :
    List.Forall₂ SpellsSymbol ts names := by
  induction h with
  | nil => exact .nil
  | more _ hs ih => exact List.rel_append ih (.cons hs .nil)

/-! ## What is written and what is read -/

section Written

variable {ts : List Token}

theorem isSymbol_of_spellsSymbols {names : List String} (h : SpellsSymbols ts names) :
    ∀ t ∈ ts, isSymbol t = true := by
  induction h with
  | nil => simp
  | more _ hs ih => exact List.forall_mem_append.2 ⟨ih, by simpa using hs.isSymbol⟩

theorem kind_of_isSymbol {t : Token} (h : isSymbol t = true) : t.kind = "IDENT" ∨ t.kind = "QUOTED" := by
  simpa [isSymbol] using h

/-- The tokens of an alternative are none of those that stand between alternatives or declarations. -/
theorem kind_of_spellsAlternative {a : Alternative} (h : SpellsAlternative ts a) :
    ∀ t ∈ ts, t.kind ≠ "|" ∧ t.kind ≠ ";" := by
  have hprec : ∀ {ps : List Token} {p : Option Number}, SpellsPrecedence ps p →
      ∀ t ∈ ps, t.kind ≠ "|" ∧ t.kind ≠ ";" := by
    intro ps p hp t ht
    cases hp with
    | none => cases ht
    | some hk hi =>
      rcases List.mem_pair.1 ht with rfl | rfl
      · simp [hk]
      · simp [hi]
  cases h with
  | symbols h hp =>
    intro t ht
    rcases List.mem_append.1 ht with ht | ht
    · rcases kind_of_isSymbol (isSymbol_of_spellsSymbols h t ht) with hk | hk <;> simp [hk]
    · exact hprec hp t ht
  | empty hk hp =>
    intro t ht
    rcases List.mem_cons.1 ht with rfl | ht
    · simp [hk]
    · exact hprec hp t ht

/-- The components of an alternative are written before its precedence. -/
theorem writtenComponents_of_spells {a : Alternative} (h : SpellsAlternative ts a) :
    List.Forall₂ SpellsSymbol (writtenComponents ts) a.components := by
  unfold writtenComponents
  cases h with
  | @symbols ts ps names p h hp =>
    have hend : ps.takeWhile isSymbol = [] := by
      cases hp with
      | none => rfl
      | some hk _ => exact List.takeWhile_cons_of_neg (by simp [isSymbol, hk])
    rw [List.takeWhile_append_of_pos (isSymbol_of_spellsSymbols h), hend, List.append_nil]
    exact h.forall₂
  | empty hk _ =>
    rw [List.takeWhile_cons_of_neg (by simp [isSymbol, hk])]
    exact .nil

/-- Bars divide the alternatives of a rule. -/
theorem splitOnP_of_spellsAlternatives {as : List Alternative} (h : SpellsAlternatives ts as) :
    List.Forall₂ SpellsAlternative (ts.splitOnP (·.kind == "|")) as := by
  have hone : ∀ {ts : List Token} {a : Alternative}, SpellsAlternative ts a →
      ts.splitOnP (·.kind == "|") = [ts] := fun ha =>
    List.splitOnP_eq_singleton fun t ht => by simp [(kind_of_spellsAlternative ha t ht).1]
  induction h with
  | first ha =>
    rw [hone ha]
    exact .cons ha .nil
  | more _ hb ha ih =>
    rw [List.splitOnP_append_cons _ _ (by simp [hb]), hone ha]
    exact List.rel_append ih (.cons ha .nil)

theorem kind_of_spellsAlternatives {as : List Alternative} (h : SpellsAlternatives ts as) :
    ∀ t ∈ ts, t.kind ≠ ";" := by
  induction h with
  | first ha => exact fun t ht => (kind_of_spellsAlternative ha t ht).2
  | more _ hb ha ih =>
    intro t ht
    rcases List.mem_append.1 ht with ht | ht
    · exact ih t ht
    · rcases List.mem_cons.1 ht with rfl | ht
      · simp [hb]
      · exact (kind_of_spellsAlternative ha t ht).2

/-- A semicolon closes a declaration, and what stands before it are its alternatives. -/
theorem writtenAlternatives_of_spells {d : Declaration} (h : SpellsDeclaration ts d) :
    ∃ inner semicolon, ts = inner ++ [semicolon] ∧ semicolon.kind = ";" ∧
      (∀ t ∈ inner, t.kind ≠ ";") ∧
      List.Forall₂ WrittenAlternative.Spells (writtenAlternatives inner) d.alternatives := by
  cases h with
  | @start keyword name semicolon hk hn hs =>
    refine ⟨[keyword, name], semicolon, rfl, hs, by simp [hk, hn], ?_⟩
    simp [writtenAlternatives, hn]
  | @resolve keyword semicolon modes hk hm hne hs =>
    refine ⟨keyword :: modes, semicolon, rfl, hs, ?_, ?_⟩
    · intro t ht
      rcases List.mem_cons.1 ht with rfl | ht
      · simp [hk]
      · simp [hm t ht]
    · obtain ⟨mode, rest, rfl⟩ := List.exists_cons_of_ne_nil hne
      simp [writtenAlternatives, hm mode List.mem_cons_self]
  | @operators keyword int semicolon a ts names hk hi h hne hs =>
    refine ⟨keyword :: int :: ts, semicolon, rfl, hs, ?_, ?_⟩
    · intro t ht
      simp only [List.mem_cons] at ht
      rcases ht with rfl | rfl | ht
      · cases a <;> simp [hk, assocKeyword]
      · simp [hi]
      · rcases kind_of_isSymbol (isSymbol_of_spellsSymbols h t ht) with hk | hk <;> simp [hk]
    · simp [writtenAlternatives, hi]
  | @rule name colon semicolon ts as hn hc h hs =>
    refine ⟨name :: colon :: ts, semicolon, rfl, hs, ?_, ?_⟩
    · intro t ht
      simp only [List.mem_cons] at ht
      rcases ht with rfl | rfl | ht
      · simp [hn]
      · simp [hc]
      · exact kind_of_spellsAlternatives h t ht
    · simp only [writtenAlternatives, hc, if_true, Declaration.alternatives]
      rw [List.forall₂_map_left_iff, List.forall₂_map_right_iff]
      exact (splitOnP_of_spellsAlternatives h).imp fun us a ha => ⟨rfl, writtenComponents_of_spells ha⟩

/-- **The alternatives of a file are read as they are written**, whatever stands behind them. -/
theorem written_of_spells {ds : List Declaration} (h : Spells ts ds) (rest : List Token) :
    ∃ ws, written (ts ++ rest) = ws ++ written rest ∧
      List.Forall₂ WrittenAlternative.Spells ws (ds.flatMap (·.alternatives)) := by
  induction h generalizing rest with
  | nil => exact ⟨[], rfl, .nil⟩
  | @more ts us ds d h hd ih =>
    obtain ⟨inner, semicolon, rfl, hs, hinner, hlast⟩ := writtenAlternatives_of_spells hd
    obtain ⟨ws, hws, hspells⟩ := ih (inner ++ semicolon :: rest)
    refine ⟨ws ++ writtenAlternatives inner, ?_, ?_⟩
    · have hsplit : written (inner ++ semicolon :: rest) = writtenAlternatives inner ++ written rest := by
        unfold written
        rw [List.splitOnP_append_cons_of_forall_mem (by simpa using hinner) _ (by simp [hs]),
          List.flatMap_cons]
      rw [show ts ++ (inner ++ [semicolon]) ++ rest = ts ++ (inner ++ semicolon :: rest) by simp, hws,
        hsplit, List.append_assoc]
    · rw [List.flatMap_append, List.flatMap_singleton]
      exact List.rel_append hspells hlast

end Written

/-! ## What is read and what becomes of it -/

/-- A source that is read has tokens, which spell what it is read as. -/
theorem spells_of_parse {source : String} {file : GrammarFile} (h : parse source = .ok file) :
    ∃ l stream body eof, lexer = .ok l ∧ l.lex source = .ok stream ∧
      stream.tokens.toList = body ++ [eof] ∧ eof.kind = Token.eofKind ∧
      Spells body file.declarations := by
  obtain ⟨l, t, hl, hr, he, -, hpays⟩ := exists_reader
  cases hlex : l.lex source with
  | error e =>
    rw [parse_of_reader hr, Reader.read_of_lex_error hlex] at h
    cases h
  | ok stream =>
    obtain ⟨body, eof, hcloses, henclosed⟩ := exists_closes hl hlex
    rcases parse_cases hr he hpays hlex hcloses henclosed with ⟨ds, hspells, hok⟩ | ⟨_, _, herror⟩
    · rw [hok] at h
      cases h
      exact ⟨l, stream, body, eof, hl, hlex, hcloses.tokens, hcloses.eof, hspells⟩
    · rw [herror] at h
      cases h

variable {V : Type}

/-- All names of a sound file are fit. -/
theorem Sound.fit_declared {f : GrammarFile} (h : f.Sound) : (f.declared (V := V)).Fit := by
  have hrules := rules_declared (V := V) (f := f)
  refine ⟨?_, fun r hr name hname => ?_⟩
  · rw [← Array.length_toList, hrules, List.length_map]
    exact h.count
  · rw [← Array.mem_toList_iff, hrules] at hr
    obtain ⟨e, he, rfl⟩ := List.mem_map.1 hr
    exact (h.alternative he).names name hname

/-- A component has become a symbol with a name, which is a terminal exactly if no alternative has the
name on its left side. -/
def Becomes (g : Grammar V) (lefts : List String) (name : String) (x : Symbol) : Prop :=
  g.NameOf x name ∧ ((∃ i, x = .terminal i) ↔ name ∉ lefts)

/-- **The rules of a lowered file are its alternatives**, and the symbols of a rule what the components
have become. -/
theorem rules_of_lower {f : GrammarFile} {g : Grammar V} (h : f.lower = .ok g) :
    List.Forall₂ (fun e (r : Rule V) => e.1 = r.name ∧
        List.Forall₂ (Becomes g (f.alternatives.map (·.1))) e.2.components r.symbols)
      f.alternatives g.rules.toList.tail := by
  obtain ⟨hsound, hfinish⟩ := lower_eq_ok_iff.1 h
  obtain ⟨start, -, hnumbered⟩ := Definition.numbered_of_finish hsound.fit_declared hfinish
  have hrules := (follows_of_lower h).rules
  have hpairs : List.Forall₂ (fun e (r : Rule V) => r ∈ g.rules ∧ r.number ≠ 0 ∧ r.name = e.1 ∧
      r.components = e.2.components) f.alternatives g.rules.toList.tail := by
    have hlen := congrArg List.length hrules
    rw [List.length_map, List.length_mapIdx] at hlen
    refine List.forall₂_iff_get.2 ⟨hlen.symm, fun i hi hi' => ?_⟩
    have hget := congrArg (·[i]?) hrules
    simp only [List.getElem?_map, List.getElem?_mapIdx, List.getElem?_eq_getElem hi,
      List.getElem?_eq_getElem hi', Option.map_some, Option.some.injEq, Prod.mk.injEq] at hget
    obtain ⟨hnumber, hname, hcomponents, -⟩ := hget
    refine ⟨?_, Nat.ne_of_gt (hnumber ▸ Nat.succ_pos i), hname, hcomponents⟩
    exact Array.mem_toList_iff.1 (List.mem_of_mem_tail (List.getElem_mem hi'))
  -- the start rule has a name that no component has
  have hlefts : ∀ name, name ≠ Nonterminal.startName →
      ((∃ r ∈ g.rules, r.name = name) ↔ name ∈ f.alternatives.map (·.1)) := by
    intro name hne
    obtain ⟨r₀, hr₀, -, hname₀, -⟩ := hnumbered.startRule
    have hcons : g.rules.toList = r₀ :: g.rules.toList.tail := by
      rw [← Array.getElem?_toList, ← List.head?_eq_getElem?] at hr₀
      exact (List.cons_head?_tail hr₀).symm
    have hnames : f.alternatives.map (·.1) = g.rules.toList.tail.map (·.name) :=
      map_eq_of_forall₂ (hpairs.imp fun e r hr => hr.2.2.1.symm)
    rw [hnames, List.mem_map]
    constructor
    · rintro ⟨r, hr, rfl⟩
      rw [← Array.mem_toList_iff, hcons] at hr
      rcases List.mem_cons.1 hr with rfl | hr
      · exact absurd hname₀ hne
      · exact ⟨r, hr, rfl⟩
    · rintro ⟨r, hr, rfl⟩
      exact ⟨r, Array.mem_toList_iff.1 (List.mem_of_mem_tail hr), rfl⟩
  refine hpairs.imp fun e r ⟨hr, hne, hname, hcomponents⟩ => ⟨hname.symm, ?_⟩
  have hunreserved : ∀ c ∈ r.components, c ≠ Nonterminal.startName := by
    rintro c hc rfl
    exact hnumbered.reserved r hr hne _ (List.mem_cons_of_mem _ hc) (by decide)
  have hsymbols := (List.forall₂_and_left _ _).2 ⟨hunreserved, (hnumbered.symbols r hr).flip⟩
  rw [← hcomponents]
  refine hsymbols.imp ?_
  rintro c x ⟨hc, hx, hiff⟩
  refine ⟨hx, ?_⟩
  rw [← hlefts c hc, ← hiff]
  cases x <;> simp

/-- The rule that a written alternative has become. -/
structure WrittenAlternative.Makes (ws : List WrittenAlternative) (g : Grammar V)
    (w : WrittenAlternative) (r : Rule V) : Prop where
  left : r.name = w.left.value
  /-- Each component, quoted or not, has become a symbol of its name: a terminal exactly if no
  alternative of the file has the name on its left side. -/
  components : List.Forall₂ (fun t x => ∃ name, SpellsSymbol t name ∧ g.NameOf x name ∧
    ((∃ i, x = .terminal i) ↔ ∀ w' ∈ ws, w'.left.value ≠ name)) w.components r.symbols

/-- What the tokens of a source spell is what it is lowered from. -/
theorem ofSource_of_spells {source : String} {body : List Token} {eof : Token}
    {ds : List Declaration} {g : Grammar V}
    (htokens : SimpleLexer.tokens? lexer source = some (body ++ [eof])) (h : Spells body ds)
    (hg : lower ⟨ds⟩ = .ok g) : ∃ l stream, lexer = .ok l ∧ l.lex source = .ok stream ∧
      stream.tokens.toList = body ++ [eof] ∧ Grammar.ofSource source = .ok g := by
  obtain ⟨l, t, hl, hr, he, hd, hpays⟩ := exists_reader
  obtain ⟨stream, hlex, hstream⟩ := SimpleLexer.exists_lex hl _ htokens
  obtain ⟨body', eof', hcloses, henclosed⟩ := exists_closes hl hlex
  obtain ⟨rfl, -⟩ := List.append_inj' (hcloses.tokens.symm.trans hstream) rfl
  refine ⟨l, stream, hl, hlex, hstream, ?_⟩
  unfold Grammar.ofSource
  rw [parse_of_spells hr he hpays hlex hcloses henclosed hd h]
  exact hg

/-- **A component is a terminal exactly if no rule of the file has its name**, and quotes do not count.
The rules of a source but the first are its alternatives, in the order in which they are written. -/
theorem terminal_iff_not_declared {source : String} {g : Grammar V}
    (h : Grammar.ofSource source = .ok g) :
    ∃ l stream, lexer = .ok l ∧ l.lex source = .ok stream ∧
      List.Forall₂ (WrittenAlternative.Makes (written stream.tokens.toList) g)
        (written stream.tokens.toList) g.rules.toList.tail := by
  unfold Grammar.ofSource at h
  obtain ⟨file, hfile, hlower⟩ := exists_of_bind_ok h
  have hparse : parse source = .ok file := by
    cases hp : parse source with
    | error e => rw [hp] at hfile; cases hfile
    | ok f => rw [hp] at hfile; cases hfile; rfl
  obtain ⟨l, stream, body, eof, hl, hlex, htokens, -, hspells⟩ := spells_of_parse hparse
  refine ⟨l, stream, hl, hlex, ?_⟩
  obtain ⟨ws, hws, hwritten⟩ := written_of_spells hspells [eof]
  -- the token that ends the file is no alternative
  have heof : written [eof] = [] := by
    unfold written
    by_cases hk : eof.kind = ";" <;> simp [List.splitOnP_cons_eq_if_modifyHead, hk, writtenAlternatives]
  rw [htokens, hws, heof, List.append_nil]
  have hlefts : ws.map (·.left.value) = file.alternatives.map (·.1) :=
    map_eq_of_forall₂ (hwritten.imp fun w e he => he.1)
  refine forall₂_comp ?_ hwritten (rules_of_lower hlower)
  rintro w e r ⟨hleft, hcomponents⟩ ⟨hname, hbecomes⟩
  refine ⟨hname.symm.trans hleft.symm, forall₂_comp ?_ hcomponents hbecomes⟩
  rintro t name x hspells ⟨hx, hiff⟩
  refine ⟨name, hspells, hx, hiff.trans ?_⟩
  simp [← hlefts]

/-- A quoted component has the name of a rule, two others have none. -/
def clashingSource : String :=
  "%start S;\nS : 'A' \"x\";\nA : 'y';"

/-- Its tokens, up to the one that ends it. -/
def clashingTokens : List Token :=
  [⟨"%start", "%start", 1, 1⟩, ⟨"IDENT", "S", 1, 8⟩, ⟨";", ";", 1, 9⟩,
   ⟨"IDENT", "S", 2, 1⟩, ⟨":", ":", 2, 3⟩, ⟨"QUOTED", "'A'", 2, 5⟩, ⟨"QUOTED", "\"x\"", 2, 9⟩,
   ⟨";", ";", 2, 12⟩,
   ⟨"IDENT", "A", 3, 1⟩, ⟨":", ":", 3, 3⟩, ⟨"QUOTED", "'y'", 3, 5⟩, ⟨";", ";", 3, 8⟩]

/-- The declarations that these spell. -/
def clashingDeclarations : List Declaration :=
  [.start "S", .rule "S" [⟨["A", "x"], none⟩], .rule "A" [⟨["y"], none⟩]]

theorem clashing_spells : Spells clashingTokens clashingDeclarations := by
  have hstart : SpellsDeclaration [⟨"%start", "%start", 1, 1⟩, ⟨"IDENT", "S", 1, 8⟩, ⟨";", ";", 1, 9⟩]
      (.start "S") := .start rfl rfl rfl
  have hquoted : ∀ (q : Char) (text name : String) (line offset : Nat), isQuote q = true →
      text.toList = q :: (name.toList ++ [q]) → SpellsSymbol ⟨"QUOTED", text, line, offset⟩ name :=
    fun q text name line offset hq htext => .quoted rfl hq htext
  have hfirst : SpellsSymbols [⟨"QUOTED", "'A'", 2, 5⟩, ⟨"QUOTED", "\"x\"", 2, 9⟩] ["A", "x"] :=
    (SpellsSymbols.nil.more (hquoted '\'' _ _ 2 5 rfl (by decide))).more
      (hquoted '"' _ _ 2 9 rfl (by decide))
  have hsecond : SpellsSymbols [⟨"QUOTED", "'y'", 3, 5⟩] ["y"] :=
    SpellsSymbols.nil.more (hquoted '\'' _ _ 3 5 rfl (by decide))
  have hS : SpellsDeclaration ((clashingTokens.drop 3).take 5) (.rule "S" [⟨["A", "x"], none⟩]) :=
    .rule rfl rfl (.first (.symbols hfirst .none)) rfl
  have hA : SpellsDeclaration (clashingTokens.drop 8) (.rule "A" [⟨["y"], none⟩]) :=
    .rule rfl rfl (.first (.symbols hsecond .none)) rfl
  exact ((Spells.nil.more hstart).more hS).more hA

/-- The grammar of the source. -/
def clashingGrammar : Grammar Nat :=
  ((GrammarFile.mk clashingDeclarations).lower).toOption.get (by decide +kernel)

theorem clashing_source : ∃ l stream, lexer = .ok l ∧ l.lex clashingSource = .ok stream ∧
    stream.tokens.toList = clashingTokens ++ [Token.eof 3 9] ∧
    Grammar.ofSource clashingSource = .ok clashingGrammar :=
  ofSource_of_spells (by decide +kernel) clashing_spells (eq_ok_get _ _)

/-- Of the three quoted components the first has become a nonterminal, as it has the name of a rule. -/
theorem quoted_components : Grammar.ofSource clashingSource = .ok clashingGrammar ∧
    (∃ l stream, lexer = .ok l ∧ l.lex clashingSource = .ok stream ∧
      List.Forall₂ (WrittenAlternative.Makes (written stream.tokens.toList) clashingGrammar)
        (written stream.tokens.toList) clashingGrammar.rules.toList.tail) ∧
    clashingGrammar.rules.toList.tail.map (·.symbols) =
      [[.nonterminal 2, .terminal 2], [.terminal 3]] := by
  obtain ⟨-, -, -, -, -, hsource⟩ := clashing_source
  exact ⟨hsource, terminal_iff_not_declared hsource, by decide +kernel⟩

/-- A component that is written with quotes and is no terminal. -/
theorem quoted_rule_name : ∃ l stream, lexer = .ok l ∧ l.lex clashingSource = .ok stream ∧
    Grammar.ofSource clashingSource = .ok clashingGrammar ∧
    (written stream.tokens.toList).head? = some ⟨⟨"IDENT", "S", 2, 1⟩,
      [⟨"QUOTED", "'A'", 2, 5⟩, ⟨"QUOTED", "\"x\"", 2, 9⟩]⟩ ∧
    ∃ r, clashingGrammar.rules[1]? = some r ∧ r.symbols.head? = some (.nonterminal 2) ∧
      clashingGrammar.nonterminals.name? 2 = some "A" := by
  obtain ⟨l, stream, hl, hlex, hstream, hsource⟩ := clashing_source
  refine ⟨l, stream, hl, hlex, hsource, ?_, ?_⟩
  · rw [hstream]
    decide +kernel
  · obtain ⟨r, hr, hsymbols⟩ : ∃ r, clashingGrammar.rules[1]? = some r ∧
        r.symbols.head? = some (.nonterminal 2) := by
      have hrule : (clashingGrammar.rules[1]?.map fun r => r.symbols.head?) =
          some (some (.nonterminal 2)) := by
        decide +kernel
      exact Option.map_eq_some_iff.1 hrule
    exact ⟨r, hr, hsymbols, by decide +kernel⟩

end ParserGen.GrammarFile
