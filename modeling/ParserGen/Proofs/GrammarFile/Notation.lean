import ParserGen.GrammarFile.Reader

/-!
# How grammar files are written

The tokens that the parts of a grammar file are written with. Symbols are identifiers, or stand between
quotes; numbers are kept as they are written, with the lines they stand on.

* `SpellsSymbol`, `SpellsPrecedence`, `SpellsAlternative`, `SpellsAlternatives`: the right side of
  a rule.
* `SpellsDeclaration`: the four forms of declarations.
* `Spells`: the declarations of a file, one after the other.
-/

namespace ParserGen.GrammarFile

/-- The name of a symbol, which may be enclosed in quotes. -/
inductive SpellsSymbol : Token → String → Prop where
  | ident {t : Token} (hk : t.kind = "IDENT") : SpellsSymbol t t.value
  | quoted {t : Token} {name : String} {quote : Char} (hk : t.kind = "QUOTED")
      (hq : isQuote quote = true) (hv : t.value.toList = quote :: (name.toList ++ [quote])) :
      SpellsSymbol t name

/-- The names of symbols, one after the other. -/
inductive SpellsSymbols : List Token → List String → Prop where
  | nil : SpellsSymbols [] []
  | more {ts : List Token} {names : List String} {t : Token} {name : String} (h : SpellsSymbols ts names)
      (hs : SpellsSymbol t name) : SpellsSymbols (ts ++ [t]) (names ++ [name])

/-- A precedence, or none. -/
inductive SpellsPrecedence : List Token → Option Number → Prop where
  | none : SpellsPrecedence [] none
  | some {keyword int : Token} (hk : keyword.kind = "%prec") (hi : int.kind = "INT") :
      SpellsPrecedence [keyword, int] (some ⟨int.value, int.line⟩)

/-- An alternative: its symbols, or that it is empty, and then its precedence. -/
inductive SpellsAlternative : List Token → Alternative → Prop where
  | symbols {ts ps : List Token} {names : List String} {p : Option Number} (h : SpellsSymbols ts names)
      (hp : SpellsPrecedence ps p) : SpellsAlternative (ts ++ ps) ⟨names, p⟩
  | empty {keyword : Token} {ps : List Token} {p : Option Number} (hk : keyword.kind = "%empty")
      (hp : SpellsPrecedence ps p) : SpellsAlternative (keyword :: ps) ⟨[], p⟩

/-- The alternatives of a rule, with bars between them. -/
inductive SpellsAlternatives : List Token → List Alternative → Prop where
  | first {ts : List Token} {a : Alternative} (h : SpellsAlternative ts a) : SpellsAlternatives ts [a]
  | more {ts us : List Token} {as : List Alternative} {bar : Token} {a : Alternative}
      (h : SpellsAlternatives ts as) (hb : bar.kind = "|") (ha : SpellsAlternative us a) :
      SpellsAlternatives (ts ++ bar :: us) (as ++ [a])

/-- The keyword of an associativity. -/
def assocKeyword : Associativity → String
  | .left => "%left"
  | .right => "%right"
  | .nonassoc => "%nonassoc"

/-- A declaration. -/
inductive SpellsDeclaration : List Token → Declaration → Prop where
  | start {keyword name semicolon : Token} (hk : keyword.kind = "%start") (hn : name.kind = "IDENT")
      (hs : semicolon.kind = ";") : SpellsDeclaration [keyword, name, semicolon] (.start name.value)
  | resolve {keyword semicolon : Token} {modes : List Token} (hk : keyword.kind = "%resolve")
      (hm : ∀ mode ∈ modes, mode.kind = "IDENT") (hne : modes ≠ []) (hs : semicolon.kind = ";") :
      SpellsDeclaration (keyword :: (modes ++ [semicolon]))
        (.resolve (modes.map (·.value)) keyword.line)
  | operators {keyword int semicolon : Token} {a : Associativity} {ts : List Token}
      {names : List String} (hk : keyword.kind = assocKeyword a) (hi : int.kind = "INT")
      (h : SpellsSymbols ts names) (hne : ts ≠ []) (hs : semicolon.kind = ";") :
      SpellsDeclaration (keyword :: int :: (ts ++ [semicolon]))
        (.operators a ⟨int.value, int.line⟩ names)
  | rule {name colon semicolon : Token} {ts : List Token} {as : List Alternative}
      (hn : name.kind = "IDENT") (hc : colon.kind = ":") (h : SpellsAlternatives ts as)
      (hs : semicolon.kind = ";") :
      SpellsDeclaration (name :: colon :: (ts ++ [semicolon])) (.rule name.value as)

/-- The declarations of a file, in order. -/
inductive Spells : List Token → List Declaration → Prop where
  | nil : Spells [] []
  | more {ts us : List Token} {ds : List Declaration} {d : Declaration} (h : Spells ts ds)
      (hd : SpellsDeclaration us d) : Spells (ts ++ us) (ds ++ [d])

end ParserGen.GrammarFile
