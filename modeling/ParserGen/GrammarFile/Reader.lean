import ParserGen.Grammar.Definition
import ParserGen.GrammarFile.Basic
import ParserGen.Reader

/-!
# Reading grammar files

The format of grammar files:

```text
// comments run to the end of the line
%start Expr;
%resolve shift operators;
%left 1 '+' '-';
%right 3 '**';

Expr : Expr '+' Expr
     | '-' Expr %prec 4
     | INT
     ;
Opt  : %empty | Expr ;
```

The format has a grammar of its own, and files are read by the parser of that grammar.
-/

namespace ParserGen

namespace GrammarFile

/-- The value of a phrase of the format. -/
inductive Node where
  | empty
  | token (t : Token)
  | declarations (ds : List Declaration)
  | declaration (d : Declaration)
  | assoc (a : Associativity)
  | name (n : String)
  | names (ns : List String)
  | alternatives (as : List Alternative)
  | alternative (a : Alternative)
  | precedence (p : Option Number)
  /-- The parts of the phrase do not have the values that its rule gives them. -/
  | broken

instance : Inhabited Node := ⟨.empty⟩

/-- The kinds of tokens with a fixed text. -/
def keywords : List String :=
  ["%start", "%resolve", "%left", "%right", "%nonassoc", "%prec", "%empty", ":", "|", ";"]

/-- The kinds of tokens with a pattern. -/
def tokenPatterns : List (String × String) :=
  [("IDENT", "[A-Za-z_][A-Za-z0-9_]*"),
   ("QUOTED", "'[^'\\n]+'|\"[^\"\\n]+\""),
   ("INT", "[0-9]+"),
   ("WSP", "\\s+"),
   ("COMMENT", "//[^\\n]*")]

/-- The lexer of the format. -/
def lexer : Except LexError SimpleLexer := do
  let l ← tokenPatterns.foldlM (fun l (kind, pattern) => l.pattern kind pattern)
    (keywords.foldl SimpleLexer.token .empty)
  return l.skip ["WSP", "COMMENT"]

/-- The number that a token holds. -/
def number (t : Token) : Number :=
  { digits := t.value, line := t.line }

/-- Whether a character can enclose a quoted symbol. -/
def isQuote (c : Char) : Bool :=
  c == '\'' || c == '"'

/-- A quoted symbol without its quotes. -/
def unquote (quoted : String) : String :=
  match quoted.toList with
  | first :: rest =>
    if isQuote first && rest.getLast?.any isQuote then String.ofList rest.dropLast else quoted
  | [] => quoted

/-- Adds a name to a list of names. -/
def pushName : List Node → Node
  | [.names ns, .name n] => .names (ns ++ [n])
  | _ => .broken

/-- The rules of the format with the values of their phrases. -/
def rules : List (String × List String × (List Node → Node)) :=
  [("Decls", ["Decls", "Decl"], fun
      | [.declarations ds, .declaration d] => .declarations (ds ++ [d])
      | _ => .broken),
   ("Decls", [], fun _ => .declarations []),
   ("Decl", ["%start", "IDENT", ";"], fun
      | [_, .token name, _] => .declaration (.start name.value)
      | _ => .broken),
   ("Decl", ["%resolve", "Names", ";"], fun
      | [.token keyword, .names modes, _] => .declaration (.resolve modes keyword.line)
      | _ => .broken),
   ("Decl", ["Assoc", "INT", "Symbols", ";"], fun
      | [.assoc a, .token int, .names symbols, _] =>
        .declaration (.operators a (number int) symbols)
      | _ => .broken),
   ("Decl", ["IDENT", ":", "Alternatives", ";"], fun
      | [.token name, _, .alternatives as, _] => .declaration (.rule name.value as)
      | _ => .broken),
   ("Assoc", ["%left"], fun _ => .assoc .left),
   ("Assoc", ["%right"], fun _ => .assoc .right),
   ("Assoc", ["%nonassoc"], fun _ => .assoc .nonassoc),
   ("Names", ["Names", "IDENT"], fun
      | [.names ns, .token name] => .names (ns ++ [name.value])
      | _ => .broken),
   ("Names", ["IDENT"], fun
      | [.token name] => .names [name.value]
      | _ => .broken),
   ("Symbols", ["Symbols", "Symbol"], pushName),
   ("Symbols", ["Symbol"], fun
      | [.name n] => .names [n]
      | _ => .broken),
   ("Symbol", ["IDENT"], fun
      | [.token name] => .name name.value
      | _ => .broken),
   ("Symbol", ["QUOTED"], fun
      | [.token quoted] => .name (unquote quoted.value)
      | _ => .broken),
   ("Alternatives", ["Alternatives", "|", "Alternative"], fun
      | [.alternatives as, _, .alternative a] => .alternatives (as ++ [a])
      | _ => .broken),
   ("Alternatives", ["Alternative"], fun
      | [.alternative a] => .alternatives [a]
      | _ => .broken),
   ("Alternative", ["Sequence", "Prec"], fun
      | [.names components, .precedence p] => .alternative { components, precedence := p }
      | _ => .broken),
   ("Alternative", ["%empty", "Prec"], fun
      | [_, .precedence p] => .alternative { components := [], precedence := p }
      | _ => .broken),
   ("Sequence", ["Sequence", "Symbol"], pushName),
   ("Sequence", [], fun _ => .names []),
   ("Prec", ["%prec", "INT"], fun
      | [_, .token int] => .precedence (some (number int))
      | _ => .broken),
   ("Prec", [], fun _ => .precedence none)]

/-- The definition of the format's grammar. It has no conflicts. -/
def calls : Builder Node Unit := do
  rules.forM fun (name, components, callback) => do
    let _ ← Builder.rule name components
    Builder.call callback
  Builder.start "Decls"
  Builder.resolve .none

/-- The reader of the format, which is set up once. -/
def reader? : Option (Reader Node) :=
  Reader.ofParts? lexer (Grammar.define calls)

/-- The steps that suffice for each token of a file. -/
def stepsPerToken : Nat := 64

/-- The file that the value of a whole text stands for. -/
def Node.file? : Node → Option GrammarFile
  | .declarations ds => some ⟨ds⟩
  | _ => none

/-- Reads a grammar file. -/
def parse (source : String) : Except SyntaxError GrammarFile :=
  match reader? with
  | none => .error .internal
  | some r => r.read Node.token stepsPerToken Node.file? source

end GrammarFile

end ParserGen
