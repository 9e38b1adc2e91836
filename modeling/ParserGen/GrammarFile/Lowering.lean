import ParserGen.Decimal.Basic
import ParserGen.GrammarFile.Reader

/-!
# From a grammar file to a grammar

The declarations are applied in the order of the file. The first one that fails is the error.
-/

namespace ParserGen

namespace GrammarFile

/-- Why a grammar file gives no grammar. -/
inductive Error where
  /-- The file cannot be read. -/
  | file (error : FileError)
  /-- The text is no grammar file. -/
  | malformed (error : SyntaxError)
  | definition (error : DefinitionError)
  | unknownMode (mode : String) (line : Nat)
  /-- The number is not below `2 ^ 32`. -/
  | invalidPrecedence (digits : String) (line : Nat)
deriving DecidableEq, Inhabited

/-- The wording of the error. -/
def Error.message : Error → String
  | .file e => "IO error: " ++ e.message
  | .malformed e => "syntax error: " ++ e.message
  | .definition e => e.message
  | .unknownMode mode line => "unknown resolution mode `" ++ mode ++ "' at line " ++ toString line
  | .invalidPrecedence digits line =>
    "invalid precedence `" ++ digits ++ "' at line " ++ toString line

/-- The value of a number of at most 32 bits. -/
def Number.value? (n : Number) : Option Nat :=
  Text.unsigned? UInt32.size n.digits

variable {V : Type}

/-- Makes one call to a definition. -/
def apply {α : Type} (call : Builder V α) (d : Definition V) : Except Error (Definition V) :=
  match call d with
  | (.ok _, d) => .ok d
  | (.error e, _) => .error (.definition e)

/-- Sets the precedence of what was declared last. -/
def applyPrecedence (n : Number) (d : Definition V) : Except Error (Definition V) :=
  match n.value? with
  | some priority => apply (Builder.prec priority) d
  | none => .error (.invalidPrecedence n.digits n.line)

/-- The policy of a list of modes. -/
def policyOf (modes : List String) (line : Nat) : Except Error Policy :=
  modes.foldlM (fun p mode =>
    match Policy.ofName? mode with
    | some q => .ok (p.union q)
    | none => .error (.unknownMode mode line)) Policy.none

/-- Adds one alternative of a nonterminal. -/
def applyAlternative (name : String) (d : Definition V) (a : Alternative) :
    Except Error (Definition V) := do
  let d ← apply (Builder.rule name a.components) d
  match a.precedence with
  | some n => applyPrecedence n d
  | none => return d

/-- Applies one declaration. -/
def applyDeclaration (d : Definition V) : Declaration → Except Error (Definition V)
  | .start name => apply (Builder.start name) d
  | .resolve modes line => do
    let policy ← policyOf modes line
    apply (Builder.resolve policy) d
  | .operators assoc precedence symbols => do
    let d ← apply (Builder.operators symbols) d
    let d ← apply (Builder.assoc assoc) d
    applyPrecedence precedence d
  | .rule name alternatives => alternatives.foldlM (applyAlternative name) d

/-- The grammar of a file. Its rules have no callbacks. -/
def lower (file : GrammarFile) : Except Error (Grammar V) := do
  let d ← file.declarations.foldlM applyDeclaration Definition.empty
  d.finish.mapError .definition

end GrammarFile

namespace Grammar

variable {V : Type}

/-- The grammar that the text of a grammar file describes. -/
def ofSource (source : String) : Except GrammarFile.Error (Grammar V) := do
  let file ← (GrammarFile.parse source).mapError .malformed
  file.lower

/-- The grammar that the bytes of a grammar file describe, if they could be read. -/
def ofBytes (contents : Except FileError ByteArray) : Except GrammarFile.Error (Grammar V) := do
  let bytes ← contents.mapError .file
  match String.fromUTF8? bytes with
  | some source => ofSource source
  | none => .error (.file .invalidText)

end Grammar

end ParserGen
