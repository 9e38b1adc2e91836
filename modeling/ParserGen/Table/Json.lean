import ParserGen.Table.Basic
import ParserGen.Text.Json

/-!
# Tables as JSON

A table is written as an object with the fields `action` and `goto`, each an object from state
numbers to rows, without white space and in order. It is read back from that form, and also from an
array of the two parts; other fields are skipped. A table that is loaded must not refer to states
that have no row of actions.
-/

namespace ParserGen

/-- Why a table cannot be loaded. -/
inductive TableError where
  /-- The text is not a table in JSON. -/
  | malformed
  /-- An entry leads to a state without a row. -/
  | danglingState (state : Nat) (symbol : String) (target : Nat)
deriving DecidableEq, Inhabited

/-- The wording of the error. -/
def TableError.message : TableError → String
  | .malformed => "malformed parse table"
  | .danglingState state symbol target =>
    "state " ++ toString state ++ " refers to the unknown state " ++ toString target ++ " on `" ++
      symbol ++ "'"

namespace ParseTable

/-! ## Writing -/

/-- An object with the given members, each already written. -/
def writeObject (members : List String) : String :=
  "\x7b" ++ ",".intercalate members ++ "\x7d"

/-- One half of the table, with a way to write its entries. -/
def writeRows {ν : Type} (write : ν → String) (m : OrderedMap Nat (OrderedMap String ν)) : String :=
  writeObject (m.entries.map fun (state, row) =>
    "\"" ++ toString state ++ "\":" ++
      writeObject (row.entries.map fun (name, v) => Json.writeString name ++ ":" ++ write v))

/-- The table as JSON. -/
def toJson (t : ParseTable) : String :=
  writeObject
    ["\"action\":" ++ writeRows (fun raw => toString raw) t.action,
     "\"goto\":" ++ writeRows (fun next => toString next) t.goto]

/-- The table as a file with one line of JSON. -/
def production (t : ParseTable) : String :=
  t.toJson ++ "\n"

/-! ## Reading -/

/-- Reads a state number that is a key: plain digits between quotes. -/
def readState : Json.Reader Nat
  | '"' :: cs => do
    let (n, cs) ← Json.readWord cs
    let cs ← Json.expect '"' cs
    return (n, cs)
  | _ => none

/-- Reads one half of the table. A repeated key keeps its place and takes the last value. -/
def readRows {ν : Type} (readEntry : Json.Reader ν) :
    Json.Reader (OrderedMap Nat (OrderedMap String ν)) := fun cs => do
  let (rows, cs) ← Json.readObject readState (Json.readObject Json.readString readEntry) cs
  return (.ofList (rows.map fun (state, row) => (state, .ofList row)), cs)

/-- Reads the actions. -/
def readActions : Json.Reader (OrderedMap Nat (OrderedMap String Int)) :=
  readRows Json.readInt

/-- Reads the gotos. -/
def readGotos : Json.Reader (OrderedMap Nat (OrderedMap String Nat)) :=
  readRows Json.readWord

/-- The parts of a table read so far. -/
structure Parts where
  action : Option (OrderedMap Nat (OrderedMap String Int)) := none
  goto : Option (OrderedMap Nat (OrderedMap String Nat)) := none

/-- Reads the field with a name. A part that was read before is refused. -/
def readField (parts : Parts) (name : String) : Json.Reader Parts := fun cs =>
  if name = "action" then
    if parts.action.isSome then none
    else (readActions cs).map fun (m, cs) => ({ parts with action := some m }, cs)
  else if name = "goto" then
    if parts.goto.isSome then none
    else (readGotos cs).map fun (m, cs) => ({ parts with goto := some m }, cs)
  else (Json.skipValue (cs.length + 1) cs).map fun cs => (parts, cs)

/-- Reads the fields of a table up to the closing brace. -/
def readFields : Nat → Parts → Json.Reader Parts
  | 0, _, _ => none
  | fuel + 1, parts, cs => do
    let (name, cs) ← Json.readString (Json.skipSpace cs)
    let cs ← Json.expect ':' (Json.skipSpace cs)
    let (parts, cs) ← readField parts name (Json.skipSpace cs)
    match Json.skipSpace cs with
    | ',' :: cs => readFields fuel parts cs
    | '\x7d' :: cs => return (parts, cs)
    | _ => none

/-- Reads a table, as an object or as an array of its two parts. -/
def readTable : Json.Reader ParseTable
  | '\x7b' :: cs => do
    let (parts, cs) ← readFields (cs.length + 1) {} cs
    let action ← parts.action
    let goto ← parts.goto
    return (⟨action, goto⟩, cs)
  | '[' :: cs => do
    let (action, cs) ← readActions (Json.skipSpace cs)
    let cs ← Json.expect ',' (Json.skipSpace cs)
    let (goto, cs) ← readGotos (Json.skipSpace cs)
    let cs ← Json.expect ']' (Json.skipSpace cs)
    return (⟨action, goto⟩, cs)
  | _ => none

/-- The table that a text describes. -/
def ofJson? (text : String) : Option ParseTable := do
  let (t, rest) ← readTable (Json.skipSpace text.toList)
  if (Json.skipSpace rest).isEmpty then some t else none

/-- The error for an entry that leads to a state without a row of actions. -/
def unknown? (t : ParseTable) (state : Nat) (symbol : String) (target : Nat) : Option TableError :=
  if t.action.contains target then none else some (.danglingState state symbol target)

/-- The error for an action that shifts to a state without a row of actions. -/
def unknownShift? (t : ParseTable) (state : Nat) (e : String × Int) : Option TableError :=
  match Action.decode e.2 with
  | .shift next => t.unknown? state e.1 next
  | _ => none

/-- The first entry that leads to a state without a row of actions: shifts first, then gotos. -/
def dangling? (t : ParseTable) : Option TableError :=
  match t.action.entries.findSome? fun (state, row) => row.entries.findSome? (t.unknownShift? state) with
  | some e => some e
  | none => t.goto.entries.findSome? fun (state, row) =>
      row.entries.findSome? fun e => t.unknown? state e.1 e.2

/-- Loads a table from JSON. -/
def load (text : String) : Except TableError ParseTable :=
  match ofJson? text with
  | none => .error .malformed
  | some t =>
    match t.dangling? with
    | some e => .error e
    | none => .ok t

end ParseTable

end ParserGen
