import BoundSql.Json.Basic
import BoundSql.Number.Numeral
import BoundSql.Text.Quoted

/-!
# Reading JSON

A text is split into lexemes, and the lexemes are run through a machine with an
explicit stack of unfinished arrays and objects, so nesting is not limited.
-/
namespace BoundSql.Json

inductive Lexeme where
  | openArray
  | closeArray
  | openObject
  | closeObject
  | comma
  | colon
  /-- A string, which may be a value or a key. -/
  | string (s : Text)
  /-- A number or one of the three words. -/
  | scalar (value : Json)

namespace Lexeme

def punctuation? (c : UInt16) : Option Lexeme :=
  if c = Text.unit '[' then some .openArray
  else if c = Text.unit ']' then some .closeArray
  else if c = Text.unit '{' then some .openObject
  else if c = Text.unit '}' then some .closeObject
  else if c = Text.unit ',' then some .comma
  else if c = Text.unit ':' then some .colon
  else none

/-- The lexeme at the front of a text that starts with no space. -/
def read? : Text → Option (Lexeme × Text)
  | [] => none
  | c :: rest =>
    match punctuation? c with
    | some p => some (p, rest)
    | none =>
      if c = Text.Quoted.quote then
        (Text.Quoted.readBody [] rest).map fun (s, rest) => (.string s, rest)
      else match readWord? (c :: rest) with
        | some (some b, rest) => some (.scalar (.bool b), rest)
        | some (none, rest) => some (.scalar .null, rest)
        | none =>
          (Numeral.read? (c :: rest)).map fun (n, rest) => (.scalar (.number n.toDouble), rest)

/-- The lexemes of a text; every lexeme takes a unit, so its length is fuel enough. -/
def split (fuel : Nat) (done : List Lexeme) (t : Text) : Option (List Lexeme) :=
  match skipSpace t with
  | [] => some done.reverse
  | c :: rest =>
    match fuel with
    | 0 => none
    | fuel + 1 =>
      match read? (c :: rest) with
      | some (lexeme, rest) => split fuel (lexeme :: done) rest
      | none => none

def ofText? (t : Text) : Option (List Lexeme) := split t.length [] t

end Lexeme

/-- An array or object that is not closed yet, its contents in reverse. -/
inductive Frame where
  | array (items : List Json)
  | object (members : List (Text × Json)) (key : Text)

/-- What may come next. -/
inductive Expect where
  | value
  /-- A value, or the end of an array that has just been opened. -/
  | valueOrClose
  | key (members : List (Text × Json))
  /-- A key, or the end of an object that has just been opened. -/
  | keyOrClose
  | colon (members : List (Text × Json)) (key : Text)
  /-- A comma or the end of the innermost frame, after a value. -/
  | next (value : Json)

structure Machine where
  stack : List Frame
  expect : Expect

namespace Machine

def value (m : Machine) : Lexeme → Option Machine
  | .openArray => some ⟨.array [] :: m.stack, .valueOrClose⟩
  | .openObject => some ⟨m.stack, .keyOrClose⟩
  | .string s => some ⟨m.stack, .next (.string s)⟩
  | .scalar j => some ⟨m.stack, .next j⟩
  | _ => none

def step (m : Machine) (lexeme : Lexeme) : Option Machine :=
  match m.expect, lexeme, m.stack with
  | .value, _, _ => m.value lexeme
  | .valueOrClose, .closeArray, .array items :: stack =>
    some ⟨stack, .next (.array items.reverse)⟩
  | .valueOrClose, _, _ => m.value lexeme
  | .keyOrClose, .closeObject, _ => some ⟨m.stack, .next (.object [])⟩
  | .keyOrClose, .string key, _ => some ⟨m.stack, .colon [] key⟩
  | .key members, .string key, _ => some ⟨m.stack, .colon members key⟩
  | .colon members key, .colon, _ => some ⟨.object members key :: m.stack, .value⟩
  | .next j, .comma, .array items :: stack => some ⟨.array (j :: items) :: stack, .value⟩
  | .next j, .closeArray, .array items :: stack =>
    some ⟨stack, .next (.array (j :: items).reverse)⟩
  | .next j, .comma, .object members key :: stack =>
    some ⟨stack, .key ((key, j) :: members)⟩
  | .next j, .closeObject, .object members key :: stack =>
    some ⟨stack, .next (ofMembers ((key, j) :: members).reverse)⟩
  | _, _, _ => none

def run (m : Machine) : List Lexeme → Option Machine
  | [] => some m
  | lexeme :: rest =>
    match m.step lexeme with
    | some m => m.run rest
    | none => none

/-- The document that has been read, if it is complete. -/
def result? (m : Machine) : Option Json :=
  match m.stack, m.expect with
  | [], .next j => some j
  | _, _ => none

end Machine

/-- Reads a whole text as one JSON document. -/
def read? (t : Text) : Option Json := do
  let lexemes ← Lexeme.ofText? t
  let machine ← Machine.run ⟨[], .value⟩ lexemes
  machine.result?

end BoundSql.Json
