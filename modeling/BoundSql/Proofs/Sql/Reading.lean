import BoundSql.Proofs.Sql.Lexing

/-!
# Reading conditions

Lexemes read as a formula over comparisons by the precedence of SQL: NOT binds
before AND, AND before OR, parentheses first of all. The reader knows nothing of
filter trees. It goes through the lexemes once and keeps, for each parenthesis
that is open, what was read at that level. A comparison ends where AND, OR or a
parenthesis would end it; the AND after BETWEEN belongs to the comparison. The
whole condition ends where a word stands that another clause begins with.
-/
namespace BoundSql

/-- True, false or unknown. -/
abbrev Truth := Option Bool

namespace Truth

def not : Truth → Truth
  | some b => some !b
  | none => none

/-- False if either side is, true if both are. -/
def and : Truth → Truth → Truth
  | some false, _ => some false
  | _, some false => some false
  | some true, some true => some true
  | _, _ => none

/-- True if either side is, false if both are. -/
def or : Truth → Truth → Truth
  | some true, _ => some true
  | _, some true => some true
  | some false, some false => some false
  | _, _ => none

end Truth

namespace Sql

/-- The connectives that stand between two conditions. -/
inductive Join where
  | and
  | or
  deriving DecidableEq

namespace Join

def keyword : Join → Text
  | .and => "AND"
  | .or => "OR"

def apply : Join → Truth → Truth → Truth
  | .and => Truth.and
  | .or => Truth.or

/-- The truth of no conditions at all. -/
def unit : Join → Truth
  | .and => some true
  | .or => some false

theorem apply_assoc (j : Join) (a b c : Truth) :
    j.apply (j.apply a b) c = j.apply a (j.apply b c) := by
  cases j <;> revert a b c <;> decide

theorem apply_unit (j : Join) (a : Truth) : j.apply a j.unit = a := by
  cases j <;> revert a <;> decide

end Join

/-- A boolean formula over comparisons, each a list of lexemes. -/
inductive Formula where
  | atom (lexemes : List Text)
  | neg (f : Formula)
  | join (j : Join) (f g : Formula)

namespace Formula

/-- The comparisons from left to right. -/
def atoms : Formula → List (List Text)
  | .atom ls => [ls]
  | .neg f => f.atoms
  | .join _ f g => f.atoms ++ g.atoms

/-- The truth under an assignment to the comparisons, of which the first has the given
place. -/
def eval (v : ℕ → Truth) : Formula → ℕ → Truth
  | .atom _, k => v k
  | .neg f, k => (f.eval v k).not
  | .join j f g, k => j.apply (f.eval v k) (g.eval v (k + f.atoms.length))

def negate : ℕ → Formula → Formula
  | 0, f => f
  | n + 1, f => .neg (f.negate n)

/-- A formula after what was joined before it, if anything was. -/
def after (j : Join) : Option Formula → Formula → Formula
  | none, f => f
  | some g, f => .join j g f

/-- All formulas joined from left to right after what came before. -/
def joinAll (j : Join) (before : Option Formula) (fs : List Formula) : Option Formula :=
  fs.foldl (fun acc f => some (after j acc f)) before

end Formula

def isKeyword (keyword x : Text) : Bool :=
  x.map (fun c => if Text.isLower c then c - 32 else c) = keyword

/-- What a lexeme can do to a comparison that is being read. -/
inductive Role where
  | openParen
  | closeParen
  | join (j : Join)
  | between
  /-- A word that another clause begins with. -/
  | clause
  | other
  deriving DecidableEq

/-- The words that the clauses after WHERE begin with. -/
def clauseWords : List Text :=
  List.map Text.ofString ["GROUP", "HAVING", "ORDER", "LIMIT", "OFFSET", "RETURNING"]

def role (x : Text) : Role :=
  if x = Text.ofString "(" then .openParen
  else if x = Text.ofString ")" then .closeParen
  else if isKeyword "AND" x then .join .and
  else if isKeyword "OR" x then .join .or
  else if isKeyword "BETWEEN" x then .between
  else if clauseWords.any (isKeyword · x) then .clause
  else .other

/-- The words that a column and an optional NOT go before. -/
def startsPattern (x : Text) : Bool :=
  isKeyword "IN" x || isKeyword "LIKE" x || isKeyword "ILIKE" x || isKeyword "BETWEEN" x

/-- Can a comparison go on like this after its column, and cannot begin like this? -/
def continuesComparison : List Text → Bool
  | [] => false
  | x :: rest => x.head?.any isSign || isKeyword "IS" x || startsPattern x ||
      (isKeyword "NOT" x && rest.head?.any startsPattern)

/-- Parentheses and BETWEENs that are open in a comparison after one more lexeme, unless
the lexeme ends it. -/
def extend (depth bounds : ℕ) (x : Text) : Option (ℕ × ℕ) :=
  match role x, depth, bounds with
  | .openParen, depth, bounds => some (depth + 1, bounds)
  | .closeParen, 0, _ => none
  | .closeParen, depth + 1, bounds => some (depth, bounds)
  | .between, 0, bounds => some (0, bounds + 1)
  | .join .and, 0, bounds + 1 => some (0, bounds)
  | .join _, 0, _ => none
  | .clause, 0, _ => none
  | _, depth, bounds => some (depth, bounds)

/-- What was read at one level of parentheses before the current operand: the disjuncts
before the last OR, the conjuncts since then, and the NOTs since then. -/
structure Level where
  disjuncts : Option Formula
  conjuncts : Option Formula
  negations : ℕ

namespace Level

/-- A level where only one connective has been read. -/
def of : Join → Option Formula → ℕ → Level
  | .and, before, n => ⟨none, before, n⟩
  | .or, before, n => ⟨before, none, n⟩

/-- The formula of a level whose last operand is the given one. -/
def finish (l : Level) (f : Formula) : Formula :=
  .after .or l.disjuncts (.after .and l.conjuncts (f.negate l.negations))

/-- The level after an operand and a connective. -/
def add (l : Level) (f : Formula) : Join → Level
  | .and => ⟨l.disjuncts, some (.after .and l.conjuncts (f.negate l.negations)), 0⟩
  | .or => ⟨some (l.finish f), none, 0⟩

def negated (l : Level) (n : ℕ) : Level := { l with negations := l.negations + n }

end Level

/-- The operand that is being read: none yet, a comparison, or one in parentheses. -/
inductive Operand where
  | missing
  | comparison (lexemes : List Text) (depth bounds : ℕ)
  | closed (f : Formula)

/-- The operand as a formula, if it can end here. -/
def Operand.formula? : Operand → Option Formula
  | .comparison ls 0 0 => some (.atom ls)
  | .closed f => some f
  | _ => none

structure Reader where
  outer : List Level
  level : Level
  operand : Operand

namespace Reader

def start : Reader := ⟨[], .of .and none 0, .missing⟩

/-- The end of an operand, at a connective or a closing parenthesis. -/
def close (r : Reader) (x : Text) : Option Reader :=
  r.operand.formula?.bind fun f =>
    match role x, r.outer with
    | .join j, outer => some ⟨outer, r.level.add f j, .missing⟩
    | .closeParen, l :: outer => some ⟨outer, l, .closed (r.level.finish f)⟩
    | _, _ => none

/-- One more lexeme. NOT is a negation, unless what follows makes it the column of a
comparison. -/
def step (r : Reader) (x : Text) (rest : List Text) : Option Reader :=
  match r.operand with
  | .missing =>
    match role x with
    | .openParen => some ⟨r.level :: r.outer, .of .and none 0, .missing⟩
    | .closeParen => none
    | _ =>
      if isKeyword "NOT" x && !continuesComparison rest then
        some { r with level := r.level.negated 1 }
      else some { r with operand := .comparison [x] 0 0 }
  | .comparison ls depth bounds =>
    match extend depth bounds x with
    | some (depth, bounds) => some { r with operand := .comparison (ls ++ [x]) depth bounds }
    | none => r.close x
  | .closed _ => r.close x

/-- The formula of all that was read, if it can end here. -/
def formula? (r : Reader) : Option Formula :=
  if r.outer.isEmpty then r.operand.formula?.map r.level.finish else none

/-- The formula up to the end or up to the word of another clause, and the lexemes from there
on, unless the formula ends too early or too late. -/
def read : Reader → List Text → Option (Formula × List Text)
  | r, [] => r.formula?.map fun f => (f, [])
  | r, x :: rest =>
    match role x, r.formula? with
    | .clause, some f => some (f, x :: rest)
    | _, _ => (r.step x rest).bind fun r => r.read rest

end Reader

/-- The formula that a whole text spells. -/
def readCondition (t : Text) : Option Formula :=
  match Reader.start.read (lex t) with
  | some (f, []) => some f
  | _ => none

/-- Lexemes before which a condition ends. -/
def EndsCondition (rest : List Text) : Prop := ∀ x ∈ rest.head?, role x = .clause

lemma endsCondition_nil : EndsCondition [] := by simp [EndsCondition]

/-- Lexemes that are read as one operand, whatever stands before and after them. The operand
is left as it was read, since what follows may still go on with it. -/
def Reads (ls : List Text) (f : Formula) : Prop :=
  ∃ n operand g, operand.formula? = some g ∧ g.negate n = f ∧ ∀ outer level rest,
    Reader.read ⟨outer, level, .missing⟩ (ls ++ rest) =
      Reader.read ⟨outer, level.negated n, operand⟩ rest

namespace Level

@[simp] theorem negated_zero (l : Level) : l.negated 0 = l := rfl

lemma of_none (j : Join) (n : ℕ) : of j none n = ⟨none, none, n⟩ := by cases j <;> rfl

lemma negated_of (j : Join) (before : Option Formula) (n m : ℕ) :
    (of j before n).negated m = of j before (n + m) := by cases j <;> rfl

lemma finish_of (j : Join) (before : Option Formula) (n : ℕ) (f : Formula) :
    (of j before n).finish f = .after j before (f.negate n) := by cases j <;> rfl

lemma add_of (j : Join) (before : Option Formula) (n : ℕ) (f : Formula) :
    (of j before n).add f j = of j (some (.after j before (f.negate n))) 0 := by
  cases j <;> rfl

end Level

namespace Reader

/-- No step goes on from a formula that could end to the word of another clause. -/
lemma step_of_clause {r : Reader} {f : Formula} (h : r.formula? = some f) {x : Text}
    (hx : role x = .clause) (rest : List Text) : r.step x rest = none := by
  obtain ⟨outer, level, operand⟩ := r
  unfold formula? at h
  split_ifs at h
  obtain ⟨g, hg, -⟩ := Option.map_eq_some_iff.mp h
  have hclose : close ⟨outer, level, operand⟩ x = none := by simp [close, hx]
  match operand with
  | .missing => cases hg
  | .closed g => exact hclose
  | .comparison ls 0 0 =>
    have hend : extend 0 0 x = none := by simp [extend, hx]
    simp only [step, hend, hclose]
  | .comparison ls (depth + 1) bounds => cases hg
  | .comparison ls 0 (bounds + 1) => cases hg

lemma read_of_step {r r' : Reader} {x : Text} {rest : List Text} (h : r.step x rest = some r') :
    r.read (x :: rest) = r'.read rest := by
  rw [read]
  split
  · next f hx hf =>
    rw [step_of_clause hf hx] at h
    cases h
  · rw [h, Option.bind_some]

lemma read_of_ends {r : Reader} {f : Formula} (h : r.formula? = some f) {rest : List Text}
    (hrest : EndsCondition rest) : r.read rest = some (f, rest) := by
  cases rest with
  | nil => rw [read, h, Option.map_some]
  | cons x rest =>
    have hx : role x = .clause := hrest x rfl
    rw [read, hx, h]

lemma role_closeParen : role (Text.ofString ")") = .closeParen := rfl

lemma role_keyword (j : Join) : role j.keyword = .join j := by cases j <;> decide

/-- An operand that can end does so at a connective and at a closing parenthesis. -/
lemma step_of_complete {outer : List Level} {level : Level} {operand : Operand} {f : Formula}
    (h : operand.formula? = some f) {x : Text}
    (hx : role x = .closeParen ∨ ∃ j, role x = .join j) (rest : List Text) :
    step ⟨outer, level, operand⟩ x rest = close ⟨outer, level, operand⟩ x := by
  match operand with
  | .missing => simp [Operand.formula?] at h
  | .closed g => rfl
  | .comparison ls 0 0 =>
    have hend : extend 0 0 x = none := by
      rcases hx with hx | ⟨j, hx⟩
      · simp [extend, hx]
      · cases j <;> simp [extend, hx]
    simp only [step, hend]
  | .comparison ls (depth + 1) bounds => simp [Operand.formula?] at h
  | .comparison ls 0 (bounds + 1) => simp [Operand.formula?] at h

lemma read_closeParen {l level : Level} {outer : List Level} {operand : Operand} {f : Formula}
    (h : operand.formula? = some f) (rest : List Text) :
    read ⟨l :: outer, level, operand⟩ (Text.ofString ")" :: rest) =
      read ⟨outer, l, .closed (level.finish f)⟩ rest := by
  refine read_of_step ((step_of_complete h (.inl role_closeParen) rest).trans ?_)
  simp only [close, h, Option.bind_some, role_closeParen]

lemma read_keyword (j : Join) {level : Level} {outer : List Level} {operand : Operand}
    {f : Formula} (h : operand.formula? = some f) (rest : List Text) :
    read ⟨outer, level, operand⟩ (j.keyword :: rest) =
      read ⟨outer, level.add f j, .missing⟩ rest := by
  refine read_of_step ((step_of_complete h (.inr ⟨j, role_keyword j⟩) rest).trans ?_)
  simp only [close, h, Option.bind_some, role_keyword]

lemma read_openParen (outer : List Level) (level : Level) (rest : List Text) :
    read ⟨outer, level, .missing⟩ (Text.ofString "(" :: rest) =
      read ⟨level :: outer, .of .and none 0, .missing⟩ rest := rfl

/-- Parentheses and BETWEENs that are open after several lexemes. -/
def extendAll : ℕ → ℕ → List Text → Option (ℕ × ℕ)
  | depth, bounds, [] => some (depth, bounds)
  | depth, bounds, x :: rest => (extend depth bounds x).bind fun s => extendAll s.1 s.2 rest

lemma read_comparison {tail : List Text} {depth bounds depth' bounds' : ℕ}
    (h : extendAll depth bounds tail = some (depth', bounds')) (outer : List Level)
    (level : Level) (ls rest : List Text) :
    read ⟨outer, level, .comparison ls depth bounds⟩ (tail ++ rest) =
      read ⟨outer, level, .comparison (ls ++ tail) depth' bounds'⟩ rest := by
  induction tail generalizing depth bounds ls with
  | nil =>
    obtain ⟨rfl, rfl⟩ := Prod.mk.inj (Option.some.inj h)
    simp
  | cons x tail ih =>
    obtain ⟨s, hs, htail⟩ := Option.bind_eq_some_iff.mp h
    have hstep : step ⟨outer, level, .comparison ls depth bounds⟩ x (tail ++ rest) =
        some ⟨outer, level, .comparison (ls ++ [x]) s.1 s.2⟩ := by simp only [step, hs]
    rw [List.cons_append, read_of_step hstep, ih htail]
    simp

end Reader

open Reader

lemma continuesComparison_append {ls : List Text} (h : continuesComparison ls = true)
    (rest : List Text) : continuesComparison (ls ++ rest) = true := by
  match ls with
  | [] => simp [continuesComparison] at h
  | [x] =>
    simp only [continuesComparison, List.head?_nil, Option.any_none, Bool.and_false,
      Bool.or_false] at h
    simp [continuesComparison, h]
  | x :: y :: ls => exact h

/-- A column and what goes on from it is one comparison. -/
theorem reads_comparison {x : Text} {tail : List Text} (hopen : role x ≠ .openParen)
    (hclose : role x ≠ .closeParen)
    (hnot : isKeyword "NOT" x = true → continuesComparison tail = true)
    (htail : extendAll 0 0 tail = some (0, 0)) : Reads (x :: tail) (.atom (x :: tail)) := by
  refine ⟨0, .comparison (x :: tail) 0 0, .atom (x :: tail), rfl, rfl, fun outer level rest => ?_⟩
  have hneg : (isKeyword "NOT" x && !continuesComparison (tail ++ rest)) = false := by
    by_cases hx : isKeyword "NOT" x = true
    · rw [continuesComparison_append (hnot hx)]
      simp
    · simp [hx]
  have hstep : step ⟨outer, level, .missing⟩ x (tail ++ rest) =
      some ⟨outer, level, .comparison [x] 0 0⟩ := by
    cases hrole : role x with
    | openParen => exact absurd hrole hopen
    | closeParen => exact absurd hrole hclose
    | _ => simp [step, hrole, hneg]
  rw [List.cons_append, read_of_step hstep, read_comparison htail]
  rfl

/-- A condition in parentheses after NOT is its negation. -/
theorem reads_negation {ls : List Text} {f : Formula} (h : Reads ls f) :
    Reads (Text.ofString "NOT" :: Text.ofString "(" :: (ls ++ [Text.ofString ")"])) (.neg f) := by
  obtain ⟨n, operand, g, hg, rfl, hread⟩ := h
  refine ⟨1, .closed (g.negate n), g.negate n, rfl, rfl, fun outer level rest => ?_⟩
  have hstep : ∀ tail, step ⟨outer, level, .missing⟩ (Text.ofString "NOT")
      (Text.ofString "(" :: tail) = some ⟨outer, level.negated 1, .missing⟩ := fun _ => rfl
  rw [List.cons_append, List.cons_append, List.append_assoc, read_of_step (hstep _),
    read_openParen, hread, List.singleton_append, read_closeParen hg, Level.negated_of,
    Level.finish_of]
  simp [Formula.after]

/-- Operands joined by one connective, read at a level of their own. -/
theorem read_joined (j : Join) {lss : List (List Text)} {fs : List Formula}
    (h : List.Forall₂ Reads lss fs) (hne : lss ≠ []) (before : Option Formula) :
    ∃ before' n operand g, operand.formula? = some g ∧
      some (.after j before' (g.negate n)) = Formula.joinAll j before fs ∧ ∀ outer rest,
        read ⟨outer, .of j before 0, .missing⟩ (List.intercalate [j.keyword] lss ++ rest) =
          read ⟨outer, .of j before' n, operand⟩ rest := by
  induction h generalizing before with
  | nil => exact absurd rfl hne
  | @cons ls f lss fs hfirst hrest ih =>
    obtain ⟨n, operand, g, hg, rfl, hread⟩ := hfirst
    cases hrest with
    | nil =>
      refine ⟨before, n, operand, g, hg, rfl, fun outer rest => ?_⟩
      rw [List.intercalate_singleton, hread, Level.negated_of, Nat.zero_add]
    | @cons ls' f' lss fs hsecond hrest =>
      obtain ⟨before', m, operand', g', hg', hjoin, hread'⟩ :=
        ih (by simp) (some (.after j before (g.negate n)))
      refine ⟨before', m, operand', g', hg', hjoin, fun outer rest => ?_⟩
      rw [List.intercalate_cons_cons, List.append_assoc, List.append_assoc, hread,
        List.singleton_append, read_keyword j hg, Level.negated_of, Nat.zero_add, Level.add_of,
        hread']

/-- Operands joined by one connective in parentheses. -/
theorem reads_group (j : Join) {lss : List (List Text)} {fs : List Formula} {f : Formula}
    (h : List.Forall₂ Reads lss fs) (hne : lss ≠ [])
    (hjoin : Formula.joinAll j none fs = some f) :
    Reads (Text.ofString "(" :: (List.intercalate [j.keyword] lss ++ [Text.ofString ")"])) f := by
  obtain ⟨before, n, operand, g, hg, hf, hread⟩ := read_joined j h hne none
  rw [hjoin, Option.some_inj] at hf
  refine ⟨0, .closed f, f, rfl, rfl, fun outer level rest => ?_⟩
  have hlevel : Level.of .and none 0 = .of j none 0 := by rw [Level.of_none, Level.of_none]
  rw [List.cons_append, List.append_assoc, read_openParen, hlevel, hread, List.singleton_append,
    read_closeParen hg, Level.finish_of, hf, Level.negated_zero]

/-- Conditions joined by AND without parentheses are a whole condition, whatever clause comes
after it. -/
theorem read_conjunction {lss : List (List Text)} {fs : List Formula} {f : Formula}
    (h : List.Forall₂ Reads lss fs) (hne : lss ≠ [])
    (hjoin : Formula.joinAll .and none fs = some f) {rest : List Text}
    (hrest : EndsCondition rest) :
    Reader.start.read (List.intercalate [Join.and.keyword] lss ++ rest) = some (f, rest) := by
  obtain ⟨before, n, operand, g, hg, hf, hread⟩ := read_joined .and h hne none
  rw [hjoin, Option.some_inj] at hf
  rw [start, hread]
  refine read_of_ends ?_ hrest
  simp [formula?, hg, Level.finish_of, hf]

theorem readCondition_of_conjunction {t : Text} {lss : List (List Text)} {fs : List Formula}
    {f : Formula} (hlex : lex t = List.intercalate [Join.and.keyword] lss)
    (h : List.Forall₂ Reads lss fs) (hne : lss ≠ [])
    (hjoin : Formula.joinAll .and none fs = some f) : readCondition t = some f := by
  have hread := read_conjunction h hne hjoin endsCondition_nil
  rw [List.append_nil] at hread
  rw [readCondition, hlex, hread]

theorem readCondition_of_reads {t : Text} {ls : List Text} {f : Formula} (hlex : lex t = ls)
    (h : Reads ls f) : readCondition t = some f :=
  readCondition_of_conjunction (hlex.trans (List.intercalate_singleton).symm) (.cons h .nil)
    (by simp) rfl

-- The levels of precedence that no condition of a tree shows without parentheses.
example : readCondition (Text.ofString "a = 1 OR NOT (b < 2) AND c BETWEEN 3 AND 4") =
    some (.join .or (.atom ["a", "=", "1"]) (.join .and (.neg (.atom ["b", "<", "2"]))
      (.atom ["c", "BETWEEN", "3", "AND", "4"]))) := by
  rfl

end Sql
end BoundSql
