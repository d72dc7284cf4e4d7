import BoundSql.Proofs.Filter.Trees
import BoundSql.Proofs.Sql.Tokens

/-!
# Statements with their values in place

A layout is the text of a statement in which each value still stands where its
placeholder will be. It knows no numbers: they are given to the values from left
to right afterwards. A piece of a statement that is handed a number and answers
the next one lays out what it should when it does the same.
-/
namespace BoundSql.Sql

/-- A token, or a value at the place of its placeholder. -/
inductive Slot where
  | token (t : Token)
  | value (v : Value)

abbrev Layout := List Slot

namespace Layout

/-- Text without values. -/
def fixed (ts : List Token) : Layout := ts.map .token

/-- The values from left to right. -/
def values : Layout → List Value
  | [] => []
  | .token _ :: rest => values rest
  | .value v :: rest => v :: values rest

/-- The tokens of a layout, its values numbered from left to right. -/
def number (d : Dialect) : ℕ → Layout → List Token
  | _, [] => []
  | n, .token t :: rest => t :: number d n rest
  | n, .value _ :: rest => .placeholder d (.ofNat n) :: number d (n + 1) rest

/-- Several layouts, numbered through. -/
def numberAll (d : Dialect) : ℕ → List Layout → List (List Token)
  | _, [] => []
  | n, l :: ls => number d n l :: numberAll d (n + l.values.length) ls

/-- A layout between parentheses. -/
def paren (l : Layout) : Layout := .token openParen :: (l ++ [.token closeParen])

/-- Layouts with a comma and a space between neighbours. -/
def commaList (ls : List Layout) : Layout :=
  List.intercalate (fixed [.symbol .comma, space]) ls

@[simp] theorem values_nil : values [] = [] := rfl

@[simp] theorem values_token (t : Token) (l : Layout) : values (.token t :: l) = values l := rfl

@[simp] theorem values_value (v : Value) (l : Layout) :
    values (.value v :: l) = v :: values l := rfl

@[simp] theorem number_nil (d : Dialect) (n : ℕ) : number d n [] = [] := rfl

@[simp] theorem number_token (d : Dialect) (n : ℕ) (t : Token) (l : Layout) :
    number d n (.token t :: l) = t :: number d n l := rfl

@[simp] theorem number_value (d : Dialect) (n : ℕ) (v : Value) (l : Layout) :
    number d n (.value v :: l) = .placeholder d (.ofNat n) :: number d (n + 1) l := rfl

@[simp] theorem values_append (l l' : Layout) : values (l ++ l') = values l ++ values l' := by
  induction l with
  | nil => rfl
  | cons s l ih => cases s <;> simp [ih]

theorem number_append (d : Dialect) (n : ℕ) (l l' : Layout) :
    number d n (l ++ l') = number d n l ++ number d (n + l.values.length) l' := by
  induction l generalizing n with
  | nil => rfl
  | cons s l ih =>
    cases s with
    | token t => simp [ih]
    | value v => simp [ih, Nat.add_assoc, Nat.add_comm 1]

@[simp] theorem values_fixed (ts : List Token) : values (fixed ts) = [] := by
  induction ts with
  | nil => rfl
  | cons t ts ih => simpa [fixed] using ih

@[simp] theorem number_fixed (d : Dialect) (n : ℕ) (ts : List Token) :
    number d n (fixed ts) = ts := by
  induction ts with
  | nil => rfl
  | cons t ts ih => simpa [fixed] using ih

@[simp] theorem values_paren (l : Layout) : (paren l).values = l.values := by simp [paren]

@[simp] theorem number_paren (d : Dialect) (n : ℕ) (l : Layout) :
    number d n (paren l) = Sql.paren (number d n l) := by
  simp [paren, Sql.paren, number_append]

theorem values_intercalate (ts : List Token) (ls : List Layout) :
    values (List.intercalate (fixed ts) ls) = ls.flatMap values := by
  induction ls with
  | nil => rfl
  | cons l ls ih =>
    cases ls with
    | nil => simp
    | cons l' ls => simp [List.intercalate_cons_cons, ih]

theorem number_intercalate (d : Dialect) (n : ℕ) (ts : List Token) (ls : List Layout) :
    number d n (List.intercalate (fixed ts) ls) = List.intercalate ts (numberAll d n ls) := by
  induction ls generalizing n with
  | nil => rfl
  | cons l ls ih =>
    cases ls with
    | nil => simp [numberAll]
    | cons l' ls =>
      rw [List.intercalate_cons_cons, numberAll, numberAll, List.intercalate_cons_cons,
        number_append, number_append, number_fixed, ih, numberAll]
      simp

@[simp] theorem values_commaList (ls : List Layout) :
    (commaList ls).values = ls.flatMap values := values_intercalate _ ls

@[simp] theorem number_commaList (d : Dialect) (n : ℕ) (ls : List Layout) :
    number d n (commaList ls) = Sql.commaList (numberAll d n ls) := number_intercalate d n _ ls

/-- A value that is alone in its part takes one number. -/
theorem numberAll_singletons (d : Dialect) (n : ℕ) (vs : List Value) :
    numberAll d n (vs.map fun v => [.value v]) =
      (List.range vs.length).map fun i => [.placeholder d (.ofNat (n + i))] := by
  induction vs generalizing n with
  | nil => rfl
  | cons v vs ih =>
    have hshift : ∀ i, n + 1 + i = n + (i + 1) := fun i => by omega
    simp [numberAll, ih, List.range_succ_eq_map, hshift, Function.comp_def]

/-- Tokens of a layout are vetted for both dialects, so none is a placeholder. -/
def Vetted (xs : List Text) (l : Layout) : Prop :=
  ∀ t, Slot.token t ∈ l → ∀ d, t.Vetted d xs Double.AtLeastOne

variable {xs : List Text}

@[simp] theorem vetted_nil : Vetted xs [] := by simp [Vetted]

@[simp] theorem vetted_token {t : Token} {l : Layout} :
    Vetted xs (.token t :: l) ↔ (∀ d, t.Vetted d xs Double.AtLeastOne) ∧ Vetted xs l := by
  simp [Vetted, or_imp, forall_and]

@[simp] theorem vetted_value {v : Value} {l : Layout} :
    Vetted xs (.value v :: l) ↔ Vetted xs l := by simp [Vetted]

@[simp] theorem vetted_append {l l' : Layout} :
    Vetted xs (l ++ l') ↔ Vetted xs l ∧ Vetted xs l' := by
  simp [Vetted, or_imp, forall_and]

@[simp] theorem vetted_fixed {ts : List Token} :
    Vetted xs (fixed ts) ↔ ∀ d, AllVetted d xs Double.AtLeastOne ts := by
  simp only [Vetted, fixed, AllVetted, List.mem_map, Slot.token.injEq, exists_eq_right]
  exact ⟨fun h d t ht => h t ht d, fun h t ht d => h d t ht⟩

@[simp] theorem vetted_paren {l : Layout} : Vetted xs (paren l) ↔ Vetted xs l := by
  have hopen : ∀ d, openParen.Vetted d xs Double.AtLeastOne := fun _ => trivial
  have hclose : ∀ d, closeParen.Vetted d xs Double.AtLeastOne := fun _ => trivial
  simp [paren, hopen, hclose]

theorem vetted_intercalate {ts : List Token} {ls : List Layout}
    (hts : ∀ d, AllVetted d xs Double.AtLeastOne ts) (h : ∀ l ∈ ls, Vetted xs l) :
    Vetted xs (List.intercalate (fixed ts) ls) := by
  refine intercalate_induction vetted_nil h fun l hl rest hrest => ?_
  simpa using ⟨h l hl, hts, hrest⟩

theorem vetted_commaList {ls : List Layout} (h : ∀ l ∈ ls, Vetted xs l) :
    Vetted xs (commaList ls) := vetted_intercalate (fun _ => by simp) h

end Layout

/-- Is a number the given one, as far as it can be told from its neighbours? -/
def IsNumber (x : Double) (n : ℕ) : Prop := n ≤ Double.safeBound → x = Double.ofNat n

/-- Is a number what counting gives for the given one? One past 2^53 the count is rounded back;
what it is after that is left open. -/
def IsCount (x : Double) (n : ℕ) : Prop := n ≤ Double.safeBound + 1 → x = Double.ofNat n

theorem isCount_ofNat (n : ℕ) : IsCount (.ofNat n) n := fun _ => rfl

theorem IsCount.add {x : Double} {n : ℕ} (h : IsCount x n) (m : ℕ) :
    IsCount (x.add (.ofNat m)) (n + m) := by
  intro hn
  have hx : x = Double.ofNat n := h (by omega)
  rw [hx, Double.ofNat_add_of_le_succ hn]

/-- The tokens of a layout with its values numbered from a start by counting. -/
inductive Numbered (d : Dialect) : ℕ → Layout → List Token → Prop
  | nil (n : ℕ) : Numbered d n [] []
  | token {n : ℕ} {l : Layout} {ts : List Token} (t : Token) :
      Numbered d n l ts → Numbered d n (.token t :: l) (t :: ts)
  | value {n : ℕ} {x : Double} {l : Layout} {ts : List Token} (v : Value) :
      IsCount x n → Numbered d (n + 1) l ts →
      Numbered d n (.value v :: l) (.placeholder d x :: ts)

/-- The same for several layouts, numbered through. -/
inductive NumberedAll (d : Dialect) : ℕ → List Layout → List (List Token) → Prop
  | nil (n : ℕ) : NumberedAll d n [] []
  | cons {n : ℕ} {l : Layout} {ts : List Token} {ls : List Layout} {parts : List (List Token)} :
      Numbered d n l ts → NumberedAll d (n + l.values.length) ls parts →
      NumberedAll d n (l :: ls) (ts :: parts)

namespace Numbered

variable {d : Dialect} {n : ℕ} {l l' : Layout} {ts ts' : List Token} {ls : List Layout}
  {parts : List (List Token)}

theorem append (h : Numbered d n l ts) (h' : Numbered d (n + l.values.length) l' ts') :
    Numbered d n (l ++ l') (ts ++ ts') := by
  induction h with
  | nil n => exact h'
  | token t _ ih => exact .token t (ih h')
  | value v hx _ ih =>
    refine .value v hx (ih ?_)
    rwa [Layout.values_value, List.length_cons, Nat.add_comm _ 1, ← Nat.add_assoc] at h'

theorem fixed (d : Dialect) (n : ℕ) (ts : List Token) : Numbered d n (Layout.fixed ts) ts := by
  induction ts with
  | nil => exact .nil n
  | cons t ts ih => exact .token t ih

/-- Text ahead takes no numbers. -/
theorem fixed_append (us : List Token) (h : Numbered d n l ts) :
    Numbered d n (Layout.fixed us ++ l) (us ++ ts) :=
  (fixed d n us).append (by simpa using h)

theorem append_fixed (h : Numbered d n l ts) (us : List Token) :
    Numbered d n (l ++ Layout.fixed us) (ts ++ us) := h.append (fixed d _ us)

theorem paren (h : Numbered d n l ts) : Numbered d n (Layout.paren l) (Sql.paren ts) :=
  .token openParen (h.append_fixed [closeParen])

theorem intercalate (h : NumberedAll d n ls parts) (us : List Token) :
    Numbered d n (List.intercalate (Layout.fixed us) ls) (List.intercalate us parts) := by
  induction h with
  | nil n => exact .nil n
  | cons h hs ih =>
    cases hs with
    | nil => simpa using h
    | cons h' hs' =>
      rw [List.intercalate_cons_cons, List.intercalate_cons_cons]
      exact (h.append_fixed us).append (by simpa using ih)

theorem commaList (h : NumberedAll d n ls parts) :
    Numbered d n (Layout.commaList ls) (Sql.commaList parts) := intercalate h _

theorem number (d : Dialect) (n : ℕ) (l : Layout) : Numbered d n l (l.number d n) := by
  induction l generalizing n with
  | nil => exact .nil n
  | cons s l ih =>
    cases s with
    | token t => exact .token t (ih n)
    | value v => exact .value v (isCount_ofNat n) (ih (n + 1))

/-- As long as the numbers can be told apart, or there are none, they are known. -/
theorem eq_number (h : Numbered d n l ts) {m : ℕ}
    (hm : l.values ≠ [] → n = m ∧ n + l.values.length ≤ Double.safeBound + 1) :
    ts = l.number d m := by
  induction h generalizing m with
  | nil n => rfl
  | token t _ ih => exact congrArg _ (ih hm)
  | value v hx _ ih =>
    obtain ⟨rfl, hn⟩ := hm (by simp)
    rw [Layout.values_value, List.length_cons] at hn
    rw [Layout.number_value, ← ih fun _ => ⟨rfl, by omega⟩, hx (by omega)]

end Numbered

/-- A list of values that are alone in their parts, as they are numbered on from a start. -/
theorem numberedAll_singletons (d : Dialect) {x : Double} {n : ℕ} (hx : IsCount x n)
    (vs : List Value) (m : ℕ) :
    NumberedAll d (n + m) (vs.map fun v => [.value v])
      ((List.range' m vs.length).map fun i => [.placeholder d (x.add (.ofNat i))]) := by
  induction vs generalizing m with
  | nil => exact .nil _
  | cons v vs ih => exact .cons (.value v (hx.add m) (.nil _)) (ih (m + 1))

/-- A piece that binds the values of a layout, has its text, and counts them. -/
structure Lays (d : Dialect) (piece : Double → Condition) (l : Layout) : Prop where
  params (x : Double) : (piece x).params = l.values
  numbered {x : Double} {n : ℕ} : IsCount x n → Numbered d n l (piece x).tokens
  counts {x : Double} {n : ℕ} : IsCount x n → IsCount (piece x).next (n + l.values.length)

/-- The same for several pieces. -/
structure LaysAll (d : Dialect) (series : Double → Series) (ls : List Layout) : Prop where
  params (x : Double) : (series x).params = ls.flatMap Layout.values
  numbered {x : Double} {n : ℕ} : IsCount x n → NumberedAll d n ls (series x).parts
  counts {x : Double} {n : ℕ} : IsCount x n →
    IsCount (series x).next (n + (ls.flatMap Layout.values).length)

/-- A text that numbers a layout by counting is the numbered layout where counting is exact. -/
theorem tokens_of_numbered {d : Dialect} {text : Double → List Token} {l : Layout}
    (h : ∀ {x n}, IsCount x n → Numbered d n l (text x)) {x : Double} {n : ℕ} (hx : IsNumber x n)
    (hn : n + l.values.length ≤ Double.safeBound + 1) : text x = l.number d n := by
  by_cases hvalues : l.values = []
  · -- any start will do, so take one of which nothing is asked
    have hopen : IsCount x (Double.safeBound + 2) := fun hle => by omega
    exact (h hopen).eq_number fun hne => absurd hvalues hne
  · have hpos : 0 < l.values.length := List.length_pos_iff.mpr hvalues
    have hcount : IsCount x n := fun _ => hx (by omega)
    exact (h hcount).eq_number fun _ => ⟨rfl, hn⟩

/-- Counting that never goes back is exact wherever its end is. -/
theorem isNumber_of_isCount {next : Double → Double} {k : ℕ}
    (h : ∀ {x n}, IsCount x n → IsCount (next x) (n + k)) {x : Double} {n : ℕ}
    (hx : IsNumber x n) : IsNumber (next x) (n + k) := by
  intro hk
  have hcount : IsCount x n := fun _ => hx (by omega)
  exact h hcount (by omega)

theorem Lays.tokens {d : Dialect} {piece : Double → Condition} {l : Layout} (h : Lays d piece l)
    {x : Double} {n : ℕ} (hx : IsNumber x n) (hn : n + l.values.length ≤ Double.safeBound + 1) :
    (piece x).tokens = l.number d n := tokens_of_numbered h.numbered hx hn

theorem Lays.next {d : Dialect} {piece : Double → Condition} {l : Layout} (h : Lays d piece l)
    {x : Double} {n : ℕ} (hx : IsNumber x n) :
    IsNumber (piece x).next (n + l.values.length) := isNumber_of_isCount h.counts hx

theorem LaysAll.next {d : Dialect} {series : Double → Series} {ls : List Layout}
    (h : LaysAll d series ls) {x : Double} {n : ℕ} (hx : IsNumber x n) :
    IsNumber (series x).next (n + (ls.flatMap Layout.values).length) :=
  isNumber_of_isCount h.counts hx

theorem laysAll_ofList {α : Type} {d : Dialect} {piece : α → Double → Condition}
    {layout : α → Layout} {as : List α} (h : ∀ a ∈ as, Lays d (piece a) (layout a)) :
    LaysAll d (Series.ofList piece as) (as.map layout) := by
  induction as with
  | nil => exact ⟨fun _ => rfl, fun _ => .nil _, fun hx => hx⟩
  | cons a as ih =>
    have hfirst := h a (by simp)
    have hrest := ih fun b hb => h b (List.mem_cons_of_mem a hb)
    refine ⟨fun x => ?_, fun {x n} hx => ?_, fun {x n} hx => ?_⟩
    · simp [Series.ofList, Series.cons, hfirst.params, hrest.params]
    · exact .cons (hfirst.numbered hx) (hrest.numbered (hfirst.counts hx))
    · have hnext := hrest.counts (hfirst.counts hx)
      simpa [Series.ofList, Series.cons, Nat.add_assoc] using hnext

end BoundSql.Sql
