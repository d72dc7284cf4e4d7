import BoundSql.Proofs.Sql.Numerals

/-!
# Stencils

A stencil is a text with open numbers. Each of its places tells how many numbers
were taken before it, so the text can be written out from any start. Unlike a
layout it may pass numbers over: what a tree does not show takes its numbers all
the same. A piece of a statement has a stencil when its text from any start is
this one written out.
-/
namespace BoundSql.Sql

/-- A token, or the place of a placeholder after so many numbers. -/
inductive Cell where
  | token (t : Token)
  | place (i : ℕ)

/-- The token of a cell where the numbers begin at the given one. -/
def Cell.number (d : Dialect) (n : ℕ) : Cell → Token
  | .token t => t
  | .place i => .placeholder d (.ofNat (n + i))

/-- A cell after more numbers. -/
def Cell.after (m : ℕ) : Cell → Cell
  | .token t => .token t
  | .place i => .place (m + i)

def Cell.place? : Cell → Option ℕ
  | .token _ => none
  | .place i => some i

abbrev Stencil := List Cell

namespace Stencil

/-- Text without places. -/
def fixed (ts : List Token) : Stencil := ts.map .token

/-- The text from a start. -/
def number (d : Dialect) (n : ℕ) (p : Stencil) : List Token := p.map (Cell.number d n)

/-- The stencil where it goes on after some numbers. -/
def after (m : ℕ) (p : Stencil) : Stencil := p.map (Cell.after m)

/-- How many numbers come before each place. -/
def places (p : Stencil) : List ℕ := p.filterMap Cell.place?

/-- Tokens of a stencil are vetted for both dialects, so none is a placeholder. -/
def Vetted (xs : List Text) (p : Stencil) : Prop :=
  ∀ t, Cell.token t ∈ p → ∀ d, t.Vetted d xs Double.AtLeastOne

def paren (p : Stencil) : Stencil := fixed [openParen] ++ p ++ fixed [closeParen]

variable {d : Dialect} {xs : List Text} {p q : Stencil} {ps : List Stencil}

@[simp] theorem number_fixed (d : Dialect) (n : ℕ) (ts : List Token) :
    number d n (fixed ts) = ts := by
  simp [number, fixed, Function.comp_def, Cell.number]

@[simp] theorem number_append (d : Dialect) (n : ℕ) (p q : Stencil) :
    number d n (p ++ q) = number d n p ++ number d n q := List.map_append

theorem number_after (d : Dialect) (n m : ℕ) (p : Stencil) :
    number d n (p.after m) = number d (n + m) p := by
  rw [number, after, List.map_map, number]
  refine List.map_congr_left fun c _ => ?_
  cases c with
  | token t => rfl
  | place i => simp [Cell.after, Cell.number, Nat.add_assoc]

@[simp] theorem places_fixed (ts : List Token) : (fixed ts).places = [] := by
  refine List.filterMap_eq_nil_iff.mpr fun c hc => ?_
  obtain ⟨t, -, rfl⟩ := List.mem_map.mp hc
  rfl

@[simp] theorem places_append (p q : Stencil) : (p ++ q).places = p.places ++ q.places :=
  List.filterMap_append

theorem places_after (m : ℕ) (p : Stencil) :
    (p.after m).places = p.places.map fun i => m + i := by
  rw [places, after, List.filterMap_map, places, List.map_filterMap]
  refine List.filterMap_congr fun c _ => ?_
  cases c <;> rfl

@[simp] theorem vetted_append : Vetted xs (p ++ q) ↔ Vetted xs p ∧ Vetted xs q := by
  simp [Vetted, or_imp, forall_and]

@[simp] theorem vetted_fixed {ts : List Token} :
    Vetted xs (fixed ts) ↔ ∀ d, AllVetted d xs Double.AtLeastOne ts := by
  simp only [Vetted, fixed, AllVetted, List.mem_map, Cell.token.injEq, exists_eq_right]
  exact ⟨fun h d t ht => h t ht d, fun h t ht d => h d t ht⟩

lemma vetted_after (m : ℕ) (h : Vetted xs p) : Vetted xs (p.after m) := by
  intro t ht
  obtain ⟨c, hc, htoken⟩ := List.mem_map.mp ht
  cases c with
  | token u =>
    obtain rfl : u = t := by simpa [Cell.after] using htoken
    exact h u hc
  | place i => cases htoken

@[simp] theorem number_paren (d : Dialect) (n : ℕ) (p : Stencil) :
    number d n (paren p) = Sql.paren (number d n p) := by
  simp [paren, Sql.paren]

@[simp] theorem places_paren (p : Stencil) : (paren p).places = p.places := by simp [paren]

@[simp] theorem vetted_paren : Vetted xs (paren p) ↔ Vetted xs p := by
  simp [paren, openParen, closeParen]

theorem number_intercalate (d : Dialect) (n : ℕ) (ts : List Token) (ps : List Stencil) :
    number d n (List.intercalate (fixed ts) ps) = List.intercalate ts (ps.map (number d n)) := by
  have hsep : (fixed ts).map (Cell.number d n) = ts := number_fixed d n ts
  rw [number, List.map_eq_flatMap, flatMap_intercalate]
  simp only [← List.map_eq_flatMap, hsep]
  rfl

theorem places_intercalate (ts : List Token) (ps : List Stencil) :
    places (List.intercalate (fixed ts) ps) = ps.flatMap places := by
  induction ps with
  | nil => rfl
  | cons p ps ih =>
    cases ps with
    | nil => simp
    | cons q ps => simp [List.intercalate_cons_cons, ih]

theorem vetted_intercalate {ts : List Token} (hts : ∀ d, AllVetted d xs Double.AtLeastOne ts)
    (h : ∀ p ∈ ps, Vetted xs p) : Vetted xs (List.intercalate (fixed ts) ps) := by
  refine intercalate_induction (by simp [Vetted]) h fun p hp rest hrest => ?_
  simpa using ⟨h p hp, hts, hrest⟩

end Stencil

/-- The stencil of a layout that begins after some numbers. -/
def Layout.stencil : ℕ → Layout → Stencil
  | _, [] => []
  | m, .token t :: rest => .token t :: stencil m rest
  | m, .value _ :: rest => .place m :: stencil (m + 1) rest

namespace Layout

lemma number_stencil (d : Dialect) (n m : ℕ) (l : Layout) :
    (l.stencil m).number d n = l.number d (n + m) := by
  induction l generalizing m with
  | nil => rfl
  | cons s l ih =>
    cases s with
    | token t => exact congrArg _ (ih m)
    | value v => exact congrArg _ (ih (m + 1))

lemma places_stencil (m : ℕ) (l : Layout) :
    (l.stencil m).places = List.range' m l.values.length := by
  induction l generalizing m with
  | nil => rfl
  | cons s l ih =>
    cases s with
    | token t => exact ih m
    | value v => exact congrArg _ (ih (m + 1))

lemma vetted_stencil {xs : List Text} (m : ℕ) {l : Layout} (h : l.Vetted xs) :
    (l.stencil m).Vetted xs := by
  induction l generalizing m with
  | nil => simp [stencil, Stencil.Vetted]
  | cons s l ih =>
    cases s with
    | token t =>
      obtain ⟨ht, hl⟩ := vetted_token.mp h
      intro u hu
      rcases List.mem_cons.mp hu with hu | hu
      · obtain rfl : u = t := by simpa using hu
        exact ht
      · exact ih m hl u hu
    | value v =>
      intro u hu
      have hrest : Cell.token u ∈ stencil (m + 1) l := by simpa [stencil] using hu
      exact ih (m + 1) (vetted_value.mp h) u hrest

end Layout

/-- A piece that binds some values and whose text is that of a stencil from whatever number it is
given. -/
structure Stamps (d : Dialect) (xs : List Text) (piece : Double → Condition) (vs : List Value)
    (p : Stencil) : Prop where
  params (x : Double) : (piece x).params = vs
  tokens {x : Double} {n : ℕ} : IsNumber x n → n + vs.length ≤ Double.safeBound + 1 →
    (piece x).tokens = p.number d n
  next {x : Double} {n : ℕ} : IsNumber x n → IsNumber (piece x).next (n + vs.length)
  places : p.places.Sublist (List.range vs.length)
  vetted : p.Vetted xs

/-- The same for several pieces. -/
structure StampsAll (d : Dialect) (xs : List Text) (series : Double → Series) (vs : List Value)
    (ps : List Stencil) : Prop where
  params (x : Double) : (series x).params = vs
  parts {x : Double} {n : ℕ} : IsNumber x n → n + vs.length ≤ Double.safeBound + 1 →
    (series x).parts = ps.map (Stencil.number d n)
  next {x : Double} {n : ℕ} : IsNumber x n → IsNumber (series x).next (n + vs.length)
  places : (ps.flatMap Stencil.places).Sublist (List.range vs.length)
  vetted : ∀ p ∈ ps, p.Vetted xs

/-- There is a stencil for a piece. -/
def Stamped (d : Dialect) (xs : List Text) (piece : Double → Condition) : Prop :=
  ∃ vs p, Stamps d xs piece vs p

variable {d : Dialect} {xs : List Text}

/-- What is laid out has the stencil of its layout. -/
theorem Lays.stamped {piece : Double → Condition} {l : Layout} (h : Lays d piece l)
    (hl : l.Vetted xs) : Stamped d xs piece := by
  refine ⟨l.values, l.stencil 0, h.params, fun hx hn => ?_, h.next, ?_, Layout.vetted_stencil 0 hl⟩
  · rw [h.tokens hx hn, Layout.number_stencil, Nat.add_zero]
  · rw [Layout.places_stencil, List.range_eq_range']

/-- Text alone takes no numbers. -/
theorem stamped_fixed (ts : List Token) (h : ∀ d, AllVetted d xs Double.AtLeastOne ts) :
    Stamped d xs fun x => ⟨ts, [], x⟩ :=
  ⟨[], .fixed ts, fun _ => rfl, fun _ _ => (Stencil.number_fixed _ _ _).symm, fun hx => hx,
    by simp, by simpa using h⟩

/-- The numbers of a later piece come after those of the one before. -/
lemma places_after_sublist {ks ls : List ℕ} {a b : ℕ} (hk : ks.Sublist (List.range a))
    (hl : ls.Sublist (List.range b)) :
    (ks ++ ls.map fun i => a + i).Sublist (List.range (a + b)) := by
  rw [List.range_add]
  exact hk.append (hl.map _)

/-- Pieces one after another, each going on with the numbers of the one before. -/
theorem stampsAll_ofList {α : Type} {piece : α → Double → Condition} {as : List α}
    (h : ∀ a ∈ as, Stamped d xs (piece a)) :
    ∃ vs ps, StampsAll d xs (Series.ofList piece as) vs ps := by
  induction as with
  | nil =>
    exact ⟨[], [], fun _ => rfl, fun _ _ => rfl, fun hx => hx, by simp, by simp⟩
  | cons a as ih =>
    obtain ⟨vs, p, hfirst⟩ := h a List.mem_cons_self
    obtain ⟨ws, ps, hrest⟩ := ih fun b hb => h b (List.mem_cons_of_mem a hb)
    refine ⟨vs ++ ws, p :: ps.map (Stencil.after vs.length), fun x => ?_, fun {x n} hx hn => ?_,
      fun {x n} hx => ?_, ?_, ?_⟩
    · simp [Series.ofList, Series.cons, hfirst.params, hrest.params]
    · rw [List.length_append] at hn
      have htokens := hfirst.tokens hx (by omega)
      have hparts := hrest.parts (hfirst.next hx) (by omega)
      simp [Series.ofList, Series.cons, htokens, hparts, Function.comp_def, Stencil.number_after]
    · have hnext := hrest.next (hfirst.next hx)
      simpa [Series.ofList, Series.cons, Nat.add_assoc] using hnext
    · have hlater : (ps.map (Stencil.after vs.length)).flatMap Stencil.places =
          (ps.flatMap Stencil.places).map fun i => vs.length + i := by
        simp [List.flatMap_map, List.map_flatMap, Stencil.places_after]
      rw [List.flatMap_cons, hlater, List.length_append]
      exact places_after_sublist hfirst.places hrest.places
    · rw [List.forall_mem_cons, List.forall_mem_map]
      exact ⟨hfirst.vetted, fun q hq => Stencil.vetted_after _ (hrest.vetted q hq)⟩

/-- A way to put parts together that works on stencils alike and shows no place twice. -/
theorem StampsAll.stamped {series : Double → Series} {vs : List Value} {ps : List Stencil}
    (h : StampsAll d xs series vs ps) {whole : List (List Token) → List Token} {p : Stencil}
    (hwhole : ∀ n, p.number d n = whole (ps.map (Stencil.number d n)))
    (hplaces : p.places.Sublist (ps.flatMap Stencil.places)) (hp : p.Vetted xs) :
    Stamped d xs fun x => ⟨whole (series x).parts, (series x).params, (series x).next⟩ :=
  ⟨vs, p, h.params, fun hx hn => by rw [h.parts hx hn, hwhole], h.next, hplaces.trans h.places, hp⟩

/-- Pieces with the same text between neighbours. -/
theorem stamped_intercalate {α : Type} {piece : α → Double → Condition} {as : List α}
    (h : ∀ a ∈ as, Stamped d xs (piece a)) {ts : List Token}
    (hts : ∀ d, AllVetted d xs Double.AtLeastOne ts) :
    Stamped d xs fun x => ⟨List.intercalate ts (Series.ofList piece as x).parts,
      (Series.ofList piece as x).params, (Series.ofList piece as x).next⟩ := by
  obtain ⟨vs, ps, hseries⟩ := stampsAll_ofList h
  refine hseries.stamped (p := List.intercalate (Stencil.fixed ts) ps)
    (fun n => Stencil.number_intercalate d n ts ps) ?_
    (Stencil.vetted_intercalate hts hseries.vetted)
  rw [Stencil.places_intercalate]

/-- Pieces as one piece, each going on with the numbers of the one before. -/
def inTurn (pieces : List (Double → Condition)) (x : Double) : Condition :=
  let series := Series.ofList (fun piece => piece) pieces x
  ⟨series.parts.flatten, series.params, series.next⟩

theorem stamped_inTurn {pieces : List (Double → Condition)}
    (h : ∀ piece ∈ pieces, Stamped d xs piece) : Stamped d xs (inTurn pieces) := by
  obtain ⟨vs, ps, hseries⟩ := stampsAll_ofList h
  refine hseries.stamped (p := ps.flatten) (fun n => List.map_flatten) ?_ fun t ht => ?_
  · rw [Stencil.places, List.filterMap_flatten, List.flatMap_def]
    exact List.Sublist.refl _
  · obtain ⟨p, hp, ht⟩ := List.mem_flatten.mp ht
    exact hseries.vetted p hp t ht

end BoundSql.Sql
