import BoundSql.Proofs.Number.Numerals
import BoundSql.Proofs.Sql.Stencils

/-!
# Other numbers in a text

A text with the number after each mark replaced, and nothing else. On the text of
a stencil this does what a build from another start does, since the marks of such
a text are those of its places and no numeral runs on.
-/
namespace BoundSql.Sql

/-- The number after each mark replaced; all other units stay. -/
def renumber (mark : UInt16) (f : ℕ → ℕ) : Text → Text
  | [] => []
  | c :: rest =>
    let digits := rest.takeWhile Text.isDigit
    if c = mark then
      c :: (Text.ofNat (f (Text.digitsValue digits)) ++ (renumber mark f rest).drop digits.length)
    else c :: renumber mark f rest

lemma renumber_append {mark : UInt16} (f : ℕ → ℕ) {t : Text} (h : mark ∉ t) (u : Text) :
    renumber mark f (t ++ u) = t ++ renumber mark f u := by
  induction t with
  | nil => rfl
  | cons c t ih =>
    rw [List.mem_cons, not_or] at h
    rw [List.cons_append, renumber, if_neg (Ne.symm h.1), ih h.2, List.cons_append]

lemma EndsNumeral.append {t u : Text} (ht : EndsNumeral t) (hu : EndsNumeral u) :
    EndsNumeral (t ++ u) := by
  cases t with
  | nil => exact hu
  | cons c t => exact ht

lemma endsNumeral_nil : EndsNumeral [] := by simp [EndsNumeral]

lemma renumber_numeral (d : Dialect) (f : ℕ → ℕ) (n : ℕ) {u : Text} (hu : EndsNumeral u) :
    renumber d.mark f (d.mark :: Text.ofNat n ++ u) =
      d.mark :: Text.ofNat (f n) ++ renumber d.mark f u := by
  have htake : (Text.ofNat n ++ u).takeWhile Text.isDigit = Text.ofNat n :=
    (takeWhile_append_of_ends _ hu).trans (takeWhile_ofNat n)
  rw [List.cons_append, renumber, if_pos rfl]
  simp only [htake, Text.digitsValue_ofNat, renumber_append f (mark_not_mem_ofNat d n),
    List.drop_left, List.cons_append]

section Stencils

variable {d : Dialect} {xs : List Text} {p : Stencil} {n : ℕ}

lemma Stencil.Vetted.head {t : Token} (h : Stencil.Vetted xs (.token t :: p)) :
    (∀ d, t.Vetted d xs Double.AtLeastOne) ∧ p.Vetted xs :=
  ⟨h t List.mem_cons_self, fun u hu => h u (List.mem_cons_of_mem _ hu)⟩

lemma Stencil.Vetted.tail {c : Cell} (h : Stencil.Vetted xs (c :: p)) : p.Vetted xs :=
  fun u hu => h u (List.mem_cons_of_mem _ hu)

lemma render_token (d : Dialect) (n : ℕ) (t : Token) (p : Stencil) :
    render (Stencil.number d n (.token t :: p)) = t.text ++ render (p.number d n) := by
  rw [Stencil.number, List.map_cons, render_cons, Cell.number]
  rfl

lemma render_place {i : ℕ} (hi : n + i ≤ Double.safeBound) (p : Stencil) :
    render (Stencil.number d n (.place i :: p)) =
      d.mark :: Text.ofNat (n + i) ++ render (p.number d n) := by
  have htext : (Token.placeholder d (.ofNat (n + i))).text = d.mark :: Text.ofNat (n + i) :=
    placeholderText_ofNat d hi
  rw [Stencil.number, List.map_cons, render_cons, Cell.number, htext]
  rfl

/-- What follows a place goes on with no digit. -/
lemma endsNumeral_of_place {i : ℕ} (h : Spaced (Stencil.number d n (.place i :: p))) {u : Text}
    (hu : EndsNumeral u) : EndsNumeral (render (p.number d n) ++ u) := by
  obtain ⟨hnext, -⟩ := h.of_cons
  have hled : Led (p.number d n) := hnext.resolve_left (by simp [Cell.number, Token.isBreak])
  exact (endsNumeral_render hled).append hu

/-- Another start writes the same text with other numbers, as far from the start as before. -/
theorem renumber_stencil (hxs : ∀ e ∈ xs, d.mark ∉ e) (hp : p.Vetted xs) {m : ℕ}
    (hspaced : Spaced (p.number d n))
    (hn : ∀ i ∈ p.places, n + i ≤ Double.safeBound ∧ m + i ≤ Double.safeBound) :
    renumber d.mark (fun k => k - n + m) (render (p.number d n)) = render (p.number d m) := by
  induction p with
  | nil => rfl
  | cons c p ih =>
    obtain ⟨-, htail⟩ := hspaced.of_cons
    cases c with
    | token t =>
      rw [render_token, render_token, renumber_append _ (mark_not_mem_text hxs hp.head.1),
        ih hp.tail htail hn]
    | place i =>
      obtain ⟨⟨hfirst, hother⟩, hlater⟩ := List.forall_mem_cons.mp hn
      have hends : EndsNumeral (render (Stencil.number d n p)) := by
        simpa using endsNumeral_of_place hspaced endsNumeral_nil
      have hshift : n + i - n + m = m + i := by omega
      rw [render_place hfirst, render_place hother, renumber_numeral d _ _ hends,
        ih hp.tail htail hlater, hshift]

/-- The numerals of a text that begins with a stencil. -/
theorem numeralsAfter_stencil (hxs : ∀ e ∈ xs, d.mark ∉ e) (hp : p.Vetted xs)
    (hspaced : Spaced (p.number d n)) (hn : ∀ i ∈ p.places, n + i ≤ Double.safeBound) {u : Text}
    (hu : EndsNumeral u) :
    numeralsAfter d.mark (render (p.number d n) ++ u) =
      p.places.map (fun i => Text.ofNat (n + i)) ++ numeralsAfter d.mark u := by
  induction p with
  | nil => rfl
  | cons c p ih =>
    obtain ⟨-, htail⟩ := hspaced.of_cons
    cases c with
    | token t =>
      rw [render_token, List.append_assoc, numeralsAfter_append (mark_not_mem_text hxs hp.head.1),
        ih hp.tail htail hn]
      rfl
    | place i =>
      obtain ⟨hfirst, hlater⟩ := List.forall_mem_cons.mp hn
      have hends := endsNumeral_of_place hspaced hu
      rw [render_place hfirst, List.append_assoc,
        numeralsAfter_mark d (mark_not_mem_ofNat d _) hends, takeWhile_ofNat,
        ih hp.tail htail hlater]
      rfl

end Stencils
end BoundSql.Sql
