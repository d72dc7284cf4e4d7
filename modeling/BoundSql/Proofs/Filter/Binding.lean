import BoundSql.Proofs.Filter.Layouts
import BoundSql.Proofs.Filter.Meaning

/-!
# Conditions with their parameters in place

A database puts the parameters of a statement in the places of its placeholders.
Here this is done twice: on the lexemes of a text, which know nothing of where
they come from, and on tokens, where a name is a name whatever its text. For
conditions over identifiers both come to the same, and every comparison takes as
many parameters as its filter has values.
-/
namespace BoundSql
open Sql

namespace Sql

/-- A lexeme, or a parameter in the place of its placeholder. -/
inductive Item where
  | lexeme (x : Text)
  | param (v : Value)

/-- Does a lexeme stand for a parameter? -/
def isPlaceholder (x : Text) : Bool := x.head?.any isMark

/-- Lexemes with the parameters, in order, in the places of the placeholders. -/
def bind : List Text → List Value → List Item
  | [], _ => []
  | x :: xs, [] => .lexeme x :: bind xs []
  | x :: xs, v :: vs =>
    if isPlaceholder x then .param v :: bind xs vs else .lexeme x :: bind xs (v :: vs)

/-- Several lists of lexemes, their parameters in one list. -/
def bindAll : List (List Text) → List Value → List (List Item)
  | [], _ => []
  | xs :: rest, vs => bind xs vs :: bindAll rest (vs.drop (xs.countP isPlaceholder))

namespace Token

def isPlaceholder : Token → Bool
  | .placeholder _ _ => true
  | _ => false

@[simp] theorem isPlaceholder_placeholder (d : Dialect) (index : Double) :
    (placeholder d index).isPlaceholder = true := rfl

/-- The items of a token that binds nothing. A name is one lexeme, whatever its text. -/
def items : Token → List Item
  | .name n => [.lexeme n]
  | t => t.lexemes.map .lexeme

@[simp] theorem items_name (n : Text) : (name n).items = [.lexeme n] := rfl

@[simp] theorem items_space : space.items = [] := by
  have hitems : space.items = space.lexemes.map .lexeme := rfl
  rw [hitems, lexemes_space, List.map_nil]

end Token

/-- Tokens with the parameters, in order, in the places of the placeholders. -/
def boundItems : List Token → List Value → List Item
  | [], _ => []
  | t :: ts, [] => t.items ++ boundItems ts []
  | t :: ts, v :: vs =>
    if t.isPlaceholder then .param v :: boundItems ts vs else t.items ++ boundItems ts (v :: vs)

/-- A layout with its values as parameters. -/
def Layout.items : Layout → List Item
  | [] => []
  | .token t :: l => t.items ++ Layout.items l
  | .value v :: l => .param v :: Layout.items l

/-- Tokens that have the tokens of a layout, none a placeholder, and a placeholder of any number
for each of its values. -/
inductive Shown : Layout → List Token → Prop
  | nil : Shown [] []
  | token {t : Token} {l : Layout} {ts : List Token} (plain : t.isPlaceholder = false)
      (rest : Shown l ts) : Shown (.token t :: l) (t :: ts)
  | value {v : Value} {d : Dialect} {x : Double} {l : Layout} {ts : List Token}
      (rest : Shown l ts) : Shown (.value v :: l) (.placeholder d x :: ts)

namespace Shown

theorem append {l l' : Layout} {ts us : List Token} (h : Shown l ts) (h' : Shown l' us) :
    Shown (l ++ l') (ts ++ us) := by
  induction h with
  | nil => exact h'
  | token plain _ ih => exact .token plain ih
  | value _ ih => exact .value ih

theorem fixed {ts : List Token} (h : ∀ t ∈ ts, t.isPlaceholder = false) :
    Shown (Layout.fixed ts) ts := by
  induction ts with
  | nil => exact .nil
  | cons t ts ih =>
    exact .token (h t (by simp)) (ih fun u hu => h u (List.mem_cons_of_mem t hu))

theorem paren {l : Layout} {ts : List Token} (h : Shown l ts) :
    Shown (Layout.paren l) (Sql.paren ts) :=
  .token rfl (h.append (.token rfl .nil))

theorem commaList {ls : List Layout} {parts : List (List Token)}
    (h : List.Forall₂ Shown ls parts) : Shown (Layout.commaList ls) (Sql.commaList parts) := by
  induction h with
  | nil => exact .nil
  | @cons l p ls parts hfirst hrest ih =>
    cases hrest with
    | nil => simpa [Layout.commaList, Sql.commaList] using hfirst
    | @cons l' p' ls parts hsecond hrest =>
      rw [Layout.commaList, Sql.commaList, List.intercalate_cons_cons,
        List.intercalate_cons_cons, List.append_assoc, List.append_assoc]
      exact hfirst.append ((Shown.fixed (by simp [Token.isPlaceholder, space])).append ih)

/-- There are as many placeholders as values. -/
theorem count {l : Layout} {ts : List Token} (h : Shown l ts) :
    ts.countP Token.isPlaceholder = l.values.length := by
  induction h with
  | nil => rfl
  | token plain _ ih => simpa [plain] using ih
  | value _ ih => rw [List.countP_cons_of_pos rfl, ih, Layout.values_value, List.length_cons]

/-- With its values in place it is the layout, whatever the numbers are and whatever parameters
come after them. -/
theorem boundItems {l : Layout} {ts : List Token} (h : Shown l ts) (vs : List Value) :
    Sql.boundItems ts (l.values ++ vs) = l.items := by
  induction h with
  | nil => simp [Sql.boundItems, Layout.items]
  | @token t l ts plain rest ih =>
    rw [Layout.values_token, Layout.items, ← ih]
    cases l.values ++ vs with
    | nil => rfl
    | cons w ws => simp [Sql.boundItems, plain]
  | value rest ih => simp [Sql.boundItems, Layout.items, ih]

end Shown

section Lexemes

variable {d : Dialect} {I : Double → Prop} {t : Token}

lemma isPlaceholder_placeholderText (d : Dialect) (index : Double) :
    isPlaceholder (placeholderText d index) = true := by
  cases d with
  | postgres =>
    have hmark : isMark (Text.unit '$') = true := by decide
    exact hmark
  | sqlite =>
    have hmark : isMark (Text.unit '?') = true := by decide
    exact hmark

/-- Among the lexemes of vetted tokens only placeholders stand for parameters. -/
lemma not_isPlaceholder_of_mem (h : t.Vetted d [] I) (ht : t.isPlaceholder = false) {x : Text}
    (hx : x ∈ t.lexemes) : isPlaceholder x = false := by
  have hname : ∀ {n : Text}, n ≠ [] → (∀ c ∈ n, Identifier.isPart c = true) →
      isPlaceholder n = false := by
    intro n hne hpart
    obtain ⟨c, n, rfl⟩ := List.exists_cons_of_ne_nil hne
    have hmark := of_isPart (p := fun a => !isMark a) (by decide) (hpart c (by simp))
    simpa [isPlaceholder] using hmark
  cases t with
  | word w => cases w <;> revert x <;> decide
  | symbol s => cases s <;> revert x <;> decide
  | name n =>
    rw [Token.lexemes_name h, List.mem_singleton] at hx
    rw [hx]
    exact hname (Identifier.ne_nil h) fun c hc => Identifier.isPart_of_mem h hc
  | placeholder e index => simp [Token.isPlaceholder] at ht
  | rows n =>
    have hpart : ∀ c ∈ Text.ofNat n.toNat, Identifier.isPart c = true := fun c hc =>
      Double.isPart_of_isDigit (Text.isDigit_of_mem_ofNat hc)
    rw [Token.lexemes_rows, List.mem_singleton] at hx
    rw [hx]
    exact hname (Text.ofNat_ne_nil _) hpart
  | wildcard => revert x; decide
  | noRange n =>
    rw [Token.lexemes_noRange] at hx
    revert x
    decide
  | expression e => exact absurd h.1 List.not_mem_nil

lemma items_eq_lexemes (h : t.Vetted d [] I) : t.items = t.lexemes.map .lexeme := by
  cases t with
  | name n => rw [Token.lexemes_name h]; rfl
  | _ => rfl

/-- Lexemes that are no placeholders stay as they are. -/
lemma bind_append_plain {xs : List Text} (h : ∀ x ∈ xs, isPlaceholder x = false)
    (ys : List Text) (vs : List Value) :
    bind (xs ++ ys) vs = xs.map .lexeme ++ bind ys vs := by
  induction xs with
  | nil => rfl
  | cons x xs ih =>
    have hx := h x (by simp)
    have hrest := ih fun y hy => h y (List.mem_cons_of_mem x hy)
    cases vs with
    | nil => simp [bind, hrest]
    | cons v vs => simp [bind, hx, hrest]

/-- Parameters are put into vetted tokens and into their lexemes alike. -/
theorem bind_lexemesOf {ts : List Token} (h : AllVetted d [] I ts) (vs : List Value) :
    bind (lexemesOf ts) vs = boundItems ts vs ∧
      (lexemesOf ts).countP isPlaceholder = ts.countP Token.isPlaceholder := by
  induction ts generalizing vs with
  | nil => exact ⟨by cases vs <;> rfl, rfl⟩
  | cons t ts ih =>
    obtain ⟨ht, hts⟩ := (allVetted_cons t ts).mp h
    have hcount := (ih hts []).2
    rw [lexemesOf_cons]
    by_cases hplace : t.isPlaceholder = true
    · obtain ⟨e, index, rfl⟩ : ∃ e index, t = .placeholder e index := by
        cases t <;> simp_all [Token.isPlaceholder]
      have hmark := isPlaceholder_placeholderText e index
      rw [Token.lexemes_placeholder, List.singleton_append]
      refine ⟨?_, by rw [List.countP_cons_of_pos hmark, List.countP_cons_of_pos rfl, hcount]⟩
      cases vs with
      | nil => simp [bind, boundItems, Token.items, Token.lexemes_placeholder, (ih hts []).1]
      | cons v vs => simp [bind, boundItems, hmark, (ih hts vs).1]
    · rw [Bool.not_eq_true] at hplace
      have hplain : ∀ x ∈ t.lexemes, isPlaceholder x = false := fun x hx =>
        not_isPlaceholder_of_mem ht hplace hx
      have hnone : t.lexemes.countP isPlaceholder = 0 :=
        List.countP_eq_zero.mpr fun x hx => by simp [hplain x hx]
      refine ⟨?_, by simp [hnone, hcount, hplace]⟩
      rw [bind_append_plain hplain, (ih hts vs).1, ← items_eq_lexemes ht]
      cases vs with
      | nil => rfl
      | cons v vs => simp [boundItems, hplace]

end Lexemes

end Sql

/-- A series binds what its pieces bind. -/
theorem Series.params_ofList {α : Type} {piece : α → Double → Condition} {values : α → List Value}
    {as : List α} (h : ∀ a ∈ as, ∀ i, (piece a i).params = values a) (index : Double) :
    (ofList piece as index).params = as.flatMap values := by
  induction as generalizing index with
  | nil => rfl
  | cons a as ih =>
    have hrest := ih (fun b hb => h b (List.mem_cons_of_mem a hb)) (piece a index).next
    simp [ofList, cons, h a (by simp), hrest]

namespace Condition

/-- A condition with its parameters in the places of its placeholders. -/
def items (c : Condition) : List Item := boundItems c.tokens c.params

variable {d : Dialect}

lemma shown_placeholderList (vs : List Value) (start : Double) :
    Shown (Layout.commaList (vs.map fun v => [.value v])) (d.placeholderList vs start) := by
  refine Shown.commaList (List.forall₂_iff_get.mpr ⟨by simp, fun i hi hj => ?_⟩)
  simpa using Shown.value .nil

/-- Tokens with one placeholder among them. -/
lemma shown_around (ts us : List Token) (hts : ∀ t ∈ ts, t.isPlaceholder = false)
    (hus : ∀ t ∈ us, t.isPlaceholder = false) (v : Value) (index : Double) :
    Shown (Layout.fixed ts ++ .value v :: Layout.fixed us) (ts ++ .placeholder d index :: us) :=
  (Shown.fixed hts).append (.value (.fixed hus))

lemma shown_binary {op : Token} (hop : op.isPlaceholder = false) (field : Text) (v : Value)
    (index : Double) : Shown (Filter.plainLayout field op v) (binary d field op index) :=
  .token rfl (.token rfl (.token hop (.token rfl (.value .nil))))

lemma shown_ofScalar (f : Filter) (index : Double) :
    Shown (f.scalarLayout d) (ofScalar d f index).tokens := by
  obtain ⟨field, op, v⟩ := f
  have hregex : d.regexToken.isPlaceholder = false := by cases d <;> rfl
  cases op with
  | regex => exact shown_binary hregex field v index
  | startsWith =>
    exact shown_around [.name field, space, .word .like, space]
      [space, .symbol .concat, space, .wildcard] (by simp [space, Token.isPlaceholder])
      (by simp [space, Token.isPlaceholder]) v index
  | endsWith =>
    exact shown_around [.name field, space, .word .like, space, .wildcard, space,
      .symbol .concat, space] [] (by simp [space, Token.isPlaceholder]) (by simp) v index
  | contains =>
    exact shown_around [.name field, space, .word .like, space, .wildcard, space,
      .symbol .concat, space] [space, .symbol .concat, space, .wildcard]
      (by simp [space, Token.isPlaceholder]) (by simp [space, Token.isPlaceholder]) v index
  | _ => exact shown_binary rfl field v index

lemma shown_memberOf (field : Text) (vs : List Value) (index : Double) :
    Shown (Filter.memberLayout field vs d) (d.memberOf field vs index).tokens ∧
      Shown (Filter.nonMemberLayout field vs d) (d.notMemberOf field vs index).tokens := by
  have hlist : Shown (Layout.paren (Layout.commaList (vs.map fun v => [.value v])))
      (paren (d.placeholderList vs index)) := (shown_placeholderList vs index).paren
  have hone : Shown (Layout.paren [.value (.array vs)]) (paren [.placeholder d index]) :=
    Shown.paren (.value .nil)
  cases d with
  | postgres =>
    exact ⟨(Shown.fixed (by simp [space, Token.isPlaceholder])).append hone,
      (Shown.fixed (by simp [space, Token.isPlaceholder])).append hone⟩
  | sqlite =>
    exact ⟨(Shown.fixed (by simp [space, Token.isPlaceholder])).append hlist,
      (Shown.fixed (by simp [space, Token.isPlaceholder])).append hlist⟩

lemma shown_ofRange (field : Text) (bounds : List Value) (index : Double) :
    Shown (Filter.rangeLayout field bounds) (ofRange d field bounds index).tokens := by
  match bounds with
  | [low, high] =>
    have hfront : ∀ t ∈ [Token.name field, space, .word .between, space],
        t.isPlaceholder = false := by simp [space, Token.isPlaceholder]
    have hmid : ∀ t ∈ [space, Token.word .and, space], t.isPlaceholder = false := by
      simp [space, Token.isPlaceholder]
    exact (Shown.fixed hfront).append (.value ((Shown.fixed hmid).append (.value .nil)))
  | [] => exact .token rfl .nil
  | [_] => exact .token rfl .nil
  | _ :: _ :: _ :: _ => exact .token rfl .nil

/-- The condition of a filter shows its layout, whatever its number is. -/
theorem shown_ofFilter (f : Filter) (index : Double) :
    Shown (f.layout d) (ofFilter d f index).tokens := by
  obtain ⟨field, op, v⟩ := f
  have hscalar := shown_ofScalar (d := d) ⟨field, op, v⟩ index
  cases op <;> cases v <;> first
    | exact hscalar
    | exact .token rfl (.token rfl (.token rfl .nil))
    | exact (shown_memberOf field _ index).1
    | exact (shown_memberOf field _ index).2
    | exact shown_ofRange field _ index

theorem items_ofFilter (f : Filter) (index : Double) :
    (ofFilter d f index).items = (f.layout d).items := by
  have hitems := (shown_ofFilter (d := d) f index).boundItems []
  rwa [List.append_nil, ← (lays_ofFilter f).params index] at hitems

/-- The comparisons of filters, each with its own parameters, where all parameters come in one
list and others after them. -/
theorem bindAll_leaves {fs : List Filter} (hf : ∀ f ∈ fs, Identifier.isValid f.field = true)
    (index : Double) (vs : List Value) :
    bindAll ((leaves d fs index).parts.map lexemesOf) ((leaves d fs index).params ++ vs) =
      fs.map fun f => (f.layout d).items := by
  induction fs generalizing index with
  | nil => rfl
  | cons f fs ih =>
    have hfirst := hf f (by simp)
    have hvetted : AllVetted d [] (fun _ => True) (ofFilter d f index).tokens :=
      (counts_ofFilter (fun _ _ _ => trivial) hfirst trivial).1
    have hshown := shown_ofFilter (d := d) f index
    have hparams := (lays_ofFilter (d := d) f).params index
    have hbind := fun vs => (bind_lexemesOf hvetted vs).1
    have hcount : (lexemesOf (ofFilter d f index).tokens).countP isPlaceholder =
        (ofFilter d f index).params.length := by
      rw [(bind_lexemesOf hvetted []).2, hshown.count, hparams]
    have hrest := ih (fun g hg => hf g (List.mem_cons_of_mem f hg)) (ofFilter d f index).next
    have hsplit : (leaves d (f :: fs) index).params ++ vs = (ofFilter d f index).params ++
        ((leaves d fs (ofFilter d f index).next).params ++ vs) := List.append_assoc _ _ _
    calc bindAll ((leaves d (f :: fs) index).parts.map lexemesOf)
          ((leaves d (f :: fs) index).params ++ vs)
        = bind (lexemesOf (ofFilter d f index).tokens) ((ofFilter d f index).params ++
            ((leaves d fs (ofFilter d f index).next).params ++ vs)) ::
          bindAll ((leaves d fs (ofFilter d f index).next).parts.map lexemesOf)
            (((ofFilter d f index).params ++
                ((leaves d fs (ofFilter d f index).next).params ++ vs)).drop
              ((lexemesOf (ofFilter d f index).tokens).countP isPlaceholder)) := by
          rw [hsplit]
          rfl
      _ = (f.layout d).items :: fs.map fun g => (g.layout d).items := by
          rw [hcount, List.drop_left, hrest, hbind, hparams, hshown.boundItems]

/-- A tree binds what its filters bind, from left to right. -/
theorem params_ofTree (d : Dialect) (e : FilterTree) (index : Double) :
    (ofTree d e index).params = (leaves d e.filters index).params := by
  have hleaves : ∀ (fs : List Filter) (i : Double),
      (leaves d fs i).params = fs.flatMap fun f => (f.layout d).values := fun fs i =>
    Series.params_ofList (fun f _ => (lays_ofFilter f).params) i
  rw [hleaves]
  induction e generalizing index with
  | leaf f =>
    rw [ofTree_leaf, FilterTree.filters_leaf, List.flatMap_singleton]
    exact (lays_ofFilter f).params index
  | group op es ih =>
    rw [ofTree_group, FilterTree.filters_group, List.flatMap_assoc]
    exact Series.params_ofList (fun e he i => ih e he i) index

end Condition
end BoundSql
