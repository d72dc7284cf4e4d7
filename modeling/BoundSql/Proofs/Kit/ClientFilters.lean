import BoundSql.Kit
import BoundSql.Proofs.Filter.Enforcement
import BoundSql.Proofs.Settings
import BoundSql.Proofs.Statement.Trusted

/-!
# Client filters from the document to the statement

A tree that a kit accepts from a client keeps to the settings in the condition
that is written for it. Where fields are listed, a builder refuses such a tree
for one reason only: a listed name has the form of an identifier, but nothing
held it to the length of one.
-/
namespace BoundSql

namespace Identifier

/-- A list of names is refused for the first that is no identifier. -/
theorem checkAll_eq (use : Text) (names : List Text) :
    checkAll use names = (names.find? fun n => !isValid n).elim (.ok ()) fun n =>
      .error (.invalidIdentifier use n) := by
  induction names with
  | nil => rfl
  | cons n rest ih =>
    cases hn : isValid n with
    | true => simpa [checkAll, check, hn, bind, Except.bind] using ih
    | false => simp [checkAll, check, hn, bind, Except.bind]

/-- What has the form of an identifier is one if it is not too long. -/
lemma isValid_iff_of_isWellFormed {name : Text} (h : isWellFormed name = true) :
    isValid name = true ↔ name.length ≤ maxLength := by
  simp [isValid, h]

end Identifier

/-- What settings demand of a filter. -/
structure Settings.Permits (s : Settings) (f : Filter) : Prop where
  field : s.allowedFields = [] ∨ f.field ∈ s.allowedFields
  operator : f.op ∉ s.deniedOperators

/-- A draft takes a filter tree if the fields of all its filters are identifiers. -/
theorem StatementKind.configure_tree {k : StatementKind} {call : k.CallOf} {e : FilterTree}
    (h : k.treeOf? call = some e) (s : k.DraftOf) :
    DraftSpec.checkArguments k.DraftOf call = .ok () ∧ ∃ s', DraftSpec.configure call s =
      (Identifier.checkAll "filter field" (e.filters.map Filter.field)).map fun _ => (s', []) := by
  have hmap : ∀ {δ : Type} (x : Except Fault Unit) (s' : δ),
      (x >>= fun _ => Except.ok s').map (fun after => (after, ([] : List Event))) =
        x.map fun _ => (s', []) := by
    rintro δ (_ | _) s' <;> rfl
  cases k with
  | insert => cases h
  | select =>
    cases call with
    | tree t =>
      obtain rfl := Option.some_inj.mp h
      exact ⟨rfl, { s with tree := some t }, hmap _ _⟩
    | _ => cases h
  | update =>
    cases call with
    | tree t =>
      obtain rfl := Option.some_inj.mp h
      exact ⟨rfl, { s with tree := some t }, hmap _ _⟩
    | _ => cases h
  | delete =>
    cases call with
    | tree t =>
      obtain rfl := Option.some_inj.mp h
      exact ⟨rfl, { s with tree := some t }, hmap _ _⟩
    | _ => cases h

namespace Kit

variable {env : Environment} {s : Settings} {j : Json} {e : FilterTree}

/-- A kit accepts what is read and keeps to the policy, and nothing else. -/
lemma readFilter_eq_ok_iff {k : Kit} :
    k.readFilter j = .ok e ↔ FilterDocument.read j = .ok e ∧ k.policy.checkTree e = .ok () := by
  rw [readFilter]
  cases hread : FilterDocument.read j with
  | error error => simp [accept]
  | ok tree =>
    cases hcheck : k.policy.checkTree tree with
    | error v =>
      simp only [accept, hcheck, Except.ok.injEq, reduceCtorEq, false_iff, not_and]
      rintro rfl
      simp [hcheck]
    | ok u =>
      simp only [accept, hcheck, Except.ok.injEq]
      constructor
      · rintro rfl
        exact ⟨rfl, hcheck⟩
      · exact And.left

lemma readFilter_of_refused {k : Kit} {v : PolicyViolation} (h : FilterDocument.read j = .ok e)
    (hv : k.policy.checkTree e = .error v) : k.readFilter j = .error (.refused v) := by
  rw [readFilter, h, accept, hv]

/-- The filters of a tree that is accepted are those that the settings permit. -/
lemma permits_of_accepted (h : (ofSettings s).readFilter j = .ok e) :
    ∀ f ∈ e.filters, s.Permits f := by
  intro f hf
  have hnodes := (FilterPolicy.accepts_iff.mp (readFilter_eq_ok_iff.mp h).2).2
  obtain ⟨n, hn, hfilter⟩ := FilterTree.exists_node hf 0
  obtain ⟨hfield, hop⟩ := (hnodes n hn).2 f hfilter
  exact ⟨hfield, hop⟩

/-- Where fields are listed, a tree from a client that was accepted is taken by a builder that is
not built yet if no field of its filters is too long for an identifier; else the first that is too
long is refused. A list without such names makes every accepted tree one that is taken. -/
theorem configure_accepted (h : Settings.read env = .ok s) (hlist : s.allowedFields ≠ [])
    (he : (ofSettings s).readFilter j = .ok e) {k : StatementKind} {call : k.CallOf}
    (hcall : k.treeOf? call = some e) {b : Builder k.DraftOf} (hb : b.built = false) :
    ((∃ out, b.configure call = .ok out) ↔
      ∀ f ∈ e.filters, f.field.length ≤ Identifier.maxLength) ∧
    (∀ f, e.filters.find? (fun f => Identifier.maxLength < f.field.length) = some f →
      f.field ∈ s.allowedFields ∧
        b.configure call = .error (.invalidIdentifier "filter field" f.field)) ∧
    ((∀ name ∈ s.allowedFields, name.length ≤ Identifier.maxLength) →
      ∃ out, b.configure call = .ok out) := by
  have hlisted : ∀ f ∈ e.filters, f.field ∈ s.allowedFields := fun f hf =>
    (permits_of_accepted he f hf).field.resolve_left hlist
  have hnames := (Settings.wellFormed_of_read h).names
  obtain ⟨hargs, draft, hdraft⟩ := StatementKind.configure_tree hcall b.draft
  -- among listed names only the length tells which are identifiers
  have hfind : (e.filters.map Filter.field).find? (fun n => !Identifier.isValid n) =
      (e.filters.find? fun f => Identifier.maxLength < f.field.length).map Filter.field := by
    rw [List.find?_map]
    congr 1
    refine List.find?_congr fun f hf => ?_
    have hvalid := Identifier.isValid_iff_of_isWellFormed (hnames _ (hlisted f hf))
    rw [Function.comp_apply, Bool.eq_iff_iff, Bool.not_eq_true', ← Bool.not_eq_true, hvalid,
      decide_eq_true_iff, Nat.not_le]
  have hconfigure : b.configure call =
      (e.filters.find? fun f => Identifier.maxLength < f.field.length).elim
        (.ok ({ b with draft }, [])) fun f =>
          .error (.invalidIdentifier "filter field" f.field) := by
    rw [Builder.configure_of_unbuilt hb hargs, hdraft, Identifier.checkAll_eq, hfind]
    cases e.filters.find? fun f => Identifier.maxLength < f.field.length <;> rfl
  have hshort : (∃ out, b.configure call = .ok out) ↔
      ∀ f ∈ e.filters, f.field.length ≤ Identifier.maxLength := by
    rw [hconfigure]
    cases hlong : e.filters.find? fun f => Identifier.maxLength < f.field.length with
    | none => simpa using List.find?_eq_none.mp hlong
    | some f =>
      have hf := List.find?_some hlong
      rw [decide_eq_true_iff] at hf
      have hmem : f ∈ e.filters := List.mem_of_find?_eq_some hlong
      simp only [Option.elim_some, reduceCtorEq, exists_false, false_iff, not_forall]
      exact ⟨f, hmem, Nat.not_le.mpr hf⟩
  refine ⟨hshort, fun f hf => ⟨hlisted f (List.mem_of_find?_eq_some hf), ?_⟩, fun hall => ?_⟩
  · rw [hconfigure, hf]
    rfl
  · exact hshort.mpr fun f hf => hall _ (hlisted f hf)

/-- A listed field of one letter, compared with a text. -/
theorem configure_accepted_of_letter :
    let s : Settings := ⟨.development, .info, .postgres, 5, ["a"], [.regex], ⟨20, 100⟩⟩
    let e := FilterTree.compare "a" .eq (.string "x")
    let b : Builder SelectDraft := ⟨.postgres, "t", {}, false⟩
    Settings.read [("FILTER_ALLOWED_FIELDS", "a")] = .ok s ∧ s.allowedFields ≠ [] ∧
      (ofSettings s).readFilter (.object [("a", .string "x")]) = .ok e ∧
      StatementKind.treeOf? .select (.tree e) = some e ∧ b.built = false ∧
      ∃ out, b.configure (.tree e) = .ok out := by
  intro s e b
  have hread : Settings.read [("FILTER_ALLOWED_FIELDS", "a")] = .ok s := by decide +kernel
  have hlist : s.allowedFields ≠ [] := by simp [s]
  have he : (ofSettings s).readFilter (.object [("a", .string "x")]) = .ok e :=
    readFilter_eq_ok_iff.mpr ⟨rfl, by decide +kernel⟩
  have hcall : StatementKind.treeOf? .select (.tree e) = some e := rfl
  obtain ⟨-, -, htaken⟩ := configure_accepted hread hlist he hcall (b := b) rfl
  exact ⟨hread, hlist, he, hcall, rfl, htaken (by decide)⟩

/-- A name of 64 letters may be listed, and a client that uses it makes the builder fail. -/
theorem configure_refuses_long_name :
    let name : Text := List.replicate 64 (Text.unit 'a')
    let s : Settings := ⟨.development, .info, .postgres, 5, [name], [.regex], ⟨20, 100⟩⟩
    let e := FilterTree.compare name .eq (.string "x")
    let b : Builder SelectDraft := ⟨.postgres, "t", {}, false⟩
    Settings.read [("FILTER_ALLOWED_FIELDS", name)] = .ok s ∧ s.allowedFields ≠ [] ∧
      (ofSettings s).readFilter (.object [(name, .string "x")]) = .ok e ∧
      (ofSettings s).select "t" = .ok b ∧
      b.configure (.tree e) = .error (.invalidIdentifier "filter field" name) := by
  intro name s e b
  have hread : Settings.read [("FILTER_ALLOWED_FIELDS", name)] = .ok s := by decide +kernel
  have he : (ofSettings s).readFilter (.object [(name, .string "x")]) = .ok e :=
    readFilter_eq_ok_iff.mpr ⟨rfl, by decide +kernel⟩
  exact ⟨hread, by simp [s], he, rfl, rfl⟩

/-- What holds of a condition that is written for a client's tree: no parameter without a node of
the tree, a text made of permitted filters of the tree, and no column that is not allowed. -/
structure Enforced (s : Settings) (e : FilterTree) (d : Dialect) (c : Condition) : Prop where
  params : c.params.length ≤ FilterPolicy.maxNodes
  renders : Condition.Renders d (fun f => f ∈ e.filters ∧ s.Permits f) c.tokens
  names : ∀ t ∈ c.tokens, t.NamesWithin fun n => s.allowedFields = [] ∨ n ∈ s.allowedFields

/-- A tree that a kit accepts is what is read from the client's document, no node of it lies deeper
than the settings allow, and in both dialects the condition that is written for it enforces the
settings. What the policy refuses the kit refuses. -/
theorem readFilter_enforced (h : Settings.read env = .ok s) (j : Json) :
    (∀ e v, FilterDocument.read j = .ok e → s.policy.checkTree e = .error v →
      (ofSettings s).readFilter j = .error (.refused v)) ∧
    ∀ e, (ofSettings s).readFilter j = .ok e →
      FilterDocument.read j = .ok e ∧ (∀ n ∈ e.nodes 0, n.depth ≤ s.maxDepth) ∧
      ∀ d index, Enforced s e d (Condition.ofTree d e index) := by
  refine ⟨fun e v hread hv => readFilter_of_refused hread hv, fun e he => ?_⟩
  obtain ⟨hread, hcheck⟩ := readFilter_eq_ok_iff.mp he
  obtain ⟨hcount, hnodes⟩ := FilterPolicy.accepts_iff.mp hcheck
  have hdepth := (Settings.wellFormed_of_read h).whole_maxDepth
  refine ⟨hread, fun n hn => ?_, fun d index => ?_⟩
  · exact Nat.le_of_not_lt fun hdeep => (hnodes n hn).1 (hdepth.isBelow_iff.mpr hdeep)
  · have hrenders : Condition.Renders d (fun f => f ∈ e.filters ∧ s.Permits f)
        (Condition.ofTree d e index).tokens :=
      Condition.renders_ofTree (fun f hf => ⟨hf, permits_of_accepted he f hf⟩) index
    refine ⟨(Condition.length_params_ofTree d e 0 index).trans hcount, hrenders, fun t ht => ?_⟩
    refine (hrenders.namesWithin t ht).imp ?_
    rintro n ⟨f, ⟨-, hpermits⟩, rfl⟩
    exact hpermits.field

/-- A list of two texts on SQLite, at the depth that is allowed. -/
theorem readFilter_enforced_of_list :
    let s : Settings := ⟨.development, .info, .sqlite, 1, ["a", "b"], [.regex], ⟨20, 100⟩⟩
    let e := FilterTree.compare "b" .isIn (.array [.string "x", .string "y"])
    Settings.read [("SQL_DIALECT", "sqlite"), ("FILTER_MAX_DEPTH", "1"),
        ("FILTER_ALLOWED_FIELDS", "a, b")] = .ok s ∧
      (ofSettings s).readFilter
        (.object [("b", .object [("$in", .array [.string "x", .string "y"])])]) = .ok e ∧
      Enforced s e .sqlite (Condition.ofTree .sqlite e 1) := by
  intro s e
  have hread : Settings.read [("SQL_DIALECT", "sqlite"), ("FILTER_MAX_DEPTH", "1"),
      ("FILTER_ALLOWED_FIELDS", "a, b")] = .ok s := by decide +kernel
  have he : (ofSettings s).readFilter
      (.object [("b", .object [("$in", .array [.string "x", .string "y"])])]) = .ok e :=
    readFilter_eq_ok_iff.mpr ⟨rfl, by decide +kernel⟩
  obtain ⟨-, henforced⟩ := readFilter_enforced hread
    (.object [("b", .object [("$in", .array [.string "x", .string "y"])])])
  exact ⟨hread, he, (henforced e he).2.2 .sqlite 1⟩

end Kit
end BoundSql
