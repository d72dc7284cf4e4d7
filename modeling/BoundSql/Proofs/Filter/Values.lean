import BoundSql.Proofs.Filter.Nesting
import BoundSql.Proofs.Values

/-!
# The values of documents

A document without objects is plain data, and plain data has a value of its own,
whoever hands it in. The reader of documents gives the same value, as the value of
a field and as the operand of an operator alike. What the driver receives for it
is the data with its safe integers made exact.
-/
namespace BoundSql

namespace Json

mutual

/-- The plain data of a document; there is none where it has an object. -/
def toDatum? : Json → Option Datum
  | .null => some .null
  | .bool b => some (.bool b)
  | .number x => some (.number x)
  | .string s => some (.string s)
  | .array items => (toData? items).map .list
  | .object _ => none

def toData? : List Json → Option (List Datum)
  | [] => some []
  | j :: rest => j.toDatum?.bind fun d => (toData? rest).map (d :: ·)

end

end Json

namespace FilterDocument

variable {levels : ℕ} {j : Json} {d : Datum}

/-- What is read of some plain data is its value, or it is nested too deep. -/
def Follows (levels : ℕ) (j : Json) (d : Datum) : Prop :=
  toValue levels j = .error .tooDeep ∨ ∃ v, toValue levels j = .ok v ∧ Value.ofDatum d = .ok v

lemma follows_items {items : List Json}
    (h : ∀ j ∈ items, ∀ d, j.toDatum? = some d → d.isFinite = true → Follows levels j d)
    {ds : List Datum} (hds : Json.toData? items = some ds) (hfinite : Datum.allFinite ds = true) :
    items.mapM (toValue levels) = .error .tooDeep ∨
      ∃ vs, items.mapM (toValue levels) = .ok vs ∧ Value.ofData ds = .ok vs := by
  induction items generalizing ds with
  | nil =>
    obtain rfl := Option.some.inj hds
    exact .inr ⟨[], rfl, rfl⟩
  | cons j items ih =>
    rw [Json.toData?] at hds
    obtain ⟨d, hd, hrest⟩ := Option.bind_eq_some_iff.mp hds
    obtain ⟨ds', hds', rfl⟩ := Option.map_eq_some_iff.mp hrest
    rw [Datum.allFinite, Bool.and_eq_true] at hfinite
    have hmore := ih (fun j hj => h j (List.mem_cons_of_mem _ hj)) hds' hfinite.2
    rw [List.mapM_cons]
    rcases h j List.mem_cons_self d hd hfinite.1 with hdeep | ⟨v, hv, hdatum⟩
    · exact .inl (by rw [hdeep]; rfl)
    rcases hmore with hdeep | ⟨vs, hvs, hdata⟩
    · exact .inl (by rw [hv, hdeep]; rfl)
    · refine .inr ⟨v :: vs, by rw [hv, hvs]; rfl, ?_⟩
      rw [Value.ofData, hdatum, hdata]
      rfl

/-- The reader of documents and the conversion of plain data agree. -/
theorem follows_of_toDatum? (hd : j.toDatum? = some d) (hfinite : d.isFinite = true) :
    Follows levels j d := by
  induction j using Json.induct generalizing levels d with
  | object members => cases hd
  | array items ih =>
    rw [Json.toDatum?] at hd
    obtain ⟨ds, hds, rfl⟩ := Option.map_eq_some_iff.mp hd
    cases levels with
    | zero => exact .inl rfl
    | succ levels =>
      rw [Datum.isFinite] at hfinite
      have hitems : ∀ j ∈ items, ∀ d, j.toDatum? = some d → d.isFinite = true →
          Follows levels j d := fun j hj d => ih j hj
      rw [Follows, toValue, Value.ofDatum]
      rcases follows_items hitems hds hfinite with hdeep | ⟨vs, hvs, hdata⟩
      · exact .inl (by rw [hdeep]; rfl)
      · exact .inr ⟨.array vs, by rw [hvs]; rfl, by rw [hdata]; rfl⟩
  | number x =>
    obtain rfl := Option.some.inj hd
    cases levels with
    | zero => exact .inl rfl
    | succ levels => exact .inr ⟨Value.ofNumber x, if_pos hfinite, rfl⟩
  | _ =>
    obtain rfl := Option.some.inj hd
    cases levels with
    | zero => exact .inl rfl
    | succ levels => exact .inr ⟨_, rfl, rfl⟩

/-- A value that is read does not depend on how many levels were left. -/
lemma toValue_eq_of_ofDatum {v w : Value} (hd : j.toDatum? = some d) (hfinite : d.isFinite = true)
    (hv : Value.ofDatum d = .ok v) (hw : toValue levels j = .ok w) : w = v := by
  have hfollows : Follows levels j d := follows_of_toDatum? hd hfinite
  rcases hfollows with hdeep | ⟨w', hw', hdatum⟩
  · rw [hdeep] at hw
    cases hw
  · obtain rfl : w' = w := Except.ok.inj (hw'.symm.trans hw)
    exact Except.ok.inj (hdatum.symm.trans hv)

/-- An object with one plain name is read as the filter of that field. -/
lemma read_field {field : Text} (hne : field ≠ []) (hplain : isOperatorKey field = false)
    (j : Json) : read (.object [(field, j)]) = fieldFilter field maxLevels j := by
  rw [read, toTree_single, member_plain hne hplain]

lemma fieldFilter_value {field : Text} (h : ∀ members, j ≠ .object members) :
    fieldFilter field levels j = (valueOr .expectedValue levels j).map (.compare field .eq) := by
  cases j with
  | object members => exact absurd rfl (h members)
  | _ => rfl

lemma fieldFilter_operand {field key : Text} {e : FilterTree}
    (h : fieldFilter field levels (.object [(key, j)]) = .ok e) :
    ∃ op v, Operator.ofKey? key = some op ∧ toValue (levels - 1) j = .ok v ∧
      e = .compare field op v := by
  rw [fieldFilter] at h
  split_ifs at h
  split at h
  next op hop =>
    obtain ⟨v, hv, rfl⟩ := map_eq_ok_iff.mp h
    exact ⟨op, v, hop, (operand_spec hv).1, rfl⟩
  next => cases h

/-- A document of plain data under a field is read as equality with its value, unless it is nested
too deep. The driver receives the data with its safe integers made exact. As the operand of an
operator, where that is read, the data has the same value. -/
theorem read_value {field : Text} (hne : field ≠ []) (hplain : isOperatorKey field = false)
    (hd : j.toDatum? = some d) (hfinite : d.isFinite = true)
    (hdeep : read (.object [(field, j)]) ≠ .error .tooDeep) :
    ∃ v, read (.object [(field, j)]) = .ok (.leaf ⟨field, .eq, v⟩) ∧
      Value.ofDatum d = .ok v ∧ v.toDatum = d.exact ∧
      ∀ key e, read (.object [(field, .object [(key, j)])]) = .ok e →
        ∃ op, Operator.ofKey? key = some op ∧ e = .leaf ⟨field, op, v⟩ := by
  have hnoObject : ∀ members, j ≠ .object members := by
    rintro members rfl
    cases hd
  rw [read_field hne hplain, fieldFilter_value hnoObject, valueOr] at hdeep ⊢
  have hfollows : Follows maxLevels j d := follows_of_toDatum? hd hfinite
  rcases hfollows with hlevels | ⟨v, hv, hdatum⟩
  · rw [hlevels] at hdeep
    exact absurd rfl hdeep
  · refine ⟨v, by rw [hv]; rfl, hdatum, Value.toDatum_ofDatum hdatum, fun key e he => ?_⟩
    rw [read_field hne hplain] at he
    obtain ⟨op, w, hop, hw, rfl⟩ := fieldFilter_operand he
    obtain rfl := toValue_eq_of_ofDatum hd hfinite hdatum hw
    exact ⟨op, hop, rfl⟩

/-- Zero with a sign, and in a list within the list the least number and the first integer that is
not safe. -/
theorem read_value_of_list :
    let field : Text := "a"
    let least : Double := .ofUnits false 1 1
    let large : Double := .ofNat (2 ^ 53)
    let j : Json := .array [.number (Double.neg 0), .array [.number least, .number large, .null]]
    read (.object [(field, j)]) ≠ .error .tooDeep ∧
      ∃ v, read (.object [(field, j)]) = .ok (.leaf ⟨field, .eq, v⟩) ∧
        v = .array [.int 0, .array [.float least, .float large, .null]] ∧
        v.toDatum = .list [.integer 0, .list [.number least, .number large, .null]] ∧
        read (.object [(field, .object [("$in", j)])]) = .ok (.leaf ⟨field, .isIn, v⟩) := by
  intro field least large j
  let d : Datum := .list [.number (Double.neg 0), .list [.number least, .number large, .null]]
  have hzero : (Double.neg 0).toSafeInt? = some 0 := by decide +kernel
  have hleast : least.toSafeInt? = none := by decide +kernel
  have hlarge : large.toSafeInt? = none := by decide +kernel
  have hread : (read (.object [(field, j)])).isOk = true := by decide +kernel
  have hdeep : read (.object [(field, j)]) ≠ .error .tooDeep := by
    intro h
    rw [h] at hread
    cases hread
  have hin : (read (.object [(field, .object [("$in", j)])])).isOk = true := by decide +kernel
  obtain ⟨v, heq, hv, -, hoperand⟩ := read_value (d := d) (by decide) (by decide) rfl
    (by decide +kernel) hdeep
  have hvalue : Value.ofDatum d =
      .ok (.array [.int 0, .array [.float least, .float large, .null]]) := by
    simp [d, Value.ofDatum, Value.ofData, Value.ofNumber, hzero, hleast, hlarge, bind, Except.bind,
      Except.map]
  obtain rfl := Except.ok.inj (hv.symm.trans hvalue)
  refine ⟨hdeep, _, heq, rfl, rfl, ?_⟩
  cases hoperator : read (.object [(field, .object [("$in", j)])]) with
  | error e => simp [hoperator, Except.isOk, Except.toBool] at hin
  | ok e =>
    obtain ⟨op, hop, rfl⟩ := hoperand "$in" e hoperator
    have hkey : Operator.ofKey? "$in" = some .isIn := by decide
    obtain rfl := Option.some.inj (hkey.symm.trans hop)
    rfl

end FilterDocument
end BoundSql
