import BoundSql.Proofs.Filter.Documents

/-!
# How deep documents may be nested

The reader of documents follows objects and arrays for 64 levels, but it does not
count every level: the list of a group is on the level of its members, and a
list or an object with nothing in it has nothing that could be too deep. So a
document of at most 64 levels is never refused for its depth; one that is nested
deeper is refused if all its levels count, and at the latest from 131 levels on.
-/
namespace BoundSql

/-- The greatest of several depths. -/
def deepest (ns : List ℕ) : ℕ := ns.foldr max 0

section Deepest

variable {α : Type} {f g : α → ℕ} {as : List α}

lemma le_deepest {a : α} (h : a ∈ as) : f a ≤ deepest (as.map f) :=
  List.le_max_of_le (List.mem_map_of_mem h) le_rfl

lemma deepest_le {bound : ℕ} (h : ∀ a ∈ as, f a ≤ bound) : deepest (as.map f) ≤ bound :=
  List.max_le_of_forall_le _ bound (List.forall_mem_map.mpr h)

lemma deepest_lt {bound : ℕ} (hne : as ≠ []) (h : ∀ a ∈ as, f a < bound) :
    deepest (as.map f) < bound := by
  obtain ⟨a, ha⟩ := List.exists_mem_of_ne_nil as hne
  have hpos := h a ha
  have hle : deepest (as.map f) ≤ bound - 1 := deepest_le fun b hb => Nat.le_sub_one_of_lt (h b hb)
  omega

lemma deepest_succ (h : as ≠ []) : deepest (as.map fun a => f a + 1) = deepest (as.map f) + 1 := by
  induction as with
  | nil => exact absurd rfl h
  | cons a as ih =>
    have hcons : ∀ n ns, deepest (n :: ns) = max n (deepest ns) := fun _ _ => rfl
    rw [List.map_cons, List.map_cons, hcons, hcons]
    cases as with
    | nil => simp [deepest]
    | cons b as => rw [ih (by simp), Nat.add_max_add_right]

/-- Bounds that hold for each hold for the greatest. -/
lemma deepest_bounds {k c : ℕ} (h : ∀ a ∈ as, f a ≤ g a ∧ g a ≤ k * f a + c) :
    deepest (as.map f) ≤ deepest (as.map g) ∧
      deepest (as.map g) ≤ k * deepest (as.map f) + c := by
  refine ⟨deepest_le fun a ha => (h a ha).1.trans (le_deepest ha), deepest_le fun a ha => ?_⟩
  exact (h a ha).2.trans (Nat.add_le_add_right (Nat.mul_le_mul_left k (le_deepest ha)) c)

end Deepest

namespace Json

/-- Documents are built from scalars by arrays and objects. -/
@[elab_as_elim]
theorem induct {motive : Json → Prop} (null : motive .null) (bool : ∀ b, motive (.bool b))
    (number : ∀ x, motive (.number x)) (string : ∀ s, motive (.string s))
    (array : ∀ items, (∀ j ∈ items, motive j) → motive (.array items))
    (object : ∀ members : List (Text × Json), (∀ m ∈ members, motive m.2) →
      motive (.object members)) (j : Json) : motive j := by
  match j with
  | .null => exact null
  | .bool b => exact bool b
  | .number x => exact number x
  | .string s => exact string s
  | .array items => exact array items fun j _ => induct null bool number string array object j
  | .object members =>
    refine object members fun m hm => ?_
    have hmember := List.sizeOf_lt_of_mem hm
    have hvalue : sizeOf m.2 < sizeOf m := by
      cases m
      simp
    exact induct null bool number string array object m.2

mutual

/-- How deep objects and arrays are nested, where an empty one counts for so many levels. -/
def nestingWith (hollow : ℕ) : Json → ℕ
  | .array items => if items.isEmpty then hollow else nestingItems hollow items + 1
  | .object members => if members.isEmpty then hollow else nestingMembers hollow members + 1
  | _ => 0

def nestingItems (hollow : ℕ) : List Json → ℕ
  | [] => 0
  | j :: rest => max (nestingWith hollow j) (nestingItems hollow rest)

def nestingMembers (hollow : ℕ) : List (Text × Json) → ℕ
  | [] => 0
  | (_, j) :: rest => max (nestingWith hollow j) (nestingMembers hollow rest)

end

/-- How deep objects and arrays are nested. -/
def nesting (j : Json) : ℕ := j.nestingWith 1

theorem nestingWith_array (hollow : ℕ) (items : List Json) : (array items).nestingWith hollow =
    if items.isEmpty then hollow else deepest (items.map (nestingWith hollow)) + 1 := by
  have hitems : nestingItems hollow items = deepest (items.map (nestingWith hollow)) := by
    induction items with
    | nil => rfl
    | cons j items ih => rw [nestingItems, ih]; rfl
  rw [nestingWith, hitems]

theorem nestingWith_object (hollow : ℕ) (members : List (Text × Json)) :
    (object members).nestingWith hollow = if members.isEmpty then hollow
      else deepest (members.map fun m => m.2.nestingWith hollow) + 1 := by
  have hmembers : nestingMembers hollow members =
      deepest (members.map fun m => m.2.nestingWith hollow) := by
    induction members with
    | nil => rfl
    | cons m members ih => rw [nestingMembers, ih]; rfl
  rw [nestingWith, hmembers]

/-- Only what is empty is counted in two ways, and it is innermost. -/
theorem nestingWith_bounds (j : Json) :
    j.nestingWith 0 ≤ j.nestingWith 1 ∧ j.nestingWith 1 ≤ 1 * j.nestingWith 0 + 1 := by
  induction j using induct with
  | array items ih =>
    obtain ⟨hlow, hhigh⟩ := deepest_bounds ih
    rw [nestingWith_array, nestingWith_array]
    split_ifs <;> omega
  | object members ih =>
    obtain ⟨hlow, hhigh⟩ := deepest_bounds ih
    rw [nestingWith_object, nestingWith_object]
    split_ifs <;> omega
  | _ => exact ⟨le_rfl, Nat.zero_le _⟩

end Json

namespace FilterDocument

mutual

/-- How deep a document is nested, where each level that the reader does not count is `skipped`:
the list of a group, and a list or an object with nothing in it. -/
def levelsWith (skipped : ℕ) : Json → ℕ
  | .object members => if members.isEmpty then skipped else levelsOf skipped members
  | j => j.nestingWith skipped

def levelsOf (skipped : ℕ) : List (Text × Json) → ℕ
  | [] => 0
  | (key, j) :: rest =>
    max (if isOperatorKey key then groupLevels skipped j else j.nestingWith skipped + 1)
      (levelsOf skipped rest)

def groupLevels (skipped : ℕ) : Json → ℕ
  | .array items =>
    if items.isEmpty then skipped + skipped else levelsAll skipped items + skipped + 1
  | .object members => (if members.isEmpty then skipped else levelsOf skipped members) + 1
  | _ => 1

def levelsAll (skipped : ℕ) : List Json → ℕ
  | [] => 0
  | j :: rest => max (levelsWith skipped j) (levelsAll skipped rest)

end

/-- The levels of a member with those of the object it is in. -/
def memberLevels (skipped : ℕ) (m : Text × Json) : ℕ :=
  if isOperatorKey m.1 then groupLevels skipped m.2 else m.2.nestingWith skipped + 1

theorem levelsWith_object (skipped : ℕ) (members : List (Text × Json)) :
    levelsWith skipped (.object members) =
      if members.isEmpty then skipped else deepest (members.map (memberLevels skipped)) := by
  have hmembers : levelsOf skipped members = deepest (members.map (memberLevels skipped)) := by
    induction members with
    | nil => rfl
    | cons m members ih => rw [levelsOf, ih]; rfl
  rw [levelsWith, hmembers]

theorem groupLevels_array (skipped : ℕ) (items : List Json) : groupLevels skipped (.array items) =
    if items.isEmpty then skipped + skipped
      else deepest (items.map (levelsWith skipped)) + skipped + 1 := by
  have hitems : levelsAll skipped items = deepest (items.map (levelsWith skipped)) := by
    induction items with
    | nil => rfl
    | cons j items ih => rw [levelsAll, ih]; rfl
  rw [groupLevels, hitems]

theorem groupLevels_object (skipped : ℕ) (members : List (Text × Json)) :
    groupLevels skipped (.object members) = levelsWith skipped (.object members) + 1 := by
  rw [groupLevels, levelsWith]

theorem groupLevels_of_not_array {skipped : ℕ} {j : Json} (h : ∀ items, j ≠ .array items) :
    groupLevels skipped j = levelsWith skipped j + 1 := by
  cases j with
  | array items => exact absurd rfl (h items)
  | object members => exact groupLevels_object skipped members
  | _ => rfl

/-- With those that it does not count they are all levels. -/
theorem levelsWith_one (j : Json) :
    levelsWith 1 j = j.nesting ∧ groupLevels 1 j = j.nesting + 1 := by
  induction j using Json.induct with
  | array items ih =>
    have hitems : items.map (levelsWith 1) = items.map (Json.nestingWith 1) :=
      List.map_congr_left fun j hj => (ih j hj).1
    refine ⟨rfl, ?_⟩
    rw [groupLevels_array, hitems, Json.nesting, Json.nestingWith_array]
    split_ifs <;> rfl
  | object members ih =>
    have hmembers : members.map (memberLevels 1) =
        members.map fun m => m.2.nestingWith 1 + 1 := by
      refine List.map_congr_left fun m hm => ?_
      unfold memberLevels
      split_ifs
      · exact (ih m hm).2
      · rfl
    have hobject : levelsWith 1 (.object members) = (Json.object members).nesting := by
      rw [levelsWith_object, hmembers, Json.nesting, Json.nestingWith_object]
      split_ifs with hempty
      · rfl
      · exact deepest_succ (by simpa using hempty)
    exact ⟨hobject, by rw [groupLevels_object, hobject]⟩
  | _ => exact ⟨rfl, rfl⟩

/-- At most every other level is not counted, and two at the end. -/
theorem levelsWith_bounds (j : Json) :
    (levelsWith 0 j ≤ levelsWith 1 j ∧ levelsWith 1 j ≤ 2 * levelsWith 0 j + 2) ∧
      groupLevels 0 j ≤ groupLevels 1 j ∧ groupLevels 1 j ≤ 2 * groupLevels 0 j + 2 := by
  induction j using Json.induct with
  | array items ih =>
    obtain ⟨hlow, hhigh⟩ := deepest_bounds fun j hj => (ih j hj).1
    have hvalue := Json.nestingWith_bounds (.array items)
    have hlevels : ∀ skipped, levelsWith skipped (.array items) =
        (Json.array items).nestingWith skipped := fun _ => rfl
    rw [groupLevels_array, groupLevels_array, hlevels, hlevels]
    split_ifs <;> omega
  | object members ih =>
    obtain ⟨hlow, hhigh⟩ : deepest (members.map (memberLevels 0)) ≤
        deepest (members.map (memberLevels 1)) ∧ deepest (members.map (memberLevels 1)) ≤
          2 * deepest (members.map (memberLevels 0)) + 2 := by
      refine deepest_bounds fun m hm => ?_
      have hvalue := m.2.nestingWith_bounds
      unfold memberLevels
      split_ifs
      · exact (ih m hm).2
      · omega
    rw [groupLevels_object, groupLevels_object, levelsWith_object, levelsWith_object]
    split_ifs <;> omega
  | _ => exact ⟨⟨le_rfl, Nat.zero_le _⟩, le_rfl, by simp [groupLevels]⟩

variable {left : ℕ} {j : Json}

/-- A value is too deep only if it has as many levels as there were left. -/
lemma le_of_toValue (h : toValue left j = .error .tooDeep) : left ≤ j.nestingWith 0 := by
  induction left generalizing j with
  | zero => exact Nat.zero_le _
  | succ left ih =>
    cases j with
    | array items =>
      rw [toValue, map_eq_error_iff] at h
      obtain ⟨item, hitem, hdeep⟩ := exists_of_mapM_error h
      have hne : ¬items.isEmpty = true := fun hempty => by
        rw [List.isEmpty_iff.mp hempty] at hitem
        cases hitem
      rw [Json.nestingWith_array, if_neg hne]
      exact Nat.succ_le_succ ((ih hdeep).trans (le_deepest hitem))
    | number x =>
      rw [toValue] at h
      split_ifs at h
      cases h
    | _ => cases h

/-- A value that is read has fewer levels than there were left. -/
lemma lt_of_toValue {v : Value} (h : toValue left j = .ok v) : j.nestingWith 0 < left := by
  induction left generalizing j v with
  | zero => cases h
  | succ left ih =>
    cases j with
    | array items =>
      obtain ⟨rest, vs, hrest, rfl, hvs⟩ := toValue_array.mp h
      obtain rfl := Nat.succ.inj hrest
      rw [Json.nestingWith_array]
      split_ifs with hempty
      · exact Nat.succ_pos left
      · refine Nat.succ_lt_succ (deepest_lt (by simpa using hempty) fun item hitem => ?_)
        obtain ⟨v, -, hv⟩ := exists_of_mem_of_mapM hvs hitem
        exact ih hv
    | object members => cases h
    | _ => exact Nat.succ_pos left

lemma toValue_of_valueOr {otherwise : FilterError} (hne : otherwise ≠ .tooDeep)
    (h : valueOr otherwise left j = .error .tooDeep) : toValue left j = .error .tooDeep := by
  rw [valueOr] at h
  cases hvalue : toValue left j with
  | ok v => simp [hvalue, Except.mapError] at h
  | error why =>
    cases why with
    | tooDeep => rfl
    | notValue => exact absurd (by simpa [hvalue, Except.mapError, NoValue.toError] using h) hne

lemma toValue_of_operand {key : Text} {op : Operator}
    (h : operand key op left j = .error .tooDeep) : toValue left j = .error .tooDeep := by
  unfold operand at h
  split at h
  · split_ifs at h
    · exact toValue_of_valueOr (by simp) h
    · cases h
  · split_ifs at h
    · exact toValue_of_valueOr (by simp) h
    · cases h
  · split_ifs at h
    · exact toValue_of_valueOr (by simp) h
    · cases h
  · exact toValue_of_valueOr (by simp) h

/-- An object around an operand is one level more. -/
lemma nestingWith_operand (key : Text) (j : Json) :
    (Json.object [(key, j)]).nestingWith 0 = j.nestingWith 0 + 1 := by
  rw [Json.nestingWith_object]
  simp [deepest]

lemma le_of_fieldFilter {field : Text} (h : fieldFilter field left j = .error .tooDeep) :
    left ≤ j.nestingWith 0 := by
  unfold fieldFilter at h
  split at h
  · split_ifs at h
    · split at h
      · have hdeep := le_of_toValue (toValue_of_operand (map_eq_error_iff.mp h))
        rw [nestingWith_operand]
        omega
      · cases h
    · cases h
  · cases h
  · exact le_of_toValue (toValue_of_valueOr (by simp) (map_eq_error_iff.mp h))

lemma lt_of_fieldFilter {field : Text} {e : FilterTree} (h : fieldFilter field left j = .ok e) :
    j.nestingWith 0 < left := by
  unfold fieldFilter at h
  split at h
  · split_ifs at h
    split at h
    · obtain ⟨v, hv, -⟩ := map_eq_ok_iff.mp h
      have hdeep := lt_of_toValue (operand_spec hv).1
      rw [nestingWith_operand]
      omega
    · cases h
  · cases h
  · obtain ⟨v, hv, -⟩ := map_eq_ok_iff.mp h
    exact lt_of_toValue (valueOr_eq_ok_iff.mp hv)

section Groups

variable {read : Json → Except FilterError FilterTree}

/-- The list of a group is on the level of its members. -/
lemma le_of_item (h : left ≤ levelsWith 0 j) {items : List Json} (hj : j ∈ items) :
    left + 1 ≤ groupLevels 0 (.array items) := by
  have hne : ¬items.isEmpty = true := fun hempty => by
    rw [List.isEmpty_iff.mp hempty] at hj
    cases hj
  rw [groupLevels_array, if_neg hne]
  exact Nat.succ_le_succ (h.trans (le_deepest hj))

lemma lt_of_items {items : List Json} (h : ∀ j ∈ items, levelsWith 0 j < left) :
    groupLevels 0 (.array items) < left + 1 := by
  rw [groupLevels_array]
  split_ifs with hempty
  · exact Nat.succ_pos left
  · exact Nat.succ_lt_succ (deepest_lt (by simpa using hempty) h)

lemma le_of_children (hread : ∀ {j}, read j = .error .tooDeep → left ≤ levelsWith 0 j)
    (h : children read j = .error .tooDeep) : left + 1 ≤ groupLevels 0 j := by
  unfold children at h
  split at h
  · obtain ⟨item, hitem, hdeep⟩ := exists_of_mapM_error h
    exact le_of_item (hread hdeep) hitem
  · cases h

lemma lt_of_children (hread : ∀ {j e}, read j = .ok e → levelsWith 0 j < left)
    {es : List FilterTree} (h : children read j = .ok es) : groupLevels 0 j < left + 1 := by
  unfold children at h
  split at h
  · refine lt_of_items fun item hitem => ?_
    obtain ⟨e, -, he⟩ := exists_of_mem_of_mapM h hitem
    exact hread he
  · cases h

lemma le_of_onlyChild (hread : ∀ {j}, read j = .error .tooDeep → left ≤ levelsWith 0 j)
    (h : onlyChild read j = .error .tooDeep) : left + 1 ≤ groupLevels 0 j := by
  unfold onlyChild at h
  split at h
  · exact le_of_item (hread h) List.mem_cons_self
  · cases h
  · rw [groupLevels_of_not_array ‹_›]
    exact Nat.succ_le_succ (hread h)

lemma lt_of_onlyChild (hread : ∀ {j e}, read j = .ok e → levelsWith 0 j < left)
    {e : FilterTree} (h : onlyChild read j = .ok e) : groupLevels 0 j < left + 1 := by
  unfold onlyChild at h
  split at h
  · exact lt_of_items (List.forall_mem_singleton.mpr (hread h))
  · cases h
  · rw [groupLevels_of_not_array ‹_›]
    exact Nat.succ_lt_succ (hread h)

/-- A member is on the level of its object, and what it holds one level deeper. -/
lemma le_of_member {key : Text} (hread : ∀ {j}, read j = .error .tooDeep → left ≤ levelsWith 0 j)
    (h : member read left key j = .error .tooDeep) : left + 1 ≤ memberLevels 0 (key, j) := by
  unfold member at h
  unfold memberLevels
  split_ifs at h with hempty hplain
  · cases h
  · rw [if_neg (by simpa using hplain)]
    exact Nat.succ_le_succ (le_of_fieldFilter h)
  · rw [if_pos (by simpa using hplain)]
    exact le_of_children hread (map_eq_error_iff.mp h)
  · rw [if_pos (by simpa using hplain)]
    exact le_of_children hread (map_eq_error_iff.mp h)
  · rw [if_pos (by simpa using hplain)]
    exact le_of_onlyChild hread (map_eq_error_iff.mp h)
  · cases h

lemma lt_of_member {key : Text} {e : FilterTree}
    (hread : ∀ {j e}, read j = .ok e → levelsWith 0 j < left)
    (h : member read left key j = .ok e) : memberLevels 0 (key, j) < left + 1 := by
  unfold member at h
  unfold memberLevels
  split_ifs at h with hempty hplain
  · rw [if_neg (by simpa using hplain)]
    exact Nat.succ_lt_succ (lt_of_fieldFilter h)
  · obtain ⟨es, hes, -⟩ := map_eq_ok_iff.mp h
    rw [if_pos (by simpa using hplain)]
    exact lt_of_children hread hes
  · obtain ⟨es, hes, -⟩ := map_eq_ok_iff.mp h
    rw [if_pos (by simpa using hplain)]
    exact lt_of_children hread hes
  · obtain ⟨e, he, -⟩ := map_eq_ok_iff.mp h
    rw [if_pos (by simpa using hplain)]
    exact lt_of_onlyChild hread he

end Groups

/-- A document is too deep only if it has as many levels that count as there were left. -/
theorem le_of_toTree (h : toTree left j = .error .tooDeep) : left ≤ levelsWith 0 j := by
  induction left generalizing j with
  | zero => exact Nat.zero_le _
  | succ left ih =>
    cases j with
    | object members =>
      rw [toTree] at h
      split_ifs at h with hempty
      · cases h
      · obtain ⟨m, hm, hdeep⟩ := exists_of_mapM_error (map_eq_error_iff.mp h)
        rw [levelsWith_object, if_neg hempty]
        exact (le_of_member ih hdeep).trans (le_deepest hm)
    | _ => cases h

/-- A document that is read has fewer levels that count than there were left. -/
theorem lt_of_toTree {e : FilterTree} (h : toTree left j = .ok e) : levelsWith 0 j < left := by
  induction left generalizing j e with
  | zero => cases h
  | succ left ih =>
    cases j with
    | object members =>
      rw [toTree] at h
      split_ifs at h with hempty
      obtain ⟨es, hes, -⟩ := map_eq_ok_iff.mp h
      rw [levelsWith_object, if_neg hempty]
      refine deepest_lt (by simpa using hempty) fun m hm => ?_
      obtain ⟨e, -, he⟩ := exists_of_mem_of_mapM hes hm
      exact lt_of_member ih he
    | _ => cases h

/-- A document of at most 64 levels of objects and arrays is never refused for its depth, and one
with more than 64 levels that count is never read; so the limit is 64 levels where all levels of a
document count. Without those that do not count, a document has at least half of its levels, so
none of more than 130 is read. -/
theorem read_nesting (j : Json) :
    (j.nesting ≤ 64 → read j ≠ .error .tooDeep) ∧
    (levelsWith 0 j ≤ 64 → read j ≠ .error .tooDeep) ∧
    (64 < levelsWith 0 j → ∀ e, read j ≠ .ok e) ∧
    levelsWith 1 j = j.nesting ∧
    (130 < j.nesting → ∀ e, read j ≠ .ok e) := by
  obtain ⟨hlow, hhigh⟩ := (levelsWith_bounds j).1
  have hall := (levelsWith_one j).1
  have hdeep : levelsWith 0 j ≤ 64 → read j ≠ .error .tooDeep := by
    intro hle h
    have hlt : 65 ≤ levelsWith 0 j := le_of_toTree h
    omega
  have hread : 64 < levelsWith 0 j → ∀ e, read j ≠ .ok e := by
    intro hlt e h
    have hle : levelsWith 0 j < 65 := lt_of_toTree h
    omega
  exact ⟨fun h => hdeep (by omega), hdeep, hread, hall, fun h => hread (by omega)⟩

/-- Negations around a comparison, at the limit and beyond it. -/
theorem read_nesting_of_negations :
    let j (n : ℕ) : Json := (fun j => .object [("$not", j)])^[n] (.object [("a", .number 1)])
    (j 63).nesting = 64 ∧ read (j 63) ≠ .error .tooDeep ∧
      levelsWith 0 (j 64) = 65 ∧ ∀ e, read (j 64) ≠ .ok e := by
  intro j
  have hlimit : (j 63).nesting = 64 := by decide +kernel
  have hbeyond : levelsWith 0 (j 64) = 65 := by decide +kernel
  exact ⟨hlimit, (read_nesting (j 63)).1 hlimit.le, hbeyond,
    (read_nesting (j 64)).2.2.1 (by omega)⟩

/-- Conjunctions of one member each are read although their objects and lists are nested for 81
levels. -/
theorem read_conjunctions :
    let j : Json := (fun j => .object [("$and", .array [j])])^[40] (.object [("a", .number 1)])
    j.nesting = 81 ∧ ∃ e, read j = .ok e := by
  intro j
  have hread : (read j).isOk = true := by decide +kernel
  refine ⟨by decide +kernel, ?_⟩
  cases hj : read j with
  | ok e => exact ⟨e, rfl⟩
  | error why => simp [hj, Except.isOk, Except.toBool] at hread

end FilterDocument

end BoundSql
