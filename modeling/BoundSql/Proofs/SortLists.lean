import BoundSql.Client.SortList
import BoundSql.Proofs.Sql.Pieces
import BoundSql.Proofs.Statement.Parts

/-!
# Sort lists and their written form

A sort list is read part by part, so what is written field by field is read back,
and a list of two texts is the lists of both, one after the other. A field that was
read is an identifier and allowed; a builder takes it as it is.
-/
namespace BoundSql

namespace Text

lemma splitAt_eq_splitOn (separator : UInt16) (t : Text) :
    splitAt separator t = t.splitOn separator := by
  induction t with
  | nil => rfl
  | cons c rest ih =>
    obtain ⟨piece, pieces, hpieces⟩ := List.exists_cons_of_ne_nil (splitAt_ne_nil separator rest)
    rw [List.splitOn_cons_eq_if_modifyHead, ← ih, splitAt, hpieces]
    by_cases hc : c = separator <;> simp [hc]

/-- Two texts around a separator have the pieces of both. -/
theorem splitAt_append_cons (separator : UInt16) (t u : Text) :
    splitAt separator (t ++ separator :: u) = splitAt separator t ++ splitAt separator u := by
  rw [splitAt_eq_splitOn, splitAt_eq_splitOn, splitAt_eq_splitOn]
  exact List.splitOn_append_cons_self t u

lemma dropWhile_isBlank {t : Text} (h : ∀ c ∈ t, isBlank c = false) : t.dropWhile isBlank = t := by
  cases t with
  | nil => rfl
  | cons c rest => rw [List.dropWhile_cons, if_neg (by simp [h c List.mem_cons_self])]

/-- Where there are no blanks none are cut off. -/
lemma trim_of_not_blank {t : Text} (h : ∀ c ∈ t, isBlank c = false) : t.trim = t := by
  rw [trim, dropWhile_isBlank h, dropWhile_isBlank fun c hc => h c (List.mem_reverse.mp hc),
    List.reverse_reverse]

end Text

namespace SortList

variable {allowed : List Text}

/-- May a client sort by this field? Every field is on an empty list. -/
def Allowed (allowed : List Text) (s : SortKey) : Prop :=
  Identifier.isValid s.field = true ∧ (allowed ≠ [] → s.field ∈ allowed)

lemma checkField_eq_ok_iff {s : SortKey} :
    checkField allowed s.field = .ok () ↔ Allowed allowed s := by
  unfold checkField
  split_ifs with hlist hname
  · have hmissing : allowed ≠ [] ∧ s.field ∉ allowed := by simpa using hlist
    exact iff_of_false (by simp) fun h => hmissing.2 (h.2 hmissing.1)
  · exact iff_of_false (by simp) fun h => by simp [h.1] at hname
  · have hlisted : allowed ≠ [] → s.field ∈ allowed := by simpa using hlist
    exact iff_of_true rfl ⟨by simpa using hname, hlisted⟩

lemma readPart_eq_ok_iff {part : Text} {s : SortKey} :
    readPart allowed part = .ok s ↔ splitDash part = s ∧ Allowed allowed s := by
  rw [readPart, bind_eq_ok_iff]
  constructor
  · rintro ⟨⟨⟩, hcheck, ⟨⟩⟩
    exact ⟨rfl, checkField_eq_ok_iff.mp hcheck⟩
  · rintro ⟨rfl, hallowed⟩
    exact ⟨(), checkField_eq_ok_iff.mpr hallowed, rfl⟩

theorem allowed_of_read {t : Text} {sorts : List SortKey} (h : read allowed t = .ok sorts) :
    ∀ s ∈ sorts, Allowed allowed s := by
  intro s hs
  obtain ⟨part, -, hpart⟩ := exists_of_mapM h hs
  exact (readPart_eq_ok_iff.mp hpart).2

/-- The parts of two lists with a comma between them. -/
lemma parts_append (a b : Text) : parts (a ++ Text.unit ',' :: b) = parts a ++ parts b := by
  rw [parts, Text.splitAt_append_cons, List.map_append, List.filter_append]
  rfl

theorem read_append (a b : Text) :
    read allowed (a ++ Text.unit ',' :: b) =
      read allowed a >>= fun xs => read allowed b >>= fun ys => .ok (xs ++ ys) := by
  rw [read, parts_append, List.mapM_append]
  rfl

section Write

variable {s : SortKey}

/-- A written part is spelled with a name, perhaps behind a dash. -/
lemma of_mem_writePart {p : UInt16 → Bool} (hall : (List.range 128).all (fun n =>
    !Identifier.isPart (UInt16.ofNat n) || p (UInt16.ofNat n)) = true)
    (hdash : p (Text.unit '-') = true) (h : Identifier.isValid s.field = true) :
    ∀ c ∈ writePart s, p c = true := by
  have hname : ∀ c ∈ s.field, p c = true := fun c hc =>
    Sql.of_isPart hall (Identifier.isPart_of_mem h hc)
  rw [writePart]
  split
  · exact hname
  · exact List.forall_mem_cons.mpr ⟨hdash, hname⟩

/-- No name begins with a dash, so the dash of a part is told from its name. -/
lemma splitDash_writePart (h : Identifier.isValid s.field = true) :
    splitDash (writePart s) = s := by
  obtain ⟨field, dir⟩ := s
  cases dir with
  | desc => rw [writePart, splitDash, if_pos rfl]
  | asc =>
    cases field with
    | nil => exact absurd h (by decide)
    | cons c rest =>
      have hc := Identifier.isPart_of_mem h List.mem_cons_self
      have hdash : c ≠ Text.unit '-' := by
        rintro rfl
        exact absurd hc (by decide)
      rw [writePart, splitDash, if_neg hdash]

lemma readPart_writePart (h : Allowed allowed s) : readPart allowed (writePart s) = .ok s :=
  readPart_eq_ok_iff.mpr ⟨splitDash_writePart h.1, h⟩

lemma writePart_ne_nil (h : Identifier.isValid s.field = true) : writePart s ≠ [] := by
  obtain ⟨field, dir⟩ := s
  cases dir with
  | desc => exact List.cons_ne_nil _ _
  | asc =>
    rintro rfl
    exact absurd h (by decide)

/-- The parts of a written list are those that were written. -/
lemma parts_write {sorts : List SortKey} (h : ∀ s ∈ sorts, Identifier.isValid s.field = true) :
    parts (write sorts) = sorts.map writePart := by
  have hcomma : ∀ part ∈ sorts.map writePart, Text.unit ',' ∉ part := by
    intro part hpart hmem
    obtain ⟨s, hs, rfl⟩ := List.mem_map.mp hpart
    have hother := of_mem_writePart (p := fun c => c ≠ Text.unit ',') (by decide) (by decide)
      (h s hs) _ hmem
    simp at hother
  have htrim : ∀ part ∈ sorts.map writePart, part.trim = part := by
    intro part hpart
    obtain ⟨s, hs, rfl⟩ := List.mem_map.mp hpart
    refine Text.trim_of_not_blank fun c hc => ?_
    simpa using of_mem_writePart (p := fun c => !Text.isBlank c) (by decide) (by decide)
      (h s hs) c hc
  have hkept : ∀ part ∈ sorts.map writePart, (!part.isEmpty) = true := by
    intro part hpart
    obtain ⟨s, hs, rfl⟩ := List.mem_map.mp hpart
    simpa using writePart_ne_nil (h s hs)
  by_cases hnone : sorts = []
  · subst hnone
    rfl
  · have hsplit : Text.splitAt (Text.unit ',') (write sorts) = sorts.map writePart := by
      rw [Text.splitAt_eq_splitOn]
      exact List.splitOn_intercalate _ hcomma (by simpa using hnone)
    rw [parts, hsplit, List.map_congr_left htrim, List.map_id', List.filter_eq_self.mpr hkept]

theorem read_write {sorts : List SortKey} (h : ∀ s ∈ sorts, Allowed allowed s) :
    read allowed (write sorts) = .ok sorts := by
  rw [read, parts_write fun s hs => (h s hs).1]
  exact mapM_map_eq_ok fun s hs => readPart_writePart (h s hs)

end Write

/-- A builder takes sort fields whose names are identifiers, after those that it has. -/
lemma configure_sorts {b : Builder SelectDraft} (hb : b.built = false) {sorts : List SortKey}
    (h : ∀ s ∈ sorts, Identifier.isValid s.field = true) :
    b.configure (SelectCall.sorts sorts) =
      .ok ({ b with draft := { b.draft with sorts := b.draft.sorts ++ sorts } }, []) := by
  have hconf : DraftSpec.configure (SelectCall.sorts sorts) b.draft =
      .ok ({ b.draft with sorts := b.draft.sorts ++ sorts }, []) := by
    change (b.draft.fill (.sorts sorts)).map _ = _
    rw [SelectDraft.fill_sorts h]
    rfl
  rw [Builder.configure_of_unbuilt hb rfl, hconf]
  rfl

/-- A list of allowed identifiers is read back as it was written. A list of two texts with a comma
between them fails as the first does, or else as the second does, and otherwise has the fields of
the first before those of the second. What was read has only fields that are on the list of allowed
ones, if there is one, and every builder that can still be called takes it. -/
theorem read_spec (allowed : List Text) :
    (∀ sorts : List SortKey, (∀ s ∈ sorts, Identifier.isValid s.field = true) →
      (allowed ≠ [] → ∀ s ∈ sorts, s.field ∈ allowed) →
        read allowed (write sorts) = .ok sorts) ∧
    (∀ a b : Text, read allowed (a ++ Text.unit ',' :: b) =
      match read allowed a, read allowed b with
      | .error e, _ => .error e
      | .ok _, .error e => .error e
      | .ok xs, .ok ys => .ok (xs ++ ys)) ∧
    ∀ (t : Text) (sorts : List SortKey), read allowed t = .ok sorts →
      (allowed ≠ [] → ∀ s ∈ sorts, s.field ∈ allowed) ∧
      ∀ b : Builder SelectDraft, b.built = false → b.configure (SelectCall.sorts sorts) =
        .ok ({ b with draft := { b.draft with sorts := b.draft.sorts ++ sorts } }, []) := by
  refine ⟨fun sorts hvalid hlisted => ?_, fun a b => ?_, fun t sorts h => ?_⟩
  · exact read_write fun s hs => ⟨hvalid s hs, fun hne => hlisted hne s hs⟩
  · rw [read_append]
    cases read allowed a <;> cases read allowed b <;> rfl
  · have hallowed := allowed_of_read h
    exact ⟨fun hne s hs => (hallowed s hs).2 hne,
      fun b hb => configure_sorts hb fun s hs => (hallowed s hs).1⟩

/-- Two fields, one of them descending, are read back from what is written of them. -/
theorem read_spec_of_two :
    let allowed : List Text := ["created_at", "id"]
    let sorts : List SortKey := [⟨"created_at", .desc⟩, ⟨"id", .asc⟩]
    let b : Builder SelectDraft := ⟨.postgres, "t", {}, false⟩
    write sorts = Text.ofString "-created_at,id" ∧ read allowed (write sorts) = .ok sorts ∧
      b.configure (SelectCall.sorts sorts) = .ok ({ b with draft := { sorts } }, []) := by
  intro allowed sorts b
  obtain ⟨hback, -, htaken⟩ := read_spec allowed
  have hread := hback sorts (by decide +kernel) fun _ => by decide +kernel
  exact ⟨by decide +kernel, hread, (htaken _ _ hread).2 b rfl⟩

end SortList
end BoundSql
