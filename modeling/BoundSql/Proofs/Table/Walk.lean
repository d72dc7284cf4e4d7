import BoundSql.PageLinks
import BoundSql.Proofs.Number.Order
import BoundSql.Proofs.Table.Order
import BoundSql.Proofs.Table.Selection

/-!
# Walking through a table by cursors

A client asks for page after page: one statement each time, after the cursor of
the last row it got, until a page is not full. If every row has a key of its own
each page is what follows in sort order on the pages before, so the walk ends and
its pages are all the rows, each once.
-/
namespace BoundSql
open Sql

/-- A client of a table: the builder with sort order and limit but no cursor yet, the place
where parameters are numbered from, and the cursor that is made for a row. -/
structure Pager (ρ : Type) where
  table : Table ρ
  db : Text → List ρ
  builder : Builder SelectDraft
  limit : UInt32
  start : Double
  cursorOf : ρ → RequestedCursor

namespace Pager

variable {ρ : Type}

/-- The rows of the table that the statement is about. -/
def rows (p : Pager ρ) : List ρ := p.db p.builder.table

def sorts (p : Pager ρ) : List SortKey := p.builder.draft.sorts

def dialect (p : Pager ρ) : Dialect := p.builder.dialect

/-- Are the conditions of the builder true of a row? -/
def keeps (p : Pager ρ) (r : ρ) : Bool :=
  p.builder.draft.conditions.all fun e => e.value (p.table.filterTruth p.dialect r) = some true

/-- May these rows be the answer to the statement that is built with a cursor on the given side? -/
def Answer (p : Pager ρ) (direction : SeekDirection) (request : RequestedCursor)
    (page : List ρ) : Prop :=
  ∃ b events q events', p.builder.configure (.seek direction request) = .ok (b, events) ∧
    b.build p.start = .ok (q, events') ∧ q.Returns p.table p.dialect p.db page

/-- Is the client told that more rows follow? -/
def hasNext (p : Pager ρ) (page : List ρ) : Bool :=
  (PageLinks.ofCount (.ofNat page.length) (.ofNat p.limit.toNat)).hasNext

/-- A cursor, by itself or as a token, that has the values of a row in the sort fields. -/
def Holds (p : Pager ρ) (request : RequestedCursor) (r : ρ) : Prop :=
  ∃ c : Cursor, (request = .cursor c ∨ ∃ t, request = .token t ∧ Cursor.decode t = .ok c) ∧
    ∀ s ∈ p.sorts, ∃ v, c.get? s.field = some v ∧
      p.table.ofValue s.field v = p.table.cell r s.field

/-- A plain statement with a sort order and a limit, of a table whose rows have keys of their
own without NULL. -/
structure Sound (p : Pager ρ) : Prop where
  reached : ∃ d table, Builder.Reached (k := .select) d table p.builder
  unbuilt : p.builder.built = false
  plain : p.builder.draft.IsPlain
  proper : ∀ e ∈ p.builder.draft.tree, e.isProper = true
  sorted : p.sorts ≠ []
  limited : p.builder.draft.limit = some p.limit
  positive : 1 ≤ p.limit.toNat
  unshifted : p.builder.draft.offset = none
  fresh : p.builder.draft.seek = none
  numbered : p.start.isSafeInteger = true ∧ Double.le 1 p.start = true
  filled : p.table.Filled p.sorts p.rows
  distinct : p.table.Distinct p.sorts p.rows
  cursors : ∀ r ∈ p.rows, p.Holds (p.cursorOf r) r

variable {p : Pager ρ}

lemma Sound.vetted (h : p.Sound) :
    Identifier.isValid p.builder.table = true ∧ p.builder.draft.Vetted := by
  obtain ⟨d, table, hreached⟩ := h.reached
  obtain ⟨ht, -, htable, hdraft⟩ := Builder.vetted_of_reached hreached
  exact ⟨htable ▸ ht, hdraft⟩

lemma conditions_proper (h : p.Sound) :
    ∀ e ∈ p.builder.draft.conditions, e.isProper = true := by
  intro e he
  have hseek : p.builder.draft.seekCondition.1 = none := by
    rw [SelectDraft.seekCondition, h.fresh]
  rw [SelectDraft.conditions, hseek, Option.toList_none, List.append_nil, List.mem_append] at he
  rcases he with he | he
  · exact h.proper e (Option.mem_toList.mp he)
  · obtain ⟨f, -, rfl⟩ := List.mem_map.mp he
    exact FilterTree.isProper_leaf f

/-- A request sets the cursor of a draft and nothing else. -/
lemma exists_seek (s : SelectDraft) (direction : SeekDirection) (request : RequestedCursor) :
    ∃ seek, (s.setSeek direction request).1 = { s with seek } := by
  rw [SelectDraft.setSeek_eq]
  cases Cursor.ofRequest? request with
  | none => exact ⟨s.seek, rfl⟩
  | some c => exact ⟨_, rfl⟩

/-- The pages that may be answered to a request are the first rows, put into order, of which
the conditions of the draft are true. -/
lemma answer_iff_of_draft (h : p.Sound) {direction : SeekDirection} {request : RequestedCursor}
    {s : SelectDraft} (hs : (p.builder.draft.setSeek direction request).1 = s)
    (hproper : ∀ e ∈ s.conditions, e.isProper = true) {keep : ρ → Bool}
    (hkeep : ∀ r ∈ p.rows, keep r = true ↔
      ∀ e ∈ s.conditions, e.value (p.table.filterTruth p.dialect r) = some true) {page : List ρ} :
    p.Answer direction request page ↔ ∃ ordered : List ρ, ordered.Perm (p.rows.filter keep) ∧
      p.table.Ordered p.sorts p.dialect ordered ∧ page = ordered.take p.limit.toNat := by
  obtain ⟨seek, hseek⟩ := exists_seek p.builder.draft direction request
  obtain ⟨ht, hdraft⟩ := h.vetted
  have hvetted : s.Vetted := hs ▸ SelectDraft.vetted_setSeek direction request hdraft
  rw [hs] at hseek
  have hplain : s.IsPlain := by
    rw [hseek]
    exact { h.plain with }
  obtain ⟨sel, hsel, hasks⟩ : ∃ sel,
      (s.query p.dialect p.builder.table p.start).selection? = some sel ∧
        s.AsksFor p.dialect p.builder.table sel :=
    SelectDraft.selection_query hplain hvetted ht h.numbered.2 hproper
  have hsorts : sel.sorts = p.sorts := by rw [hasks.sorts, hseek]; rfl
  have hlimit : sel.limit = some p.limit.toNat := by
    rw [hasks.limit, hseek, h.limited]
    rfl
  have hoffset : sel.offset = 0 := by
    rw [hasks.offset, hseek, h.unshifted]
    rfl
  have hfilter : (p.db sel.source).filter (sel.holds p.table) = p.rows.filter keep := by
    rw [hasks.source]
    refine List.filter_congr fun r hr => ?_
    rw [Bool.eq_iff_iff, hasks.holds, hkeep r hr]
  have hreturns : sel.Returns p.table p.dialect p.db page ↔
      ∃ ordered : List ρ, ordered.Perm (p.rows.filter keep) ∧
        p.table.Ordered p.sorts p.dialect ordered ∧ page = ordered.take p.limit.toNat := by
    rw [Selection.Returns, hfilter, hsorts, hlimit, hoffset]
    rfl
  rw [← hreturns]
  constructor
  · rintro ⟨b, events, q, events', hconf, hbuild, sel', hsel', hpage⟩
    obtain ⟨-, -, draft, hdraft, rfl⟩ := Builder.configure_eq_ok_iff.mp hconf
    obtain ⟨-, -, -, ev, hassemble, -⟩ := Builder.build_eq_ok_iff.mp hbuild
    obtain ⟨rfl, -⟩ := Prod.mk.inj (Except.ok.inj hdraft)
    obtain ⟨rfl, -⟩ := Prod.mk.inj (Except.ok.inj hassemble)
    rw [hs] at hsel'
    obtain rfl := Option.some_inj.mp (hsel.symm.trans hsel')
    exact hpage
  · intro hpage
    have hconf : p.builder.configure (.seek direction request) =
        .ok ({ p.builder with draft := s }, (p.builder.draft.setSeek direction request).2) := by
      refine Builder.configure_eq_ok_iff.mpr ⟨rfl, h.unbuilt, s, ?_, rfl⟩
      rw [← hs]
      rfl
    have hbuild : ({ p.builder with draft := s } : Builder SelectDraft).build p.start =
        .ok (s.query p.dialect p.builder.table p.start, _) :=
      Builder.build_eq_ok_iff.mpr ⟨h.unbuilt, h.numbered.1, h.numbered.2, _, rfl, rfl⟩
    exact ⟨_, _, _, _, hconf, hbuild, sel, hsel, hpage⟩

/-- The draft after a cursor with the values of a row, and the condition that it adds. -/
lemma exists_seekDraft (h : p.Sound) {last : ρ} (hlast : last ∈ p.rows)
    (direction : SeekDirection) :
    ∃ k : Keyset, k.toTree.isProper = true ∧
      (p.builder.draft.setSeek direction (p.cursorOf last)).1.conditions =
        p.builder.draft.conditions ++ [k.toTree] ∧
      ∀ r, k.toTree.value (p.table.filterTruth p.dialect r) = some true ↔
        p.table.Beyond direction p.sorts (p.table.cell last) (p.table.cell r) := by
  obtain ⟨c, hrequest, hvalues⟩ := h.cursors last hlast
  have hfound : ∀ s ∈ p.sorts, c.get? s.field ≠ none := fun s hs => by
    obtain ⟨v, hv, -⟩ := hvalues s hs
    simp [hv]
  have hempty : c.isEmpty = false := by
    obtain ⟨s, rest, hsorts⟩ := List.exists_cons_of_ne_nil h.sorted
    by_contra hnone
    rw [Bool.not_eq_false, Cursor.isEmpty, List.isEmpty_iff] at hnone
    exact hfound s (by simp [hsorts]) (by simp [Cursor.get?, hnone])
  have hdraft : (p.builder.draft.setSeek direction (p.cursorOf last)).1 =
      { p.builder.draft with seek := some (direction, c) } := by
    rcases hrequest with hc | ⟨t, ht, hdecode⟩
    · simp [SelectDraft.setSeek, hc, hempty]
    · simp [SelectDraft.setSeek, ht, hdecode, hempty]
  obtain ⟨k, hk⟩ : ∃ k, Keyset.ofCursor? p.sorts c direction = some k := by
    refine Option.ne_none_iff_exists'.mp fun hnone => ?_
    rcases Keyset.ofCursor?_eq_none.mp hnone with hsorts | ⟨s, hs, hget⟩
    · exact h.sorted hsorts
    · exact hfound s hs hget
  refine ⟨k, Keyset.isProper_toTree hk, ?_, fun r => ?_⟩
  · have hnames : p.sorts.all (fun s => Identifier.isValid s.field) = true :=
      List.all_eq_true.mpr h.vetted.2.sorts
    have hnonempty : p.builder.draft.sorts.isEmpty = false :=
      List.isEmpty_eq_false_iff.mpr h.sorted
    have hbase : p.builder.draft.seekCondition.1 = none := by
      rw [SelectDraft.seekCondition, h.fresh]
    have hseek : ({ p.builder.draft with
        seek := some (direction, c) } : SelectDraft).seekCondition.1 = some k.toTree := by
      rw [SelectDraft.seekCondition]
      simp only [SelectDraft.seekSorts, hnonempty, Bool.false_eq_true, if_false]
      rw [sorts] at hnames hk
      simp [hnames, hk]
    rw [hdraft, SelectDraft.conditions, SelectDraft.conditions, hseek, hbase]
    simp
  · rw [Keyset.toTree_eq_true hk]
    refine Table.beyond_congr direction (fun s hs => ?_) (.refl _)
    obtain ⟨v, hv, hcell⟩ := hvalues s hs
    rw [Table.keyOf, hv, Option.bind_some, hcell]

/-- With the cursor of a row the rows on its given side are asked for. -/
lemma answer_seek_iff (h : p.Sound) {last : ρ} (hlast : last ∈ p.rows)
    (direction : SeekDirection) {page : List ρ} :
    p.Answer direction (p.cursorOf last) page ↔ ∃ ordered : List ρ,
      ordered.Perm ((p.rows.filter p.keeps).filter fun r => p.table.compareKeys p.dialect p.sorts
        (p.table.cell last) (p.table.cell r) = Table.sideOf direction) ∧
      p.table.Ordered p.sorts p.dialect ordered ∧ page = ordered.take p.limit.toNat := by
  obtain ⟨k, hproper, hconditions, htruth⟩ := exists_seekDraft h hlast direction
  rw [List.filter_filter]
  refine answer_iff_of_draft h rfl ?_ fun r hr => ?_
  · rw [hconditions]
    exact forall_mem_append_one (conditions_proper h) hproper
  · rw [hconditions, List.forall_mem_append, List.forall_mem_singleton, htruth,
      ← Table.compareKeys_eq_sideOf_iff p.dialect (h.filled last hlast) (h.filled r hr)]
    simp [keeps, and_comm]

/-- The rows that the conditions of the builder keep, in sort order. -/
structure Sorting (p : Pager ρ) (sorted : List ρ) : Prop where
  perm : sorted.Perm (p.rows.filter p.keeps)
  ordered : p.table.Ordered p.sorts p.dialect sorted
  filled : p.table.Filled p.sorts sorted
  distinct : p.table.Distinct p.sorts sorted

lemma Sound.sorting (h : p.Sound) {sorted : List ρ} (hperm : sorted.Perm (p.rows.filter p.keeps))
    (hordered : p.table.Ordered p.sorts p.dialect sorted) : p.Sorting sorted := by
  refine ⟨hperm, hordered, fun r hr => ?_, ?_⟩
  · exact h.filled r (List.mem_of_mem_filter (hperm.mem_iff.mp hr))
  · exact Table.Distinct.perm (h.distinct.sublist List.filter_sublist) hperm

lemma exists_sorting (h : p.Sound) : ∃ sorted, p.Sorting sorted := by
  have hfilled : p.table.Filled p.sorts (p.rows.filter p.keeps) := fun r hr =>
    h.filled r (List.mem_of_mem_filter hr)
  obtain ⟨sorted, hperm, hordered⟩ := Table.exists_ordered p.table p.dialect hfilled
  exact ⟨sorted, h.sorting hperm hordered⟩

/-- Where the rows on a side of a row are a stretch of the sorted rows, the answer is the first
rows of that stretch. -/
lemma answer_iff_take (h : p.Sound) {sorted stretch : List ρ} (hs : p.Sorting sorted) {last : ρ}
    (hlast : last ∈ p.rows) (direction : SeekDirection)
    (hfilter : sorted.filter (fun r => p.table.compareKeys p.dialect p.sorts
      (p.table.cell last) (p.table.cell r) = Table.sideOf direction) = stretch) {page : List ρ} :
    p.Answer direction (p.cursorOf last) page ↔ page = stretch.take p.limit.toNat := by
  have hsublist : stretch.Sublist sorted := hfilter ▸ List.filter_sublist
  have hordered : p.table.Ordered p.sorts p.dialect stretch := hs.ordered.sublist hsublist
  have hfilled : p.table.Filled p.sorts stretch := fun r hr =>
    hs.filled r (hsublist.subset hr)
  have hdistinct : p.table.Distinct p.sorts stretch := hs.distinct.sublist hsublist
  have hperm := hs.perm.filter fun r => p.table.compareKeys p.dialect p.sorts
    (p.table.cell last) (p.table.cell r) = Table.sideOf direction
  rw [hfilter] at hperm
  rw [answer_seek_iff h hlast, hordered.exists_perm_iff hperm hfilled hdistinct]

/-- The row of a table whose only column holds an integer. -/
def integerRow (n : ℤ) : Text → Option ℤ := fun column => if column = "a" then some n else none

/-- A client of one column of integers, which sorts by it. -/
def ofIntegers (ns : List ℤ) (dir : SortDirection) (limit : UInt32) :
    Pager (Text → Option ℤ) where
  table := .integers
  db _ := ns.map integerRow
  builder := ⟨.postgres, "t", { sorts := [⟨"a", dir⟩], limit := some limit }, false⟩
  limit := limit
  start := 1
  cursorOf r := .cursor ⟨[("a", .int (Int64.ofInt ((r "a").getD 0)))]⟩

theorem sound_ofIntegers (ns : List ℤ) (hns : ns.Nodup)
    (hfit : ∀ n ∈ ns, (Int64.ofInt n).toInt = n) (dir : SortDirection) {limit : UInt32}
    (hlimit : 1 ≤ limit.toNat) : (ofIntegers ns dir limit).Sound := by
  have hcount : SelectDraft.rowCount "limit" (.ofNat limit.toNat) = .ok limit := by
    have hlt := limit.toNat_lt
    have hsafe : limit.toNat ≤ Double.safeBound := by
      simp only [Double.safeBound, Double.binadeSize]
      omega
    have hbound : (0 : ℤ) ≤ limit.toNat ∧ (limit.toNat : ℤ) < UInt32.size := by
      simp only [UInt32.size]
      omega
    rw [SelectDraft.rowCount, Double.toUInt32?, Double.toInt?_ofNat hsafe, Option.bind_some,
      if_pos hbound, Int.toNat_natCast, UInt32.ofNat_toNat]
  let b₀ : Builder SelectDraft := ⟨.postgres, "t", {}, false⟩
  let b₁ : Builder SelectDraft := ⟨.postgres, "t", { sorts := [⟨"a", dir⟩] }, false⟩
  have hsort : b₀.act (.configure (.sort "a" dir)) = (b₁, ⟨.ok none, []⟩) := rfl
  have hrun : b₁.act (.configure (.limit (.ofNat limit.toNat))) =
      ((ofIntegers ns dir limit).builder, ⟨.ok none, []⟩) := by
    have hconfigure : b₁.configure (.limit (.ofNat limit.toNat)) =
        .ok ((ofIntegers ns dir limit).builder, []) := by
      refine Builder.configure_eq_ok_iff.mpr
        ⟨rfl, rfl, (ofIntegers ns dir limit).builder.draft, ?_, rfl⟩
      change (SelectDraft.fill _ (.limit (.ofNat limit.toNat))).map _ = _
      rw [SelectDraft.fill, hcount]
      rfl
    rw [Builder.act_configure, hconfigure]
  have hleads : (b₀.run [.configure (.sort "a" dir),
      .configure (.limit (.ofNat limit.toNat))]).1 = (ofIntegers ns dir limit).builder := by
    have hstep : ∀ (b : Builder SelectDraft) (a : Action SelectCall) (rest : List _),
        (b.run (a :: rest)).1 = ((b.act a).1.run rest).1 := fun _ _ _ => rfl
    rw [hstep, hsort, hstep, hrun, Builder.run]
  have hstart : (1 : Double).isSafeInteger = true ∧ Double.le 1 1 = true :=
    ⟨by decide +kernel, by decide +kernel⟩
  have hcell : ∀ r ∈ (ofIntegers ns dir limit).rows, ∃ n ∈ ns, r "a" = some n := by
    intro r hr
    obtain ⟨n, hn, rfl⟩ := List.mem_map.mp hr
    exact ⟨n, hn, rfl⟩
  refine ⟨⟨.postgres, "t", b₀, rfl, _, hleads⟩, rfl, ⟨rfl, rfl, rfl, rfl⟩, ?_, ?_, rfl, hlimit,
    rfl, rfl, hstart, ?_, ?_, ?_⟩
  · simp [ofIntegers]
  · simp [ofIntegers, sorts]
  · intro r hr s hs
    obtain rfl := List.mem_singleton.mp hs
    obtain ⟨n, -, hn⟩ := hcell r hr
    simp only [ofIntegers, Table.integers, hn, ne_eq, reduceCtorEq, not_false_eq_true]
  · refine List.pairwise_map.mpr (hns.imp fun {m n} hne hagree => hne ?_)
    exact Option.some_inj.mp (hagree ⟨"a", dir⟩ List.mem_cons_self)
  · intro r hr
    obtain ⟨n, hmem, hn⟩ := hcell r hr
    refine ⟨_, .inl rfl, fun s hs => ?_⟩
    obtain rfl := List.mem_singleton.mp hs
    refine ⟨_, rfl, ?_⟩
    have hvalue : (ofIntegers ns dir limit).table.cell r "a" = some n := hn
    rw [hvalue, hn, Option.getD_some]
    exact congrArg some (hfit n hmem)

end Pager
end BoundSql
