import BoundSql.Kit
import BoundSql.Proofs.Settings
import BoundSql.Proofs.Statement.PageOffset

/-!
# Paging by request

Settings that were read bring every request to a page and a limit that are
positive integers, and the offset is the product that unbounded integers would
give, cut at the last 32-bit number. A maximum size has no upper bound of its
own, though: a limit that does not fit 32 bits is refused by the builder, which
can happen exactly if the maximum does not fit.
-/
namespace BoundSql

namespace PageSizes

variable {sizes : PageSizes} {usual most : ℕ}

/-- The limit of a request as a natural number. -/
def limitOf (usual most : ℕ) : Option Double → ℕ
  | none => usual
  | some n => if n.isNaN then usual else n.wholeWithin most

/-- The page of a request as a natural number. -/
def pageOf : Option Double → ℕ
  | none => 1
  | some n => if n.isFinite then n.wholeWithin (UInt32.size - 1) else 1

theorem clamp_whole (h : sizes.Are usual most) (limit : Option Double) :
    (sizes.clamp limit).Whole (limitOf usual most limit) := by
  have hone : 1 ≤ most := h.positive.trans h.ordered
  cases limit with
  | none => exact h.default
  | some n =>
    rw [clamp, limitOf]
    split_ifs with hnan
    · exact h.default
    · exact Double.whole_within h.max hone (by simpa using hnan)

theorem page_whole (requested : Option Double) :
    (page requested).Whole (pageOf requested) := by
  have hlast : (Double.ofNat (UInt32.size - 1)).Whole (UInt32.size - 1) :=
    Double.whole_ofNat (by decide)
  cases requested with
  | none => exact Double.whole_one
  | some n =>
    rw [page, pageOf]
    split_ifs with hfinite
    · refine Double.whole_within hlast (by decide) ?_
      cases n with
      | nan => exact absurd hfinite (by decide)
      | infinite => rfl
      | finite => rfl
    · exact Double.whole_one

theorem limitOf_bounds (h : sizes.Are usual most) (limit : Option Double) :
    1 ≤ limitOf usual most limit ∧ limitOf usual most limit ≤ most := by
  cases limit with
  | none => exact ⟨h.positive, h.ordered⟩
  | some n =>
    rw [limitOf]
    split_ifs
    · exact ⟨h.positive, h.ordered⟩
    · exact Double.wholeWithin_bounds (h.positive.trans h.ordered) n

theorem pageOf_bounds (requested : Option Double) :
    1 ≤ pageOf requested ∧ pageOf requested < UInt32.size := by
  cases requested with
  | none => exact ⟨le_rfl, by decide⟩
  | some n =>
    rw [pageOf]
    split_ifs
    · have hlast : 1 ≤ UInt32.size - 1 := by decide
      have hbounds := Double.wholeWithin_bounds hlast n
      exact ⟨hbounds.1, Nat.lt_of_le_pred (by decide) hbounds.2⟩
    · exact ⟨le_rfl, by decide⟩

end PageSizes

namespace SelectDraft

open Sql

/-- The draft without row counts. -/
def unpaged (d : SelectDraft) : SelectDraft := { d with limit := none, offset := none }

/-- The text of the clauses that page; an offset of zero is left out. -/
def pageText (limit offset : ℕ) : Text :=
  " LIMIT " ++ Text.ofNat limit ++
    if offset = 0 then ([] : Text) else " OFFSET " ++ Text.ofNat offset

lemma render_rowClause (n : UInt32) :
    render (clause .limit [.rows n]) = " LIMIT " ++ Text.ofNat n.toNat ∧
      render (clause .offset [.rows n]) = " OFFSET " ++ Text.ofNat n.toNat := by
  simp only [clause, render_cons, render_nil, List.append_nil]
  exact ⟨rfl, rfl⟩

/-- Row counts stand at the end of a statement and change nothing else in it. -/
theorem query_paged (d : SelectDraft) (dialect : Dialect) (table : Text) (start : Double)
    (limit offset : UInt32) :
    let q := { d with limit := some limit, offset := some offset }.query dialect table start
    let base := d.unpaged.query dialect table start
    q.sql = base.sql ++ pageText limit.toNat offset.toNat ∧ q.params = base.params := by
  intro q base
  have htokens : q.tokens = base.tokens ++ (clause .limit [.rows limit] ++
      if offset = 0 then [] else clause .offset [.rows offset]) := by
    simp only [q, base, query, queryWhere, rowClauses, unpaged, List.append_nil, List.append_assoc,
      List.cons_append]
    rfl
  refine ⟨?_, rfl⟩
  have hzero : offset.toNat = 0 ↔ offset = 0 := UInt32.toNat_inj (b := 0)
  rw [Query.sql, htokens, render_append, render_append, (render_rowClause limit).1, pageText]
  simp only [hzero]
  split_ifs
  · rfl
  · rw [(render_rowClause offset).2]
    rfl

end SelectDraft

namespace Kit

/-- What is built after a page was set: the statement as it was, with these row counts. -/
def Pages (b b' : Builder SelectDraft) (limit offset : ℕ) : Prop :=
  ∀ start, start.isSafeInteger = true → Double.le 1 start = true →
    ∃ q events, b'.build start = .ok (q, events) ∧
      let base := b.draft.unpaged.query b.dialect b.table start
      q.sql = base.sql ++ SelectDraft.pageText limit offset ∧ q.params = base.params

/-- A builder pages as it is asked if the limit fits 32 bits, and refuses the limit if not. -/
theorem turnTo_eq {s : Settings} {usual most : ℕ} (h : s.pageSizes.Are usual most)
    {b : Builder SelectDraft} (hb : b.built = false) (r : PageRequest) {page limit : ℕ}
    (hpage : PageSizes.pageOf r.page = page)
    (hlimit : PageSizes.limitOf usual most r.limit = limit) :
    if limit < UInt32.size then
      ∃ b', (ofSettings s).turnTo b r = .ok (b', []) ∧
        Pages b b' limit (min ((page - 1) * limit) (UInt32.size - 1))
    else (ofSettings s).turnTo b r = .error (.notUInt32 "limit") := by
  let count := UInt32.ofNat limit
  let offset := SelectDraft.pageOffset (UInt32.ofNat page) count
  let after : SelectDraft := { b.draft with limit := some count, offset := some offset }
  have hfit : page < UInt32.size := hpage ▸ (PageSizes.pageOf_bounds r.page).2
  have hfill : b.draft.fill ((ofSettings s).pageCall r) =
      if limit < UInt32.size then .ok after else .error (.notUInt32 "limit") := by
    change b.draft.fill (.page (PageSizes.page r.page) (s.pageSizes.clamp r.limit)) = _
    rw [SelectDraft.fill, SelectDraft.rowCount_eq "page" (PageSizes.page_whole r.page).toInt?_eq,
      hpage, if_pos hfit,
      SelectDraft.rowCount_eq "limit" (PageSizes.clamp_whole h r.limit).toInt?_eq, hlimit]
    split_ifs <;> rfl
  have hturn : (ofSettings s).turnTo b r =
      (b.draft.fill ((ofSettings s).pageCall r)).map fun draft => ({ b with draft }, []) :=
    Builder.configure_quiet hb rfl rfl
  rw [hturn, hfill]
  split_ifs with hsmall
  · refine ⟨_, rfl, fun start hsafe hone => ?_⟩
    have hbuild : ({ b with draft := after } : Builder SelectDraft).build start =
        .ok (after.query b.dialect b.table start, _) :=
      Builder.build_eq_ok_iff.mpr ⟨hb, hsafe, hone, _, rfl, rfl⟩
    obtain ⟨hsql, hparams⟩ :=
      SelectDraft.query_paged b.draft b.dialect b.table start count offset
    have hcount : count.toNat = limit := UInt32.toNat_ofNat_of_lt' hsmall
    have hoffset : offset.toNat = min ((page - 1) * limit) (UInt32.size - 1) := by
      rw [SelectDraft.pageOffset_toNat, UInt32.toNat_ofNat_of_lt' hfit, hcount]
    rw [hcount, hoffset] at hsql
    exact ⟨_, _, hbuild, hsql, hparams⟩
  · rfl

/-- With settings that were read, a request leads to a page and a limit from one on, the limit not
above the maximum size. The statement is built with this limit and with the offset of the page, cut
at the last 32-bit number, if the limit fits 32 bits; if not, it is refused. So every request is
served exactly if the maximum size fits 32 bits. -/
theorem paging_of_settings {env : Environment} {s : Settings} (h : Settings.read env = .ok s) :
    ∃ most, 1 ≤ most ∧ s.pageSizes.max.Whole most ∧
      (∀ r : PageRequest, ∃ page limit,
        ((r.normalize s.pageSizes).1.Whole page ∧ 1 ≤ page ∧ page < UInt32.size) ∧
        ((r.normalize s.pageSizes).2.Whole limit ∧ 1 ≤ limit ∧ limit ≤ most) ∧
        ∀ b : Builder SelectDraft, b.built = false →
          if limit < UInt32.size then
            ∃ b', (ofSettings s).turnTo b r = .ok (b', []) ∧
              Pages b b' limit (min ((page - 1) * limit) (UInt32.size - 1))
          else (ofSettings s).turnTo b r = .error (.notUInt32 "limit")) ∧
      ((∀ (b : Builder SelectDraft) (r : PageRequest), b.built = false →
        ∃ out, (ofSettings s).turnTo b r = .ok out) ↔ most < UInt32.size) := by
  obtain ⟨usual, most, hsizes⟩ := (Settings.wellFormed_of_read h).sizes
  refine ⟨most, hsizes.positive.trans hsizes.ordered, hsizes.max, fun r => ?_, ?_⟩
  · exact ⟨_, _, ⟨PageSizes.page_whole r.page, PageSizes.pageOf_bounds r.page⟩,
      ⟨PageSizes.clamp_whole hsizes r.limit, PageSizes.limitOf_bounds hsizes r.limit⟩,
      fun b hb => turnTo_eq hsizes hb r rfl rfl⟩
  · constructor
    · intro hserved
      -- infinity asks for as much as there may be
      let r : PageRequest := ⟨none, some (.infinite false)⟩
      by_contra hlarge
      have hlimit : PageSizes.limitOf usual most r.limit = most := rfl
      have hrefused := turnTo_eq hsizes (b := ⟨.postgres, "t", {}, false⟩) rfl r rfl hlimit
      rw [if_neg hlarge] at hrefused
      obtain ⟨out, hout⟩ := hserved ⟨.postgres, "t", {}, false⟩ r rfl
      rw [hrefused] at hout
      exact absurd hout (by simp)
    · intro hfits b r hb
      have hlimit : PageSizes.limitOf usual most r.limit < UInt32.size :=
        (PageSizes.limitOf_bounds hsizes r.limit).2.trans_lt hfits
      have hserved := turnTo_eq hsizes hb r rfl rfl
      rw [if_pos hlimit] at hserved
      obtain ⟨b', hb', -⟩ := hserved
      exact ⟨_, hb'⟩

/-- Where nothing is set every request is served. -/
theorem paging_of_settings_unset :
    let s : Settings := ⟨.development, .info, .postgres, 5, [], [.regex], ⟨20, 100⟩⟩
    Settings.read [] = .ok s ∧ ∀ (b : Builder SelectDraft) (r : PageRequest), b.built = false →
      ∃ out, (ofSettings s).turnTo b r = .ok out := by
  intro s
  have hread : Settings.read [] = .ok s := by decide +kernel
  obtain ⟨most, -, hmost, -, hserved⟩ := paging_of_settings hread
  have hmax : s.pageSizes.max.toInt? = some 100 := by decide +kernel
  rw [hmost.toInt?_eq, Option.some_inj] at hmax
  have hfits : most < UInt32.size := by
    simp only [UInt32.size]
    omega
  exact ⟨hread, hserved.mpr hfits⟩

/-- A maximum size of 2^32 is accepted, and a request for as much is refused. -/
theorem paging_refuses_large_limit :
    let s : Settings := ⟨.development, .info, .postgres, 5, [], [.regex], ⟨20, 4294967296⟩⟩
    let b : Builder SelectDraft := ⟨.postgres, "t", {}, false⟩
    Settings.read [("PAGE_SIZE_MAX", "4294967296")] = .ok s ∧ b.built = false ∧
      (ofSettings s).turnTo b ⟨none, some 4294967296⟩ = .error (.notUInt32 "limit") := by
  intro s b
  have hread : Settings.read [("PAGE_SIZE_MAX", "4294967296")] = .ok s := by decide +kernel
  obtain ⟨usual, most, hsizes⟩ := (Settings.wellFormed_of_read hread).sizes
  have hclamp : (s.pageSizes.clamp (some 4294967296)).toInt? = some 4294967296 := by
    decide +kernel
  rw [(PageSizes.clamp_whole hsizes (some 4294967296)).toInt?_eq, Option.some_inj] at hclamp
  have hturn := turnTo_eq (b := b) hsizes rfl ⟨none, some 4294967296⟩ rfl (Int.ofNat_inj.mp hclamp)
  rw [if_neg (by decide)] at hturn
  exact ⟨hread, rfl, hturn⟩

end Kit
end BoundSql
