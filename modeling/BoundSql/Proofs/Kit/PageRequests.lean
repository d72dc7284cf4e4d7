import BoundSql.Proofs.Kit.Paging

/-!
# Requests brought into range

With page sizes that were read from settings, a request is brought to a page and
a limit that are integers in range, whatever numbers it names or leaves out. Both
are found as natural numbers: in range a natural number is its own page and its
own limit, so doing it again changes nothing, and the order of numbers is kept.
-/
namespace BoundSql

namespace PageSizes

variable {sizes : PageSizes} {usual most k : ℕ} {x y : Double}

/-- A limit in range is itself. -/
lemma limitOf_whole (hx : x.Whole k) (hone : 1 ≤ k) (hk : k ≤ most) :
    limitOf usual most (some x) = k := by
  rw [limitOf, hx.isNaN, if_neg Bool.false_ne_true, hx.wholeWithin_eq hone hk]

/-- A page in range is itself. -/
lemma pageOf_whole (hx : x.Whole k) (hone : 1 ≤ k) (hk : k < UInt32.size) :
    pageOf (some x) = k := by
  have hlast : k ≤ UInt32.size - 1 := Nat.le_pred_of_lt hk
  rw [pageOf, hx.isFinite, if_pos rfl, hx.wholeWithin_eq hone hlast]

theorem clamp_clamp (h : sizes.Are usual most) (limit : Option Double) :
    sizes.clamp (some (sizes.clamp limit)) = sizes.clamp limit := by
  obtain ⟨hleast, hmost⟩ := limitOf_bounds h limit
  have hlimit := clamp_whole h limit
  have hagain := clamp_whole h (some (sizes.clamp limit))
  rw [limitOf_whole hlimit hleast hmost] at hagain
  exact hagain.eq hlimit

theorem page_page (requested : Option Double) : page (some (page requested)) = page requested := by
  obtain ⟨hfirst, hfit⟩ := pageOf_bounds requested
  have hpage := page_whole requested
  have hagain := page_whole (some (page requested))
  rw [pageOf_whole hpage hfirst hfit] at hagain
  exact hagain.eq hpage

/-- A larger limit is not brought to less. Neither is NaN, which is not below anything. -/
theorem clamp_mono (h : sizes.Are usual most) (hxy : x.le y = true) :
    (sizes.clamp (some x)).le (sizes.clamp (some y)) = true := by
  obtain ⟨hx, hy⟩ := Double.isNaN_of_le hxy
  rw [(clamp_whole h (some x)).le_iff (clamp_whole h (some y)), limitOf, limitOf, hx, hy]
  exact Double.wholeWithin_mono (h.positive.trans h.ordered) hxy

/-- A larger finite page is not brought to less. -/
theorem page_mono (hx : x.isFinite = true) (hy : y.isFinite = true) (hxy : x.le y = true) :
    (page (some x)).le (page (some y)) = true := by
  rw [(page_whole (some x)).le_iff (page_whole (some y)), pageOf, pageOf, hx, hy]
  exact Double.wholeWithin_mono (by decide) hxy

end PageSizes

namespace PageRequest

open PageSizes

variable {sizes : PageSizes} {usual most : ℕ}

/-- Page and limit are integers in range. -/
theorem normalize_bounds (h : sizes.Are usual most) (r : PageRequest) :
    ((r.normalize sizes).1.isInteger = true ∧ Double.le 1 (r.normalize sizes).1 = true ∧
      (r.normalize sizes).1.le 4294967295 = true) ∧
    (r.normalize sizes).2.isInteger = true ∧ Double.le 1 (r.normalize sizes).2 = true ∧
      (r.normalize sizes).2.le sizes.max = true := by
  have hlast : Double.Whole 4294967295 4294967295 := Double.whole_ofNat (by decide)
  have hpage := page_whole r.page
  have hlimit := clamp_whole h r.limit
  obtain ⟨hfirst, hfit⟩ := pageOf_bounds r.page
  obtain ⟨hleast, hmost⟩ := limitOf_bounds h r.limit
  exact ⟨⟨hpage.isInteger, (Double.whole_one.le_iff hpage).mpr hfirst,
      (hpage.le_iff hlast).mpr (Nat.le_pred_of_lt hfit)⟩,
    hlimit.isInteger, (Double.whole_one.le_iff hlimit).mpr hleast,
    (hlimit.le_iff h.max).mpr hmost⟩

/-- What a request was brought to is brought to itself. -/
theorem normalize_normalize (h : sizes.Are usual most) (r : PageRequest) :
    normalize sizes ⟨some (r.normalize sizes).1, some (r.normalize sizes).2⟩ =
      r.normalize sizes :=
  Prod.ext (page_page r.page) (clamp_clamp h r.limit)

/-- With page sizes from settings that were read, every request is brought to a page between one
and 2^32 - 1 and a limit between one and the maximum size, both integers, whatever numbers it has or
leaves out. Brought into range again they stay the same. A larger page, if both are finite, and a
larger limit, if neither is NaN, are not brought to less, whatever the other number is. -/
theorem normalize_spec {env : Environment} {s : Settings} (h : Settings.read env = .ok s) :
    (∀ r : PageRequest,
      let page := (r.normalize s.pageSizes).1
      let limit := (r.normalize s.pageSizes).2
      (page.isInteger = true ∧ Double.le 1 page = true ∧ page.le 4294967295 = true) ∧
      (limit.isInteger = true ∧ Double.le 1 limit = true ∧
        limit.le s.pageSizes.max = true) ∧
      normalize s.pageSizes ⟨some page, some limit⟩ = (page, limit)) ∧
    (∀ x y : Double, x.isFinite = true → y.isFinite = true → x.le y = true → ∀ m n,
      Double.le (normalize s.pageSizes ⟨some x, m⟩).1
        (normalize s.pageSizes ⟨some y, n⟩).1 = true) ∧
    (∀ x y : Double, x.isNaN = false → y.isNaN = false → x.le y = true → ∀ m n,
      Double.le (normalize s.pageSizes ⟨m, some x⟩).2
        (normalize s.pageSizes ⟨n, some y⟩).2 = true) := by
  obtain ⟨usual, most, hsizes⟩ := (Settings.wellFormed_of_read h).sizes
  refine ⟨fun r => ?_, fun x y hx hy hxy _ _ => ?_, fun x y _ _ hxy _ _ => ?_⟩
  · obtain ⟨hpage, hlimit⟩ := normalize_bounds hsizes r
    exact ⟨hpage, hlimit, normalize_normalize hsizes r⟩
  · exact page_mono hx hy hxy
  · exact clamp_mono hsizes hxy

/-- Where the largest size is fifty, a request for the page before the first and for all rows that
there are gets the first page and fifty rows, and would get them again. -/
theorem normalize_spec_of_infinity :
    let s : Settings := ⟨.development, .info, .postgres, 5, [], [.regex], ⟨20, 50⟩⟩
    let r : PageRequest := ⟨some (Double.ofInt (-1)), some (.infinite false)⟩
    Settings.read [("PAGE_SIZE_MAX", "50")] = .ok s ∧ r.normalize s.pageSizes = (1, 50) ∧
      normalize s.pageSizes ⟨some 1, some 50⟩ = (1, 50) ∧
      Double.le (normalize s.pageSizes ⟨none, some 7⟩).2
        (normalize s.pageSizes ⟨none, some (.infinite false)⟩).2 = true := by
  intro s r
  have hread : Settings.read [("PAGE_SIZE_MAX", "50")] = .ok s := by decide +kernel
  have hpair : r.normalize s.pageSizes = (1, 50) := by decide +kernel
  obtain ⟨hbounds, -, hmono⟩ := normalize_spec hread
  obtain ⟨-, -, hagain⟩ := hbounds r
  rw [hpair] at hagain
  exact ⟨hread, hpair, hagain, hmono 7 (.infinite false) (by decide +kernel) rfl
    (by decide +kernel) none none⟩

end PageRequest
end BoundSql
