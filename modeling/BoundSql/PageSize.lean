import BoundSql.Number.Double

/-!
# Page sizes and page numbers

Requests name pages and sizes by any number or none. Both are cut to integers
and brought into range, so that one request cannot fetch without bound.
-/
namespace BoundSql

structure PageSizes where
  default : Double
  max : Double
  deriving DecidableEq

namespace PageSizes

def standard : PageSizes := ⟨20, 100⟩

/-- The size for a request: the default if there is none or it is no number, else its
integral part between one and the maximum. -/
def clamp (sizes : PageSizes) (limit : Option Double) : Double :=
  match limit with
  | none => sizes.default
  | some n => if n.isNaN then sizes.default else ((Double.max 1 n.trunc).min sizes.max)

/-- The page of a request: the first if there is none or it is not finite, else its
integral part between one and 2^32 - 1. -/
def page (requested : Option Double) : Double :=
  match requested with
  | none => 1
  | some n =>
    if n.isFinite then (Double.max 1 n.trunc).min (.ofNat (UInt32.size - 1)) else 1

end PageSizes

/-- A request for a page. -/
structure PageRequest where
  page : Option Double
  limit : Option Double

namespace PageRequest

/-- Page and size, both in range. -/
def normalize (sizes : PageSizes) (r : PageRequest) : Double × Double :=
  (PageSizes.page r.page, sizes.clamp r.limit)

end PageRequest
end BoundSql
