import BoundSql.Proofs.Text.Base64Url
import BoundSql.Proofs.Text.WellFormed

/-!
# Tokens as strings of bits

Each unit of a token stands for the six bits of its place in the alphabet. The
bits are taken eight at a time, and what is left at the end is dropped. This is
all there is to base64, so the reader, which puts bytes together from the parts
of two sextets, is held against it.
-/
namespace BoundSql.Text.Base64Url

/-- The URL-safe digits in the order of their sextets. -/
def alphabet : Text := "ABCDEFGHIJKLMNOPQRSTUVWXYZabcdefghijklmnopqrstuvwxyz0123456789-_"

/-- The URL-safe form of a digit in the standard alphabet. -/
def urlSafe (c : UInt16) : UInt16 :=
  if c = unit '+' then unit '-' else if c = unit '/' then unit '_' else c

/-- Letters, decimal digits, and the last two digits of either alphabet. -/
def isTokenUnit (c : UInt16) : Bool :=
  isUpper c || isLower c || isDigit c || c = unit '-' || c = unit '_' || c = unit '+' ||
    c = unit '/'

/-- The lowest bits of a number, the most significant of them first. -/
def bitsOf (width n : ℕ) : List Bool := (List.range width).reverse.map n.testBit

/-- The number with the given bits. -/
def ofBits (bits : List Bool) : ℕ := bits.foldl (fun n bit => 2 * n + bit.toNat) 0

/-- The bits that a token stands for. -/
def bits (token : Text) : List Bool :=
  token.flatMap fun c => bitsOf 6 (alphabet.idxOf (urlSafe c))

/-- The bytes of a string of bits; fewer than eight bits at its end are dropped. -/
def octets : List Bool → List UInt8
  | b₇ :: b₆ :: b₅ :: b₄ :: b₃ :: b₂ :: b₁ :: b₀ :: rest =>
    UInt8.ofNat (ofBits [b₇, b₆, b₅, b₄, b₃, b₂, b₁, b₀]) :: octets rest
  | _ => []

lemma ofBits_append (xs ys : List Bool) :
    ofBits (xs ++ ys) = ofBits xs * 2 ^ ys.length + ofBits ys := by
  induction ys using List.reverseRecOn with
  | nil => simp [ofBits]
  | append_singleton ys y ih =>
    have hstep : ∀ zs, ofBits (zs ++ [y]) = 2 * ofBits zs + y.toNat := fun zs => by
      rw [ofBits, List.foldl_append]
      rfl
    rw [← List.append_assoc, hstep, hstep, ih, List.length_append, List.length_singleton, pow_succ]
    ring

lemma isSome_sextet? (c : UInt16) : (sextet? c).isSome = isTokenUnit c := by
  rw [isTokenUnit, sextet?]
  grind

lemma lt_of_isTokenUnit {c : UInt16} (h : isTokenUnit c = true) : c.toNat < 128 := by
  have hz : (unit 'z').toNat = 122 := rfl
  have hZ : (unit 'Z').toNat = 90 := rfl
  have h9 : (unit '9').toNat = 57 := rfl
  simp only [isTokenUnit, isUpper, isLower, isDigit, Bool.or_eq_true, Bool.and_eq_true,
    decide_eq_true_eq, UInt16.le_iff_toNat_le] at h
  rcases h with (((((h | h) | h) | rfl) | rfl) | rfl) | rfl
  · omega
  · omega
  · omega
  all_goals decide

/-- The sextet of a digit is its place in the alphabet. -/
lemma sextet?_of_isTokenUnit {c : UInt16} (h : isTokenUnit c = true) :
    sextet? c = some (alphabet.idxOf (urlSafe c)) ∧ alphabet.idxOf (urlSafe c) < 64 := by
  have hall : ∀ n < 128, isTokenUnit (UInt16.ofNat n) = true →
      sextet? (UInt16.ofNat n) = some (alphabet.idxOf (urlSafe (UInt16.ofNat n))) ∧
        alphabet.idxOf (urlSafe (UInt16.ofNat n)) < 64 := by decide +kernel
  have hc := hall c.toNat (lt_of_isTokenUnit h)
  rw [UInt16.ofNat_toNat] at hc
  exact hc h

@[simp] lemma length_bitsOf (width n : ℕ) : (bitsOf width n).length = width := by
  rw [bitsOf, List.length_map, List.length_reverse, List.length_range]

/-- What the bytes of a token are made of: a sextet, and the high and the low bits of one. -/
lemma ofBits_parts : ∀ n < 64, ofBits (bitsOf 6 n) = n ∧
    (ofBits ((bitsOf 6 n).take 2) = n / 16 ∧ ofBits ((bitsOf 6 n).drop 2) = n % 16) ∧
    ofBits ((bitsOf 6 n).take 4) = n / 4 ∧ ofBits ((bitsOf 6 n).drop 4) = n % 4 := by
  decide

/-- Eight bits at the front make the first byte. -/
lemma octets_append {xs : List Bool} (h : xs.length = 8) (rest : List Bool) :
    octets (xs ++ rest) = UInt8.ofNat (ofBits xs) :: octets rest := by
  match xs, h with
  | [b₇, b₆, b₅, b₄, b₃, b₂, b₁, b₀], _ => rfl

/-- A byte is made of some bits and as many of the next ones as they lack. -/
lemma octets_step (xs ys : List Bool) {k : ℕ} (hk : xs.length + k = 8) (hys : k ≤ ys.length)
    (rest : List Bool) : octets (xs ++ (ys ++ rest)) =
      UInt8.ofNat (ofBits xs * 2 ^ k + ofBits (ys.take k)) :: octets (ys.drop k ++ rest) := by
  have htake : (ys.take k).length = k := List.length_take_of_le hys
  have hlength : (xs ++ ys.take k).length = 8 := by rw [List.length_append, htake, hk]
  have hsplit : xs ++ (ys ++ rest) = (xs ++ ys.take k) ++ (ys.drop k ++ rest) := by
    rw [List.append_assoc, ← List.append_assoc (ys.take k), List.take_append_drop]
  rw [hsplit, octets_append hlength, ofBits_append, htake]

section Bytes

variable {a b c d : ℕ} (rest : List Bool)

/-- The bits of a sextet and the high bits of the next. -/
lemma octets_first (ha : a < 64) (hb : b < 64) :
    octets (bitsOf 6 a ++ (bitsOf 6 b ++ rest)) =
      UInt8.ofNat (a * 4 + b / 16) :: octets ((bitsOf 6 b).drop 2 ++ rest) := by
  have hstep := octets_step (bitsOf 6 a) (bitsOf 6 b) (k := 2) rfl (by simp) rest
  rwa [(ofBits_parts a ha).1, (ofBits_parts b hb).2.1.1] at hstep

/-- The low bits of the second sextet and the high bits of the third. -/
lemma octets_second (hb : b < 64) (hc : c < 64) :
    octets ((bitsOf 6 b).drop 2 ++ (bitsOf 6 c ++ rest)) =
      UInt8.ofNat (b % 16 * 16 + c / 4) :: octets ((bitsOf 6 c).drop 4 ++ rest) := by
  have hstep := octets_step ((bitsOf 6 b).drop 2) (bitsOf 6 c) (k := 4) rfl (by simp) rest
  rwa [(ofBits_parts b hb).2.1.2, (ofBits_parts c hc).2.2.1] at hstep

/-- The low bits of the third sextet and the last sextet. -/
lemma octets_third (hc : c < 64) (hd : d < 64) :
    octets ((bitsOf 6 c).drop 4 ++ (bitsOf 6 d ++ rest)) =
      UInt8.ofNat (c % 4 * 64 + d) :: octets rest := by
  have hstep := octets_step ((bitsOf 6 c).drop 4) (bitsOf 6 d) (k := 6) rfl (by simp) rest
  have hall : (bitsOf 6 d).take 6 = bitsOf 6 d := List.take_of_length_le le_rfl
  have hnone : (bitsOf 6 d).drop 6 = [] := List.drop_of_length_le le_rfl
  rwa [hall, hnone, (ofBits_parts c hc).2.2.2, (ofBits_parts d hd).1] at hstep

end Bytes

lemma octets_of_short {xs : List Bool} (h : xs.length < 8) : octets xs = [] := by
  unfold octets
  split
  · simp only [List.length_cons] at h
    omega
  · rfl

/-- The bytes that sextets spell are those of their bits; one sextet left over spells none. -/
theorem bytesOf_eq {ss : List ℕ} (h : ∀ n ∈ ss, n < 64) :
    bytesOf ss = if ss.length % 4 = 1 then none else some (octets (ss.flatMap (bitsOf 6))) := by
  induction ss using bytesOf.induct with
  | case1 => rfl
  | case2 a => rfl
  | case3 a b =>
    simp only [List.forall_mem_cons] at h
    obtain ⟨ha, hb, -⟩ := h
    have hlast : octets ((bitsOf 6 b).drop 2 ++ []) = [] := octets_of_short (by simp)
    have hbytes : octets ([a, b].flatMap (bitsOf 6)) = [UInt8.ofNat (a * 4 + b / 16)] := by
      rw [List.flatMap_cons, List.flatMap_cons, List.flatMap_nil, octets_first [] ha hb, hlast]
    rw [bytesOf, if_neg (by simp), hbytes]
  | case4 a b c =>
    simp only [List.forall_mem_cons] at h
    obtain ⟨ha, hb, hc, -⟩ := h
    have hlast : octets ((bitsOf 6 c).drop 4 ++ []) = [] := octets_of_short (by simp)
    have hbytes : octets ([a, b, c].flatMap (bitsOf 6)) =
        [UInt8.ofNat (a * 4 + b / 16), UInt8.ofNat (b % 16 * 16 + c / 4)] := by
      rw [List.flatMap_cons, List.flatMap_cons, List.flatMap_cons, List.flatMap_nil,
        octets_first _ ha hb, octets_second [] hb hc, hlast]
    rw [bytesOf, if_neg (by simp), hbytes]
  | case5 a b c d rest ih =>
    simp only [List.forall_mem_cons] at h
    obtain ⟨ha, hb, hc, hd, hrest⟩ := h
    have hbytes : octets ((a :: b :: c :: d :: rest).flatMap (bitsOf 6)) =
        UInt8.ofNat (a * 4 + b / 16) :: UInt8.ofNat (b % 16 * 16 + c / 4) ::
          UInt8.ofNat (c % 4 * 64 + d) :: octets (rest.flatMap (bitsOf 6)) := by
      rw [List.flatMap_cons, List.flatMap_cons, List.flatMap_cons, List.flatMap_cons,
        octets_first _ ha hb, octets_second _ hb hc, octets_third _ hc hd]
    have hlength : (a :: b :: c :: d :: rest).length % 4 = rest.length % 4 := by
      simp only [List.length_cons]
      omega
    rw [bytesOf, ih hrest, hlength, hbytes]
    split_ifs <;> rfl

/-- The sextets of a token are there if all its units are digits. -/
lemma mapM_sextet? (token : Text) :
    token.mapM sextet? =
      if token.all isTokenUnit then some (token.map fun c => alphabet.idxOf (urlSafe c))
      else none := by
  induction token with
  | nil => rfl
  | cons c token ih =>
    rw [List.mapM_cons, ih, List.all_cons, List.map_cons]
    by_cases hc : isTokenUnit c = true
    · rw [(sextet?_of_isTokenUnit hc).1, hc, Bool.true_and]
      split_ifs <;> rfl
    · have hnone : sextet? c = none := by
        rw [← Option.not_isSome_iff_eq_none, isSome_sextet?]
        exact hc
      rw [hnone, Bool.eq_false_of_not_eq_true hc]
      rfl

/-- Which tokens have a text, and the bytes of it. -/
theorem decode?_eq (token : Text) : decode? token =
    if token.all isTokenUnit ∧ token.length % 4 ≠ 1 then Utf8.decode? (octets (bits token))
    else none := by
  rw [decode?, mapM_sextet?]
  by_cases hunits : token.all isTokenUnit = true
  · have hlt : ∀ n ∈ token.map fun c => alphabet.idxOf (urlSafe c), n < 64 := by
      intro n hn
      obtain ⟨c, hc, rfl⟩ := List.mem_map.mp hn
      exact (sextet?_of_isTokenUnit (List.all_eq_true.mp hunits c hc)).2
    rw [if_pos hunits, Option.bind_some, bytesOf_eq hlt, List.length_map, List.flatMap_map]
    by_cases hlength : token.length % 4 = 1
    · rw [if_pos hlength, if_neg (by simp [hlength])]
      rfl
    · rw [if_neg hlength, if_pos ⟨hunits, hlength⟩]
      rfl
  · rw [if_neg hunits, if_neg fun h => hunits h.1]
    rfl

lemma isTokenUnit_urlSafe (c : UInt16) : isTokenUnit (urlSafe c) = isTokenUnit c := by
  rw [urlSafe]
  split_ifs with hplus hslash
  · rw [hplus]
    decide
  · rw [hslash]
    decide
  · rfl

/-- A digit may be written in either alphabet. -/
theorem decode?_congr {token token' : Text} (h : token.map urlSafe = token'.map urlSafe) :
    decode? token = decode? token' := by
  have hunits : ∀ t : Text, t.all isTokenUnit = (t.map urlSafe).all isTokenUnit := fun t => by
    rw [List.all_map]
    exact congrArg t.all (funext fun c => (isTokenUnit_urlSafe c).symm)
  have hbits : ∀ t : Text, bits t =
      (t.map urlSafe).flatMap fun c => bitsOf 6 (alphabet.idxOf c) := fun t => by
    rw [bits, List.flatMap_map]
  have hlength : token.length = token'.length := by
    simpa using congrArg List.length h
  rw [decode?_eq, decode?_eq, hunits token, hunits token', hbits token, hbits token', h, hlength]

end BoundSql.Text.Base64Url
