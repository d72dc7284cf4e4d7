import BoundSql.Text.Base64Url
import Mathlib

/-!
# Reading base64 back

Three bytes are written as four sextets, and what is left of them at the end as
two or three. Each byte is put together again from the parts of two neighbouring
sextets, so every byte string comes back, whatever its length.
-/
namespace BoundSql.Text.Base64Url

lemma sextet?_digit : ∀ n < 64, sextet? (digit n) = some n := by decide

lemma digit_lt (n : ℕ) : (digit n).toNat < 0x80 := by
  unfold digit
  split_ifs
  · rw [UInt16.toNat_ofNat']; omega
  · rw [UInt16.toNat_ofNat']; omega
  · rw [UInt16.toNat_ofNat']; omega
  · decide
  · decide

lemma mapM_digit {ss : List ℕ} (h : ∀ n ∈ ss, n < 64) :
    (ss.map digit).mapM sextet? = some ss := by
  induction ss with
  | nil => rfl
  | cons n ss ih =>
    have hn := sextet?_digit n (h n List.mem_cons_self)
    have hss := ih fun m hm => h m (List.mem_cons_of_mem n hm)
    rw [List.map_cons, List.mapM_cons, hn, hss]
    rfl

lemma ofNat_eq_of_toNat {n : ℕ} {b : UInt8} (h : n = b.toNat) : UInt8.ofNat n = b := by
  rw [h, UInt8.ofNat_toNat]

lemma first_byte (a : UInt8) (low : ℕ) (h : low < 16) :
    UInt8.ofNat (a.toNat / 4 * 4 + (a.toNat % 4 * 16 + low) / 16) = a :=
  ofNat_eq_of_toNat (by omega)

lemma second_byte (b : UInt8) (high low : ℕ) (h : low < 4) :
    UInt8.ofNat ((high * 16 + b.toNat / 16) % 16 * 16 + (b.toNat % 16 * 4 + low) / 4) = b :=
  have hb := b.toNat_lt
  ofNat_eq_of_toNat (by omega)

lemma third_byte (c : UInt8) (high : ℕ) :
    UInt8.ofNat ((high * 4 + c.toNat / 64) % 4 * 64 + c.toNat % 64) = c :=
  have hc := c.toNat_lt
  ofNat_eq_of_toNat (by omega)

/-- A token shows the digits of sextets that spell the bytes it was made of. -/
theorem exists_sextets (bs : List UInt8) :
    ∃ ss : List ℕ, (∀ n ∈ ss, n < 64) ∧ encodeBytes bs = ss.map digit ∧ bytesOf ss = some bs := by
  induction bs using encodeBytes.induct with
  | case1 => exact ⟨[], by simp, rfl, rfl⟩
  | case2 a =>
    have ha := a.toNat_lt
    have hfirst := first_byte a 0 (by omega)
    refine ⟨[a.toNat / 4, a.toNat % 4 * 16], ?_, rfl, ?_⟩
    · simp only [List.forall_mem_cons, List.not_mem_nil, false_imp_iff, implies_true, and_true]
      omega
    · rw [Nat.add_zero] at hfirst
      rw [bytesOf, hfirst]
  | case3 a b =>
    have ha := a.toNat_lt
    have hb := b.toNat_lt
    have hfirst := first_byte a (b.toNat / 16) (by omega)
    have hsecond := second_byte b (a.toNat % 4) 0 (by omega)
    refine ⟨[a.toNat / 4, a.toNat % 4 * 16 + b.toNat / 16, b.toNat % 16 * 4], ?_, rfl, ?_⟩
    · simp only [List.forall_mem_cons, List.not_mem_nil, false_imp_iff, implies_true, and_true]
      omega
    · rw [Nat.add_zero] at hsecond
      rw [bytesOf, hfirst, hsecond]
  | case4 a b c rest ih =>
    obtain ⟨ss, hlt, hdigits, hbytes⟩ := ih
    have ha := a.toNat_lt
    have hb := b.toNat_lt
    have hc := c.toNat_lt
    have hfirst := first_byte a (b.toNat / 16) (by omega)
    have hsecond := second_byte b (a.toNat % 4) (c.toNat / 64) (by omega)
    have hthird := third_byte c (b.toNat % 16)
    refine ⟨a.toNat / 4 :: (a.toNat % 4 * 16 + b.toNat / 16) ::
      (b.toNat % 16 * 4 + c.toNat / 64) :: (c.toNat % 64) :: ss, ?_, ?_, ?_⟩
    · simp only [List.forall_mem_cons]
      exact ⟨by omega, by omega, by omega, by omega, hlt⟩
    · rw [encodeBytes, hdigits]
      rfl
    · rw [bytesOf, hfirst, hsecond, hthird, hbytes, Option.map_some]

/-- Each unit of a token is one byte. -/
theorem lt_of_mem_encodeBytes {bs : List UInt8} {c : UInt16} (h : c ∈ encodeBytes bs) :
    c.toNat < 0x80 := by
  obtain ⟨ss, -, hdigits, -⟩ := exists_sextets bs
  rw [hdigits, List.mem_map] at h
  obtain ⟨n, -, rfl⟩ := h
  exact digit_lt n

/-- Reading a token is reading the bytes it was made of. -/
theorem decode?_encodeBytes (bs : List UInt8) : decode? (encodeBytes bs) = Utf8.decode? bs := by
  obtain ⟨ss, hlt, hdigits, hbytes⟩ := exists_sextets bs
  rw [decode?, hdigits, mapM_digit hlt, Option.bind_some, hbytes, Option.bind_some]

end BoundSql.Text.Base64Url
