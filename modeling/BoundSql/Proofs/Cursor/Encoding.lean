import BoundSql.Cursor.Token
import BoundSql.Proofs.Text.Mending
import BoundSql.Proofs.Text.Sextets

/-!
# Texts in tokens

A text comes back from its token mended and without a byte order mark. Clients
can send any token; those that have a text are told by their alphabet, their
length and their bytes.
-/
namespace BoundSql.Cursor

open Text Text.Base64Url

lemma decodeText_eq_ok_iff {token u : Text} :
    decodeText token = .ok u ↔ Base64Url.decode? token = some u := by
  rw [decodeText]
  cases Base64Url.decode? token <;> simp

lemma decodeText_congr {token token' : Text}
    (h : Base64Url.decode? token = Base64Url.decode? token') :
    decodeText token = decodeText token' := by
  rw [decodeText, decodeText, h]

/-- A token has a text if its units are digits, no single sextet is left over, and its bytes are
well-formed. -/
lemma exists_text_iff (token : Text) : (∃ u, decodeText token = .ok u) ↔
    (∀ c ∈ token, isTokenUnit c = true) ∧ token.length % 4 ≠ 1 ∧
      Utf8.WellFormed (octets (bits token)) := by
  have hbytes : ∀ bytes, (∃ u, Utf8.decode? bytes = some u) ↔ Utf8.WellFormed bytes := by
    intro bytes
    rw [← Option.isSome_iff_exists, Utf8.decode?, Option.isSome_map, Utf8.isSome_decodeScalars_iff]
  simp only [decodeText_eq_ok_iff, decode?_eq, ← List.all_eq_true]
  by_cases hdigits : token.all isTokenUnit = true ∧ token.length % 4 ≠ 1
  · rw [if_pos hdigits, hbytes]
    exact ⟨fun h => ⟨hdigits.1, hdigits.2, h⟩, fun h => h.2.2⟩
  · rw [if_neg hdigits]
    constructor
    · rintro ⟨u, hu⟩
      exact absurd hu (by simp)
    · exact fun h => absurd ⟨h.1, h.2.1⟩ hdigits

/-- Reading undoes writing but for halves of surrogate pairs, which have become U+FFFD, and one
byte order mark at the front. The tokens that can be read are those with digits only, of a length
that leaves no single sextet over, whose bits are well-formed UTF-8, whatever bits are left at the
end. Either alphabet may be used for the last two digits. -/
theorem decodeText_spec (t token : Text) :
    decodeText (Base64Url.encode t) = .ok (withoutMark (mended t)) ∧
    ((∃ u, decodeText token = .ok u) ↔
      (∀ c ∈ token, isTokenUnit c = true) ∧ token.length % 4 ≠ 1 ∧
        Utf8.WellFormed (octets (bits token))) ∧
    ∀ other : Text, other.map urlSafe = token.map urlSafe →
      decodeText other = decodeText token := by
  have hback : Base64Url.decode? (Base64Url.encode t) = some (withoutMark (mended t)) := by
    rw [Base64Url.encode, decode?_encodeBytes, Utf8.decode?_encode_eq]
  exact ⟨decodeText_eq_ok_iff.mpr hback, exists_text_iff token,
    fun other h => decodeText_congr (decode?_congr h)⟩

/-- A mark, half a pair and a letter; a token with the last two digits, in both alphabets. -/
theorem decodeText_spec_of_marked :
    let t : Text := [0xFEFF, 0xD800, Text.unit 'a']
    let token : Text := "77-_"
    let other : Text := "77+/"
    decodeText (Base64Url.encode t) = .ok [0xFFFD, Text.unit 'a'] ∧
      other.map urlSafe = token.map urlSafe ∧ decodeText other = decodeText token ∧
      Utf8.WellFormed (octets (bits token)) := by
  intro t token other
  obtain ⟨hback, hreads, hsame⟩ := decodeText_spec t token
  have halphabets : other.map urlSafe = token.map urlSafe := by decide
  have hmended : withoutMark (mended t) = [0xFFFD, Text.unit 'a'] := by decide
  have hread : decodeText token = .ok [0xFFFF] := by decide +kernel
  rw [hmended] at hback
  exact ⟨hback, halphabets, hsame other halphabets, (hreads.mp ⟨_, hread⟩).2.2⟩

end BoundSql.Cursor
