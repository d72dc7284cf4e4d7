import BoundSql.Cursor.Token
import BoundSql.Proofs.Cursor.Document
import BoundSql.Proofs.Text.Base64Url

/-!
# Cursor tokens read back

The token of a cursor is decoded to the entries it was made of, in their order
and with repeated names. Only what the document has no form for is lost: floats
that are not finite, lists, and the sign of zero. The two limits are those of
every token, and the size is checked before anything is read.
-/
namespace BoundSql

namespace Cursor

/-- The entries that a token carries. -/
def kept (c : Cursor) : List (Text × Value) := c.entries.filterMap keptField?

lemma size_encode (c : Cursor) : Text.Utf8.size c.encode = c.encode.length :=
  Text.Utf8.size_of_ascii fun _ => Text.Base64Url.lt_of_mem_encodeBytes

lemma decodeText_encode (c : Cursor) : decodeText c.encode = .ok (write c.entries) := by
  have hpaired := paired_write c.entries
  have hmark : Text.unit '{' ≠ 0xFEFF := by decide
  have hbytes : Text.Base64Url.decode? c.encode =
      Text.Utf8.decode? (Text.Utf8.encode (write c.entries)) :=
    Text.Base64Url.decode?_encodeBytes _
  have htext : Text.Utf8.decode? (Text.Utf8.encode (write c.entries)) = some (write c.entries) :=
    Text.Utf8.decode?_encode hpaired hmark
  rw [decodeText, hbytes, htext]

/-- A token is refused for its size, then for the number of its entries; any other one is
decoded to exactly the entries that it carries. -/
theorem decode_encode (c : Cursor) :
    decode c.encode =
      if 4096 < c.encode.length then .error (.tooLarge c.encode.length)
      else if 16 < c.kept.length then .error .tooManyFields
      else .ok ⟨c.kept⟩ := by
  have hread : read (write c.entries) =
      if 16 < c.kept.length then .error .tooManyFields else .ok c.kept := read_write c.entries
  rw [decode, size_encode]
  by_cases hlarge : 4096 < c.encode.length
  · have hsize : maxSize < c.encode.length := hlarge
    rw [if_pos hlarge]
    exact if_pos hsize
  · have hsize : ¬ maxSize < c.encode.length := hlarge
    rw [if_neg hlarge]
    refine (if_neg hsize).trans ?_
    rw [decodeText_encode]
    simp only [bind, Except.bind, hread]
    by_cases hfull : 16 < c.kept.length
    · rw [if_pos hfull, if_pos hfull]
    · rw [if_neg hfull, if_neg hfull]

example : encode ⟨[("id", .int 42), ("name", .string "Alice")]⟩ =
    Text.ofString "eyJpZCI6NDIsIm5hbWUiOiJBbGljZSJ9" := by decide

end Cursor
end BoundSql
