import BoundSql.Cursor.Document
import BoundSql.Text.Base64Url

/-!
# Cursor tokens

A token is the URL-safe base64 of a cursor's document. Clients can read and
forge it, so reading checks its size first and believes nothing.
-/
namespace BoundSql

namespace Cursor

def encode (c : Cursor) : Text := Text.Base64Url.encode (write c.entries)

/-- The text of a base64 token. -/
def decodeText (token : Text) : Except CursorError Text :=
  match Text.Base64Url.decode? token with
  | some t => .ok t
  | none => .error .invalidEncoding

/-- The cursor of a token from a client. -/
def decode (token : Text) : Except CursorError Cursor :=
  let size := Text.Utf8.size token
  if maxSize < size then .error (.tooLarge size)
  else do
    let document ← decodeText token
    let entries ← read document
    .ok ⟨entries⟩

end Cursor

/-- What a request may bring as its cursor. -/
inductive RequestedCursor where
  | missing
  | token (t : Text)
  | cursor (c : Cursor)

namespace Cursor

def nonEmpty? (c : Cursor) : Option Cursor := if c.isEmpty then none else some c

/-- The cursor of a request; missing, empty and unreadable ones count as none. -/
def ofRequest? : RequestedCursor → Option Cursor
  | .missing => none
  | .token t =>
    if t.isEmpty then none
    else match decode t with
      | .ok c => c.nonEmpty?
      | .error _ => none
  | .cursor c => c.nonEmpty?

theorem nonEmpty?_eq_some_iff {c c' : Cursor} :
    c.nonEmpty? = some c' ↔ c.isEmpty = false ∧ c = c' := by
  unfold nonEmpty?
  split <;> simp_all

/-- An empty text is the token of no cursor, so nothing is lost by not reading it. -/
theorem ofRequest?_token (t : Text) :
    ofRequest? (.token t) = (decode t).toOption.bind nonEmpty? := by
  cases t with
  | nil => cbv
  | cons c rest =>
    rw [ofRequest?, List.isEmpty_cons, if_neg Bool.false_ne_true]
    cases decode (c :: rest) <;> rfl

end Cursor
end BoundSql
