import BoundSql.Json.Basic

/-!
# Requests in entries

Fields with a method, headers and a socket describe a request, and an entry
shows a summary of the request in place of them.
-/
namespace BoundSql.RequestValue

open Json

/-- The value of a field that says something. -/
def present? (name : Text) (fields : List (Text × Json)) : Option Json :=
  (find? name fields).filter isPresent

def isRequest (fields : List (Text × Json)) : Bool :=
  (present? "method" fields).isSome && (present? "headers" fields).isSome &&
    (present? "socket" fields).isSome

/-- The address that was asked for. -/
def url? (fields : List (Text × Json)) : Option Json :=
  (present? "originalUrl" fields).or <|
    match find? "path" fields with
    | some (.string path) => some (.string path)
    | _ => (present? "url" fields).map fun url => ((url.get? "path").filter isPresent).getD url

/-- Where the request came from: what is known of the connection, else the socket. -/
def connection? (fields : List (Text × Json)) : Option Json :=
  (present? "info" fields).or (find? "socket" fields)

def id? (fields : List (Text × Json)) : Option Json :=
  (present? "id" fields).or ((present? "info" fields).bind (get? "id"))

/-- What an entry shows of a request; parts that are missing are left out. -/
def summary (fields : List (Text × Json)) : Json :=
  .object ((List.map (fun part => (Text.ofString part.1, part.2)) [
    ("id", id? fields), ("method", find? "method" fields), ("url", url? fields),
    ("query", present? "query" fields), ("params", present? "params" fields),
    ("headers", find? "headers" fields),
    ("remoteAddress", (connection? fields).bind (get? "remoteAddress")),
    ("remotePort", (connection? fields).bind (get? "remotePort"))]).filterMap fun part =>
      part.2.map fun j => (part.1, j))

/-- The fields of an entry: one for a request, else as they are. -/
def fieldsOf (fields : List (Text × Json)) : List (Text × Json) :=
  if isRequest fields then [(Text.ofString "req", summary fields)] else fields

end BoundSql.RequestValue
