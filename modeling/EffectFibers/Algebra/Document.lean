import EffectFibers.Text.Escaped

/-!
# Documents

A `Document` is data as they are handed in and out, before a type is chosen for them.  A number
is kept by the characters that write it, so that none is too large and none is rounded.
-/

namespace EffectFibers.Algebra

inductive Document where
  | null
  | bool (b : Bool)
  | number (literal : String)
  | text (s : String)
  | list (items : List Document)
  | object (fields : List (String × Document))
deriving Inhabited

namespace Document

mutual

/-- The document on one line, without blanks. -/
def compact : Document → String
  | .null => "null"
  | .bool true => "true"
  | .bool false => "false"
  | .number literal => literal
  | .text s => quote s
  | .list items => "[" ++ ",".intercalate (compactItems items) ++ "]"
  | .object fields => "\x7b" ++ ",".intercalate (compactFields fields) ++ "\x7d"

def compactItems : List Document → List String
  | [] => []
  | d :: ds => compact d :: compactItems ds

def compactFields : List (String × Document) → List String
  | [] => []
  | (name, d) :: rest => (quote name ++ ":" ++ compact d) :: compactFields rest

end

/-- The field with a name. -/
def field? (name : String) : Document → Option Document
  | .object fields => fields.lookup name
  | _ => none

/-- An optional document: an object with the field `some`, or `null`. -/
def ofOption : Option Document → Document
  | .some d => .object [("some", d)]
  | .none => .null

end Document

end EffectFibers.Algebra
