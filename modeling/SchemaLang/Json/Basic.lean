import SchemaLang.Entries

/-!
# JSON values

Whole numbers are kept apart from the others, and the members of an object keep their order.
-/

namespace SchemaLang

inductive Json
  | null
  | bool (b : Bool)
  | integer (n : Int)
  | float (x : Float)
  | string (s : String)
  | array (items : List Json)
  | object (members : List (String × Json))

namespace Json

instance : Inhabited Json := ⟨.null⟩

/-- JSON has no text for an infinity or for what is not a number; null stands for them. -/
def ofFloat (x : Float) : Json := if x.isFinite then .float x else .null

end Json

end SchemaLang
