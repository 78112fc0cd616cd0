/-!
# Values

`Value` is what effects succeed with and fail with: a small dynamic data type.  A tagged value
`tagged name content` stands for one case of a sum: a success of `attempt` is tagged `ok`, the
winner of a race `left` or `right`.

Integers are signed machine words and wrap.  Equality is structural and decidable.
-/

namespace EffectFibers

inductive Value where
  | null
  | bool (b : Bool)
  | int (n : Int64)
  | text (s : String)
  | list (items : List Value)
  | tagged (name : String) (content : Value)
deriving Inhabited

namespace Value

/-! ## Equality -/

mutual

/-- Decides equality of two values. -/
def decEq (a b : Value) : Decidable (a = b) :=
  match a, b with
  | .null, .null => .isTrue rfl
  | .bool a, .bool b => if h : a = b then .isTrue (by rw [h]) else .isFalse (by simpa using h)
  | .int a, .int b => if h : a = b then .isTrue (by rw [h]) else .isFalse (by simpa using h)
  | .text a, .text b => if h : a = b then .isTrue (by rw [h]) else .isFalse (by simpa using h)
  | .list a, .list b =>
    match decEqList a b with
    | .isTrue h => .isTrue (by rw [h])
    | .isFalse h => .isFalse (by simpa using h)
  | .tagged m a, .tagged n b =>
    if h : m = n then
      match decEq a b with
      | .isTrue e => .isTrue (by rw [h, e])
      | .isFalse e => .isFalse (by simp [e])
    else .isFalse (by simp [h])
  | .null, .bool _ | .null, .int _ | .null, .text _ | .null, .list _ | .null, .tagged ..
  | .bool _, .null | .bool _, .int _ | .bool _, .text _ | .bool _, .list _ | .bool _, .tagged ..
  | .int _, .null | .int _, .bool _ | .int _, .text _ | .int _, .list _ | .int _, .tagged ..
  | .text _, .null | .text _, .bool _ | .text _, .int _ | .text _, .list _ | .text _, .tagged ..
  | .list _, .null | .list _, .bool _ | .list _, .int _ | .list _, .text _ | .list _, .tagged ..
  | .tagged .., .null | .tagged .., .bool _ | .tagged .., .int _ | .tagged .., .text _
  | .tagged .., .list _ => .isFalse (by simp)

/-- Decides equality of two lists of values. -/
def decEqList (as bs : List Value) : Decidable (as = bs) :=
  match as, bs with
  | [], [] => .isTrue rfl
  | a :: as, b :: bs =>
    match decEq a b, decEqList as bs with
    | .isTrue h, .isTrue t => .isTrue (by rw [h, t])
    | .isFalse h, _ => .isFalse (by simp [h])
    | _, .isFalse t => .isFalse (by simp [t])
  | [], _ :: _ | _ :: _, [] => .isFalse (by simp)

end

instance : DecidableEq Value := decEq

/-! ## Reading a value -/

/-- The integer of a value; anything else counts as zero. -/
def toInt : Value → Int64
  | .int n => n
  | _ => 0

/-- The items of a list; anything else has none. -/
def items : Value → List Value
  | .list xs => xs
  | _ => []

/-- Characters of a text, items of a list, otherwise zero. -/
def length : Value → Nat
  | .text s => s.length
  | .list xs => xs.length
  | _ => 0

/-- The list with one more item; anything else becomes the first item of a pair. -/
def push : Value → Value → Value
  | .list xs, x => .list (xs ++ [x])
  | v, x => .list [v, x]

/-- The item at a position counted from zero, or `null`. -/
def nth (v i : Value) : Value :=
  match i with
  | .int n => if n < 0 then .null else (v.items[n.toInt.toNat]?).getD .null
  | _ => .null

def tagName : Value → Value
  | .tagged name _ => .text name
  | _ => .null

def untag : Value → Value
  | .tagged _ content => content
  | v => v

/-! ## The cases of a sum -/

def ok (v : Value) : Value := .tagged "ok" v
def err (e : Value) : Value := .tagged "err" e
def some (v : Value) : Value := .tagged "some" v
def left (v : Value) : Value := .tagged "left" v
def right (v : Value) : Value := .tagged "right" v

/-- An optional value: `some` of it, or `null`. -/
def ofOption : Option Value → Value
  | .some v => some v
  | .none => .null

@[simp] theorem untag_ok (v : Value) : (ok v).untag = v := rfl
@[simp] theorem untag_left (v : Value) : (left v).untag = v := rfl
@[simp] theorem untag_right (v : Value) : (right v).untag = v := rfl

theorem left_ne_right (v w : Value) : left v ≠ right w := by simp [left, right]

end Value

end EffectFibers
