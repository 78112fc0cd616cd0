import EffectFibers.Algebra.Document
import EffectFibers.Algebra.Fold
import EffectFibers.Algebra.Name

/-!
# Data as documents

How the data of a shape are written as documents and read from them.  An integer is written as
the text of its decimal digits, so that no size is too large, and a floating-point number as the
hexadecimal digits of its bits, so that none is rounded; all numbers that are not numbers are
one.
-/

namespace EffectFibers.Algebra

/-- Reading fails with what was expected and what was found. -/
def unlike {α : Type} (type : String) (d : Document) : Except Malformed α :=
  .error (.notA type d.compact)

/-! ## Numbers -/

namespace IntegerType

def write {t : IntegerType} (n : t.Number) : Document := .text (toString n.val)

def ofDocument (t : IntegerType) (d : Document) : Except Malformed t.Number :=
  let number := match d with
    | .number s | .text s => t.read? s
    | _ => none
  match number with
  | some n => .ok n
  | none => unlike t.name d

end IntegerType

/-- The text of the numbers that are not numbers. -/
def notANumber : String := "nan"

/-- A number from the digits of its bits. -/
def ofBits {α : Type} (name : String) (places : Nat) (number : Nat → α) (nan : α) (d : Document) :
    Except Malformed α :=
  match d with
  | .text s =>
    if s = notANumber then .ok nan
    else
      match Text.readNat 16 s with
      | some bits => if bits < Nat.pow 16 places then .ok (number bits) else unlike name d
      | none => unlike name d
  | _ => unlike name d

namespace Numeral

def write : (n : Numeral) → n.Carrier → Document
  | .integer _, a => IntegerType.write a
  | .single, (a : Float32) =>
    .text (if a.isNaN then notANumber else String.ofList (Text.fixedDigits 16 8 a.toBits.toNat))
  | .double, (a : Float) =>
    .text (if a.isNaN then notANumber else String.ofList (Text.fixedDigits 16 16 a.toBits.toNat))

def ofDocument : (n : Numeral) → Document → Except Malformed n.Carrier
  | .integer t, d => t.ofDocument d
  | .single, d => ofBits "f32" 8 (fun n => Float32.ofBits n.toUInt32) (0 / 0 : Float32) d
  | .double, d => ofBits "f64" 16 (fun n => Float.ofBits n.toUInt64) (0 / 0 : Float) d

end Numeral

/-! ## Ordered data -/

/-- An optional datum: `null`, or the field `some` of an object. -/
def readOption {α : Type} (item : Document → Except Malformed α) :
    Document → Except Malformed (Option α)
  | .null => .ok none
  | d =>
    match d.field? "some" with
    | some d => (item d).map some
    | none => .error (.missing "some")

def readPair {α β : Type} (first : Document → Except Malformed α)
    (second : Document → Except Malformed β) : Document → Except Malformed (α × β)
  | .list [a, b] => do return (← first a, ← second b)
  | d => unlike "pair" d

def readText : Document → Except Malformed String
  | .text s => .ok s
  | d => unlike "String" d

def readList {α : Type} (item : Document → Except Malformed α) :
    Document → Except Malformed (List α)
  | .list items => items.mapM item
  | d => unlike "Vec" d

def readKey (d : Document) : Except Malformed Int64 :=
  (keyType.ofDocument d).map fun n => Int64.ofInt n.val

def writeOption {α : Type} (item : α → Document) (a : Option α) : Document :=
  .ofOption (a.map item)

namespace Ordered

def write : (o : Ordered) → o.Carrier → Document
  | .integer _, a => IntegerType.write a
  | .text, (a : String) => .text a
  | .list o, a => .list (List.map o.write a)
  | .option o, a => writeOption o.write a
  | .pair o p, a => .list [o.write a.1, p.write a.2]
  | .keyed, (a : Keyed) => .list [.text (toString a.key.toInt), .text a.label]

def ofDocument : (o : Ordered) → Document → Except Malformed o.Carrier
  | .integer t, d => t.ofDocument d
  | .text, d => readText d
  | .list o, d => readList o.ofDocument d
  | .option o, d => readOption o.ofDocument d
  | .pair o p, d => readPair o.ofDocument p.ofDocument d
  | .keyed, d => do
    let (key, label) ← readPair readKey readText d
    return Keyed.mk key label

end Ordered

/-! ## Shapes -/

namespace Shape

def write : (s : Shape) → s.Carrier → Document
  | .text, (a : String) => .text a
  | .unit, _ => .null
  | .list o, a => .list (List.map o.write a)
  | .option s, a => writeOption s.write a
  | .pair s t, a => .list [s.write a.1, t.write a.2]
  | .sum n, a | .product n, a => n.write a
  | .largest o, a | .smallest o, a => o.write a

def ofDocument : (s : Shape) → Document → Except Malformed s.Carrier
  | .text, d => readText d
  | .unit, _ => .ok ()
  | .list o, d => readList o.ofDocument d
  | .option s, d => readOption s.ofDocument d
  | .pair s t, d => readPair s.ofDocument t.ofDocument d
  | .sum n, d | .product n, d => n.ofDocument d
  | .largest o, d | .smallest o, d => o.ofDocument d

end Shape

/-! ## Requests -/

/-- What is asked of a shape and some data. -/
inductive Request where
  | neutral
  | combine
  | combineAll
  | reduceAll

/-- The answer to a request.  Data are read when they are needed, and no sooner. -/
def Request.answer (s : Shape) (items : List Document) (request : Request) :
    Except Fault Document := do
  let read (d : Document) : Except Fault s.Carrier := (s.ofDocument d).mapError .malformed
  match request with
  | .neutral =>
    match s.neutral? with
    | some e => return s.write e
    | none => throw (.malformed (.needsMonoid "empty"))
  | .combine =>
    match items with
    | a :: b :: _ =>
      let a ← read a
      let b ← read b
      return s.write (← s.combine a b)
    | _ => throw (.malformed (.missing "items"))
  | .combineAll =>
    match s.combineAll? read items with
    | some result => return s.write (← result)
    | none => throw (.malformed (.needsMonoid "combine_all"))
  | .reduceAll => return writeOption s.write (← s.reduceAll read items)

end EffectFibers.Algebra
