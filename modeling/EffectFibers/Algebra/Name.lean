import EffectFibers.Algebra.Shape

/-!
# Names of shapes

A `TypeName` is a name, a name applied to another one in angle brackets, or a tuple.  Not every
name is that of a shape: `TypeName.shape?` knows which.
-/

namespace EffectFibers.Algebra

inductive TypeName where
  | plain (name : String)
  | applied (name : String) (argument : TypeName)
  | unit
  | pair (a b : TypeName)

namespace TypeName

/-! ## Reading -/

def isNameChar (c : Char) : Bool := c.isAlphanum || c == '_'

/-- The type at the front of a text, and what follows it.  `depth` bounds the nesting. -/
def scan (depth : Nat) (cs : List Char) : Option (TypeName × List Char) :=
  match depth with
  | 0 => none
  | depth + 1 =>
    match cs with
    | '(' :: ')' :: rest => some (.unit, rest)
    | '(' :: rest =>
      match scan depth rest with
      | some (a, ',' :: rest) =>
        match scan depth rest with
        | some (b, ')' :: rest) => some (.pair a b, rest)
        | _ => none
      | _ => none
    | _ =>
      match String.ofList (cs.takeWhile isNameChar), cs.dropWhile isNameChar with
      | "", _ => none
      | name, '<' :: rest =>
        match scan depth rest with
        | some (argument, '>' :: rest) => some (.applied name argument, rest)
        | _ => none
      | name, rest => some (.plain name, rest)

/-- The type that a text names; no type is nested deeper than its name is long. -/
def ofString? (s : String) : Option TypeName :=
  match scan (s.length + 1) s.toList with
  | some (t, []) => some t
  | _ => none

/-! ## Meaning -/

/-- The integer types. -/
def integerTypes : List IntegerType :=
  [⟨"i8", true, 8, by decide⟩, ⟨"i16", true, 16, by decide⟩, ⟨"i32", true, 32, by decide⟩,
   ⟨"i64", true, 64, by decide⟩, ⟨"i128", true, 128, by decide⟩, ⟨"isize", true, 64, by decide⟩,
   ⟨"u8", false, 8, by decide⟩, ⟨"u16", false, 16, by decide⟩, ⟨"u32", false, 32, by decide⟩,
   ⟨"u64", false, 64, by decide⟩, ⟨"u128", false, 128, by decide⟩, ⟨"usize", false, 64, by decide⟩]

def integerType? (name : String) : Option IntegerType :=
  integerTypes.find? fun t => t.name == name

def numeral? : TypeName → Option Numeral
  | .plain "f32" => some .single
  | .plain "f64" => some .double
  | .plain name => (integerType? name).map .integer
  | _ => none

/-- The order that a type has.  A wrapper is ordered as what it holds. -/
def ordered? : TypeName → Option Ordered
  | .plain "String" => some .text
  | .plain "Keyed" => some .keyed
  | .plain name => (integerType? name).map .integer
  | .applied "Vec" t => t.ordered?.map .list
  | .applied "Option" t => t.ordered?.map .option
  | .applied "Sum" t | .applied "Product" t | .applied "Max" t | .applied "Min" t => t.ordered?
  | .pair a b => do return .pair (← a.ordered?) (← b.ordered?)
  | .applied .. | .unit => none

/-- The shape of a type whose values can be joined. -/
def shape? : TypeName → Option Shape
  | .plain "String" => some .text
  | .unit => some .unit
  | .applied "Vec" t => t.ordered?.map .list
  | .applied "Option" t => t.shape?.map .option
  | .applied "Sum" t => t.numeral?.map .sum
  | .applied "Product" t => t.numeral?.map .product
  | .applied "Max" t => t.ordered?.map .largest
  | .applied "Min" t => t.ordered?.map .smallest
  | .pair a b => do return .pair (← a.shape?) (← b.shape?)
  | .plain _ | .applied .. => none

end TypeName

/-- The type of the keys of documents. -/
def keyType : IntegerType := ⟨"i64", true, 64, by decide⟩

/-- The shape with a name. -/
def Shape.ofName? (name : String) : Option Shape := do (← TypeName.ofString? name).shape?

end EffectFibers.Algebra
