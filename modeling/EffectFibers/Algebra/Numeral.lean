import EffectFibers.Fault
import EffectFibers.Text.Digits

/-!
# Numbers of fixed size

An `IntegerType` says which integers fit.  Sums and products that do not fit are faults: nothing
wraps.  A `Numeral` is such a type, or one of the two binary floating-point types.

## Main statements

* `IntegerType.fit_eq_ok_iff`: a result is kept exactly if it fits.
-/

namespace EffectFibers.Algebra

/-! ## Integers -/

structure IntegerType where
  name : String
  signed : Bool
  bits : Nat
  wide : 2 ≤ bits := by decide
deriving DecidableEq

namespace IntegerType

def lower (t : IntegerType) : Int := if t.signed then -Int.pow 2 (t.bits - 1) else 0

def upper (t : IntegerType) : Int :=
  if t.signed then Int.pow 2 (t.bits - 1) - 1 else Int.pow 2 t.bits - 1

/-- Whether an integer fits. -/
def Holds (t : IntegerType) (n : Int) : Prop := t.lower ≤ n ∧ n ≤ t.upper

instance (t : IntegerType) (n : Int) : Decidable (t.Holds n) :=
  inferInstanceAs (Decidable (_ ∧ _))

/-- The integers that fit. -/
abbrev Number (t : IntegerType) : Type := { n : Int // t.Holds n }

theorem holds_of_bit (t : IntegerType) {n : Int} (low : 0 ≤ n) (high : n ≤ 1) : t.Holds n := by
  have power (k : Nat) (hk : 1 ≤ k) : (2 : Int) ≤ Int.pow 2 k := by
    change (2 : Int) ≤ 2 ^ k
    exact_mod_cast Nat.pow_le_pow_right (n := 2) (by decide) hk
  have h := power (t.bits - 1) (Nat.le_sub_one_of_lt t.wide)
  have k := power t.bits (Nat.le_of_succ_le t.wide)
  unfold Holds lower upper
  constructor <;> split <;> omega

def zero (t : IntegerType) : t.Number := ⟨0, t.holds_of_bit (by decide) (by decide)⟩

def one (t : IntegerType) : t.Number := ⟨1, t.holds_of_bit (by decide) (by decide)⟩

/-- A result, or the fault of not fitting. -/
def fit (t : IntegerType) (overflow : Fault) (n : Int) : Except Fault t.Number :=
  if h : t.Holds n then .ok ⟨n, h⟩ else .error overflow

def add (t : IntegerType) (a b : t.Number) : Except Fault t.Number :=
  t.fit .addOverflow (a.val + b.val)

def mul (t : IntegerType) (a b : t.Number) : Except Fault t.Number :=
  t.fit .mulOverflow (a.val * b.val)

/-- The number that a text writes.  A type without a sign knows no minus, not even before zero. -/
def read? (t : IntegerType) (s : String) : Option t.Number := do
  let n ← if t.signed then Text.readInt s else (Text.readNat 10 s).map Int.ofNat
  if h : t.Holds n then some ⟨n, h⟩ else none

theorem fit_eq_ok_iff (t : IntegerType) (overflow : Fault) (n : Int) (m : t.Number) :
    t.fit overflow n = .ok m ↔ n = m.val := by
  unfold fit
  split
  · next h =>
    constructor
    · intro e; cases e; rfl
    · intro e; subst e; rfl
  · next h =>
    constructor
    · intro e; cases e
    · intro e; exact absurd (e ▸ m.property) h

end IntegerType

/-! ## All numbers -/

inductive Numeral where
  | integer (t : IntegerType)
  | single
  | double

namespace Numeral

def Carrier : Numeral → Type
  | .integer t => t.Number
  | .single => Float32
  | .double => Float

def zero : (n : Numeral) → n.Carrier
  | .integer t => t.zero
  | .single => (0 : Float32)
  | .double => (0 : Float)

def one : (n : Numeral) → n.Carrier
  | .integer t => t.one
  | .single => (1 : Float32)
  | .double => (1 : Float)

def add : (n : Numeral) → n.Carrier → n.Carrier → Except Fault n.Carrier
  | .integer t, a, b => t.add a b
  | .single, a, b => .ok (Float32.add a b)
  | .double, a, b => .ok (Float.add a b)

def mul : (n : Numeral) → n.Carrier → n.Carrier → Except Fault n.Carrier
  | .integer t, a, b => t.mul a b
  | .single, a, b => .ok (Float32.mul a b)
  | .double, a, b => .ok (Float.mul a b)

end Numeral

end EffectFibers.Algebra
