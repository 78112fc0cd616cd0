/-!
# Digits

Numbers written with a fixed count of digits, and numbers read back.

## Main statements

* `length_fixedDigits`: the count is kept.
* `readDigits_fixedDigits`: what was written with enough digits reads back.
-/

namespace EffectFibers.Text

/-- The last `places` digits of a number in a base up to sixteen, leading zeros kept. -/
def fixedDigits (base : Nat) : (places n : Nat) → List Char
  | 0, _ => []
  | places + 1, n => fixedDigits base places (n / base) ++ [Nat.digitChar (n % base)]

/-- The number that a digit stands for; letters are digits in either case. -/
def digitValue? (base : Nat) (c : Char) : Option Nat :=
  (List.range base).find? fun d => Nat.digitChar d == c.toLower

/-- The digits that follow a number already read. -/
def readOn (base : Nat) (n : Nat) : List Char → Option Nat
  | [] => some n
  | c :: cs => do
    let d ← digitValue? base c
    readOn base (n * base + d) cs

/-- The number that is written; no number is written without a digit. -/
def readDigits (base : Nat) : List Char → Option Nat
  | [] => none
  | cs => readOn base 0 cs

/-- A natural number, which may have the sign `+`. -/
def readNat (base : Nat) (s : String) : Option Nat :=
  match s.toList with
  | '+' :: cs => readDigits base cs
  | cs => readDigits base cs

/-- A decimal integer, which may have a sign. -/
def readInt (s : String) : Option Int :=
  match s.toList with
  | '-' :: cs => (readDigits 10 cs).map fun n => -(n : Int)
  | _ => (readNat 10 s).map Int.ofNat

/-! ## Lemmas -/

@[simp] theorem length_fixedDigits (base places n : Nat) :
    (fixedDigits base places n).length = places := by
  induction places generalizing n with
  | zero => rfl
  | succ places ih => simp [fixedDigits, ih]

theorem digitValue?_digitChar : ∀ d, d < 16 → ∀ base, d < base → base ≤ 16 →
    digitValue? base (Nat.digitChar d) = some d := by
  intro d _ base hb h
  have all : ∀ b, b ≤ 16 → ∀ d, d < b → digitValue? b (Nat.digitChar d) = some d := by decide
  exact all base h d hb

theorem readOn_append (base n : Nat) (xs ys : List Char) :
    readOn base n (xs ++ ys) = (readOn base n xs).bind fun m => readOn base m ys := by
  induction xs generalizing n with
  | nil => rfl
  | cons c cs ih =>
    simp only [List.cons_append, readOn, Option.bind_eq_bind]
    cases digitValue? base c <;> simp [ih]

theorem readOn_fixedDigits {base : Nat} (low : 0 < base) (high : base ≤ 16) (places n m : Nat) :
    readOn base m (fixedDigits base places n)
      = some (m * Nat.pow base places + n % Nat.pow base places) := by
  simp only [Nat.pow_eq]
  induction places generalizing n with
  | zero => simp [fixedDigits, readOn, Nat.mod_one]
  | succ places ih =>
    have hd : n % base < base := Nat.mod_lt _ low
    have hv := digitValue?_digitChar (n % base) (by omega) base hd high
    rw [fixedDigits, readOn_append, ih]
    simp only [Option.bind_some, readOn, hv, Option.bind_eq_bind]
    congr 1
    rw [Nat.pow_succ, Nat.mul_comm (base ^ places) base, Nat.mod_mul, Nat.add_mul,
      Nat.mul_comm base (base ^ places), Nat.mul_assoc, Nat.mul_comm (n / base % _) base]
    omega

theorem readDigits_fixedDigits {base places n : Nat} (low : 0 < base) (high : base ≤ 16)
    (some_place : 0 < places) (fits : n < Nat.pow base places) :
    readDigits base (fixedDigits base places n) = some n := by
  have h := readOn_fixedDigits low high places n 0
  rw [Nat.mod_eq_of_lt fits, Nat.zero_mul, Nat.zero_add] at h
  cases hc : fixedDigits base places n with
  | nil =>
    have := length_fixedDigits base places n
    simp [hc] at this
    omega
  | cons c cs => rw [hc] at h; exact h

end EffectFibers.Text
