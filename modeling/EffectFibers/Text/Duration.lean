import EffectFibers.Fault

/-!
# The text of a duration

A duration is written in the largest of the units `s`, `ms`, `µs` and `ns` in which it is not
below one, as a decimal fraction without trailing zeros.

## Main statements

* `Duration.carry_eq_ok_iff`: carrying keeps the whole time, and refuses it only if it is too long.
-/

namespace EffectFibers

structure Duration where
  seconds : Nat
  nanoseconds : Nat
  nanoseconds_lt : nanoseconds < 1000000000 := by omega
deriving DecidableEq

namespace Duration

def ofMillis (ms : Nat) : Duration where
  seconds := ms / 1000
  nanoseconds := ms % 1000 * 1000000

/-- Seconds and any number of nanoseconds; full seconds among these are carried.  A machine word
has to count the seconds. -/
def carry (seconds nanoseconds : Nat) : Except Fault Duration :=
  let total := seconds + nanoseconds / 1000000000
  if total < UInt64.size then
    .ok { seconds := total, nanoseconds := nanoseconds % 1000000000 }
  else .error .durationOverflow

/-- A fraction of `places` digits behind its point, without trailing zeros. -/
def fraction (places n : Nat) : String :=
  match ((Text.fixedDigits 10 places n).reverse.dropWhile (· = '0')).reverse with
  | [] => ""
  | ds => "." ++ String.ofList ds

/-- A number of units whose `places` lower digits are the fraction. -/
def inUnit (whole places rest : Nat) (unit : String) : String :=
  toString whole ++ fraction places rest ++ unit

def describe (d : Duration) : String :=
  if d.seconds > 0 then inUnit d.seconds 9 d.nanoseconds "s"
  else if d.nanoseconds ≥ 1000000 then
    inUnit (d.nanoseconds / 1000000) 6 (d.nanoseconds % 1000000) "ms"
  else if d.nanoseconds ≥ 1000 then
    inUnit (d.nanoseconds / 1000) 3 (d.nanoseconds % 1000) "µs"
  else inUnit d.nanoseconds 0 0 "ns"

/-- The text that shows a timeout. -/
def describeTimeout (d : Duration) : String :=
  "TimeoutError \x7b duration: " ++ d.describe ++ " \x7d"

/-- The sentence that reports a timeout. -/
def timeoutMessage (d : Duration) : String := "effect timed out after " ++ d.describe

/-! ## Lemmas -/

theorem carry_eq_ok_iff {seconds nanoseconds : Nat} {d : Duration} :
    carry seconds nanoseconds = .ok d ↔ d.seconds < UInt64.size
      ∧ seconds * 1000000000 + nanoseconds = d.seconds * 1000000000 + d.nanoseconds := by
  obtain ⟨s, n, h⟩ := d
  simp only [carry]
  split <;> simp only [Except.ok.injEq, mk.injEq, reduceCtorEq, false_iff] <;> omega

end Duration

end EffectFibers
