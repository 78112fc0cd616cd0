import EffectFibers.Cell
import EffectFibers.Fault

/-!
# Updating a cell by a function

A function of the old value computes the new one and an output.  One attempt loads the value,
calls the function and swaps; it fails if somebody wrote in between.  `retry` makes attempts
until one succeeds or a bound is reached.  The function works on a state of which the cell is a
part (`Place`), so it may itself write to the cell between the load and the swap.

## Main statements

* `Cell.attempt_of_stable`: undisturbed, an attempt stores what the function computed.
* `Cell.retry_zero`, `Cell.retry_succ`: the loop makes at most the given number of attempts.
-/

namespace EffectFibers

variable {σ α β : Type}

/-- Where a state keeps a cell. -/
structure Place (σ α : Type) where
  get : σ → Cell α
  set : Cell α → σ → σ

/-- The state that is nothing but a cell. -/
def Place.whole : Place (Cell α) α := ⟨id, fun c _ => c⟩

namespace Cell

/-- Load, compute, swap: the output if the swap succeeded. -/
def attempt (place : Place σ α) (f : α → σ → Except Fault (α × β) × σ) (s : σ) :
    Except Fault (Option β) × σ :=
  let snapshot := (place.get s).load
  match f snapshot.value s with
  | (.error fault, s) => (.error fault, s)
  | (.ok (next, output), s) =>
    match (place.get s).compareAndSwap snapshot next with
    | (.ok _, cell) => (.ok (some output), place.set cell s)
    | (.error _, cell) => (.ok none, place.set cell s)

/-- Attempts `k`, `k + 1`, … until one succeeds, at most `n` of them.  The function is told
which attempt it serves, and `lost` is done after each attempt that failed. -/
def retry (place : Place σ α) (f : Nat → α → σ → Except Fault (α × β) × σ)
    (lost : Nat → σ → σ) (n k : Nat) (s : σ) : Except Fault (Option β) × σ :=
  match n with
  | 0 => (.ok none, s)
  | n + 1 =>
    match attempt place (f k) s with
    | (.ok none, s) => retry place f lost n (k + 1) (lost (k + 1) s)
    | (.ok (some output), s) => (.ok (some output), s)
    | (.error fault, s) => (.error fault, s)

/-! ## Lemmas -/

theorem retry_zero (place : Place σ α) (f : Nat → α → σ → Except Fault (α × β) × σ)
    (lost : Nat → σ → σ) (k : Nat) (s : σ) : retry place f lost 0 k s = (.ok none, s) := rfl

theorem retry_succ (place : Place σ α) (f : Nat → α → σ → Except Fault (α × β) × σ)
    (lost : Nat → σ → σ) (n k : Nat) (s : σ) :
    retry place f lost (n + 1) k s
      = match attempt place (f k) s with
        | (.ok none, s) => retry place f lost n (k + 1) (lost (k + 1) s)
        | (.ok (some output), s) => (.ok (some output), s)
        | (.error fault, s) => (.error fault, s) := rfl

/-- If the function leaves the cell alone, the attempt stores what it computed. -/
theorem attempt_of_stable (place : Place σ α) (f : α → σ → Except Fault (α × β) × σ) (s t : σ)
    {next : α} {output : β} (hf : f (place.get s).value s = (.ok (next, output), t))
    (ht : place.get t = place.get s) :
    attempt place f s = (.ok (some output), place.set ((place.get s).store next) t) := by
  have hf' : f (place.get s).load.value s = (.ok (next, output), t) := hf
  have hg : (place.get s).load.generation = (place.get s).current := rfl
  simp [attempt, hf', ht, compareAndSwap, hg]

end Cell

end EffectFibers
