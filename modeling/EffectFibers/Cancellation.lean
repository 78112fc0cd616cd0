/-!
# Cancellation tokens

A `Forest` holds cancellation tokens and who was derived from whom.  Cancelling a token cancels
every token that still hangs below it; a token derived from a cancelled one is cancelled from
the start.  Nothing ever becomes uncancelled.

A token hangs below its parent as long as somebody holds it.  `Forest.prune` cuts loose the
tokens that nobody holds any more: a cancellation no longer reaches them, nor what was derived
from them.

## Main statements

* `Forest.isCancelled_cancel_self`: after `cancel t` the token `t` is cancelled.
* `Forest.isCancelled_cancelAll`: cancelling undoes no cancellation.
-/

namespace EffectFibers

/-- A token is named by its place in the forest. -/
abbrev TokenId := Nat

structure Forest.Node where
  cancelled : Bool := false
  children : List TokenId := []
deriving Inhabited

structure Forest where
  nodes : Array Forest.Node := #[]
deriving Inhabited

namespace Forest

def isCancelled (f : Forest) (t : TokenId) : Bool :=
  match f.nodes[t]? with
  | some node => node.cancelled
  | none => false

/-- A token derived from nothing. -/
def fresh (f : Forest) : TokenId × Forest :=
  (f.nodes.size, ⟨f.nodes.push {}⟩)

/-- A token derived from `t`. -/
def child (f : Forest) (t : TokenId) : TokenId × Forest :=
  let c := f.nodes.size
  if f.isCancelled t then (c, ⟨f.nodes.push { cancelled := true }⟩)
  else
    (c, ⟨(f.nodes.modify t fun node => { node with children := node.children ++ [c] }).push {}⟩)

/-- How many tokens are not cancelled. -/
def liveCount (f : Forest) : Nat := f.nodes.countP fun node => !node.cancelled

/-- Marks a token and leaves its children to the caller. -/
def mark (f : Forest) (t : TokenId) : Forest :=
  ⟨f.nodes.setIfInBounds t { cancelled := true }⟩

theorem liveCount_mark_lt {f : Forest} {t : TokenId} {node : Node}
    (h : f.nodes[t]? = some node) (hc : node.cancelled = false) :
    (f.mark t).liveCount < f.liveCount := by
  obtain ⟨ht, hn⟩ := Array.getElem?_eq_some_iff.mp h
  have pos : 0 < f.nodes.countP fun node => !node.cancelled :=
    Array.countP_pos_iff.mpr ⟨node, Array.mem_of_getElem? h, by simp [hc]⟩
  simp only [mark, liveCount, Array.setIfInBounds_def, ht, dite_true, Array.countP_set, hn, hc,
    Bool.not_false, Bool.not_true, Bool.false_eq_true, ↓reduceIte]
  omega

/-- Cancels the tokens of a list and all that hangs below them, parents before children. -/
def cancelAll (f : Forest) : List TokenId → Forest
  | [] => f
  | t :: rest =>
    match _h : f.nodes[t]? with
    | none => f.cancelAll rest
    | some node =>
      match _hc : node.cancelled with
      | true => f.cancelAll rest
      | false => (f.mark t).cancelAll (node.children ++ rest)
termination_by ts => (f.liveCount, ts.length)
decreasing_by
  · exact Prod.Lex.right _ (by simp)
  · exact Prod.Lex.right _ (by simp)
  · exact Prod.Lex.left _ _ (liveCount_mark_lt _h _hc)

def cancel (f : Forest) (t : TokenId) : Forest := f.cancelAll [t]

/-- Cuts loose the tokens that nobody holds. -/
def prune (f : Forest) (held : TokenId → Bool) : Forest :=
  ⟨f.nodes.map fun node => { node with children := node.children.filter held }⟩

/-! ## Lemmas -/

theorem isCancelled_mark (f : Forest) (t u : TokenId) :
    (f.mark t).isCancelled u = (f.isCancelled u || (t == u && decide (t < f.nodes.size))) := by
  unfold isCancelled mark
  rw [Array.getElem?_setIfInBounds]
  by_cases htu : t = u
  · subst htu
    by_cases ht : t < f.nodes.size <;> simp [ht]
  · simp [htu]

/-- Cancelling undoes no cancellation. -/
theorem isCancelled_cancelAll {f : Forest} {ts : List TokenId} {u : TokenId}
    (h : f.isCancelled u = true) : (f.cancelAll ts).isCancelled u = true := by
  fun_induction cancelAll f ts with
  | case1 => exact h
  | case2 f t rest _ ih => exact ih h
  | case3 f t rest node _ _ ih => exact ih h
  | case4 f t rest node _ _ ih => exact ih (by simp [isCancelled_mark, h])

theorem isCancelled_cancel_self {f : Forest} {t : TokenId} (h : t < f.nodes.size) :
    (f.cancel t).isCancelled t = true := by
  unfold cancel cancelAll
  split
  · next hn => exact absurd h (Nat.not_lt.mpr (Array.getElem?_eq_none_iff.mp hn))
  · next node hn =>
    split
    · next hc =>
      exact isCancelled_cancelAll (by simp [isCancelled, hn, hc])
    · exact isCancelled_cancelAll (by simp [isCancelled_mark, h])

end Forest

end EffectFibers
