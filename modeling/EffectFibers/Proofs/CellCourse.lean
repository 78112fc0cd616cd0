import EffectFibers.Proofs.CellContest

/-!
# What a cell goes through

Whatever is done to a cell, each value that is staged comes to one of two ends: it is made visible
in place of the value before, or it is retired unseen.  A `Course` is a list of such changes, newest
first.  Everything that operations do is a course: also what the calls of an update do to the same
cell, between the load and the swap of an attempt.

So a generation is visible from one write to the next and never again, and the arena holds what is
visible and nothing else.  Generations are counted by natural numbers; as each change stages one
value, words of a machine count as well for as long as there are more words than changes.

## Main statements

* `Cell.Course.arena`, `Cell.Course.current_eq_iff`, `Cell.Course.current_lt_iff`: the arena, and
  the visible generation over time.
* `Cell.Course.swap_calm`, `Cell.Course.swap_stale`: a swap against a snapshot that was taken
  earlier.
* `Cell.Course.balance`: no value is lost, and none is there twice.
* `Cell.attempt_rel`, `Cell.retry_rel`: what calls, writes and retired candidates keep, updates
  keep.
-/

namespace EffectFibers.Cell

variable {σ α β : Type}

/-- What has become of a value that was staged. -/
inductive Change (α : Type) where
  | wrote (old new : α)
  /-- It was retired unseen. -/
  | missed (candidate : α)

namespace Change

def writes : Change α → Bool
  | .wrote .. => true
  | .missed _ => false

/-- The value that a write has displaced. -/
def old? : Change α → Option α
  | .wrote old _ => some old
  | .missed _ => none

/-- The value that a write has made visible. -/
def new? : Change α → Option α
  | .wrote _ new => some new
  | .missed _ => none

end Change

/-- Nothing was written. -/
def Calm (changes : List (Change α)) : Prop := ∀ x ∈ changes, x.writes = false

/-- The writes among the changes. -/
def writes (changes : List (Change α)) : List (Change α) := changes.filter Change.writes

def displaced (changes : List (Change α)) : Multiset α := changes.filterMap Change.old?

def written (changes : List (Change α)) : Multiset α := changes.filterMap Change.new?

/-- The changes of a cell, newest first. -/
inductive Course (c : Cell α) : List (Change α) → Cell α → Prop
  | start : Course c [] c
  | wrote {changes : List (Change α)} {c' : Cell α} (h : Course c changes c') (v : α) :
      Course c (.wrote c'.value v :: changes) (c'.store v)
  | missed {changes : List (Change α)} {c' : Cell α} (h : Course c changes c') (v : α) :
      Course c (.missed v :: changes) (c'.discard v)

/-! ## Single changes -/

variable {c c' c'' : Cell α} {changes newer past : List (Change α)} {initial : α}
  {policy : ContentionPolicy}

theorem arena_new : (new initial policy).arena
    = [((new initial policy).current, (new initial policy).value)] := by
  rw [value_new]
  rfl

theorem arena_store (v : α) (neat : c.arena = [(c.current, c.value)]) :
    (c.store v).arena = [((c.store v).current, (c.store v).value)] := by
  have apart : c.next ≠ c.current := Nat.ne_of_gt c.current_lt
  rw [value_store, current_store]
  simp [store, retire, publish, stage, neat, apart]

theorem arena_discard (v : α) (neat : c.arena = [(c.current, c.value)]) :
    (c.discard v).arena = [((c.discard v).current, (c.discard v).value)] := by
  have apart : c.current ≠ c.next := Nat.ne_of_lt c.current_lt
  have value : (c.discard v).value = c.value := congrArg Snapshot.value (c.load_discard v)
  rw [value]
  simp [discard, retire, stage, neat, apart]

theorem current_discard (c : Cell α) (v : α) : (c.discard v).current = c.current := rfl

/-- What a swap gives is what a load gives afterwards. -/
theorem compareAndSwap_eq (c : Cell α) (s : Snapshot α) (v : α) :
    c.compareAndSwap s v
      = if c.current = s.generation then (.ok (c.store v).load, c.store v)
        else (.error (c.discard v).load, c.discard v) := by
  rw [compareAndSwap, load_store, load_discard]

theorem next_store (c : Cell α) (v : α) : (c.store v).next = c.next + 1 := rfl

theorem next_discard (c : Cell α) (v : α) : (c.discard v).next = c.next + 1 := rfl

/-! ## Courses -/

@[simp] theorem calm_nil : Calm ([] : List (Change α)) := nofun

@[simp] theorem calm_cons {x : Change α} : Calm (x :: changes) ↔ x.writes = false ∧ Calm changes :=
  List.forall_mem_cons

theorem calm_iff_writes : Calm changes ↔ writes changes = [] := by
  simp [Calm, writes, List.filter_eq_nil_iff]

theorem writes_append (newer past : List (Change α)) :
    writes (newer ++ past) = writes newer ++ writes past := List.filter_append ..

namespace Course

theorem trans (h : Course c past c') (h' : Course c' newer c'') :
    Course c (newer ++ past) c'' := by
  induction h' with
  | start => exact h
  | wrote _ v ih => exact ih.wrote v
  | missed _ v ih => exact ih.missed v

/-- The arena holds what is visible and nothing else. -/
theorem arena (h : Course (new initial policy) changes c) :
    c.arena = [(c.current, c.value)] := by
  induction h with
  | start => exact arena_new
  | wrote _ v ih => exact arena_store v ih
  | missed _ v ih => exact arena_discard v ih

/-- Each change stages one value. -/
theorem next_eq (h : Course c changes c') : c'.next = c.next + changes.length := by
  induction h with
  | start => rfl
  | wrote _ v ih => rw [next_store, ih, List.length_cons, Nat.add_assoc]
  | missed _ v ih => rw [next_discard, ih, List.length_cons, Nat.add_assoc]

theorem current_le (h : Course c changes c') : c.current ≤ c'.current := by
  induction h with
  | start => exact Nat.le_refl _
  | @wrote changes c' _ v ih => exact Nat.le_of_lt (Nat.lt_of_le_of_lt ih c'.current_lt)
  | missed _ v ih => exact ih

/-- The visible generation rises with each write. -/
theorem current_eq_iff (h : Course c changes c') : c'.current = c.current ↔ Calm changes := by
  induction h with
  | start => exact iff_of_true rfl calm_nil
  | @wrote changes c' earlier v ih =>
    refine iff_of_false (Nat.ne_of_gt ?_) fun calm => ?_
    · exact Nat.lt_of_le_of_lt earlier.current_le c'.current_lt
    · cases (calm_cons.mp calm).1
  | missed _ v ih =>
    have unseen : (Change.missed v).writes = false := rfl
    rw [current_discard, ih, calm_cons, and_iff_right unseen]

theorem current_lt_iff (h : Course c changes c') :
    c.current < c'.current ↔ ∃ x ∈ changes, x.writes = true := by
  rw [Nat.lt_iff_le_and_ne, and_iff_right h.current_le, ne_comm, Ne, h.current_eq_iff]
  simp [Calm]

theorem load_calm (h : Course c changes c') (calm : Calm changes) : c'.load = c.load := by
  induction h with
  | start => rfl
  | wrote _ v ih => cases (calm_cons.mp calm).1
  | missed _ v ih => rw [load_discard, ih (calm_cons.mp calm).2]

/-- Snapshots of one generation are the same. -/
theorem load_eq (h : Course c changes c') (same : c'.load.generation = c.load.generation) :
    c'.load = c.load := h.load_calm (h.current_eq_iff.mp same)

/-- A snapshot is still good if nothing was written since, even if it is old. -/
theorem swap_calm (h : Course c changes c') (calm : Calm changes) (v : α) :
    c'.compareAndSwap c.load v = (.ok (c'.store v).load, c'.store v) := by
  have current : c'.current = c.load.generation := h.current_eq_iff.mpr calm
  rw [compareAndSwap_eq, if_pos current]

/-- A snapshot is stale if something was written since, even if it was an equal value. -/
theorem swap_stale (h : Course c changes c') (stale : ¬ Calm changes) (v : α) :
    c'.compareAndSwap c.load v = (.error (c'.discard v).load, c'.discard v) := by
  have newer : c'.current ≠ c.load.generation := mt h.current_eq_iff.mp stale
  rw [compareAndSwap_eq, if_neg newer]

/-- What was displaced and what is there now is what was there and what was written. -/
theorem balance (h : Course c changes c') :
    displaced changes + {c'.value} = c.value ::ₘ written changes := by
  induction h with
  | start => rfl
  | @wrote changes c' _ v ih =>
    have displaced_cons :
        displaced (.wrote c'.value v :: changes) = c'.value ::ₘ displaced changes := rfl
    have written_cons : written (.wrote c'.value v :: changes) = v ::ₘ written changes := rfl
    have add_one (S : Multiset α) (x : α) : S + {x} = x ::ₘ S := by
      rw [Multiset.add_comm, Multiset.singleton_add]
    rw [add_one] at ih
    rw [displaced_cons, written_cons, value_store, add_one, ih, Multiset.cons_swap]
  | @missed changes c' _ v ih =>
    have value : (c'.discard v).value = c'.value := congrArg Snapshot.value (c'.load_discard v)
    rw [value]
    exact ih

end Course

/-! ## Attempts -/

section

variable {place : Place σ α} {R : σ → σ → Prop}

/-- What holds between the states before and after a call, a write, and a candidate that is retired,
holds between the states before and after an attempt. -/
theorem attempt_rel (trans : ∀ {s t u}, R s t → R t u → R s u)
    (store : ∀ t v, R t (place.set ((place.get t).store v) t))
    (discard : ∀ t v, R t (place.set ((place.get t).discard v) t))
    {f : α → σ → Except Fault (α × β) × σ} (call : ∀ old t, R t (f old t).2) (s : σ) :
    R s (attempt place f s).2 := by
  have called := call (place.get s).load.value s
  simp only [attempt]
  rcases run : f (place.get s).load.value s with ⟨x | ⟨new, output⟩, t⟩ <;> rw [run] at called
  · exact called
  · simp only
    rcases swap : (place.get t).compareAndSwap (place.get s).load new with ⟨_ | _, c'⟩
    · rw [(compareAndSwap_error swap).2]
      exact trans called (discard t new)
    · rw [(compareAndSwap_ok swap).2]
      exact trans called (store t new)

theorem retry_rel (refl : ∀ s, R s s) (trans : ∀ {s t u}, R s t → R t u → R s u)
    (store : ∀ t v, R t (place.set ((place.get t).store v) t))
    (discard : ∀ t v, R t (place.set ((place.get t).discard v) t))
    {f : Nat → α → σ → Except Fault (α × β) × σ} (call : ∀ k old t, R t (f k old t).2)
    {lost : Nat → σ → σ} (loses : ∀ k t, R t (lost k t)) (n k : Nat) (s : σ) :
    R s (retry place f lost n k s).2 := by
  induction n generalizing k s with
  | zero => exact refl s
  | succ n ih =>
    have once := @attempt_rel σ α β place R trans store discard (f k) (call k) s
    rw [retry_succ]
    rcases made : attempt place (f k) s with ⟨x | _ | output, t⟩ <;> rw [made] at once
    · exact once
    · exact trans once (trans (loses (k + 1) t) (ih (k + 1) _))
    · exact once

end

end EffectFibers.Cell
