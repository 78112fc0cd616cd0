/-!
# Cells

A `Cell α` holds one value that is replaced by compare-and-swap.  Every value ever staged gets a
generation number of its own; the visible value is the one whose generation is current, and the
arena keeps the values by generation.  A `Snapshot` remembers the generation it was taken at, so
a swap against it succeeds only if nothing was written since, even if an equal value came back.

## Main statements

* `Cell.load_store`, `Cell.load_compareAndSwap`: what is visible after a write.
* `Cell.generation_lt_next`: the current generation is older than the next one.
-/

namespace EffectFibers

variable {α : Type}

structure Snapshot (α : Type) where
  generation : Nat
  value : α
deriving Inhabited

/-- How a writer passes the time after a lost swap; no result depends on it. -/
inductive ContentionPolicy where
  | spin
  | yield
  | backoff (maxSpins : Nat)
deriving DecidableEq, Inhabited

def ContentionPolicy.describe : ContentionPolicy → String
  | .spin => "Spin"
  | .yield => "Yield"
  | .backoff n => "Backoff \x7b max_spins: " ++ toString n ++ " \x7d"

structure Cell (α : Type) where
  current : Nat
  next : Nat
  arena : List (Nat × α)
  policy : ContentionPolicy
  /-- The current generation is in the arena. -/
  visible : (arena.lookup current).isSome
  current_lt : current < next

namespace Cell

theorem lookup_filter_ne {arena : List (Nat × α)} {g k : Nat} (h : g ≠ k) :
    (arena.filter (·.1 != g)).lookup k = arena.lookup k := by
  induction arena with
  | nil => rfl
  | cons entry rest ih =>
    obtain ⟨i, v⟩ := entry
    by_cases hi : i = g
    · subst hi
      have hk : (k == i) = false := by simp [Ne.symm h]
      simp [List.lookup_cons, hk, ih]
    · by_cases hk : k = i <;> simp [List.lookup_cons, hi, hk, ih]

def new (value : α) (policy : ContentionPolicy) : Cell α where
  current := 0
  next := 1
  arena := [(0, value)]
  policy := policy
  visible := by simp
  current_lt := by decide

instance [Inhabited α] : Inhabited (Cell α) := ⟨new default .spin⟩

def load (c : Cell α) : Snapshot α where
  generation := c.current
  value := (c.arena.lookup c.current).get c.visible

/-- The value that a reader sees. -/
def value (c : Cell α) : α := c.load.value

/-- Puts a candidate into the arena under the next generation; readers do not see it yet. -/
def stage (c : Cell α) (value : α) : Cell α where
  current := c.current
  next := c.next + 1
  arena := (c.next, value) :: c.arena
  policy := c.policy
  visible := by
    have h : (c.current == c.next) = false := by simp [Nat.ne_of_lt c.current_lt]
    simpa [List.lookup_cons, h] using c.visible
  current_lt := Nat.lt_succ_of_lt c.current_lt

/-- Makes a staged generation the current one. -/
def publish (c : Cell α) (generation : Nat) (held : (c.arena.lookup generation).isSome)
    (lt : generation < c.next) : Cell α :=
  { c with current := generation, visible := held, current_lt := lt }

/-- Takes a generation that is not visible out of the arena. -/
def retire (c : Cell α) (generation : Nat) (hidden : generation ≠ c.current) : Cell α :=
  { c with
    arena := c.arena.filter (·.1 != generation)
    visible := by rw [lookup_filter_ne hidden]; exact c.visible }

/-- Makes a value visible under the next generation and retires the one it replaces. -/
def store (c : Cell α) (value : α) : Cell α :=
  ((c.stage value).publish c.next (by simp [stage]) (by simp [stage])).retire c.current
    (Nat.ne_of_lt c.current_lt)

/-- Writes a value and gives the one it replaced. -/
def swap (c : Cell α) (value : α) : α × Cell α := (c.value, c.store value)

/-- Stages a candidate and retires it unseen: a generation is used up and nothing else. -/
def discard (c : Cell α) (value : α) : Cell α :=
  (c.stage value).retire c.next (Nat.ne_of_gt c.current_lt)

/-- Replaces the value if nothing was written since the snapshot; otherwise gives a fresh
snapshot and leaves the value alone. -/
def compareAndSwap (c : Cell α) (expected : Snapshot α) (value : α) :
    Except (Snapshot α) (Snapshot α) × Cell α :=
  if c.current = expected.generation then
    (.ok ⟨c.next, value⟩, c.store value)
  else (.error c.load, c.discard value)

/-! ## Lemmas -/

@[simp] theorem value_new (v : α) (p : ContentionPolicy) : (new v p).value = v := by
  simp [value, load, new]

@[simp] theorem current_store (c : Cell α) (v : α) : (c.store v).current = c.next := rfl

@[simp] theorem load_store (c : Cell α) (v : α) : (c.store v).load = ⟨c.next, v⟩ := by
  have h : c.next ≠ c.current := Nat.ne_of_gt c.current_lt
  simp [load, store, retire, publish, stage, h]

@[simp] theorem value_store (c : Cell α) (v : α) : (c.store v).value = v := by
  simp [value]

@[simp] theorem load_discard (c : Cell α) (v : α) : (c.discard v).load = c.load := by
  have h : (c.current == c.next) = false := by simp [Nat.ne_of_lt c.current_lt]
  have k : c.next ≠ c.current := Nat.ne_of_gt c.current_lt
  simp [load, discard, retire, stage, lookup_filter_ne k]

theorem generation_lt_next (c : Cell α) : c.load.generation < c.next := c.current_lt

theorem load_compareAndSwap (c : Cell α) (s : Snapshot α) (v : α) :
    (c.compareAndSwap s v).2.load
      = if c.current = s.generation then ⟨c.next, v⟩ else c.load := by
  unfold compareAndSwap
  split <;> simp

end Cell

end EffectFibers
