import EffectFibers.Cell.Update
import Mathlib.Data.Multiset.Bind
import Mathlib.Data.Multiset.Range
import Mathlib.Logic.Relation
import Mathlib.Tactic.Abel

/-!
# Many fibers at one cell

Fibers read and write one cell.  An update loads the cell, calls its function, and swaps; the
call may itself carry out works on the same cell, updates among them, and other fibers have their
turns between any two steps.  A fiber is a stack of what it has still to do, so nested updates are
stacked swaps, and `Contest` is the cell with its fibers.

A `Contest` keeps a log of what was done, newest note first.  `Lawful` says which note may follow
which past, and mentions no fiber: an attempt is spoiled exactly if something was written since
its call, and a swap stores what that very call computed from the value then current.  The value
of the cell is the fold of the log.

## Main statements

* `Contest.Sound.step`: every step keeps the log lawful and the attempts tied to it.
* `Contest.Lawful.told`: how often an update has called its function.
* `Contest.Reachable.sound`, `Contest.Sound.updates`: what is so in every contest.
-/

namespace EffectFibers

theorem Cell.compareAndSwap_ok {α : Type} {c c' : Cell α} {s s' : Snapshot α} {v : α}
    (won : c.compareAndSwap s v = (.ok s', c')) :
    c.current = s.generation ∧ c' = c.store v := by
  unfold compareAndSwap at won
  split at won
  · cases won
    exact ⟨‹_›, rfl⟩
  · cases won

theorem Cell.compareAndSwap_error {α : Type} {c c' : Cell α} {s s' : Snapshot α} {v : α}
    (lost : c.compareAndSwap s v = (.error s', c')) :
    c.current ≠ s.generation ∧ c' = c.discard v := by
  unfold compareAndSwap at lost
  split at lost
  · cases lost
  · cases lost
    exact ⟨‹_›, rfl⟩

namespace Contest

variable {α β : Type}

/-- What a fiber may do with the cell. -/
inductive Work (α β : Type) where
  | read
  | write (value : α)
  /-- A write that happens only if nothing was written since a snapshot. -/
  | replace (expected : Snapshot α) (value : α)
  /-- An update by a function that is told which call it serves.  The calls carry out works of
  their own on the cell; after a bound on the attempts, if there is one, the update is given up. -/
  | update (f : Nat → α → Except Fault (α × β)) (plan : List (List (Work α β)))
      (bound : Option Nat)

/-- An update that has begun. -/
structure Update (α β : Type) where
  id : Nat
  f : Nat → α → Except Fault (α × β)
  plan : List (List (Work α β))
  bound : Option Nat

/-- The works of a call. -/
def Update.works (u : Update α β) (k : Nat) : List (Work α β) := u.plan.getD k []

inductive Item (α β : Type) where
  | work (w : Work α β)
  /-- Attempt `k` is to be made. -/
  | attempt (u : Update α β) (k : Nat)
  /-- Call `k` was made on a snapshot; what it computes is to be swapped in. -/
  | swap (u : Update α β) (k : Nat) (seen : Snapshot α)

/-- What a fiber has still to do, next first. -/
abbrev Agenda (α β : Type) := List (Item α β)

/-- A note in the log. -/
inductive Note (α β : Type) where
  | wrote (value : α)
  | called (u : Update α β) (k : Nat) (old : α)
  | spoiled (u : Update α β) (k : Nat)
  | swapped (u : Update α β) (k : Nat) (old new : α) (output : β)
  /-- A call panicked, or a work of the call did. -/
  | failed (u : Update α β) (k : Nat)
  /-- The bound on the attempts was reached. -/
  | lapsed (u : Update α β)

namespace Note

/-- The update that the note is about. -/
def id? : Note α β → Option Nat
  | .wrote _ => none
  | .called u .. | .spoiled u _ | .swapped u .. | .failed u _ | .lapsed u => some u.id

/-- The update that comes to its end with the note. -/
def ended? : Note α β → Option Nat
  | .swapped u .. | .failed u _ | .lapsed u => some u.id
  | .wrote _ | .called .. | .spoiled .. => none

def writes : Note α β → Bool
  | .wrote _ | .swapped .. => true
  | .called .. | .spoiled .. | .failed .. | .lapsed .. => false

def calls : Note α β → Bool
  | .called .. => true
  | _ => false

def spoils : Note α β → Bool
  | .spoiled .. => true
  | _ => false

def swaps : Note α β → Bool
  | .swapped .. => true
  | _ => false

/-- What a write does to the value: a plain one replaces it, an update applies its function. -/
def apply : Note α β → α → α
  | .wrote v, _ => v
  | .swapped u k _ _ _, old =>
    match u.f k old with
    | .ok (new, _) => new
    | .error _ => old
  | .called .., old | .spoiled .., old | .failed .., old | .lapsed .., old => old

end Note

/-- The value after all the writes of a log. -/
def folded (initial : α) (log : List (Note α β)) : α := log.foldr Note.apply initial

/-- The newest note about an update. -/
def latest (id : Nat) (log : List (Note α β)) : Option (Note α β) :=
  log.find? fun n => n.id? == some id

/-- Something was written since the newest note about an update. -/
def Disturbed (id : Nat) (log : List (Note α β)) : Prop :=
  ∃ n ∈ log.takeWhile fun n => n.id? != some id, n.writes = true

/-- Attempt `k` of an update is the next: the one before it was spoiled, and nothing came after. -/
def Due (u : Update α β) (log : List (Note α β)) : Nat → Prop
  | 0 => latest u.id log = none
  | k + 1 => latest u.id log = some (.spoiled u k)

/-- Which note may follow a past. -/
inductive Allowed (initial : α) (past : List (Note α β)) : Note α β → Prop
  | wrote (v : α) : Allowed initial past (.wrote v)
  | called {u : Update α β} {k : Nat} (due : Due u past k) (bound : u.bound ≠ some k) :
      Allowed initial past (.called u k (folded initial past))
  | spoiled {u : Update α β} {k : Nat} {old : α}
      (called : latest u.id past = some (.called u k old)) (disturbed : Disturbed u.id past) :
      Allowed initial past (.spoiled u k)
  | swapped {u : Update α β} {k : Nat} {old new : α} {output : β}
      (called : latest u.id past = some (.called u k old)) (calm : ¬ Disturbed u.id past)
      (current : old = folded initial past) (computed : u.f k old = .ok (new, output)) :
      Allowed initial past (.swapped u k old new output)
  | failed {u : Update α β} {k : Nat} {old : α}
      (called : latest u.id past = some (.called u k old)) :
      Allowed initial past (.failed u k)
  | lapsed {u : Update α β} {k : Nat} (due : Due u past k) (bound : u.bound = some k) :
      Allowed initial past (.lapsed u)

/-- Every note follows what was before it. -/
def Lawful (initial : α) : List (Note α β) → Prop
  | [] => True
  | n :: past => Allowed initial past n ∧ Lawful initial past

end Contest

/-- A cell and the fibers at it. -/
structure Contest (α β : Type) where
  cell : Cell α
  fibers : Multiset (Contest.Agenda α β) := 0
  log : List (Contest.Note α β) := []
  /-- The number of the next update. -/
  next : Nat := 0

namespace Contest

variable {α β : Type}

/-! ## Steps -/

/-- The swaps of an agenda fail one after the other, the innermost first. -/
def failures : Agenda α β → List (Note α β)
  | [] => []
  | .swap u k _ :: rest => failures rest ++ [.failed u k]
  | _ :: rest => failures rest

inductive Step : Contest α β → Contest α β → Prop
  /-- A fiber begins. -/
  | begin (σ : Contest α β) (works : List (Work α β)) :
      Step σ { σ with fibers := works.map .work ::ₘ σ.fibers }
  | read (c : Cell α) (rest : Agenda α β) (others : Multiset (Agenda α β))
      (log : List (Note α β)) (n : Nat) :
      Step ⟨c, (.work .read :: rest) ::ₘ others, log, n⟩ ⟨c, rest ::ₘ others, log, n⟩
  | write (c : Cell α) (v : α) (rest : Agenda α β) (others : Multiset (Agenda α β))
      (log : List (Note α β)) (n : Nat) :
      Step ⟨c, (.work (.write v) :: rest) ::ₘ others, log, n⟩
        ⟨c.store v, rest ::ₘ others, .wrote v :: log, n⟩
  | replaced (c c' : Cell α) (s s' : Snapshot α) (v : α) (rest : Agenda α β)
      (others : Multiset (Agenda α β)) (log : List (Note α β)) (n : Nat)
      (won : c.compareAndSwap s v = (.ok s', c')) :
      Step ⟨c, (.work (.replace s v) :: rest) ::ₘ others, log, n⟩
        ⟨c', rest ::ₘ others, .wrote v :: log, n⟩
  | kept (c c' : Cell α) (s s' : Snapshot α) (v : α) (rest : Agenda α β)
      (others : Multiset (Agenda α β)) (log : List (Note α β)) (n : Nat)
      (lost : c.compareAndSwap s v = (.error s', c')) :
      Step ⟨c, (.work (.replace s v) :: rest) ::ₘ others, log, n⟩ ⟨c', rest ::ₘ others, log, n⟩
  | update (c : Cell α) (f : Nat → α → Except Fault (α × β)) (plan : List (List (Work α β)))
      (bound : Option Nat) (rest : Agenda α β) (others : Multiset (Agenda α β))
      (log : List (Note α β)) (n : Nat) :
      Step ⟨c, (.work (.update f plan bound) :: rest) ::ₘ others, log, n⟩
        ⟨c, (.attempt ⟨n, f, plan, bound⟩ 0 :: rest) ::ₘ others, log, n + 1⟩
  /-- An attempt loads the cell and calls the function. -/
  | call (c : Cell α) (u : Update α β) (k : Nat) (rest : Agenda α β)
      (others : Multiset (Agenda α β)) (log : List (Note α β)) (n : Nat)
      (bound : u.bound ≠ some k) :
      Step ⟨c, (.attempt u k :: rest) ::ₘ others, log, n⟩
        ⟨c, ((u.works k).map .work ++ .swap u k c.load :: rest) ::ₘ others,
          .called u k c.value :: log, n⟩
  | lapse (c : Cell α) (u : Update α β) (k : Nat) (rest : Agenda α β)
      (others : Multiset (Agenda α β)) (log : List (Note α β)) (n : Nat)
      (bound : u.bound = some k) :
      Step ⟨c, (.attempt u k :: rest) ::ₘ others, log, n⟩
        ⟨c, rest ::ₘ others, .lapsed u :: log, n⟩
  | swap (c c' : Cell α) (u : Update α β) (k : Nat) (seen s' : Snapshot α) (new : α) (output : β)
      (rest : Agenda α β) (others : Multiset (Agenda α β)) (log : List (Note α β)) (n : Nat)
      (computed : u.f k seen.value = .ok (new, output))
      (won : c.compareAndSwap seen new = (.ok s', c')) :
      Step ⟨c, (.swap u k seen :: rest) ::ₘ others, log, n⟩
        ⟨c', rest ::ₘ others, .swapped u k seen.value new output :: log, n⟩
  | spoil (c c' : Cell α) (u : Update α β) (k : Nat) (seen s' : Snapshot α) (new : α) (output : β)
      (rest : Agenda α β) (others : Multiset (Agenda α β)) (log : List (Note α β)) (n : Nat)
      (computed : u.f k seen.value = .ok (new, output))
      (lost : c.compareAndSwap seen new = (.error s', c')) :
      Step ⟨c, (.swap u k seen :: rest) ::ₘ others, log, n⟩
        ⟨c', (.attempt u (k + 1) :: rest) ::ₘ others, .spoiled u k :: log, n⟩
  /-- A panic of a function ends its fiber, and all the updates whose calls it is in. -/
  | fail (c : Cell α) (u : Update α β) (k : Nat) (seen : Snapshot α) (x : Fault)
      (rest : Agenda α β) (others : Multiset (Agenda α β)) (log : List (Note α β)) (n : Nat)
      (panics : u.f k seen.value = .error x) :
      Step ⟨c, (.swap u k seen :: rest) ::ₘ others, log, n⟩
        ⟨c, [] ::ₘ others, failures (.swap u k seen :: rest) ++ log, n⟩

abbrev Steps : Contest α β → Contest α β → Prop := Relation.ReflTransGen Step

/-- What comes about at a new cell. -/
def Reachable (initial : α) (policy : ContentionPolicy) (σ : Contest α β) : Prop :=
  Steps { cell := .new initial policy } σ

/-! ## The log -/

variable {initial : α} {log past : List (Note α β)} {n m : Note α β} {id k : Nat}
  {u v : Update α β} {old new : α} {output : β}

theorem latest_cons_self (h : n.id? = some id) : latest id (n :: log) = some n := by
  simp [latest, h]

theorem latest_cons_ne (h : n.id? ≠ some id) : latest id (n :: log) = latest id log := by
  simp [latest, h]

theorem disturbed_cons_self (h : n.id? = some id) : ¬ Disturbed id (n :: log) := by
  simp [Disturbed, h]

theorem disturbed_cons_ne (h : n.id? ≠ some id) :
    Disturbed id (n :: log) ↔ n.writes = true ∨ Disturbed id log := by
  simp [Disturbed, h]

theorem latest_eq_none (h : ∀ n ∈ log, n.id? ≠ some id) : latest id log = none := by
  simpa [latest] using h

@[simp] theorem folded_cons : folded initial (n :: log) = n.apply (folded initial log) := rfl

/-- How often an update has called its function, was spoiled, and was swapped in. -/
structure Tally (id : Nat) (log : List (Note α β)) (calls spoils swaps : Nat) : Prop where
  calls : log.countP (fun n => n.id? == some id && n.calls) = calls
  spoils : log.countP (fun n => n.id? == some id && n.spoils) = spoils
  swaps : log.countP (fun n => n.id? == some id && n.swaps) = swaps

theorem tally_cons_ne {a b c : Nat} (h : n.id? ≠ some id) :
    Tally id (n :: log) a b c ↔ Tally id log a b c := by
  have same (p : Note α β → Bool) :
      (n :: log).countP (fun n => n.id? == some id && p n)
        = log.countP fun n => n.id? == some id && p n :=
    List.countP_cons_of_neg (by simp [h])
  constructor
  · rintro ⟨calls, spoils, swaps⟩
    exact ⟨same Note.calls ▸ calls, same Note.spoils ▸ spoils, same Note.swaps ▸ swaps⟩
  · rintro ⟨calls, spoils, swaps⟩
    exact ⟨same Note.calls ▸ calls, same Note.spoils ▸ spoils, same Note.swaps ▸ swaps⟩

theorem Tally.cons {a b c : Nat} (h : n.id? = some id) (tally : Tally id log a b c) :
    Tally id (n :: log) (a + n.calls.toNat) (b + n.spoils.toNat) (c + n.swaps.toNat) := by
  have counts (p : Note α β → Bool) :
      (n :: log).countP (fun n => n.id? == some id && p n)
        = log.countP (fun n => n.id? == some id && p n) + (p n).toNat := by
    cases w : p n <;> simp [h, w]
  obtain ⟨calls, spoils, swaps⟩ := tally
  exact ⟨by rw [counts, calls], by rw [counts, spoils], by rw [counts, swaps]⟩

/-- What the newest note about an update says of its calls so far: one, and one more for each
spoiled attempt. -/
def Told (id : Nat) (log : List (Note α β)) : Option (Note α β) → Prop
  | none => Tally id log 0 0 0
  | some (.wrote _) => False
  | some (.called _ k _) | some (.failed _ k) => Tally id log (k + 1) k 0
  | some (.spoiled _ k) => Tally id log (k + 1) (k + 1) 0
  | some (.swapped _ k _ _ _) => Tally id log (k + 1) k 1
  | some (.lapsed u) => ∃ k, u.bound = some k ∧ Tally id log k k 0

theorem told_cons_ne (h : n.id? ≠ some id) {x : Option (Note α β)} :
    Told id (n :: log) x ↔ Told id log x := by
  rcases x with _ | _ | _ | _ | _ | _ | _ <;> simp only [Told, tally_cons_ne h]

theorem Due.tally (due : Due u log k) (told : Told u.id log (latest u.id log)) :
    Tally u.id log k k 0 := by
  cases k with
  | zero => rwa [show latest u.id log = none from due] at told
  | succ k => rwa [show latest u.id log = some (.spoiled u k) from due] at told

theorem Lawful.told (h : Lawful initial log) (id : Nat) : Told id log (latest id log) := by
  induction log with
  | nil => exact ⟨rfl, rfl, rfl⟩
  | cons n past ih =>
    obtain ⟨allowed, lawful⟩ := h
    have told := ih lawful
    by_cases about : n.id? = some id
    · rw [latest_cons_self about]
      cases allowed with
      | wrote => cases about
      | called due bound =>
        obtain rfl := Option.some.inj about
        exact (due.tally told).cons rfl
      | lapsed due bound =>
        obtain rfl := Option.some.inj about
        exact ⟨_, bound, (due.tally told).cons rfl⟩
      | spoiled called | swapped called | failed called =>
        obtain rfl := Option.some.inj about
        rw [called] at told
        exact Tally.cons rfl told
    · rw [latest_cons_ne about, told_cons_ne about]
      exact told

/-! ## Fibers and the log -/

/-- The update that an item belongs to. -/
def Item.id? : Item α β → Option Nat
  | .work _ => none
  | .attempt u _ | .swap u .. => some u.id

/-- What an item takes to be so. -/
def Item.Fits (c : Cell α) (log : List (Note α β)) : Item α β → Prop
  | .work _ => True
  | .attempt u k => Due u log k
  | .swap u k seen =>
    latest u.id log = some (.called u k seen.value) ∧
      if c.current = seen.generation then ¬ Disturbed u.id log ∧ seen.value = c.value
      else Disturbed u.id log ∧ seen.generation < c.current

/-- The cell after a note of another one. -/
structure Goes (n : Note α β) (c c' : Cell α) : Prop where
  writes : n.writes = true → c.current < c'.current
  reads : n.writes = false → c'.load = c.load

theorem Item.Fits.cons {x : Item α β} {c c' : Cell α} (fits : x.Fits c log) (goes : Goes n c c')
    (other : ∀ id, x.id? = some id → n.id? ≠ some id) : x.Fits c' (n :: log) := by
  cases x with
  | work => trivial
  | attempt u k =>
    have same : latest u.id (n :: log) = latest u.id log := latest_cons_ne (other _ rfl)
    cases k <;> exact same.trans fits
  | swap u k seen =>
    have apart := other _ rfl
    obtain ⟨called, now⟩ := fits
    refine ⟨(latest_cons_ne apart).trans called, ?_⟩
    rw [disturbed_cons_ne apart]
    cases w : n.writes with
    | true =>
      have later := goes.writes w
      rw [if_neg (by split at now <;> omega)]
      exact ⟨.inl rfl, by split at now <;> omega⟩
    | false =>
      have load := goes.reads w
      have current : c'.current = c.current := congrArg Snapshot.generation load
      have value : c'.value = c.value := congrArg Snapshot.value load
      simpa [current, value] using now

theorem Item.Fits.of_load {x : Item α β} {c c' : Cell α} (fits : x.Fits c log)
    (load : c'.load = c.load) : x.Fits c' log := by
  have current : c'.current = c.current := congrArg Snapshot.generation load
  have value : c'.value = c.value := congrArg Snapshot.value load
  cases x with
  | work => trivial
  | attempt => exact fits
  | swap => simpa [Item.Fits, current, value] using fits

/-- The item is an attempt that is still to be made. -/
def Item.pending : Item α β → Bool
  | .attempt .. => true
  | .work _ | .swap .. => false

/-- The updates that an agenda is in the midst of. -/
def ids (a : Agenda α β) : Multiset Nat := a.filterMap Item.id?

@[simp] theorem ids_nil : ids ([] : Agenda α β) = 0 := rfl

theorem ids_cons (x : Item α β) (a : Agenda α β) :
    ids (x :: a) = (x.id?.toList : Multiset Nat) + ids a := by
  cases h : x.id? <;> simp [ids, h]

theorem ids_append (a b : Agenda α β) : ids (a ++ b) = ids a + ids b := by
  simp [ids, List.filterMap_append]

@[simp] theorem ids_works (works : List (Work α β)) :
    ids (works.map Item.work) = (0 : Multiset Nat) := by
  simp [ids, List.filterMap_map, Function.comp_def, Item.id?]

theorem mem_ids {x : Item α β} {a : Agenda α β} (mem : x ∈ a) (h : x.id? = some id) :
    id ∈ ids a :=
  Multiset.mem_coe.mpr (List.mem_filterMap.mpr ⟨x, mem, h⟩)

/-- The updates that fibers are in the midst of. -/
def under (fibers : Multiset (Agenda α β)) : Multiset Nat := fibers.bind ids

/-- The updates that came to their end. -/
def closed (log : List (Note α β)) : Multiset Nat := log.filterMap Note.ended?

@[simp] theorem under_cons (a : Agenda α β) (others : Multiset (Agenda α β)) :
    under (a ::ₘ others) = ids a + under others := Multiset.cons_bind ..

theorem closed_cons (n : Note α β) (log : List (Note α β)) :
    closed (n :: log) = (n.ended?.toList : Multiset Nat) + closed log := by
  cases h : n.ended? <;> simp [closed, h]

/-- What is so of a contest at any time. -/
structure Sound (initial : α) (σ : Contest α β) : Prop where
  lawful : Lawful initial σ.log
  value : σ.cell.value = folded initial σ.log
  fits : ∀ a ∈ σ.fibers, ∀ x ∈ a, x.Fits σ.cell σ.log
  /-- Only the first item may be an attempt to be made. -/
  headed : ∀ a ∈ σ.fibers, ∀ x ∈ a.tail, x.pending = false
  numbered : ∀ m ∈ σ.log, ∀ id, m.id? = some id → id < σ.next
  /-- Each update that has begun is under way in one place or came to its end once. -/
  census : under σ.fibers + closed σ.log = Multiset.range σ.next

namespace Sound

variable {c c' : Cell α} {a rest : Agenda α β} {others : Multiset (Agenda α β)}
  {x : Item α β} {next : Nat}

theorem lt_next (sound : Sound initial ⟨c, a ::ₘ others, log, next⟩) (mem : id ∈ ids a) :
    id < next := by
  have mem : id ∈ under (a ::ₘ others) + closed log := by simp [mem]
  rw [sound.census] at mem
  exact Multiset.mem_range.mp mem

/-- The update of one item is not the update of another. -/
theorem apart (sound : Sound initial ⟨c, (x :: rest) ::ₘ others, log, next⟩) {y : Item α β}
    (mem : y ∈ rest ∨ ∃ b ∈ others, y ∈ b) (hx : x.id? = some id) : y.id? ≠ some id := by
  intro hy
  have once : (ids (x :: rest) + under others + closed log).Nodup := by
    rw [← under_cons, sound.census]
    exact Multiset.nodup_range next
  rw [ids_cons, hx, add_assoc, add_assoc] at once
  refine Multiset.disjoint_left.mp (Multiset.nodup_add.mp once).2.2
    (Multiset.mem_coe.mpr (List.mem_singleton_self id)) ?_
  obtain mem | ⟨b, hb, mem⟩ := mem
  · exact Multiset.mem_add.mpr (.inl (mem_ids mem hy))
  · exact Multiset.mem_add.mpr (.inr (Multiset.mem_add.mpr
      (.inl (Multiset.mem_bind.mpr ⟨b, hb, mem_ids mem hy⟩))))

/-- The first item is done with a note, and items of its own update come in its place. -/
theorem note (mine : Agenda α β) (sound : Sound initial ⟨c, (x :: rest) ::ₘ others, log, next⟩)
    (allowed : Allowed initial log n) (about : n.id? = x.id?) (goes : Goes n c c')
    (value : c'.value = n.apply c.value) (fits : ∀ y ∈ mine, y.Fits c' (n :: log))
    (headed : ∀ y ∈ mine.tail, y.pending = false)
    (census : ids mine + n.ended?.toList = x.id?.toList) :
    Sound initial ⟨c', (mine ++ rest) ::ₘ others, n :: log, next⟩ := by
  have kept {y : Item α β} (mem : y ∈ rest ∨ ∃ b ∈ others, y ∈ b) (h : y.Fits c log) :
      y.Fits c' (n :: log) :=
    h.cons goes fun id hy hn => sound.apart mem (about.symm.trans hn) hy
  refine ⟨⟨allowed, sound.lawful⟩, ?_, ?_, ?_, ?_, ?_⟩
  · rw [folded_cons, ← sound.value]
    exact value
  · intro b hb y hy
    obtain rfl | hb := Multiset.mem_cons.mp hb
    · obtain hy | hy := List.mem_append.mp hy
      · exact fits y hy
      · exact kept (.inl hy) (sound.fits _ (Multiset.mem_cons_self ..) y (.tail _ hy))
    · exact kept (.inr ⟨b, hb, hy⟩) (sound.fits b (Multiset.mem_cons_of_mem hb) y hy)
  · intro b hb y hy
    obtain rfl | hb := Multiset.mem_cons.mp hb
    · have before := sound.headed _ (Multiset.mem_cons_self ..)
      cases mine with
      | nil => exact before y (List.mem_of_mem_tail hy)
      | cons z mine =>
        obtain hy | hy := List.mem_append.mp hy
        · exact headed y hy
        · exact before y hy
    · exact sound.headed b (Multiset.mem_cons_of_mem hb) y hy
  · intro m hm id h
    obtain _ | ⟨_, hm⟩ := hm
    · have mem : id ∈ ids (x :: rest) := mem_ids (List.mem_cons_self ..) (about.symm.trans h)
      exact sound.lt_next mem
    · exact sound.numbered m hm id h
  · have before := sound.census
    rw [under_cons, ids_cons, ← census] at before
    rw [under_cons, ids_append, closed_cons, ← before]
    abel

/-- The first item is done and leaves no trace. -/
theorem drop (sound : Sound initial ⟨c, (x :: rest) ::ₘ others, log, next⟩)
    (loose : x.id? = none) (load : c'.load = c.load) :
    Sound initial ⟨c', rest ::ₘ others, log, next⟩ := by
  refine ⟨sound.lawful, (congrArg Snapshot.value load).trans sound.value, ?_, ?_,
    sound.numbered, ?_⟩
  · intro b hb y hy
    obtain rfl | hb := Multiset.mem_cons.mp hb
    · exact (sound.fits _ (Multiset.mem_cons_self ..) y (.tail _ hy)).of_load load
    · exact (sound.fits b (Multiset.mem_cons_of_mem hb) y hy).of_load load
  · intro b hb y hy
    obtain rfl | hb := Multiset.mem_cons.mp hb
    · exact sound.headed _ (Multiset.mem_cons_self ..) y (List.mem_of_mem_tail hy)
    · exact sound.headed b (Multiset.mem_cons_of_mem hb) y hy
  · simpa [ids_cons, loose] using sound.census

theorem failures (sound : Sound initial ⟨c, a ::ₘ others, log, next⟩)
    (calm : ∀ x ∈ a, x.pending = false) :
    Sound initial ⟨c, [] ::ₘ others, failures a ++ log, next⟩ := by
  induction a generalizing log with
  | nil => exact sound
  | cons x rest ih =>
    have calm' : ∀ y ∈ rest, y.pending = false := fun y hy => calm y (.tail _ hy)
    cases x with
    | work w => exact ih (sound.drop rfl rfl) calm'
    | attempt => cases calm _ (List.mem_cons_self ..)
    | swap u k seen =>
      have called := (sound.fits _ (Multiset.mem_cons_self ..) _ (List.mem_cons_self ..)).1
      have after := sound.note [] (.failed called) rfl ⟨nofun, fun _ => rfl⟩ rfl
        nofun nofun rfl
      have done := ih after calm'
      rwa [Contest.failures, List.append_assoc]

/-- An update gets a number of its own. -/
theorem update (f : Nat → α → Except Fault (α × β)) (plan : List (List (Work α β)))
    (bound : Option Nat)
    (sound : Sound initial ⟨c, (.work (.update f plan bound) :: rest) ::ₘ others, log, next⟩) :
    Sound initial
      ⟨c, (.attempt ⟨next, f, plan, bound⟩ 0 :: rest) ::ₘ others, log, next + 1⟩ := by
  refine ⟨sound.lawful, sound.value, ?_, ?_, ?_, ?_⟩
  · intro b hb y hy
    obtain rfl | hb := Multiset.mem_cons.mp hb
    · obtain _ | ⟨_, hy⟩ := hy
      · exact latest_eq_none fun m hm h => Nat.lt_irrefl next (sound.numbered m hm next h)
      · exact sound.fits _ (Multiset.mem_cons_self ..) y (.tail _ hy)
    · exact sound.fits b (Multiset.mem_cons_of_mem hb) y hy
  · intro b hb y hy
    obtain rfl | hb := Multiset.mem_cons.mp hb
    · exact sound.headed _ (Multiset.mem_cons_self ..) y hy
    · exact sound.headed b (Multiset.mem_cons_of_mem hb) y hy
  · intro m hm id h
    exact Nat.lt_succ_of_lt (sound.numbered m hm id h)
  · have before := sound.census
    rw [Multiset.range_succ, ← before, under_cons, under_cons, ids_cons, ids_cons]
    simp [Item.id?]

theorem step {σ σ' : Contest α β} (sound : Sound initial σ) (step : Step σ σ') :
    Sound initial σ' := by
  cases step with
  | begin works =>
    refine ⟨sound.lawful, sound.value, ?_, ?_, sound.numbered, ?_⟩
    · intro b hb y hy
      obtain rfl | hb := Multiset.mem_cons.mp hb
      · obtain ⟨w, -, rfl⟩ := List.mem_map.mp hy
        trivial
      · exact sound.fits b hb y hy
    · intro b hb y hy
      obtain rfl | hb := Multiset.mem_cons.mp hb
      · obtain ⟨w, -, rfl⟩ := List.mem_map.mp (List.mem_of_mem_tail hy)
        rfl
      · exact sound.headed b hb y hy
    · simpa using sound.census
  | read => exact sound.drop rfl rfl
  | write c v =>
    refine sound.note [] (.wrote v) rfl ⟨fun _ => c.current_lt, nofun⟩ ?_
      nofun nofun rfl
    exact c.value_store v
  | replaced c c' s s' v rest others log n won =>
    obtain ⟨-, rfl⟩ := Cell.compareAndSwap_ok won
    refine sound.note [] (.wrote v) rfl ⟨fun _ => c.current_lt, nofun⟩ ?_
      nofun nofun rfl
    exact c.value_store v
  | kept c c' s s' v rest others log n lost =>
    obtain ⟨-, rfl⟩ := Cell.compareAndSwap_error lost
    exact sound.drop rfl (c.load_discard v)
  | update c f plan bound rest others log n => exact sound.update f plan bound
  | call c u k rest others log n bound =>
    have due : Due u log k := sound.fits _ (Multiset.mem_cons_self ..) _ (List.mem_cons_self ..)
    have called : Sound initial
        ⟨c, ((u.works k).map .work ++ [.swap u k c.load] ++ rest) ::ₘ others,
          .called u k (folded initial log) :: log, n⟩ := by
      refine sound.note _ (.called due bound) rfl ⟨nofun, fun _ => rfl⟩ rfl ?_ ?_ ?_
      · intro y hy
        obtain hy | hy := List.mem_append.mp hy
        · obtain ⟨w, -, rfl⟩ := List.mem_map.mp hy
          trivial
        · obtain rfl := List.mem_singleton.mp hy
          refine ⟨?_, ?_⟩
          · rw [latest_cons_self rfl, ← sound.value]
            rfl
          · rw [if_pos (show c.current = c.load.generation from rfl)]
            exact ⟨disturbed_cons_self rfl, rfl⟩
      · intro y hy
        obtain hy | hy := List.mem_append.mp (List.mem_of_mem_tail hy)
        · obtain ⟨w, -, rfl⟩ := List.mem_map.mp hy
          rfl
        · obtain rfl := List.mem_singleton.mp hy
          rfl
      · simp [ids_append, ids_cons, Note.ended?, Item.id?]
    rw [← sound.value, List.append_assoc] at called
    exact called
  | lapse c u k rest others log n bound =>
    have due : Due u log k := sound.fits _ (Multiset.mem_cons_self ..) _ (List.mem_cons_self ..)
    exact sound.note [] (.lapsed due bound) rfl ⟨nofun, fun _ => rfl⟩ rfl
      nofun nofun rfl
  | swap c c' u k seen s' new output rest others log n computed won =>
    obtain ⟨same, rfl⟩ := Cell.compareAndSwap_ok won
    obtain ⟨called, now⟩ := sound.fits _ (Multiset.mem_cons_self ..) _ (List.mem_cons_self ..)
    rw [if_pos same] at now
    refine sound.note [] (.swapped called now.1 ?_ computed) rfl
      ⟨fun _ => c.current_lt, nofun⟩ ?_ nofun nofun rfl
    · exact now.2.trans sound.value
    · show (c.store new).value = _
      rw [Cell.value_store, Note.apply, ← now.2, computed]
  | spoil c c' u k seen s' new output rest others log n computed lost =>
    obtain ⟨newer, rfl⟩ := Cell.compareAndSwap_error lost
    obtain ⟨called, now⟩ := sound.fits _ (Multiset.mem_cons_self ..) _ (List.mem_cons_self ..)
    rw [if_neg newer] at now
    refine sound.note [.attempt u (k + 1)] (.spoiled called now.1) rfl
      ⟨nofun, fun _ => c.load_discard new⟩ ?_ ?_ nofun rfl
    · exact congrArg Snapshot.value (c.load_discard new)
    · intro y hy
      obtain rfl := List.mem_singleton.mp hy
      exact latest_cons_self rfl
  | fail c u k seen x rest others log n panics =>
    refine sound.failures fun y hy => ?_
    obtain _ | ⟨_, hy⟩ := hy
    · rfl
    · exact sound.headed _ (Multiset.mem_cons_self ..) y hy

end Sound

theorem Reachable.sound {policy : ContentionPolicy} {σ : Contest α β}
    (h : Reachable initial policy σ) : Sound initial σ := by
  induction h with
  | refl => exact ⟨trivial, Cell.value_new .., nofun, nofun, nofun, rfl⟩
  | tail _ step ih => exact ih.step step

/-! ## The law of updates -/

/-- Call `k` of the update is its newest note, and `between` is what came after. -/
def Since (past between : List (Note α β)) (u : Update α β) (k : Nat) (old : α) : Prop :=
  ∃ before, past = between ++ .called u k old :: before ∧ ∀ m ∈ between, m.id? ≠ some u.id

theorem since_of_latest (h : latest u.id log = some (.called u k old)) :
    ∃ between, Since log between u k old ∧
      (Disturbed u.id log ↔ ∃ m ∈ between, m.writes = true) := by
  obtain ⟨-, between, before, rfl, apart⟩ := List.find?_eq_some_iff_append.mp h
  have apart : ∀ m ∈ between, m.id? ≠ some u.id := by simpa using apart
  refine ⟨between, ⟨before, rfl, apart⟩, ?_⟩
  have cut : (between ++ .called u k old :: before).takeWhile (fun n => n.id? != some u.id)
      = between := by
    rw [List.takeWhile_append_of_pos (by simpa using apart)]
    simp [Note.id?]
  rw [Disturbed, cut]

theorem Lawful.of_append {newer : List (Note α β)} (h : Lawful initial (newer ++ log)) :
    Lawful initial log := by
  induction newer with
  | nil => exact h
  | cons n newer ih => exact ih h.2

/-- Nothing is noted about an update after its end. -/
theorem Lawful.latest_of_ended {newer : List (Note α β)}
    (h : Lawful initial (newer ++ n :: past)) (ended : n.ended? = some id) :
    latest id (newer ++ n :: past) = some n := by
  induction newer with
  | nil =>
    refine latest_cons_self ?_
    cases n with
    | wrote | called | spoiled => cases ended
    | swapped | failed | lapsed => exact ended
  | cons m newer ih =>
    obtain ⟨allowed, lawful⟩ := h
    have last := ih lawful
    rw [List.cons_append, latest_cons_ne, last]
    intro about
    cases allowed with
    | wrote => cases about
    | @called u k due | @lapsed u k due =>
      obtain rfl := Option.some.inj about
      cases k with
      | zero => cases last.symm.trans due
      | succ =>
        cases last.symm.trans due
        cases ended
    | spoiled called | swapped called | failed called =>
      obtain rfl := Option.some.inj about
      cases last.symm.trans called
      cases ended

/-- The note on the end of an update says what its calls were, at any later time. -/
theorem Lawful.told_of_ended {newer : List (Note α β)}
    (h : Lawful initial (newer ++ n :: past)) (ended : n.ended? = some id) :
    Told id (newer ++ n :: past) (some n) := by
  have told := h.told id
  rwa [h.latest_of_ended ended] at told

/-- What updates promise. -/
structure Law (initial : α) (σ : Contest α β) : Prop where
  /-- The value of the cell is the fold of the writes and of the functions swapped in. -/
  value : σ.cell.value = folded initial σ.log
  /-- A function is called on the value of the cell, once more for each spoiled attempt. -/
  called : ∀ {newer past u k old}, σ.log = newer ++ .called u k old :: past →
    old = folded initial past ∧ Tally u.id past k k 0 ∧ u.bound ≠ some k
  /-- An attempt is spoiled if something was written since its call.  It writes nothing. -/
  spoiled : ∀ {newer past u k}, σ.log = newer ++ .spoiled u k :: past →
    (∃ old between, Since past between u k old ∧ ∃ m ∈ between, m.writes = true) ∧
      folded initial (.spoiled u k :: past) = folded initial past
  /-- What is stored and given comes from one call, on the value that it replaces. -/
  swapped : ∀ {newer past u k old new output},
    σ.log = newer ++ .swapped u k old new output :: past →
    (∃ between, Since past between u k old ∧ ∀ m ∈ between, m.writes = false) ∧
      old = folded initial past ∧ u.f k old = .ok (new, output) ∧
      folded initial (.swapped u k old new output :: past) = new ∧ Tally u.id σ.log (k + 1) k 1
  /-- A panic writes nothing. -/
  failed : ∀ {newer past u k}, σ.log = newer ++ .failed u k :: past →
    folded initial (.failed u k :: past) = folded initial past ∧ Tally u.id σ.log (k + 1) k 0
  lapsed : ∀ {newer past u}, σ.log = newer ++ .lapsed u :: past →
    ∃ k, u.bound = some k ∧ Tally u.id σ.log k k 0
  /-- Each update that has begun is under way in one place or came to its end once. -/
  census : under σ.fibers + closed σ.log = Multiset.range σ.next

theorem Sound.updates {σ : Contest α β} (sound : Sound initial σ) : Law initial σ := by
  obtain ⟨c, fibers, log, next⟩ := σ
  have lawful := sound.lawful
  refine ⟨sound.value, ?_, ?_, ?_, ?_, ?_, sound.census⟩
  · rintro newer past u k old rfl
    obtain ⟨_ | ⟨due, bound⟩, before⟩ := lawful.of_append
    exact ⟨rfl, due.tally (before.told u.id), bound⟩
  · rintro newer past u k rfl
    obtain ⟨_ | _ | ⟨called, disturbed⟩, -⟩ := lawful.of_append
    obtain ⟨between, since, written⟩ := since_of_latest called
    exact ⟨⟨_, between, since, written.mp disturbed⟩, rfl⟩
  · rintro newer past u k old new output rfl
    obtain ⟨_ | _ | _ | ⟨called, calm, current, computed⟩, -⟩ := lawful.of_append
    obtain ⟨between, since, written⟩ := since_of_latest called
    refine ⟨⟨between, since, fun m hm => ?_⟩, current, computed, ?_, lawful.told_of_ended rfl⟩
    · exact Bool.eq_false_iff.mpr fun writes => calm (written.mpr ⟨m, hm, writes⟩)
    · rw [folded_cons, Note.apply, ← current, computed]
  · rintro newer past u k rfl
    exact ⟨rfl, lawful.told_of_ended rfl⟩
  · rintro newer past u rfl
    exact lawful.told_of_ended (n := .lapsed u) rfl

end Contest

end EffectFibers
