import EffectFibers.Proofs.CellActions
import EffectFibers.Proofs.CellProcedures

/-!
# The attempts of an update

An update calls its function once for each attempt, and the calls may do anything to the cell.  An
attempt that fails uses up a generation and nothing else.  So the calls see and do what they would
if there was no update and they were carried out alone, up to the numbers of the generations
(`Bench.Alike`), and an attempt is lost exactly if its call, carried out alone, writes something.

## Main statements

* `Procedure.run_alike`: a procedure cannot tell benches apart that differ in such numbers only.
* `Attempts.after_lost`: the state after a number of attempts that were lost.
* `Attempts.bounded`: how an update with a bound ends, and how often it calls its function.
-/

namespace EffectFibers

open Cell (Change Course Calm)

variable {α β σ : Type}

/-! ## Benches that look the same -/

namespace Bench

/-- What a snapshot still tells: its value, and whether that is the visible one. -/
def views (b : Bench α) : List (α × Bool) :=
  b.taken.map fun s => (s.value, b.cell.current == s.generation)

/-- Snapshots are older than what is going to be staged. -/
def Known (b : Bench α) : Prop := ∀ s ∈ b.taken, s.generation < b.cell.next

/-- Two benches differ in the numbers of generations only. -/
structure Alike (b b' : Bench α) : Prop where
  value : b.cell.value = b'.cell.value
  views : b.views = b'.views
  known : b.Known
  known' : b'.Known

variable {b b' d d' e e' : Bench α} {v : α}

theorem Known.store (h : b.Known) (v : α) : Known { b with cell := b.cell.store v } :=
  fun s hs => Nat.lt_succ_of_lt (h s hs)

theorem Known.discard (h : b.Known) (v : α) : Known { b with cell := b.cell.discard v } :=
  fun s hs => Nat.lt_succ_of_lt (h s hs)

theorem Known.keep (h : b.Known) : Known (b.keep b.cell.load) := by
  intro s hs
  obtain hs | hs := List.mem_append.mp hs
  · exact h s hs
  · rw [List.mem_singleton.mp hs]
    exact b.cell.current_lt

/-- After a write all the snapshots are stale. -/
theorem views_store (h : b.Known) (v : α) :
    views { b with cell := b.cell.store v } = b.views.map fun view => (view.1, false) := by
  simp only [views, List.map_map]
  refine List.map_congr_left fun s hs => ?_
  have newer : b.cell.next ≠ s.generation := Nat.ne_of_gt (h s hs)
  simp [newer]

theorem views_keep (b : Bench α) :
    views (b.keep b.cell.load) = b.views ++ [(b.cell.value, true)] := by
  have fresh : (b.cell.current == b.cell.load.generation) = true := beq_self_eq_true _
  simp only [views, keep, List.map_append, List.map_singleton, fresh]
  rfl

namespace Alike

theorem refl (h : b.Known) : Alike b b := ⟨rfl, rfl, h, h⟩

theorem store (h : Alike b b') (v : α) :
    Alike { b with cell := b.cell.store v } { b' with cell := b'.cell.store v } := by
  refine ⟨?_, ?_, h.known.store v, h.known'.store v⟩
  · rw [Cell.value_store, Cell.value_store]
  · rw [views_store h.known, views_store h.known', h.views]

theorem discard (h : Alike b b') (v : α) :
    Alike { b with cell := b.cell.discard v } { b' with cell := b'.cell.discard v } := by
  refine ⟨?_, h.views, h.known.discard v, h.known'.discard v⟩
  rw [Cell.value, Cell.value, Cell.load_discard, Cell.load_discard]
  exact h.value

/-- A candidate that was retired leaves no trace but a number. -/
theorem discard_right (h : Alike b b') (v : α) :
    Alike b { b' with cell := b'.cell.discard v } := by
  refine ⟨?_, h.views, h.known, h.known'.discard v⟩
  rw [h.value, Cell.value, Cell.value, Cell.load_discard]

theorem keep (h : Alike b b') : Alike (b.keep b.cell.load) (b'.keep b'.cell.load) := by
  refine ⟨h.value, ?_, h.known.keep, h.known'.keep⟩
  rw [views_keep, views_keep, h.views, h.value]

theorem length (h : Alike b b') : b.taken.length = b'.taken.length := by
  have same := congrArg List.length h.views
  rwa [Bench.views, Bench.views, List.length_map, List.length_map] at same

/-- The same place has the same snapshot, as far as one can tell. -/
theorem lookup (h : Alike b b') (i : Nat) :
    (b.taken[i]? = none ∧ b'.taken[i]? = none) ∨
    ∃ s s', b.taken[i]? = some s ∧ b'.taken[i]? = some s' ∧
      (b.cell.current = s.generation ↔ b'.cell.current = s'.generation) := by
  have same := congrArg (·[i]?) h.views
  simp only [Bench.views, List.getElem?_map] at same
  rcases here : b.taken[i]? with _ | s <;> rcases there : b'.taken[i]? with _ | s' <;>
    rw [here, there] at same
  · exact .inl ⟨rfl, rfl⟩
  · cases same
  · cases same
  · refine .inr ⟨s, s', rfl, rfl, ?_⟩
    have current := congrArg Prod.snd (Option.some.inj same)
    simpa using Bool.eq_iff_iff.mp current

end Alike

/-- Two courses side by side: the writes are the same, and so are the benches they lead to. -/
structure Abreast (b b' d d' : Bench α) : Prop where
  alike : Alike d d'
  writes : ∃ changes changes', Course b.cell changes d.cell ∧ Course b'.cell changes' d'.cell ∧
    Cell.writes changes = Cell.writes changes'

namespace Abreast

theorem refl (h : Alike b b') : Abreast b b' b b' := ⟨h, [], [], .start, .start, rfl⟩

theorem trans (h : Abreast b b' d d') (h' : Abreast d d' e e') : Abreast b b' e e' := by
  obtain ⟨past, past', course, course', same⟩ := h.writes
  obtain ⟨newer, newer', later, later', same'⟩ := h'.writes
  refine ⟨h'.alike, newer ++ past, newer' ++ past', course.trans later, course'.trans later', ?_⟩
  rw [Cell.writes_append, Cell.writes_append, same, same']

theorem store (h : Alike b b') (v : α) :
    Abreast b b' { b with cell := b.cell.store v } { b' with cell := b'.cell.store v } := by
  refine ⟨h.store v, _, _, .wrote .start v, .wrote .start v, ?_⟩
  rw [h.value]

theorem discard (h : Alike b b') (v : α) :
    Abreast b b' { b with cell := b.cell.discard v } { b' with cell := b'.cell.discard v } :=
  ⟨h.discard v, _, _, .missed .start v, .missed .start v, rfl⟩

theorem discard_right (h : Alike b b') (v : α) :
    Abreast b b' b { b' with cell := b'.cell.discard v } :=
  ⟨h.discard_right v, [], _, .start, .missed .start v, rfl⟩

theorem keep (h : Abreast b b' d d') :
    Abreast b b' (d.keep d.cell.load) (d'.keep d'.cell.load) := ⟨h.alike.keep, h.writes⟩

/-- Either both visible generations are what they were or none is. -/
theorem current_iff (h : Abreast b b' d d') :
    d.cell.current = b.cell.current ↔ d'.cell.current = b'.cell.current := by
  obtain ⟨changes, changes', course, course', same⟩ := h.writes
  rw [course.current_eq_iff, course'.current_eq_iff, Cell.calm_iff_writes, same,
    ← Cell.calm_iff_writes]

end Abreast

end Bench

open Bench (Alike Abreast Known)

/-- Two runs give the same and go side by side. -/
def Agree {γ : Type} (b b' : Bench α) (x y : γ × Bench α) : Prop :=
  ∃ result d d', x = (result, d) ∧ y = (result, d') ∧ Abreast b b' d d'

theorem Agree.after {γ : Type} {b b' d d' : Bench α} {x y : γ × Bench α} (h : Agree d d' x y)
    (before : Abreast b b' d d') : Agree b b' x y := by
  obtain ⟨result, e, e', run, run', abreast⟩ := h
  exact ⟨result, e, e', run, run', before.trans abreast⟩

namespace Cell

theorem attempt_agree {f : α → Bench α → Except Fault (α × β) × Bench α} {b b' : Bench α}
    (alike : Alike b b')
    (call : ∀ old {b b'}, Alike b b' → Agree b b' (f old b) (f old b')) :
    Agree b b' (attempt Bench.place f b) (attempt Bench.place f b') := by
  have value : b'.cell.load.value = b.cell.load.value := alike.value.symm
  obtain ⟨result, d, d', run, run', abreast⟩ := call b.cell.load.value alike
  simp only [attempt, Bench.place, value, run, run']
  rcases result with x | ⟨new, output⟩
  · exact ⟨_, d, d', rfl, rfl, abreast⟩
  · -- The swaps succeed or fail together.
    have together := abreast.current_iff
    simp only [compareAndSwap_eq]
    by_cases same : d.cell.current = b.cell.current
    · have current : d.cell.current = b.cell.load.generation := same
      have current' : d'.cell.current = b'.cell.load.generation := together.mp same
      rw [if_pos current, if_pos current']
      exact ⟨_, _, _, rfl, rfl, abreast.trans (.store abreast.alike new)⟩
    · have stale : d.cell.current ≠ b.cell.load.generation := same
      have stale' : d'.cell.current ≠ b'.cell.load.generation := mt together.mpr same
      rw [if_neg stale, if_neg stale']
      exact ⟨_, _, _, rfl, rfl, abreast.trans (.discard abreast.alike new)⟩

theorem retry_agree {f : Nat → α → Bench α → Except Fault (α × β) × Bench α}
    (call : ∀ k old {b b'}, Alike b b' → Agree b b' (f k old b) (f k old b')) (n k : Nat)
    {b b' : Bench α} (alike : Alike b b') :
    Agree b b' (retry Bench.place f (fun _ b => b) n k b)
      (retry Bench.place f (fun _ b => b) n k b') := by
  induction n generalizing k b b' with
  | zero => exact ⟨_, b, b', rfl, rfl, .refl alike⟩
  | succ n ih =>
    obtain ⟨result, d, d', made, made', abreast⟩ := attempt_agree alike (call k)
    rw [retry_succ, retry_succ, made, made']
    rcases result with x | _ | output
    · exact ⟨_, d, d', rfl, rfl, abreast⟩
    · exact (ih (k + 1) abreast.alike).after abreast
    · exact ⟨_, d, d', rfl, rfl, abreast⟩

end Cell

/-- A procedure does the same to benches that look the same. -/
theorem Procedure.run_alike (p : Procedure α β) {b b' : Bench α} (alike : Alike b b') :
    Agree b b' (p.run b) (p.run b') := by
  induction p generalizing b b' with
  | finish result => exact ⟨_, b, b', rfl, rfl, .refl alike⟩
  | load next ih =>
    rw [run, run, alike.length, alike.value]
    exact (ih _ _ alike.keep).after (Abreast.refl alike).keep
  | compareAndSwap i v next ih =>
    rw [run, run, alike.length]
    obtain ⟨none, none'⟩ | ⟨s, s', some, some', together⟩ := alike.lookup i
    · rw [none, none']
      exact ⟨_, b, b', rfl, rfl, .refl alike⟩
    · rw [some, some']
      simp only [Cell.compareAndSwap_eq]
      by_cases same : b.cell.current = s.generation
      · rw [if_pos same, if_pos (together.mp same)]
        have stored := (Abreast.store alike v).keep
        have value : (b.cell.store v).load.value = (b'.cell.store v).load.value :=
          (alike.store v).value
        simp only [value]
        exact (ih _ _ _ stored.alike).after stored
      · rw [if_neg same, if_neg (mt together.mpr same)]
        have missed := (Abreast.discard alike v).keep
        have value : (b.cell.discard v).load.value = (b'.cell.discard v).load.value :=
          (alike.discard v).value
        simp only [value]
        exact (ih _ _ _ missed.alike).after missed
  | swap v next ih =>
    have old : b'.cell.value = b.cell.value := alike.value.symm
    rw [run, run]
    simp only [Cell.swap, old]
    exact (ih _ (alike.store v)).after (.store alike v)
  | modify attempts f next ihf ihn =>
    obtain ⟨result, d, d', made, made', abreast⟩ :=
      Cell.retry_agree (fun k old _ _ h => ihf k old h) attempts 0 alike
    rw [run, run, made, made']
    rcases result with x | output
    · exact ⟨_, d, d', rfl, rfl, abreast⟩
    · exact (ihn output abreast.alike).after abreast

/-! ## Attempts without a bound -/

namespace Cell

variable {place : Place σ α} {f : Nat → α → σ → Except Fault (α × β) × σ} {lost : Nat → σ → σ}
  {k n : Nat} {s t : σ} {output : β} {r r' : Except Fault β × σ}

/-- What attempts `k`, `k + 1`, … come to, if they are made until one succeeds or panics. -/
inductive Repeats (place : Place σ α) (f : Nat → α → σ → Except Fault (α × β) × σ)
    (lost : Nat → σ → σ) : Nat → σ → Except Fault β × σ → Prop
  | succeeded {k : Nat} {s t : σ} {output : β}
      (made : attempt place (f k) s = (.ok (some output), t)) :
      Repeats place f lost k s (.ok output, t)
  | panicked {k : Nat} {s t : σ} {x : Fault} (made : attempt place (f k) s = (.error x, t)) :
      Repeats place f lost k s (.error x, t)
  | again {k : Nat} {s t : σ} {r : Except Fault β × σ}
      (made : attempt place (f k) s = (.ok none, t))
      (rest : Repeats place f lost (k + 1) (lost (k + 1) t) r) : Repeats place f lost k s r

theorem Repeats.unique (h : Repeats place f lost k s r) (h' : Repeats place f lost k s r') :
    r = r' := by
  induction h with
  | succeeded made | panicked made =>
    cases h' with
    | succeeded made' | panicked made' | again made' => cases made.symm.trans made' <;> rfl
  | again made _ ih =>
    cases h' with
    | succeeded made' | panicked made' => cases made.symm.trans made'
    | again made' rest' =>
      cases made.symm.trans made'
      exact ih rest'

/-- An update that succeeds within a bound does so without one. -/
theorem repeats_of_retry (done : retry place f lost n k s = (.ok (some output), t)) :
    Repeats place f lost k s (.ok output, t) := by
  induction n generalizing k s with
  | zero => cases done
  | succ n ih =>
    rw [retry_succ] at done
    rcases made : attempt place (f k) s with ⟨x | _ | output', s'⟩ <;> rw [made] at done
    · cases done
    · exact .again made (ih done)
    · cases done
      exact .succeeded made

end Cell

/-! ## The calls on their own -/

/-- A bench, and the values that a function was called on, newest first. -/
structure Counted (α : Type) where
  bench : Bench α
  calls : List α := []

def Counted.place : Place (Counted α) α :=
  ⟨(·.bench.cell), fun cell t => { t with bench := { t.bench with cell } }⟩

/-- There is a cell and no snapshot. -/
def Counted.Holds (t : Counted α) (cell : Cell α) : Prop := t.bench = ⟨cell, []⟩

namespace Attempts

/-- Call `k` of an update is counted and carried out. -/
def call (f : Nat → α → Procedure α β) (k : Nat) (old : α) (t : Counted α) :
    Except Fault (α × β) × Counted α :=
  let (result, bench) := (f k old).run t.bench
  (result, ⟨bench, old :: t.calls⟩)

/-- An update of at most `n` attempts. -/
def upTo (f : Nat → α → Procedure α β) (n : Nat) (b : Bench α) :
    Except Fault (Option β) × Counted α :=
  Cell.retry Counted.place (call f) (fun _ t => t) n 0 ⟨b, []⟩

variable (f : Nat → α → Procedure α β) (b : Bench α)

/-- The bench after `k` calls that are carried out with no update around them. -/
def alone : Nat → Bench α
  | 0 => b
  | k + 1 => ((f k (alone k).cell.value).run (alone k)).2

/-- What call `k` computes, after the calls before it and with no update around. -/
def result (k : Nat) : Except Fault (α × β) :=
  ((f k (alone f b k).cell.value).run (alone f b k)).1

def Returns (k : Nat) : Prop := ∃ new output, result f b k = .ok (new, output)

/-- Something is written during call `k`. -/
def Spoiled (k : Nat) : Prop :=
  ∃ changes, Course (alone f b k).cell changes (alone f b (k + 1)).cell ∧
    ∃ x ∈ changes, x.writes = true

/-- The call is good for nothing but another attempt. -/
def Lost (k : Nat) : Prop := Spoiled f b k ∧ Returns f b k

/-- The values of the cell before each of the first `n` calls. -/
def values (n : Nat) : List α := (List.range n).map fun k => (alone f b k).cell.value

variable {f b} {n k : Nat} {d : Bench α} {new : α} {output : β} {x : Fault}

theorem spoiled_iff :
    Spoiled f b k ↔ (alone f b (k + 1)).cell.current ≠ (alone f b k).cell.current := by
  obtain ⟨changes, went⟩ := (f k (alone f b k).cell.value).run_went (alone f b k)
  have course : Course (alone f b k).cell changes (alone f b (k + 1)).cell := went.course
  constructor
  · rintro ⟨_, course', written⟩
    exact Nat.ne_of_gt (course'.current_lt_iff.mpr written)
  · intro newer
    have older := Nat.lt_of_le_of_ne course.current_le newer.symm
    exact ⟨changes, course, course.current_lt_iff.mp older⟩

/-- What attempt `k` comes to on a bench that looks as the calls before it would leave it. -/
theorem attempt_alone (calls : List α) (alike : Alike (alone f b k) d) :
    ∃ e, Abreast (alone f b k) d (alone f b (k + 1)) e ∧
      let told := (alone f b k).cell.value :: calls
      let made := Cell.attempt Counted.place (call f k) ⟨d, calls⟩
      match result f b k with
      | .error x => made = (.error x, ⟨e, told⟩)
      | .ok (new, output) =>
        (Spoiled f b k → made = (.ok none, ⟨{ e with cell := e.cell.discard new }, told⟩)) ∧
        (¬ Spoiled f b k →
          made = (.ok (some output), ⟨{ e with cell := e.cell.store new }, told⟩)) := by
  have value : d.cell.load.value = (alone f b k).cell.value := alike.value.symm
  obtain ⟨given, d', e, run, run', abreast⟩ := (f k (alone f b k).cell.value).run_alike alike
  have next : alone f b (k + 1) = d' := congrArg Prod.snd run
  have given' : result f b k = given := congrArg Prod.fst run
  subst next
  refine ⟨e, abreast, ?_⟩
  have spoiled : Spoiled f b k ↔ e.cell.current ≠ d.cell.load.generation :=
    spoiled_iff.trans (not_congr abreast.current_iff)
  simp only [given', Cell.attempt, Counted.place, call, value, run']
  rcases given with x | ⟨new, output⟩
  · rfl
  · simp only [Cell.compareAndSwap_eq]
    refine ⟨fun h => ?_, fun h => ?_⟩
    · rw [if_neg (spoiled.mp h)]
    · rw [if_pos (not_not.mp (mt spoiled.mpr h))]

theorem values_succ (f : Nat → α → Procedure α β) (b : Bench α) (k : Nat) :
    (values f b (k + 1)).reverse = (alone f b k).cell.value :: (values f b k).reverse := by
  simp [values, List.range_succ]

/-- After `k` attempts that were lost, attempt `k` is due, and what is there looks as if there had
been nothing but the calls. -/
theorem after_lost (known : b.Known) (lost : ∀ j < k, Lost f b j) :
    ∃ d, Abreast b b (alone f b k) d ∧ ∀ n, upTo f (k + n) b
      = Cell.retry Counted.place (call f) (fun _ t => t) n k ⟨d, (values f b k).reverse⟩ := by
  induction k with
  | zero =>
    refine ⟨b, .refl (.refl known), fun n => ?_⟩
    rw [Nat.zero_add]
    rfl
  | succ k ih =>
    obtain ⟨d, before, due⟩ := ih fun j hj => lost j (Nat.lt_succ_of_lt hj)
    obtain ⟨spoiled, new, output, returns⟩ := lost k (Nat.lt_succ_self k)
    obtain ⟨e, abreast, made⟩ :=
      attempt_alone (values f b k).reverse before.alike
    simp only [returns] at made
    refine ⟨_, (before.trans abreast).trans (.discard_right abreast.alike new), fun n => ?_⟩
    rw [Nat.add_right_comm, Nat.add_assoc, due, Cell.retry_succ, made.1 spoiled, values_succ]

/-- All the attempts were lost. -/
theorem upTo_lost (known : b.Known) (lost : ∀ j < n, Lost f b j) :
    ∃ d, Abreast b b (alone f b n) d ∧ upTo f n b = (.ok none, ⟨d, (values f b n).reverse⟩) := by
  obtain ⟨d, abreast, due⟩ := after_lost known lost
  exact ⟨d, abreast, due 0⟩

/-- Attempt `k` is the first that is not lost. -/
theorem upTo_decided (known : b.Known) (lost : ∀ j < k, Lost f b j) (decided : ¬ Lost f b k)
    (within : k < n) :
    ∃ e, Abreast b b (alone f b (k + 1)) e ∧
      match result f b k with
      | .error x => upTo f n b = (.error x, ⟨e, (values f b (k + 1)).reverse⟩)
      | .ok (new, output) => ¬ Spoiled f b k ∧ upTo f n b = (.ok (some output),
          ⟨{ e with cell := e.cell.store new }, (values f b (k + 1)).reverse⟩) := by
  obtain ⟨d, before, due⟩ := after_lost known lost
  obtain ⟨e, abreast, made⟩ :=
    attempt_alone (values f b k).reverse before.alike
  obtain ⟨m, rfl⟩ : ∃ m, n = k + (m + 1) := Nat.exists_eq_add_of_lt within
  refine ⟨e, before.trans abreast, ?_⟩
  rw [due, Cell.retry_succ, values_succ]
  rcases given : result f b k with x | ⟨new, output⟩ <;> simp only [given] at made ⊢
  · rw [made]
  · have calm : ¬ Spoiled f b k := fun spoiled => decided ⟨spoiled, new, output, given⟩
    rw [made.2 calm]
    exact ⟨calm, rfl⟩

/-- Either all of the first attempts are lost or one of them is the first that is not. -/
theorem lost_or_decided (f : Nat → α → Procedure α β) (b : Bench α) (n : Nat) :
    (∀ j < n, Lost f b j) ∨ ∃ k < n, (∀ j < k, Lost f b j) ∧ ¬ Lost f b k := by
  induction n with
  | zero => exact .inl nofun
  | succ n ih =>
    obtain all | ⟨k, within, lost, decided⟩ := ih
    · by_cases last : Lost f b n
      · exact .inl fun j hj => (Nat.lt_succ_iff_lt_or_eq.mp hj).elim (all j) (· ▸ last)
      · exact .inr ⟨n, Nat.lt_succ_self n, all, last⟩
    · exact .inr ⟨k, Nat.lt_succ_of_lt within, lost, decided⟩

/-- What an update with a bound promises, said of its calls as they are on their own. -/
structure Law (f : Nat → α → Procedure α β) (b : Bench α) (n : Nat) : Prop where
  /-- It succeeds if there is a call during which nothing is written, and no call up to that one
  panics. -/
  succeeds : (∃ output, (upTo f n b).1 = .ok (some output)) ↔
    ∃ k < n, ¬ Spoiled f b k ∧ ∀ j ≤ k, Returns f b j
  gives_up : (upTo f n b).1 = .ok none ↔ ∀ k < n, Spoiled f b k ∧ Returns f b k
  /-- There is no call after the first one that was good for more than another attempt. -/
  count : ∀ k, (∀ j < k, Lost f b j) → ¬ Lost f b k →
    (upTo f n b).2.calls.length = min (k + 1) n
  count_lost : (∀ j < n, Lost f b j) → (upTo f n b).2.calls.length = n
  /-- The function is called on what the calls before have left. -/
  calls : (upTo f n b).2.calls = (values f b (upTo f n b).2.calls.length).reverse
  /-- A success is that of the first call that is undisturbed, and its value is stored. -/
  stored : ∀ output, (upTo f n b).1 = .ok (some output) →
    ∃ k < n, (∀ j < k, Lost f b j) ∧ ¬ Spoiled f b k ∧ ∃ new, result f b k = .ok (new, output) ∧
      (upTo f n b).2.bench.cell.value = new ∧
      Alike { alone f b (k + 1) with cell := (alone f b (k + 1)).cell.store new }
        (upTo f n b).2.bench
  /-- Without a bound, or with another one that is enough, all would be the same. -/
  unbounded : ∀ output, (upTo f n b).1 = .ok (some output) →
    (∀ r, Cell.Repeats Counted.place (call f) (fun _ t => t) 0 ⟨b, []⟩ r ↔
      r = (.ok output, (upTo f n b).2)) ∧
    ∀ m, (∃ k < m, ¬ Lost f b k) → upTo f m b = upTo f n b
  /-- An update that was given up has written nothing: what there is, and what was there in
  between, is what the calls have written. -/
  unwritten : (upTo f n b).1 = .ok none → Abreast b b (alone f b n) (upTo f n b).2.bench

theorem values_length (f : Nat → α → Procedure α β) (b : Bench α) (n : Nat) :
    (values f b n).reverse.length = n := by
  simp [values]

/-- The first attempt that is not lost is the same one, wherever one looks. -/
theorem decided_unique {j : Nat} (lost : ∀ i < k, Lost f b i) (decided : ¬ Lost f b k)
    (lost' : ∀ i < j, Lost f b i) (decided' : ¬ Lost f b j) : j = k := by
  rcases Nat.lt_trichotomy j k with less | same | more
  · exact absurd (lost j less) decided'
  · exact same
  · exact absurd (lost' k more) decided

theorem law_of_lost (known : b.Known) (lost : ∀ j < n, Lost f b j) : Law f b n := by
  obtain ⟨d, abreast, run⟩ := upTo_lost known lost
  have count : (values f b n).reverse.length = n := values_length f b n
  refine ⟨?_, ?_, fun k earlier decided => ?_, fun _ => ?_, ?_, ?_, ?_, fun _ => ?_⟩
  · rw [run]
    refine iff_of_false (fun ⟨output, h⟩ => by cases h) ?_
    rintro ⟨k, within, calm, -⟩
    exact calm (lost k within).1
  · rw [run]
    exact iff_of_true rfl lost
  · have beyond : n ≤ k := Nat.le_of_not_lt fun within => decided (lost k within)
    rw [run, count]
    omega
  · rw [run, count]
  · rw [run, count]
  · intro output h
    rw [run] at h
    cases h
  · intro output h
    rw [run] at h
    cases h
  · rw [run]
    exact abreast

theorem law_of_panicked (known : b.Known) (lost : ∀ j < k, Lost f b j)
    (panics : result f b k = .error x) (within : k < n) : Law f b n := by
  have silent : ¬ Returns f b k := fun ⟨_, _, returns⟩ => by cases panics.symm.trans returns
  have decided : ¬ Lost f b k := fun h => silent h.2
  obtain ⟨e, -, run⟩ := upTo_decided known lost decided within
  simp only [panics] at run
  have count : (values f b (k + 1)).reverse.length = k + 1 := values_length f b (k + 1)
  refine ⟨?_, ?_, fun j earlier decided' => ?_, fun all => absurd (all k within) decided, ?_,
    fun output h => ?_, fun output h => ?_, fun h => ?_⟩
  · rw [run]
    refine iff_of_false (fun ⟨output, h⟩ => by cases h) ?_
    rintro ⟨j, -, calm, returns⟩
    have before : j < k := Nat.lt_of_not_le fun later => silent (returns k later)
    exact calm (lost j before).1
  · rw [run]
    exact iff_of_false (fun h => by cases h) fun all => decided (all k within)
  · obtain rfl := decided_unique lost decided earlier decided'
    rw [run, count, Nat.min_eq_left within]
  · rw [run, count]
  · rw [run] at h
    cases h
  · rw [run] at h
    cases h
  · rw [run] at h
    cases h

theorem law_of_stored (known : b.Known) (lost : ∀ j < k, Lost f b j) (calm : ¬ Spoiled f b k)
    (given : result f b k = .ok (new, output)) (within : k < n) : Law f b n := by
  have decided : ¬ Lost f b k := fun h => calm h.1
  obtain ⟨e, abreast, outcome⟩ := upTo_decided known lost decided within
  simp only [given] at outcome
  obtain ⟨-, run⟩ := outcome
  have count : (values f b (k + 1)).reverse.length = k + 1 := values_length f b (k + 1)
  have repeated := Cell.repeats_of_retry run
  refine ⟨?_, ?_, fun j earlier decided' => ?_, fun all => absurd (all k within) decided, ?_,
    fun output' h => ?_, fun output' h => ⟨fun r => ?_, ?_⟩, fun h => ?_⟩
  · rw [run]
    refine iff_of_true ⟨output, rfl⟩ ⟨k, within, calm, fun j hj => ?_⟩
    obtain before | rfl := Nat.lt_or_eq_of_le hj
    · exact (lost j before).2
    · exact ⟨new, output, given⟩
  · rw [run]
    exact iff_of_false (fun h => by cases h) fun all => decided (all k within)
  · obtain rfl := decided_unique lost decided earlier decided'
    rw [run, count, Nat.min_eq_left within]
  · rw [run, count]
  · rw [run] at h ⊢
    cases h
    exact ⟨k, within, lost, calm, new, given, Cell.value_store .., abreast.alike.store new⟩
  · rw [run] at h ⊢
    cases h
    refine ⟨fun other => other.unique repeated, ?_⟩
    rintro rfl
    exact repeated
  · rintro m ⟨j, before, decided'⟩
    have within' : k < m := Nat.lt_of_not_le fun beyond => decided' (lost j (by omega))
    obtain ⟨e', -, outcome'⟩ := upTo_decided known lost decided within'
    simp only [given] at outcome'
    have same := (Cell.repeats_of_retry outcome'.2).unique repeated
    rw [run, outcome'.2]
    exact Prod.ext rfl (congrArg Prod.snd same :)
  · rw [run] at h
    cases h

/-- The law of attempts. -/
theorem lawful (f : Nat → α → Procedure α β) (known : b.Known) (n : Nat) : Law f b n := by
  obtain lost | ⟨k, within, lost, decided⟩ := lost_or_decided f b n
  · exact law_of_lost known lost
  · rcases given : result f b k with x | ⟨new, output⟩
    · exact law_of_panicked known lost given within
    · have calm : ¬ Spoiled f b k := fun spoiled => decided ⟨spoiled, new, output, given⟩
      exact law_of_stored known lost calm given within

end Attempts

/-! ## The updates of scripts -/

namespace Script

open Attempts (upTo)

variable {m : Memory} {scope : Scope} {lane : Lane} {site : Site} {c : CellId}

/-- What a call does to the cell: the other writer has its turn, and the new value is given. -/
def CellFunction.procedure (f : CellFunction) (scope : Scope) (k : Nat) (old : Value) :
    Procedure Value Call :=
  match f.interfere[k]? with
  | none => .finish (f.apply scope old)
  | some e =>
    match e.eval scope with
    | .ok v => .swap v fun _ => .finish (f.apply scope old)
    | .error x => .finish (.error x)

/-- There are no turns of the other writer beyond the ones that were planned. -/
theorem CellFunction.not_lost (f : CellFunction) (scope : Scope) (b : Bench Value) :
    ¬ Attempts.Lost (f.procedure scope) b f.interfere.length := by
  rintro ⟨spoiled, -⟩
  refine Attempts.spoiled_iff.mp spoiled ?_
  have none : f.interfere[f.interfere.length]? = none := List.getElem?_eq_none (Nat.le_refl _)
  simp only [Attempts.alone, CellFunction.procedure, none]
  rfl

theorem CellFunction.call_counted (f : CellFunction) (scope : Scope) (k : Nat) (old : Value)
    {t : Counted Value} {cell : Cell Value} (h : t.Holds cell) :
    Cell.Together Counted.Holds (Attempts.call (f.procedure scope) k old t)
      (Contest.calling (f.compute scope) (Contest.runNth (f.plan scope)) k old cell) := by
  rw [Contest.calling, CellFunction.runNth_plan]
  have bench : t.bench = ⟨cell, []⟩ := h
  simp only [Attempts.call, CellFunction.procedure, CellFunction.compute, bench]
  rcases f.interfere[k]? with _ | e
  · exact ⟨_, ⟨⟨cell, []⟩, _⟩, cell, rfl, rfl, rfl⟩
  · simp only
    rcases e.eval scope with x | v
    · exact ⟨_, ⟨⟨cell, []⟩, _⟩, cell, rfl, rfl, rfl⟩
    · exact ⟨_, ⟨⟨cell.store v, []⟩, _⟩, cell.store v, rfl, rfl, rfl⟩

/-- An update in a script does to the cell, and gives, what its calls make of it. -/
theorem CellFunction.retry_upTo (f : CellFunction) (scope : Scope) (lane : Lane) (site : Site)
    (inside : c < m.cells.size)
    (style : UpdateStyle) (n : Nat) :
    ∃ result m' t, Cell.retry (Memory.place c) (f.call scope lane site c) style.lost n 0 m
        = (result, m') ∧
      upTo (f.procedure scope) n ⟨m.cell c, []⟩ = (result, t) ∧ m'.cell c = t.bench.cell := by
  have gets {m' : Memory} {cell : Cell Value} (h : m.Holding c m' cell) :
      (Memory.place c).get m' = cell := h.held
  have calls {m' : Memory} {cell : Cell Value} (k : Nat) (old : Value)
      (h : m.Holding c m' cell) := f.call_together scope lane site inside k old h
  have loses {m' : Memory} {cell : Cell Value} (k : Nat) (h : m.Holding c m' cell) :=
    h.of_cells (style.lost_cells k m')
  obtain ⟨result, m', cell, run, run', after⟩ := Cell.retry_simulates gets
    (fun cell' h => h.set inside cell') calls loses n 0 (.start m c)
  have gets' {t : Counted Value} {cell : Cell Value} (h : t.Holds cell) :
      Counted.place.get t = cell := congrArg Bench.cell h
  have sets' {t : Counted Value} {cell : Cell Value} (cell' : Cell Value) (h : t.Holds cell) :
      (Counted.place.set cell' t).Holds cell' := by
    have bench : t.bench = ⟨cell, []⟩ := h
    simp [Counted.Holds, Counted.place, bench]
  have calls' {t : Counted Value} {cell : Cell Value} (k : Nat) (old : Value) (h : t.Holds cell) :=
    f.call_counted scope k old h
  have start : Counted.Holds ⟨⟨m.cell c, []⟩, []⟩ (m.cell c) := rfl
  obtain ⟨result', t, cell', counted, counted', after'⟩ :=
    Cell.retry_simulates gets' sets' calls' (fun _ h => h) n 0 start
  cases run'.symm.trans counted'
  exact ⟨result, m', t, run, counted, after.held.trans (congrArg Bench.cell after').symm⟩

/-- What the effect of an update gives and does to the cell. -/
theorem CellAction.update_upTo (style : UpdateStyle) (f : CellFunction) (scope : Scope)
    (lane : Lane) (c : CellId) :
    ∃ act, (CellAction.update style f).build scope lane c = .ok (.delay act) ∧
      ∀ (site : Site) (m : Memory), c < m.cells.size →
        let plain := upTo (f.procedure scope) (style.attempts f) ⟨m.cell c, []⟩
        (act site m).1 = plain.1.map style.result ∧ (act site m).2.cell c = plain.2.bench.cell := by
  refine ⟨_, rfl, fun site m inside => ?_⟩
  obtain ⟨result, m', t, run, run', cell⟩ :=
    f.retry_upTo scope lane site inside style (style.attempts f)
  simp only [run, run']
  cases result <;> exact ⟨rfl, cell⟩

end Script

namespace Attempts

open Script (CellFunction CellAction Scope)

/-- The law of attempts holds with any bound, a single attempt is an update with the bound one, and
the updates of scripts are such updates.  Without a bound of their own they make attempts enough. -/
theorem bounded (f : Nat → α → Procedure α β) {b : Bench α} (known : b.Known) (n : Nat) :
    Law f b n ∧
    Cell.attempt Counted.place (call f 0) ⟨b, []⟩ = upTo f 1 b ∧
    (∀ (f : CellFunction) (scope : Scope) (b : Bench Value),
      ¬ Lost (f.procedure scope) b f.interfere.length) ∧
    ∀ (style : Script.UpdateStyle) (f : CellFunction) (scope : Scope) (lane : Lane) (c : CellId),
      ∃ act, (CellAction.update style f).build scope lane c = .ok (.delay act) ∧
        ∀ (site : Site) (m : Memory), c < m.cells.size →
          let plain := upTo (f.procedure scope) (style.attempts f) ⟨m.cell c, []⟩
          (act site m).1 = plain.1.map style.result ∧
            (act site m).2.cell c = plain.2.bench.cell := by
  refine ⟨lawful f known n, ?_, CellFunction.not_lost, CellAction.update_upTo⟩
  rw [upTo, Cell.retry_succ]
  rcases Cell.attempt Counted.place (call f 0) ⟨b, []⟩ with ⟨_ | _ | _, t⟩ <;> rfl

/-- The function adds one, and somebody stores 5 during the first call.  One attempt is not enough,
and two are. -/
def disturbedOnce (k old : Nat) : Procedure Nat Nat :=
  match k with
  | 0 => .swap 5 fun _ => .finish (.ok (old + 1, old))
  | _ + 1 => .finish (.ok (old + 1, old))

theorem bounded_disturbed :
    Bench.Known (⟨.new 0 .spin, []⟩ : Bench Nat) ∧
    (upTo disturbedOnce 1 ⟨.new 0 .spin, []⟩).1 = .ok none ∧
    (upTo disturbedOnce 1 ⟨.new 0 .spin, []⟩).2.bench.cell.value = 5 ∧
    ∃ output, (upTo disturbedOnce 2 ⟨.new 0 .spin, []⟩).1 = .ok (some output) := by
  have known : Bench.Known (⟨.new 0 .spin, []⟩ : Bench Nat) := nofun
  have lost : ∀ k < 1, Spoiled disturbedOnce ⟨.new 0 .spin, []⟩ k ∧
      Returns disturbedOnce ⟨.new 0 .spin, []⟩ k := by
    intro k hk
    obtain rfl : k = 0 := Nat.lt_one_iff.mp hk
    exact ⟨⟨_, .wrote .start 5, _, List.mem_singleton_self _, rfl⟩, 1, 0, rfl⟩
  have gave_up := (bounded disturbedOnce known 1).1.gives_up.mpr lost
  refine ⟨known, gave_up, ?_, ?_⟩
  · exact ((bounded disturbedOnce known 1).1.unwritten gave_up).alike.value.symm
  · refine (bounded disturbedOnce known 2).1.succeeds.mpr ⟨1, by decide, ?_, fun j hj => ?_⟩
    · exact fun spoiled => spoiled_iff.mp spoiled rfl
    · obtain _ | _ | j := j
      · exact ⟨1, 0, rfl⟩
      · exact ⟨6, 5, rfl⟩
      · omega

end Attempts

end EffectFibers
