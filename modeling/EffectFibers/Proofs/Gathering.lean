import EffectFibers.Proofs.MachineStep
import Mathlib.Data.List.Sort

/-!
# What a group gathers

The exit of a group is a function of the exits of its operands (`Exit.Together`), in whatever
order the operands have ended.  What a group keeps of the operands that it has seen is therefore
said without an order (`Group.Reflects`): the failure of the lowest index, whether there was a
cancellation, and the values with their indices.  A group cancels its token when it sees its
first failure, and at no other time.

## Main statements

* `Group.Reflects.absorb`: taking one more exit into account.
* `Group.Reflects.exit`: the exit of a group that has seen all its operands.
* `Machine.gather_tally`: gathering keeps the account right.
* `Machine.gather_failed`, `Machine.gather_whole`: what gathering does to the tokens.
-/

namespace EffectFibers

/-! ## The exit of a group -/

/-- What the exits of its operands, in their order, make the exit of a group. -/
inductive Exit.Together (xs : List Exit) : Exit → Prop
  /-- The failure of the lowest index. -/
  | errored {i : Nat} {e : Value} (here : xs[i]? = some (.errored e))
      (lowest : ∀ j e', xs[j]? = some (.errored e') → i ≤ j) : Together xs (.errored e)
  | canceled (whole : ∀ e, .errored e ∉ xs) (some : .canceled ∈ xs) : Together xs .canceled
  /-- Each value at its own place. -/
  | succeeded {vs : List Value} (all : xs = vs.map .succeeded) : Together xs (.succeeded (.list vs))

/-- The exits of the operands determine that of the group. -/
theorem Exit.Together.unique {xs : List Exit} {x y : Exit} (h : Together xs x)
    (h' : Together xs y) : x = y := by
  have absent : ∀ {vs : List Value} {x : Exit}, x.isSucceeded = false →
      x ∉ vs.map Outcome.succeeded := fun h mem => by
    obtain ⟨v, -, rfl⟩ := List.mem_map.mp mem
    cases h
  cases h with
  | errored here lowest =>
    have mem := List.mem_of_getElem? here
    cases h' with
    | errored here' lowest' =>
      obtain rfl := Nat.le_antisymm (lowest _ _ here') (lowest' _ _ here)
      exact Option.some.inj (here.symm.trans here')
    | canceled whole => exact (whole _ mem).elim
    | succeeded all => exact (absent rfl (all ▸ mem)).elim
  | canceled whole some =>
    cases h' with
    | errored here' => exact (whole _ (List.mem_of_getElem? here')).elim
    | canceled => rfl
    | succeeded all => exact (absent rfl (all ▸ some)).elim
  | succeeded all =>
    cases h' with
    | errored here' => exact (absent rfl (all ▸ List.mem_of_getElem? here')).elim
    | canceled whole some => exact (absent rfl (all ▸ some)).elim
    | succeeded all' =>
      have same := all.symm.trans all'
      rw [(List.map_injective_iff.mpr fun v w h => Outcome.succeeded.inj h) same]

variable {g g' : Group} {s s' : Store} {ended : List (Nat × Joined)} {x : Exit} {i : Nat}

/-! ## What a group keeps -/

/-- The group has taken the exits that it has seen into account. -/
structure Group.Reflects (g : Group) (seen : Nat → Exit → Prop) : Prop where
  whole : g.failure = none → ∀ i e, ¬ seen i (.errored e)
  failed : ∀ i e, g.failure = some (i, e) →
    seen i (.errored e) ∧ ∀ j e', seen j (.errored e') → i ≤ j
  canceled : g.canceled = true ↔ ∃ i, seen i .canceled
  values : ∀ i v, (i, v) ∈ g.values ↔ seen i (.succeeded v)
  distinct : (g.values.map Prod.fst).Nodup

namespace Group.Reflects

variable {seen seen' : Nat → Exit → Prop}

theorem congr (h : g.Reflects seen) (same : ∀ i x, seen i x ↔ seen' i x) : g.Reflects seen' := by
  obtain rfl : seen = seen' := by
    funext i x
    exact propext (same i x)
  exact h

theorem drop (h : g.Reflects seen) (i : Nat) : (g.drop i).Reflects seen :=
  ⟨h.whole, h.failed, h.canceled, h.values, h.distinct⟩

/-- One more exit is taken into account. -/
theorem absorb (h : g.Reflects seen) (new : ∀ y, ¬ seen i y) :
    (g.absorb i x).Reflects fun j y => seen j y ∨ j = i ∧ y = x := by
  cases x with
  | succeeded v =>
    refine ⟨fun none j e => ?_, fun j e failure => ?_, ?_, fun j w => ?_, ?_⟩
    · simpa using h.whole none j e
    · simpa using h.failed j e failure
    · simpa [Group.absorb] using h.canceled
    · have values := h.values j w
      simp only [Group.absorb, List.mem_cons, Prod.mk.injEq, Outcome.succeeded.injEq]
      rw [values, or_comm]
    · refine List.nodup_cons.mpr ⟨fun mem => ?_, h.distinct⟩
      obtain ⟨⟨j, w⟩, old, same⟩ := List.mem_map.mp mem
      obtain rfl : j = i := same
      exact new _ ((h.values j w).mp old)
  | canceled =>
    refine ⟨fun none j e => ?_, fun j e failure => ?_, ?_, fun j w => ?_, h.distinct⟩
    · simpa using h.whole none j e
    · simpa using h.failed j e failure
    · simp only [Group.absorb, true_iff]
      exact ⟨i, .inr ⟨rfl, trivial⟩⟩
    · simpa [Group.absorb] using h.values j w
  | errored e =>
    have others : ∀ g' : Group, g'.canceled = g.canceled → g'.values = g.values →
        (g'.canceled = true ↔
          ∃ j, seen j .canceled ∨ j = i ∧ (Outcome.canceled : Exit) = .errored e) ∧
        (∀ j v, (j, v) ∈ g'.values ↔
          seen j (.succeeded v) ∨ j = i ∧ (Outcome.succeeded v : Exit) = .errored e) ∧
        (g'.values.map Prod.fst).Nodup := fun g' canceled values => by
      rw [canceled, values]
      exact ⟨by simpa using h.canceled, fun j v => by simpa using h.values j v, h.distinct⟩
    -- The new failure counts if it is the first one, or comes before the one reported so far.
    have counts : ∀ g' : Group, g'.canceled = g.canceled → g'.values = g.values →
        g'.failure = some (i, e) → (∀ j e', seen j (.errored e') → i ≤ j) →
        g'.Reflects fun j y => seen j y ∨ j = i ∧ y = .errored e := by
      intro g' canceled values failure lowest
      obtain ⟨canceled, values, distinct⟩ := others g' canceled values
      refine ⟨fun none => by simp [failure] at none, fun j e' some => ?_, canceled, values,
        distinct⟩
      obtain ⟨rfl, rfl⟩ : i = j ∧ e = e' := by simpa [failure] using some
      refine ⟨.inr ⟨rfl, rfl⟩, fun j e' => ?_⟩
      rintro (old | ⟨rfl, -⟩)
      · exact lowest j e' old
      · exact Nat.le_refl _
    simp only [Group.absorb]
    split
    · next none => exact counts _ rfl rfl rfl fun j e' old => (h.whole none j e' old).elim
    · next reported e₀ some =>
      obtain ⟨old, lowest⟩ := h.failed _ _ some
      split
      · next lt =>
        exact counts _ rfl rfl rfl fun j e' other =>
          Nat.le_trans (Nat.le_of_lt lt) (lowest j e' other)
      · next le =>
        obtain ⟨canceled, values, distinct⟩ := others g rfl rfl
        refine ⟨fun none => by simp [some] at none, fun j e' found => ?_, canceled, values,
          distinct⟩
        obtain ⟨rfl, rfl⟩ : reported = j ∧ e₀ = e' := by simpa [some] using found
        refine ⟨.inl old, fun j e' => ?_⟩
        rintro (other | ⟨rfl, -⟩)
        · exact lowest j e' other
        · exact Nat.not_lt.mp le

/-- The values of a group that has seen a success of every operand, by index. -/
theorem sorted {vs : List Value} (h : g.Reflects seen)
    (all : ∀ i x, seen i x ↔ (vs.map Outcome.succeeded)[i]? = some x) :
    (g.values.mergeSort fun a b => a.1 ≤ b.1).map (·.2) = vs := by
  let before (a b : Nat × Value) : Prop := a.1 < b.1
  have : Std.Antisymm before := ⟨fun a b lt lt' => (Nat.lt_asymm lt lt').elim⟩
  have : Std.Irrefl before := ⟨fun a => Nat.lt_irrefl a.1⟩
  let sorted := g.values.mergeSort fun a b => a.1 ≤ b.1
  let indexed : List (Nat × Value) := vs.zipIdx.map Prod.swap
  have perm : sorted.Perm g.values := List.mergeSort_perm _ _
  have ascending : sorted.Pairwise before := by
    have le : sorted.Pairwise fun a b => a.1 ≤ b.1 := by
      have trans : ∀ a b c : Nat × Value, decide (a.1 ≤ b.1) → decide (b.1 ≤ c.1) →
          decide (a.1 ≤ c.1) := fun a b c => by simpa using Nat.le_trans
      have total : ∀ a b : Nat × Value, decide (a.1 ≤ b.1) || decide (b.1 ≤ a.1) := fun a b => by
        simpa using Nat.le_total a.1 b.1
      simpa using List.pairwise_mergeSort trans total g.values
    have ne : sorted.Pairwise fun a b => a.1 ≠ b.1 :=
      List.pairwise_map.mp ((perm.map Prod.fst).nodup_iff.mpr h.distinct)
    exact (le.and ne).imp fun ⟨le, ne⟩ => Nat.lt_of_le_of_ne le ne
  have ascending' : indexed.Pairwise before := by
    refine List.pairwise_iff_getElem.mpr fun i j hi hj lt => ?_
    simpa [indexed, before] using lt
  have same : sorted = indexed := by
    refine ascending.eq_of_mem_iff ascending' fun ⟨i, v⟩ => ?_
    have listed : (i, v) ∈ indexed ↔ vs[i]? = some v := by
      rw [List.mem_map]
      constructor
      · rintro ⟨⟨w, j⟩, mem, same⟩
        cases same
        exact List.mem_zipIdx_iff_getElem?.mp mem
      · exact fun here => ⟨(v, i), List.mem_zipIdx_iff_getElem?.mpr here, rfl⟩
    rw [perm.mem_iff, h.values, all, listed]
    simp
  have flat : sorted.map (·.2) = vs := by
    rw [same, List.map_map]
    exact List.zipIdx_map_fst 0 vs
  exact flat

/-- The exit of a group that has seen the exits of all its operands. -/
theorem exit {xs : List Exit} (h : g.Reflects seen) (all : ∀ i x, seen i x ↔ xs[i]? = some x) :
    Exit.Together xs g.exit := by
  unfold Group.exit
  split
  · next i e failure =>
    obtain ⟨here, lowest⟩ := h.failed i e failure
    exact .errored ((all i _).mp here) fun j e' other => lowest j e' ((all j _).mpr other)
  · next none =>
    have whole : ∀ e, .errored e ∉ xs := fun e mem => by
      obtain ⟨i, here⟩ := List.mem_iff_getElem?.mp mem
      exact h.whole none i e ((all i _).mpr here)
    split
    · next canceled =>
      obtain ⟨i, here⟩ := h.canceled.mp canceled
      exact .canceled whole (List.mem_of_getElem? ((all i _).mp here))
    · next live =>
      obtain ⟨vs, rfl⟩ : ∃ vs : List Value, xs = vs.map Outcome.succeeded := by
        have succeeded : ∀ x ∈ xs, ∃ v : Value, Outcome.succeeded v = x := fun x mem => by
          cases x with
          | succeeded v => exact ⟨v, rfl⟩
          | errored e => exact (whole e mem).elim
          | canceled =>
            obtain ⟨i, here⟩ := List.mem_iff_getElem?.mp mem
            exact (live (h.canceled.mpr ⟨i, (all i _).mpr here⟩)).elim
        obtain ⟨vs, same⟩ := (Set.range_list_map Outcome.succeeded).symm.le succeeded
        exact ⟨vs, same.symm⟩
      rw [h.sorted all]
      exact .succeeded rfl

end Group.Reflects

/-! ## Failures -/

theorem Group.failure_absorb_errored (g : Group) (i : Nat) (e : Value) :
    (g.absorb i (.errored e)).failure ≠ none := by
  simp only [absorb]
  split
  · simp
  · next found =>
    split
    · simp
    · simp [found]

theorem Group.failure_absorb (h : x.isErrored = false) : (g.absorb i x).failure = g.failure := by
  cases x with
  | succeeded v | canceled => rfl
  | errored e => cases h

theorem Group.failure_absorb_of_some (h : g.failure ≠ none) : (g.absorb i x).failure ≠ none := by
  cases x with
  | succeeded v | canceled => exact h
  | errored e => exact g.failure_absorb_errored i e

theorem Group.failure_of_exit {e : Value} (h : g.exit = .errored e) : g.failure ≠ none := by
  intro none
  unfold Group.exit at h
  rw [none] at h
  cases canceled : g.canceled <;> simp [canceled] at h

/-- The group sees its first failure before its fiber has come so far. -/
inductive Group.Fails (g : Group) : Fiber → Prop
  | gathering {loop : Loop} {g' : Group} (before : g.failure = none) (after : g'.failure ≠ none) :
      Fails g ⟨loop, .gathering g'⟩
  | gathered {loop : Loop} {e : Value} (before : g.failure = none) :
      Fails g ⟨loop, .unwinding (.errored e)⟩

namespace Machine

/-- One ended operand after the other is taken into account. -/
theorem gather_cons {joined : Joined} (ok : gather g ((i, joined) :: ended) s = (.ok g', s')) :
    ∃ x, joined.exit = .ok x ∧ gather ((g.drop i).absorb i x) ended
      (if x.isErrored ∧ g.failure = none then (s.emit (.operandFailed i)).cancel g.token else s)
        = (.ok g', s') := by
  unfold gather at ok
  split at ok
  · cases ok
  · next x exit =>
    refine ⟨x, exit, ?_⟩
    cases x with
    | errored e =>
      cases failure : g.failure <;> simpa [failure, Outcome.isErrored] using ok
    | succeeded v | canceled => simpa [Outcome.isErrored] using ok

/-- A group that has failed cancels nothing more. -/
theorem gather_failed (ok : gather g ended s = (.ok g', s')) (failed : g.failure ≠ none) :
    g'.failure ≠ none ∧ s'.tokens = s.tokens := by
  induction ended generalizing g s with
  | nil =>
    cases ok
    exact ⟨failed, rfl⟩
  | cons y rest ih =>
    obtain ⟨x, -, later⟩ := gather_cons ok
    rw [if_neg fun both => failed both.2] at later
    exact ih later (Group.failure_absorb_of_some failed)

/-- A group that has not failed cancels its token if it fails now, and nothing otherwise. -/
theorem gather_whole (ok : gather g ended s = (.ok g', s')) (whole : g.failure = none) :
    g'.failure ≠ none ∧ s'.tokens = s.tokens.cancel g.token ∨
      g'.failure = none ∧ s'.tokens = s.tokens := by
  induction ended generalizing g s with
  | nil =>
    cases ok
    exact .inr ⟨whole, rfl⟩
  | cons y rest ih =>
    obtain ⟨i, joined⟩ := y
    obtain ⟨x, -, later⟩ := gather_cons ok
    cases errored : x.isErrored with
    | true =>
      rw [if_pos ⟨errored, whole⟩] at later
      have failed : ((g.drop i).absorb i x).failure ≠ none := by
        cases x with
        | errored e => exact Group.failure_absorb_errored _ i e
        | succeeded v | canceled => cases errored
      obtain ⟨failed', tokens⟩ := gather_failed later failed
      exact .inl ⟨failed', by rw [tokens, Store.tokens_cancel, Store.tokens_emit]⟩
    | false =>
      rw [if_neg fun both => by simp [errored] at both] at later
      have token : ((g.drop i).absorb i x).token = g.token := (absorb_fields _ i x).1
      have whole' : ((g.drop i).absorb i x).failure = none :=
        (Group.failure_absorb errored).trans whole
      exact token ▸ ih later whole'

end Machine

/-! ## The account of a group -/

/-- How a task has ended, for whoever joins it without a panic. -/
def Store.exit? (s : Store) (t : TaskId) : Option Exit :=
  (s.joined? t).bind fun joined => joined.exit.toOption

theorem Store.exit?_of_joined {joined : Joined} {t : TaskId} (found : s.joined? t = some joined)
    (exit : joined.exit = .ok x) : s.exit? t = some x := by
  simp [Store.exit?, found, exit, Except.toOption]

variable {operands : List (Nat × TaskId)}

/-- The group has taken into account how the operand of an index has ended. -/
def Group.Sees (g : Group) (s : Store) (operands : List (Nat × TaskId)) (i : Nat) (x : Exit) :
    Prop :=
  ∃ t, (i, t) ∈ operands ∧ (i, t) ∉ g.pending ∧ s.exit? t = some x

/-- The account of a group is right: it waits for the operands that it has not seen, and keeps
what there is to keep of the others. -/
structure Group.Tally (s : Store) (operands : List (Nat × TaskId)) (g : Group) : Prop where
  pending : g.pending ⊆ operands
  seen : ∀ i t, (i, t) ∈ operands → (i, t) ∈ g.pending ∨ ∃ x, s.exit? t = some x
  reflects : g.Reflects (g.Sees s operands)

namespace Group

variable {t : TaskId}

theorem pending_drop_absorb (g : Group) (i : Nat) (x : Exit) :
    ((g.drop i).absorb i x).pending = g.pending.filter (·.1 != i) :=
  (Machine.absorb_fields _ i x).2

/-- A group that has seen nothing yet. -/
theorem Tally.blank {token : TokenId} : Tally s operands { token, pending := operands } where
  pending := List.Subset.refl _
  seen _ _ mem := .inl mem
  reflects := by
    have none : ∀ i x, ¬ Sees { token, pending := operands } s operands i x := by
      rintro i x ⟨t, mem, gone, -⟩
      exact gone mem
    exact ⟨fun _ i e => none i _, nofun, by simp [none], by simp [none], List.nodup_nil⟩

/-- What tasks have ended with stays as it is. -/
theorem Tally.later (h : g.Tally s operands)
    (kept : ∀ t x, s.exit? t = some x → s'.exit? t = some x) : g.Tally s' operands where
  pending := h.pending
  seen i t mem := (h.seen i t mem).imp_right fun ⟨x, ended⟩ => ⟨x, kept t x ended⟩
  reflects := h.reflects.congr fun i x => by
    constructor
    · rintro ⟨t, mem, gone, ended⟩
      exact ⟨t, mem, gone, kept t x ended⟩
    · rintro ⟨t, mem, gone, ended⟩
      obtain ⟨y, ended'⟩ := (h.seen i t mem).resolve_left gone
      exact ⟨t, mem, gone, ended'.trans ((kept t y ended').symm.trans ended)⟩

/-- One ended operand is taken into account. -/
theorem Tally.absorb (h : g.Tally s operands) (distinct : (operands.map Prod.fst).Nodup)
    (waiting : (i, t) ∈ g.pending) (ended : s.exit? t = some x) :
    ((g.drop i).absorb i x).Tally s operands := by
  have operand : ∀ {u}, (i, u) ∈ operands → u = t := fun mem =>
    congrArg Prod.snd (List.inj_on_of_nodup_map distinct mem (h.pending waiting) rfl)
  have remains : ∀ {j u}, (j, u) ∈ ((g.drop i).absorb i x).pending ↔ (j, u) ∈ g.pending ∧ j ≠ i :=
    fun {j u} => by
      rw [pending_drop_absorb, List.mem_filter]
      simp
  refine ⟨fun y mem => h.pending (remains.mp mem).1, fun j u mem => ?_, ?_⟩
  · by_cases same : j = i
    · subst same
      exact .inr ⟨x, operand mem ▸ ended⟩
    · exact (h.seen j u mem).imp_left fun waits => remains.mpr ⟨waits, same⟩
  · have new : ∀ y, ¬ g.Sees s operands i y := by
      rintro y ⟨u, mem, gone, -⟩
      exact gone (operand mem ▸ waiting)
    refine ((h.reflects.drop i).absorb new).congr fun j y => ?_
    constructor
    · rintro (⟨u, mem, gone, ended'⟩ | ⟨rfl, rfl⟩)
      · exact ⟨u, mem, fun waits => gone (remains.mp waits).1, ended'⟩
      · exact ⟨t, h.pending waiting, fun waits => (remains.mp waits).2 rfl, ended⟩
    · rintro ⟨u, mem, gone, ended'⟩
      by_cases same : j = i
      · subst same
        obtain rfl := operand mem
        exact .inr ⟨rfl, Option.some.inj (ended'.symm.trans ended)⟩
      · exact .inl ⟨u, mem, fun waits => gone (remains.mpr ⟨waits, same⟩), ended'⟩

/-- A group that has seen every operand has what their exits make of it. -/
theorem Tally.together (h : g.Tally s operands)
    (indices : operands.map Prod.fst = List.range operands.length) (none : g.pending = []) :
    ∃ xs : List Exit, operands.map (fun y => s.exit? y.2) = xs.map some ∧
      Exit.Together xs g.exit := by
  have ended : ∀ e ∈ operands.map fun y => s.exit? y.2, ∃ x : Exit, some x = e := by
    intro e mem
    obtain ⟨⟨i, t⟩, inside, rfl⟩ := List.mem_map.mp mem
    obtain waits | ⟨x, ended⟩ := h.seen i t inside
    · simp [none] at waits
    · exact ⟨x, ended.symm⟩
  obtain ⟨xs, same⟩ := (Set.range_list_map (some : Exit → Option Exit)).symm.le ended
  refine ⟨xs, same.symm, h.reflects.exit fun i x => ?_⟩
  have exits : xs[i]? = some x ↔ (operands.map fun y => s.exit? y.2)[i]? = some (some x) := by
    rw [← same]
    simp
  have index : ∀ {j : Nat} {y : Nat × TaskId}, operands[j]? = some y → y.1 = j :=
      fun {j y} here => by
    have here' : (operands.map Prod.fst)[j]? = some y.1 := by simp [here]
    rw [indices] at here'
    exact (List.getElem?_eq_some_iff.mp here').2.symm.trans (List.getElem_range _)
  rw [exits, List.getElem?_map, Option.map_eq_some_iff]
  constructor
  · rintro ⟨t, mem, -, ended⟩
    obtain ⟨j, here⟩ := List.mem_iff_getElem?.mp mem
    obtain rfl : i = j := index here
    exact ⟨_, here, ended⟩
  · rintro ⟨⟨j, t⟩, here, ended⟩
    obtain rfl : j = i := index here
    exact ⟨t, List.mem_of_getElem? here, by simp [none], ended⟩

end Group

namespace Machine

theorem nodup_endedOperands (h : (g.pending.map Prod.fst).Nodup) :
    ((endedOperands g s).map Prod.fst).Nodup := by
  unfold endedOperands
  rw [List.map_map, ((List.mergeSort_perm _ _).map _).nodup_iff]
  refine List.pairwise_map.mpr (List.pairwise_filterMap.mpr ?_)
  refine (List.pairwise_map.mp h).imp fun {y z} ne b some b' some' => ?_
  obtain ⟨joined, -, rfl⟩ := Option.map_eq_some_iff.mp some
  obtain ⟨joined', -, rfl⟩ := Option.map_eq_some_iff.mp some'
  exact ne

/-- Gathering keeps the account right. -/
theorem gather_tally {s₀ : Store} (ok : gather g ended s = (.ok g', s'))
    (tally : g.Tally s₀ operands) (distinct : (operands.map Prod.fst).Nodup)
    (apart : (ended.map Prod.fst).Nodup)
    (came : ∀ y ∈ ended, ∃ t, (y.1, t) ∈ g.pending ∧ s₀.joined? t = some y.2) :
    g'.Tally s₀ operands := by
  induction ended generalizing g s with
  | nil =>
    cases ok
    exact tally
  | cons y rest ih =>
    obtain ⟨i, joined⟩ := y
    obtain ⟨x, exit, later⟩ := gather_cons ok
    obtain ⟨new, apart⟩ := List.nodup_cons.mp (List.map_cons .. ▸ apart)
    obtain ⟨t, waiting, found⟩ := came _ (List.mem_cons_self ..)
    refine ih later (tally.absorb distinct waiting (Store.exit?_of_joined found exit)) apart
      fun z mem => ?_
    obtain ⟨u, waiting', found'⟩ := came z (List.mem_cons_of_mem _ mem)
    refine ⟨u, ?_, found'⟩
    rw [Group.pending_drop_absorb, List.mem_filter]
    refine ⟨waiting', ?_⟩
    have ne : z.1 ≠ i := fun same => new (List.mem_map.mpr ⟨z, mem, same⟩)
    simpa using ne

/-- Without a panic all that has ended is taken into account. -/
theorem gather_ok (s : Store) (came : ∀ y ∈ ended, ∃ x, y.2.exit = .ok x) :
    ∃ g' s', gather g ended s = (.ok g', s') ∧
      g'.pending = g.pending.filter fun y => ended.all fun z => y.1 != z.1 := by
  induction ended generalizing g s with
  | nil => exact ⟨g, s, rfl, by simp⟩
  | cons y rest ih =>
    obtain ⟨i, joined⟩ := y
    obtain ⟨x, exit⟩ := came _ (List.mem_cons_self ..)
    have later := fun y mem => came y (List.mem_cons_of_mem _ mem)
    unfold gather
    simp only [show joined.exit = .ok x from exit]
    obtain ⟨g', s', ok, pending⟩ := ih _ later
    refine ⟨g', s', ok, ?_⟩
    rw [pending, Group.pending_drop_absorb, List.filter_filter]
    simp [Bool.and_comm]

theorem ended_of_pending {t : TaskId} (waiting : (i, t) ∈ g.pending)
    (ended : s.exit? t = some x) : ∃ joined, (i, joined) ∈ endedOperands g s := by
  obtain ⟨joined, found, -⟩ := Option.bind_eq_some_iff.mp ended
  refine ⟨joined, ?_⟩
  simp only [endedOperands, List.mem_map, List.mem_mergeSort, List.mem_filterMap]
  exact ⟨((s.join t).order, i, joined), ⟨(i, t), waiting, by simp [found]⟩, rfl⟩

/-- A loop whose operands have all ended is not left waiting. -/
theorem resumeStep_delivers (worker : Worker) (callers : List Caller) (loop : Loop)
    (ended : ∀ y ∈ g.pending, ∃ x, s.exit? y.2 = some x) :
    ∃ x s', resumeStep worker callers s (.gathering loop g) = (unwind loop x callers, s') := by
  have came : ∀ y ∈ endedOperands g s, ∃ x, y.2.exit = .ok x := fun y mem => by
    obtain ⟨t, waiting, found⟩ := mem_endedOperands mem
    obtain ⟨x, exit⟩ := ended _ waiting
    rw [Store.exit?, found] at exit
    cases came : y.2.exit with
    | ok x => exact ⟨x, rfl⟩
    | error f => simp [came, Except.toOption] at exit
  obtain ⟨g', s', ok, pending⟩ := gather_ok s came
  have none : g'.pending = [] := by
    rw [pending, List.filter_eq_nil_iff]
    rintro ⟨i, t⟩ waiting
    obtain ⟨x, exit⟩ := ended _ waiting
    obtain ⟨joined, mem⟩ := ended_of_pending waiting exit
    intro all
    simpa using List.all_eq_true.mp all _ mem
  exact ⟨g'.exit, s', by simp [resumeStep, ok, none]⟩

end Machine

end EffectFibers
