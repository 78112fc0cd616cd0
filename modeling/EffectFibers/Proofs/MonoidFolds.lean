import EffectFibers.Algebra.Fold
import Mathlib.Tactic.Ring

/-!
# Monoids and folds

Numbers of fixed size add and multiply like integers for as long as nothing overflows.  So every
shape is read as a shape without bounds (`Shape.Exact`), in which everything can be joined
(`Shape.join`); data are joined without a fault exactly if the unbounded result can be represented.
All laws are shown without bounds, by induction on the shape, and brought back from there.

Floating-point numbers are left out: their addition is not associative.

## Main definitions

* `Shape.Exact`, `Shape.join`: the data of a shape without bounds, and how they join.
* `Shape.Lawful`: the laws of monoids and folds, with what is said of overflow.

## Main statements

* `Shape.combine_eq_ok_iff`: when data can be joined, and to what.
* `Shape.lawful_of_neutral`: the laws of every shape that has a neutral datum.
-/

namespace EffectFibers.Algebra

/-! ## Orders -/

namespace Ordered

section

variable {α β : Type}

theorem transCmp_on (f : α → β) (item : β → β → Ordering) [Std.TransCmp item] :
    Std.TransCmp fun a b => item (f a) (f b) where
  eq_swap := Std.OrientedCmp.eq_swap
  isLE_trans := Std.TransCmp.isLE_trans

theorem compareList_eq (item : α → α → Ordering) (as bs : List α) :
    compareList item as bs = List.compareLex item as bs := by
  induction as generalizing bs with
  | nil => cases bs <;> rfl
  | cons a as ih =>
    cases bs with
    | nil => rfl
    | cons b bs =>
      rw [compareList, List.compareLex_cons_cons, ih]

theorem compareOption_swap (item : α → α → Ordering) [Std.OrientedCmp item] (a b : Option α) :
    compareOption item a b = (compareOption item b a).swap := by
  cases a with
  | none => cases b <;> rfl
  | some a =>
    cases b with
    | none => rfl
    | some b =>
      show item a b = (item b a).swap
      exact Std.OrientedCmp.eq_swap

theorem compareOption_trans (item : α → α → Ordering) [Std.TransCmp item] {a b c : Option α}
    (ab : (compareOption item a b).isLE) (bc : (compareOption item b c).isLE) :
    (compareOption item a c).isLE := by
  cases a with
  | none => cases c <;> rfl
  | some a =>
    cases b with
    | none => cases ab
    | some b =>
      cases c with
      | none => cases bc
      | some c =>
        have items : (item a b).isLE → (item b c).isLE → (item a c).isLE :=
          Std.TransCmp.isLE_trans
        exact items ab bc

end

/-- The order of every type is a total preorder. -/
theorem transCmp (o : Ordered) : Std.TransCmp o.compare := by
  induction o with
  | integer t => exact transCmp_on (fun n : t.Number => n.val) Ord.compare
  | text => exact inferInstanceAs (Std.TransOrd String)
  | list o ih =>
    have lists : compareList o.compare = List.compareLex o.compare := by
      funext as bs
      exact compareList_eq o.compare as bs
    show Std.TransCmp (compareList o.compare)
    rw [lists]
    infer_instance
  | option o ih =>
    exact { eq_swap := compareOption_swap o.compare _ _, isLE_trans := compareOption_trans o.compare }
  | pair o p first second =>
    have left := transCmp_on (Prod.fst : o.Carrier × p.Carrier → o.Carrier) o.compare
    have right := transCmp_on (Prod.snd : o.Carrier × p.Carrier → p.Carrier) p.compare
    show Std.TransCmp (compareLex (fun a b : o.Carrier × p.Carrier => o.compare a.1 b.1)
      fun a b => p.compare a.2 b.2)
    infer_instance
  | keyed => exact transCmp_on (fun k : Keyed => k.key.toInt) Ord.compare

section

variable {o : Ordered} {a b c : o.Carrier}

theorem gt_trans (ab : o.compare a b = .gt) (bc : o.compare b c = .gt) : o.compare a c = .gt := by
  have order := o.transCmp
  exact Std.TransCmp.gt_trans ab bc

theorem not_gt_trans (ab : o.compare a b ≠ .gt) (bc : o.compare b c ≠ .gt) :
    o.compare a c ≠ .gt := by
  have order := o.transCmp
  apply Ordering.isLE_iff_ne_gt.mp
  apply Std.TransCmp.isLE_trans (Ordering.isLE_iff_ne_gt.mpr ab)
  exact Ordering.isLE_iff_ne_gt.mpr bc

variable (o a b c)

/-- Both ways of joining three data keep the last of the largest ones. -/
theorem larger_assoc : o.larger (o.larger a b) c = o.larger a (o.larger b c) := by
  unfold larger
  by_cases ab : o.compare a b = .gt
  · by_cases bc : o.compare b c = .gt
    · simp [ab, bc, gt_trans ab bc]
    · simp [ab, bc]
  · by_cases bc : o.compare b c = .gt
    · simp [ab, bc]
    · simp [ab, bc, not_gt_trans ab bc]

/-- Both ways of joining three data keep the first of the smallest ones. -/
theorem smaller_assoc : o.smaller (o.smaller a b) c = o.smaller a (o.smaller b c) := by
  unfold smaller
  by_cases ab : o.compare a b = .gt
  · by_cases bc : o.compare b c = .gt
    · simp [ab, bc, gt_trans ab bc]
    · simp [ab, bc]
  · by_cases bc : o.compare b c = .gt
    · simp [ab, bc]
    · simp [ab, bc, not_gt_trans ab bc]

end

end Ordered

/-! ## Numbers without bounds -/

namespace Numeral

def isInteger : Numeral → Bool
  | .integer _ => true
  | .single | .double => false

def Exact : Numeral → Type
  | .integer _ => Int
  | .single => Float32
  | .double => Float

def exact : (n : Numeral) → n.Carrier → n.Exact
  | .integer _, a => a.val
  | .single, a => a
  | .double, a => a

def plus : (n : Numeral) → n.Exact → n.Exact → n.Exact
  | .integer _, a, b => Int.add a b
  | .single, a, b => Float32.add a b
  | .double, a, b => Float.add a b

def times : (n : Numeral) → n.Exact → n.Exact → n.Exact
  | .integer _, a, b => Int.mul a b
  | .single, a, b => Float32.mul a b
  | .double, a, b => Float.mul a b

/-- A sum is given exactly if it fits. -/
theorem add_eq_ok_iff (n : Numeral) (a b c : n.Carrier) :
    n.add a b = .ok c ↔ n.plus (n.exact a) (n.exact b) = n.exact c := by
  cases n with
  | integer t => exact t.fit_eq_ok_iff .addOverflow _ c
  | single | double => exact ⟨fun h => Except.ok.inj h, fun h => congrArg Except.ok h⟩

/-- A product is given exactly if it fits. -/
theorem mul_eq_ok_iff (n : Numeral) (a b c : n.Carrier) :
    n.mul a b = .ok c ↔ n.times (n.exact a) (n.exact b) = n.exact c := by
  cases n with
  | integer t => exact t.fit_eq_ok_iff .mulOverflow _ c
  | single | double => exact ⟨fun h => Except.ok.inj h, fun h => congrArg Except.ok h⟩

end Numeral

/-! ## Shapes without bounds -/

namespace Shape

/-- No part of the shape adds or multiplies floating-point numbers. -/
def isIntegral : Shape → Bool
  | .text | .unit | .list _ | .largest _ | .smallest _ => true
  | .option s => s.isIntegral
  | .pair s t => s.isIntegral && t.isIntegral
  | .sum n | .product n => n.isInteger

/-- The data of a shape, with numbers of any size. -/
def Exact : Shape → Type
  | .text => String
  | .unit => Unit
  | .list o => List o.Carrier
  | .option s => Option s.Exact
  | .pair s t => s.Exact × t.Exact
  | .sum n | .product n => n.Exact
  | .largest o | .smallest o => o.Carrier

def exact : (s : Shape) → s.Carrier → s.Exact
  | .text, a => a
  | .unit, a => a
  | .list _, a => a
  | .option s, a => Option.map s.exact a
  | .pair s t, a => (s.exact a.1, t.exact a.2)
  | .sum n, a | .product n, a => n.exact a
  | .largest _, a | .smallest _, a => a

/-- Joins optional data that can always be joined: what is absent gives way. -/
def joinOption {α : Type} (item : α → α → α) : Option α → Option α → Option α
  | some a, some b => some (item a b)
  | some a, none => some a
  | none, b => b

/-- Joins data without bounds. -/
def join : (s : Shape) → s.Exact → s.Exact → s.Exact
  | .text, (a : String), (b : String) => a ++ b
  | .unit, _, _ => ()
  | .list _, a, b => List.append a b
  | .option s, a, b => joinOption s.join a b
  | .pair s t, a, b => (s.join a.1 b.1, t.join a.2 b.2)
  | .sum n, a, b => n.plus a b
  | .product n, a, b => n.times a b
  | .largest o, a, b => o.larger a b
  | .smallest o, a, b => o.smaller a b

theorem combineOption_eq_ok_iff {α β : Type} {item : α → α → Except Fault α} {f : α → β}
    {total : β → β → β} (items : ∀ a b c, item a b = .ok c ↔ total (f a) (f b) = f c)
    (inj : ∀ a b, f a = f b → a = b) (a b c : Option α) : combineOption item a b = .ok c ↔
      joinOption total (a.map f) (b.map f) = c.map f := by
  have present : ∀ (a : α) (c : Option α), some a = c ↔ some (f a) = c.map f := by
    intro a c
    cases c with
    | none => simp
    | some c =>
      constructor
      · intro same
        exact congrArg (Option.map f) same
      · intro same
        exact congrArg some (inj a c (Option.some.inj same))
  cases a with
  | none =>
    cases b with
    | none => cases c <;> simp [combineOption, joinOption]
    | some b => simpa [combineOption, joinOption] using present b c
  | some a =>
    cases b with
    | none => simpa [combineOption, joinOption] using present a c
    | some b =>
      simp only [combineOption, joinOption, Option.map_some]
      cases joined : item a b with
      | error fault =>
        cases c with
        | none => simp [Except.map]
        | some c =>
          have apart := mt (items a b c).mpr
          simp [joined] at apart
          simp [Except.map, apart]
      | ok d =>
        rw [(items a b d).mp joined]
        simpa [Except.map] using present d c

theorem exact_injective (s : Shape) (a b : s.Carrier) (same : s.exact a = s.exact b) : a = b := by
  induction s with
  | text | unit | list | largest | smallest => exact same
  | option s ih => exact Option.map_injective (fun a b => ih a b) same
  | pair s t left right =>
    have both := Prod.mk.inj same
    exact Prod.ext (left _ _ both.1) (right _ _ both.2)
  | sum n | product n =>
    cases n with
    | integer t => exact Subtype.ext same
    | single | double => exact same

/-- Data can be joined exactly if the result without bounds can be represented. -/
theorem combine_eq_ok_iff (s : Shape) (a b c : s.Carrier) :
    s.combine a b = .ok c ↔ s.join (s.exact a) (s.exact b) = s.exact c := by
  induction s with
  | text | unit | list | largest | smallest =>
    exact ⟨fun h => Except.ok.inj h, fun h => congrArg Except.ok h⟩
  | option s ih => exact combineOption_eq_ok_iff ih s.exact_injective a b c
  | pair s t left right =>
    obtain ⟨c, d⟩ := c
    have parts : (pair s t).join ((pair s t).exact a) ((pair s t).exact b) = (pair s t).exact (c, d)
        ↔ s.combine a.1 b.1 = .ok c ∧ t.combine a.2 b.2 = .ok d := by
      rw [left, right]
      exact Prod.mk.injEq _ _ _ _ ▸ Iff.rfl
    rw [parts]
    simp only [combine, bind, Except.bind, pure, Except.pure]
    cases s.combine a.1 b.1 with
    | error fault => simp
    | ok first =>
      cases t.combine a.2 b.2 with
      | error fault => simp
      | ok second =>
        constructor
        · intro joined
          have same : (first, second) = (c, d) := Except.ok.inj joined
          cases same
          exact ⟨rfl, rfl⟩
        · rintro ⟨isFirst, isSecond⟩
          cases isFirst
          cases isSecond
          rfl
  | sum n => exact n.add_eq_ok_iff a b c
  | product n => exact n.mul_eq_ok_iff a b c

/-! ## Laws without bounds -/

theorem joinOption_assoc {α : Type} {item : α → α → α}
    (items : ∀ a b c, item (item a b) c = item a (item b c)) (a b c : Option α) :
    joinOption item (joinOption item a b) c = joinOption item a (joinOption item b c) := by
  cases a with
  | none => rfl
  | some a =>
    cases b with
    | none => rfl
    | some b =>
      cases c with
      | none => rfl
      | some c => exact congrArg some (items a b c)

theorem join_assoc {s : Shape} (integral : s.isIntegral = true) (a b c : s.Exact) :
    s.join (s.join a b) c = s.join a (s.join b c) := by
  induction s with
  | text => exact String.append_assoc
  | unit => rfl
  | list o => exact List.append_assoc a b c
  | option s ih => exact joinOption_assoc (ih integral) a b c
  | pair s t left right =>
    rw [isIntegral, Bool.and_eq_true] at integral
    exact Prod.ext (left integral.1 a.1 b.1 c.1) (right integral.2 a.2 b.2 c.2)
  | sum n =>
    cases n with
    | integer t => exact Int.add_assoc a b c
    | single | double => cases integral
  | product n =>
    cases n with
    | integer t => exact Int.mul_assoc a b c
    | single | double => cases integral
  | largest o => exact o.larger_assoc a b c
  | smallest o => exact o.smaller_assoc a b c

theorem join_neutral {s : Shape} (integral : s.isIntegral = true) {e : s.Carrier}
    (neutral : s.neutral? = some e) (a : s.Exact) :
    s.join (s.exact e) a = a ∧ s.join a (s.exact e) = a := by
  induction s with
  | text =>
    cases neutral
    exact ⟨String.empty_append, String.append_empty⟩
  | unit => exact ⟨rfl, rfl⟩
  | list o =>
    cases neutral
    exact ⟨rfl, List.append_nil a⟩
  | option s ih =>
    cases neutral
    cases a <;> exact ⟨rfl, rfl⟩
  | pair s t left right =>
    rw [isIntegral, Bool.and_eq_true] at integral
    cases isFirst : s.neutral? with
    | none => simp [neutral?, isFirst] at neutral
    | some first =>
      cases isSecond : t.neutral? with
      | none => simp [neutral?, isFirst, isSecond] at neutral
      | some second =>
        have both : (pair s t).neutral? = some (first, second) := by
          rw [neutral?, isFirst, isSecond]
          rfl
        cases both.symm.trans neutral
        obtain ⟨l, l'⟩ := left integral.1 isFirst a.1
        obtain ⟨r, r'⟩ := right integral.2 isSecond a.2
        exact ⟨Prod.ext l r, Prod.ext l' r'⟩
  | sum n =>
    cases neutral
    cases n with
    | integer t => exact ⟨Int.zero_add a, Int.add_zero a⟩
    | single | double => cases integral
  | product n =>
    cases neutral
    cases n with
    | integer t => exact ⟨Int.one_mul a, Int.mul_one a⟩
    | single | double => cases integral
  | largest | smallest => cases neutral

/-! ## Laws -/

/-- What is so of a shape with a neutral datum.  Where data cannot be joined, joining them is a
fault; the laws say in addition that one side is not a fault if the other is not. -/
structure Lawful (s : Shape) (e : s.Carrier) : Prop where
  /-- Joining data is a fault exactly if the result without bounds cannot be represented. -/
  joins : ∀ a b c, s.combine a b = .ok c ↔ s.join (s.exact a) (s.exact b) = s.exact c
  assoc : ∀ {a b c ab bc}, s.combine a b = .ok ab → s.combine b c = .ok bc →
    ∀ abc, s.combine ab c = .ok abc ↔ s.combine a bc = .ok abc
  neutral : ∀ a, s.combine e a = .ok a ∧ s.combine a e = .ok a
  combineAll_append : ∀ {α : Type} (read : α → Except Fault s.Carrier) {xs ys : List α}
    {b c : s.Carrier}, s.combineAll? read ys = some (.ok b) →
      s.combineAll? read (xs ++ ys) = some (.ok c) →
      ∃ a, s.combineAll? read xs = some (.ok a) ∧ s.combine a b = .ok c
  reduceAll_none : ∀ {α : Type} (read : α → Except Fault s.Carrier) (xs : List α),
    s.reduceAll read xs = .ok none ↔ xs = []
  reduceAll_some : ∀ {α : Type} (read : α → Except Fault s.Carrier) (xs : List α), xs ≠ [] →
    ∃ result, s.combineAll? read xs = some result ∧ s.reduceAll read xs = result.map some

section

variable {s : Shape} (integral : s.isIntegral = true)
include integral

theorem combine_assoc {a b c ab bc : s.Carrier} (left : s.combine a b = .ok ab)
    (right : s.combine b c = .ok bc) (abc : s.Carrier) :
    s.combine ab c = .ok abc ↔ s.combine a bc = .ok abc := by
  rw [combine_eq_ok_iff] at left right
  rw [combine_eq_ok_iff, combine_eq_ok_iff, ← left, ← right, join_assoc integral]

theorem combine_neutral {e : s.Carrier} (neutral : s.neutral? = some e) (a : s.Carrier) :
    s.combine e a = .ok a ∧ s.combine a e = .ok a := by
  rw [combine_eq_ok_iff, combine_eq_ok_iff]
  exact join_neutral integral neutral (s.exact a)

variable {α : Type} {read : α → Except Fault s.Carrier}

/-- A fold may begin with less, and what is missing be joined from the left afterwards. -/
theorem combineFrom_of_combine {p x y b c : s.Carrier} {items : List α}
    (start : s.combine p x = .ok y) (less : s.combineFrom read x items = .ok b)
    (all : s.combineFrom read y items = .ok c) : s.combine p b = .ok c := by
  induction items generalizing x y with
  | nil =>
    cases less
    cases all
    exact start
  | cons i rest ih =>
    rw [combineFrom] at less all
    cases found : read i with
    | error fault =>
      rw [found] at less
      cases less
    | ok v =>
      rw [found] at less all
      simp only [bind, Except.bind] at less all
      cases next : s.combine x v with
      | error fault =>
        rw [next] at less
        cases less
      | ok x' =>
        cases next' : s.combine y v with
        | error fault =>
          rw [next'] at all
          cases all
        | ok y' =>
          rw [next] at less
          rw [next'] at all
          have start' : s.combine p x' = .ok y' := (combine_assoc integral start next y').mp next'
          exact ih start' less all

end

/-- Every shape that has a neutral datum and no floating-point numbers is a monoid, and is folded
as monoids are. -/
theorem lawful_of_neutral {s : Shape} (integral : s.isIntegral = true)
    (hasNeutral : s.hasNeutral = true) : ∃ e, s.neutral? = some e ∧ s.Lawful e := by
  obtain ⟨e, neutral⟩ := Option.isSome_iff_exists.mp (s.isSome_neutral?.trans hasNeutral)
  have folds : ∀ {α : Type} (read : α → Except Fault s.Carrier) (xs : List α),
      s.combineAll? read xs = some (s.combineFrom read e xs) := by
    intro α read xs
    simp [combineAll?, neutral]
  refine ⟨e, neutral, s.combine_eq_ok_iff, combine_assoc integral, combine_neutral integral neutral,
    ?_, s.reduceAll_eq_none_iff, ?_⟩
  · intro α read xs ys b c right all
    rw [folds, Option.some.injEq] at right all
    rw [combineFrom_append] at all
    cases left : s.combineFrom read e xs with
    | error fault =>
      rw [left] at all
      cases all
    | ok a =>
      rw [left] at all
      refine ⟨a, by rw [folds, left], ?_⟩
      exact combineFrom_of_combine integral (combine_neutral integral neutral a).2 right all
  · intro α read xs nonempty
    refine ⟨_, folds read xs, ?_⟩
    cases xs with
    | nil => exact absurd rfl nonempty
    | cons x rest =>
      rw [reduceAll, combineFrom]
      cases read x with
      | error fault => rfl
      | ok v =>
        simp only [bind, Except.bind, (combine_neutral integral neutral v).1]
        cases s.combineFrom read v rest <;> rfl

/-- Optional pairs of a largest text and a list, beside a sum of bytes: the sum may overflow. -/
theorem lawful_of_neutral_nested : ∃ s : Shape, ∃ e, s.neutral? = some e ∧ s.Lawful e ∧
    ∃ a : s.Carrier, ∃ f, s.combine a a = .error f := by
  let byte : IntegerType := ⟨"i8", true, 8, by decide⟩
  let s : Shape := .pair (.option (.pair (.largest .text) (.list .text))) (.sum (.integer byte))
  obtain ⟨e, neutral, lawful⟩ := lawful_of_neutral (show s.isIntegral = true from rfl) rfl
  have holds : byte.Holds 100 := by decide
  exact ⟨s, e, neutral, lawful, (none, ⟨100, holds⟩), .addOverflow, rfl⟩

end Shape

end EffectFibers.Algebra
