import EffectFibers.Effect.Combinators
import EffectFibers.Proofs.Gathering
import EffectFibers.Proofs.Turns

/-!
# Sequential and parallel programs

A program may evaluate operands one after the other, up to the first that fails, and make something
of their values; or it may evaluate them all as a group, and make the same of their values.  Here
the two are brought together: both come to what is collected from the results of the operands.

## Main definitions

* `collected`: what is made of the results of the operands.
* `Chain`: sequential programs, and what they come to.
* `Effect.Counterparts`: a sequential program and the parallel one that is meant to do the same.

## Main statements

* `Chain.inTurn`: a sequential program evaluates its operands in turn.
* `Chain.Collects.map2`: a pair collects the values of both sides.
* `Effect.Counterparts.of_nested`: pairs in pairs, for any number of operands.
* `Effect.Counterparts.collects`, `Effect.Counterparts.gathers`: both come to what is collected.
-/

namespace EffectFibers

/-! ## What is collected -/

/-- What is made of the values of all operands, or the first failure among them. -/
def collected (finish : List Value → Except Fault Value) : List Result → Except Fault Result
  | [] => (finish []).map .ok
  | .ok v :: results => collected (fun vs => finish (v :: vs)) results
  | .error x :: _ => .ok (.error x)

/-- All results are values, or there is a first failure. -/
inductive FirstFailure : List Result → Prop
  | none (vs : List Value) : FirstFailure (vs.map .ok)
  | some (vs : List Value) (x : Value) (rest : List Result) :
      FirstFailure (vs.map .ok ++ .error x :: rest)

theorem firstFailure (results : List Result) : FirstFailure results := by
  induction results with
  | nil => exact .none []
  | cons result results ih =>
    cases result with
    | error x => exact .some [] x results
    | ok v =>
      cases ih with
      | none vs => exact .none (v :: vs)
      | some vs x rest => exact .some (v :: vs) x rest

section

variable {finish finish' : List Value → Except Fault Value}

theorem collected_append (vs : List Value) (rest : List Result) :
    collected finish (vs.map .ok ++ rest) = collected (fun ws => finish (vs ++ ws)) rest := by
  induction vs generalizing finish with
  | nil => rfl
  | cons v vs ih => exact ih

theorem collected_values (vs : List Value) :
    collected finish (vs.map .ok) = (finish vs).map .ok := by
  induction vs generalizing finish with
  | nil => rfl
  | cons v vs ih => exact ih

theorem collected_failure (vs : List Value) (x : Value) (rest : List Result) :
    collected finish (vs.map .ok ++ .error x :: rest) = .ok (.error x) :=
  collected_append vs _

theorem collected_congr (results : List Result)
    (same : ∀ vs, vs.length = results.length → finish vs = finish' vs) :
    collected finish results = collected finish' results := by
  cases firstFailure results with
  | none vs => rw [collected_values, collected_values, same vs (by simp)]
  | some vs x rest => rw [collected_failure, collected_failure]

end

/-- The exit of a group is made of all the values, or it is the first failure. -/
theorem together_of_results (results : List Result) :
    ∃ r, collected (fun vs => .ok (.list vs)) results = .ok r ∧
      Exit.Together (results.map .ofExcept) (.ofExcept r) := by
  cases firstFailure results with
  | none vs =>
    refine ⟨.ok (.list vs), collected_values vs, .succeeded ?_⟩
    rw [List.map_map]
    rfl
  | some vs x rest =>
    refine ⟨.error x, collected_failure vs x rest, .errored (i := vs.length) ?_ fun j y here => ?_⟩
    · simp [Outcome.ofExcept]
    · by_contra! lt
      rw [List.map_append, List.getElem?_append_left (by simpa using lt)] at here
      simp [lt, Outcome.ofExcept] at here

/-- The operands up to the first one that fails. -/
def untilFailure {n : Nat} (results : Fin n → Result) : List (Fin n) → List (Fin n)
  | [] => []
  | i :: l =>
    match results i with
    | .ok _ => i :: untilFailure results l
    | .error _ => [i]

section

variable {n : Nat} {results : Fin n → Result} {l l' : List (Fin n)}

theorem isPrefix_untilFailure (l : List (Fin n)) : untilFailure results l <+: l := by
  induction l with
  | nil => exact List.nil_prefix
  | cons i l ih =>
    rw [untilFailure]
    match results i with
    | .ok _ => exact List.cons_prefix_cons.mpr ⟨rfl, ih⟩
    | .error _ => exact List.cons_prefix_cons.mpr ⟨rfl, List.nil_prefix⟩

theorem untilFailure_append_of_values {vs : List Value} (values : l.map results = vs.map .ok) :
    untilFailure results (l ++ l') = l ++ untilFailure results l' := by
  induction l generalizing vs with
  | nil => rfl
  | cons i l ih =>
    cases vs with
    | nil => cases values
    | cons v vs =>
      obtain ⟨here, rest⟩ := List.cons.inj values
      rw [List.cons_append, untilFailure, here]
      exact congrArg (i :: ·) (ih rest)

theorem untilFailure_of_values {vs : List Value} (values : l.map results = vs.map .ok) :
    untilFailure results l = l := by
  have whole : untilFailure results (l ++ []) = l ++ untilFailure results [] :=
    untilFailure_append_of_values values
  rwa [untilFailure, List.append_nil] at whole

theorem length_of_values {vs : List Value} (values : l.map results = vs.map .ok) :
    vs.length = l.length := by
  simpa using (congrArg List.length values).symm

theorem untilFailure_append_of_failure {vs : List Value} {x : Value} {rest : List Result}
    (failure : l.map results = vs.map .ok ++ .error x :: rest) :
    untilFailure results (l ++ l') = untilFailure results l := by
  induction l generalizing vs with
  | nil => cases vs <;> cases failure
  | cons i l ih =>
    rw [List.cons_append, untilFailure, untilFailure]
    cases vs with
    | nil =>
      obtain ⟨here, -⟩ := List.cons.inj failure
      rw [here]
    | cons v vs =>
      obtain ⟨here, rest⟩ := List.cons.inj failure
      rw [here]
      exact congrArg (i :: ·) (ih rest)

end

/-! ## Sequential programs -/

/-- A program that evaluates operands one after the other, and goes on with their values. -/
inductive Chain (n : Nat) where
  | pure (v : Value)
  | operand (i : Fin n)
  | map (source : Chain n) (f : Value → Except Fault Value)
  | bind (source : Chain n) (next : Value → Chain n)

namespace Chain

variable {n : Nat}

def effect (e : Fin n → Effect) : Chain n → Effect
  | .pure v => .pure v
  | .operand i => e i
  | .map source f => (source.effect e).map f
  | .bind source next => (source.effect e).flatMap fun v => (next v).effect e

/-- What the program comes to, when the operands come to the results. -/
def result (results : Fin n → Result) : Chain n → Except Fault Result
  | .pure v => .ok (.ok v)
  | .operand i => .ok (results i)
  | .map source f =>
    match source.result results with
    | .ok (.ok v) => (f v).map .ok
    | failed => failed
  | .bind source next =>
    match source.result results with
    | .ok (.ok v) => (next v).result results
    | failed => failed

/-- The operands that it evaluates. -/
def visits (results : Fin n → Result) : Chain n → List (Fin n)
  | .pure _ => []
  | .operand i => [i]
  | .map source _ => source.visits results
  | .bind source next =>
    match source.result results with
    | .ok (.ok v) => source.visits results ++ (next v).visits results
    | _ => source.visits results

variable {e : Fin n → Effect} {results : Fin n → Result} {r : Result}

/-- A sequential program evaluates its operands in turn. -/
theorem inTurn (c : Chain n) (h : c.result results = .ok r) :
    InTurn e results (c.visits results) (c.effect e) (.ofExcept r) := by
  induction c generalizing r with
  | pure v =>
    cases h
    exact .pure v
  | operand i =>
    cases h
    exact .operand i
  | map source f ih =>
    rw [result] at h
    match first : source.result results with
    | .error fault =>
      rw [first] at h
      cases h
    | .ok (.error x) =>
      rw [first] at h
      cases h
      exact .mapFailed (ih first)
    | .ok (.ok v) =>
      rw [first] at h
      cases applied : f v with
      | error fault =>
        simp only [applied] at h
        cases h
      | ok w =>
        simp only [applied] at h
        cases h
        exact .map (ih first) applied
  | bind source next ih ih' =>
    rw [result] at h
    rw [visits]
    match first : source.result results with
    | .error fault =>
      rw [first] at h
      cases h
    | .ok (.error x) =>
      rw [first] at h
      cases h
      exact .bindFailed (ih first)
    | .ok (.ok v) =>
      rw [first] at h
      exact .bind (ih first) (ih' v h)

/-- The program collects the values of the operands in the list, and stops at the first failure. -/
structure Collects (c : Chain n) (l : List (Fin n)) (finish : List Value → Except Fault Value) :
    Prop where
  result (results : Fin n → Result) : c.result results = collected finish (l.map results)
  visits (results : Fin n → Result) : c.visits results = untilFailure results l

theorem Collects.pure {v : Value} {finish : List Value → Except Fault Value}
    (h : finish [] = .ok v) : (Chain.pure v : Chain n).Collects [] finish := by
  refine ⟨fun results => ?_, fun _ => rfl⟩
  rw [List.map_nil, collected, h]
  rfl

theorem Collects.operand (i : Fin n) :
    (Chain.operand i).Collects [i] fun vs => .ok (vs.headD .null) := by
  refine ⟨fun results => ?_, fun results => ?_⟩
  · rw [Chain.result, List.map_cons]
    cases results i <;> rfl
  · rw [Chain.visits, untilFailure]
    cases results i <;> rfl

/-- What collects the values of the one part, then those of the other. -/
theorem Collects.bind {c : Chain n} {next : Value → Chain n} {l l' : List (Fin n)}
    {f : List Value → Value} {finish : List Value → Except Fault Value}
    (first : c.Collects l fun vs => .ok (f vs))
    (h : ∀ vs, vs.length = l.length → (next (f vs)).Collects l' fun ws => finish (vs ++ ws)) :
    (Chain.bind c next).Collects (l ++ l') finish := by
  refine ⟨fun results => ?_, fun results => ?_⟩
  · rw [Chain.result, first.result, List.map_append]
    generalize values : l.map results = rs
    cases firstFailure rs with
    | none vs =>
      rw [collected_values, collected_append]
      exact (h vs (length_of_values values)).result results
    | some vs x rest =>
      rw [collected_failure, List.append_assoc, List.cons_append, collected_failure]
  · rw [Chain.visits, first.result, first.visits]
    generalize values : l.map results = rs
    cases firstFailure rs with
    | none vs =>
      rw [collected_values, untilFailure_append_of_values values, untilFailure_of_values values]
      exact congrArg (l ++ ·) ((h vs (length_of_values values)).visits results)
    | some vs x rest => rw [collected_failure, untilFailure_append_of_failure values]

theorem Collects.map {c : Chain n} {l : List (Fin n)} {f : List Value → Value}
    {g : Value → Except Fault Value} {finish : List Value → Except Fault Value}
    (first : c.Collects l fun vs => .ok (f vs))
    (h : ∀ vs, vs.length = l.length → g (f vs) = finish vs) :
    (Chain.map c g).Collects l finish := by
  refine ⟨fun results => ?_, fun results => first.visits results⟩
  rw [Chain.result, first.result]
  generalize values : l.map results = rs
  cases firstFailure rs with
  | none vs =>
    rw [collected_values, collected_values, ← h vs (length_of_values values)]
    rfl
  | some vs x rest => rw [collected_failure, collected_failure]

/-- The values of two programs, with each other. -/
def map2 (left right : Chain n) (f : Value → Value → Except Fault Value) : Chain n :=
  .bind left fun a => .map right fun b => f a b

theorem Collects.map2 {c c' : Chain n} {l l' : List (Fin n)} {f g : List Value → Value}
    {combine : Value → Value → Except Fault Value} {finish : List Value → Except Fault Value}
    (left : c.Collects l fun vs => .ok (f vs)) (right : c'.Collects l' fun vs => .ok (g vs))
    (h : ∀ vs ws, vs.length = l.length → ws.length = l'.length →
      combine (f vs) (g ws) = finish (vs ++ ws)) :
    (c.map2 c' combine).Collects (l ++ l') finish :=
  left.bind fun vs length => right.map fun ws length' => h vs ws length length'

/-- The values of a list of operands, after those that are there. -/
def ofList (vs : List Value) : List (Fin n) → Chain n
  | [] => .pure (.list vs)
  | i :: l => .bind (.operand i) fun v => ofList (vs ++ [v]) l

theorem Collects.ofList (vs : List Value) (l : List (Fin n)) :
    (Chain.ofList vs l).Collects l fun ws => .ok (.list (vs ++ ws)) := by
  induction l generalizing vs with
  | nil => exact .pure (by rw [List.append_nil])
  | cons i l ih =>
    change Collects _ ([i] ++ l) _
    refine (Collects.operand i).bind fun us length => ?_
    obtain ⟨v, rfl⟩ := List.length_eq_one_iff.mp length
    simpa using ih (vs ++ [v])

/-- The list of the values of a list of operands, each paired with those of the rest. -/
def nest : List (Fin n) → Chain n
  | [] => .pure (.list [])
  | i :: l => (Chain.operand i).map2 (nest l) fun v vs => .ok (.list (v :: vs.items))

theorem Collects.nest (l : List (Fin n)) : (Chain.nest l).Collects l fun vs => .ok (.list vs) := by
  induction l with
  | nil => exact .pure rfl
  | cons i l ih =>
    change Collects _ ([i] ++ l) _
    refine (Collects.operand i).map2 ih fun vs ws length _ => ?_
    obtain ⟨v, rfl⟩ := List.length_eq_one_iff.mp length
    rfl

end Chain

/-- What follows a program that gives the list of values makes of it what is made of the values. -/
theorem InTurn.map_of_collected {ι : Type} {e : ι → Effect} {results : ι → Result} {l : List ι}
    {source : Effect} {rs : List Result} {r r' : Result}
    {finish : List Value → Except Fault Value} {f : Value → Except Fault Value}
    (turn : InTurn e results l source (.ofExcept r'))
    (same : collected (fun vs => .ok (.list vs)) rs = .ok r')
    (whole : collected finish rs = .ok r)
    (h : ∀ vs, vs.length = rs.length → f (.list vs) = finish vs) :
    InTurn e results l (.map source f) (.ofExcept r) := by
  cases firstFailure rs with
  | none vs =>
    rw [collected_values] at whole same
    rw [← h vs (by simp)] at whole
    cases same
    cases applied : f (.list vs) with
    | error fault =>
      rw [applied] at whole
      cases whole
    | ok w =>
      rw [applied] at whole
      cases whole
      exact .map turn applied
  | some vs x rest =>
    rw [collected_failure] at whole same
    cases whole
    cases same
    exact .mapFailed turn

/-! ## Counterparts -/

namespace Effect

/-- The effects one after the other, and the list of their values after those that are there. -/
def collecting (vs : List Value) : List Effect → Effect
  | [] => .pure (.list vs)
  | e :: es => e.flatMap fun v => collecting (vs ++ [v]) es

/-- The list of the values of the effects, each paired with those of the rest. -/
def nested : List Effect → Effect
  | [] => .pure (.list [])
  | e :: es => map2 e (nested es) fun v vs => .ok (.list (v :: vs.items))

/-- What is made of two values. -/
def pairwise (f : Value → Value → Except Fault Value) : List Value → Except Fault Value
  | [a, b] => f a b
  | _ => .ok .null

theorem collecting_ofList {n : Nat} (e : Fin n → Effect) (vs : List Value) (l : List (Fin n)) :
    (Chain.ofList vs l).effect e = collecting vs (l.map e) := by
  induction l generalizing vs with
  | nil => rfl
  | cons i l ih => exact congrArg (Effect.flatMap (e i)) (funext fun v => ih (vs ++ [v]))

theorem nested_nest {n : Nat} (e : Fin n → Effect) (l : List (Fin n)) :
    (Chain.nest l).effect e = nested (l.map e) := by
  induction l with
  | nil => rfl
  | cons i l ih =>
    exact congrArg (map2 (e i) · fun v vs => .ok (.list (v :: vs.items))) ih

/-- A sequential program of the operands and the parallel one, and what both make of the values. -/
inductive Counterparts (es : List Effect) :
    Effect → Effect → (List Value → Except Fault Value) → Prop
  /-- The list of all values. -/
  | sequence : Counterparts es (collecting [] es) (parSequence es) fun vs => .ok (.list vs)
  /-- Both values as a pair. -/
  | zip {left right : Effect} (operands : es = [left, right]) :
      Counterparts es (product left right) (parZip left right)
        (pairwise fun a b => .ok (.list [a, b]))
  /-- A function of two values. -/
  | map {left right : Effect} {f : Value → Value → Except Fault Value}
      (operands : es = [left, right]) :
      Counterparts es (map2 left right f) (parMap left right f) (pairwise f)
  /-- A function of any number of values, which another program collects. -/
  | many {c : Chain es.length} {finish : List Value → Except Fault Value}
      (collects : c.Collects (List.finRange es.length) finish) :
      Counterparts es (c.effect es.get) ((parSequence es).map fun v => finish v.items) finish

namespace Counterparts

/-- Pairs in pairs make of any number of values what a group makes of them. -/
theorem of_nested (es : List Effect) (finish : List Value → Except Fault Value) :
    Counterparts es ((nested es).map fun v => finish v.items)
      ((parSequence es).map fun v => finish v.items) finish := by
  have collects : (Chain.map (.nest (List.finRange es.length)) fun v => finish v.items).Collects
      (List.finRange es.length) finish := (Chain.Collects.nest _).map fun vs _ => rfl
  have same : (Chain.nest (List.finRange es.length)).effect es.get = nested es := by
    rw [nested_nest, List.map_get_finRange]
  rw [← same]
  exact .many collects

variable {es : List Effect} {sequential parallel : Effect}
  {finish : List Value → Except Fault Value}

/-- The sequential program collects the values of all operands. -/
theorem collects (h : Counterparts es sequential parallel finish) :
    ∃ c : Chain es.length, c.effect es.get = sequential ∧
      c.Collects (List.finRange es.length) finish := by
  have pair {left right : Effect} (f : Value → Value → Except Fault Value) :
      ((Chain.operand 0).map2 (.operand 1) f : Chain [left, right].length).Collects
        (List.finRange 2) (pairwise f) := by
    change Chain.Collects _ ([0] ++ [1]) _
    refine (Chain.Collects.operand 0).map2 (.operand 1) fun vs ws length length' => ?_
    obtain ⟨v, rfl⟩ := List.length_eq_one_iff.mp length
    obtain ⟨w, rfl⟩ := List.length_eq_one_iff.mp length'
    rfl
  cases h with
  | sequence =>
    refine ⟨.ofList [] (List.finRange es.length), ?_, Chain.Collects.ofList [] _⟩
    rw [collecting_ofList, List.map_get_finRange]
  | zip operands =>
    subst operands
    exact ⟨_, rfl, pair _⟩
  | map operands =>
    subst operands
    exact ⟨_, rfl, pair _⟩
  | many collects => exact ⟨_, rfl, collects⟩

/-- The group of all operands, and what is made of its values. -/
theorem gathers {results : Fin es.length → Result} {r : Result}
    (h : Counterparts es sequential parallel finish)
    (whole : collected finish (List.ofFn results) = .ok r) :
    ∃ r', Exit.Together (List.ofFn fun i => .ofExcept (results i)) (.ofExcept r') ∧
      InTurn (fun _ : Unit => .parallel es.length es.get) (fun _ => r') [()] parallel
        (.ofExcept r) := by
  obtain ⟨r', same, together⟩ := together_of_results (List.ofFn results)
  rw [List.map_ofFn] at together
  refine ⟨r', together, ?_⟩
  have length : (List.ofFn results).length = es.length := List.length_ofFn
  have turn : InTurn (fun _ : Unit => .parallel es.length es.get) (fun _ => r') [()]
      (parSequence es) (.ofExcept r') := .operand ()
  have map {f : Value → Except Fault Value}
      (h : ∀ vs, vs.length = es.length → f (.list vs) = finish vs) :=
    InTurn.map_of_collected turn same whole fun vs length' => h vs (length'.trans length)
  cases h with
  | sequence =>
    cases whole.symm.trans same
    exact turn
  | zip operands =>
    subst operands
    have list : collected (pairwise fun a b => .ok (.list [a, b])) (List.ofFn results) =
        collected (fun vs => .ok (.list vs)) (List.ofFn results) := by
      refine collected_congr _ fun vs length' => ?_
      obtain ⟨v, w, rfl⟩ := List.length_eq_two.mp (length'.trans length)
      rfl
    cases (list.symm.trans whole).symm.trans same
    exact turn
  | map operands =>
    subst operands
    refine map fun vs length => ?_
    obtain ⟨v, w, rfl⟩ := List.length_eq_two.mp length
    rfl
  | many collects => exact map fun vs _ => rfl

end Counterparts

end Effect

end EffectFibers
