import EffectFibers.Proofs.Shares

/-!
# Effects in turn

A program may evaluate effects one after the other and go on with what they come to, as a chain of
`flatMap` and `map` does.  What it comes to is said here without a machine, by what each of the
effects comes to (`InTurn`), and then for a loop that is somewhere on its way (`Position`): the
loop has come to the next effect, or makes a step that nothing else sees, or is at its end.

## Main definitions

* `InTurn`, `Climbs`: what a program comes to, and what a loop with frames does.
* `Position`: where a loop is, and what is still to be evaluated.

## Main statements

* `Position.next`: what a loop does next.
* `Pace.Next.goes`: a step of such a loop is seen by nobody else.
* `Runtime.Reachable.loop_unwinds`: the strand in which the loop of a run unwinds.
-/

namespace EffectFibers

variable {ι : Type}

/-! ## Steps that nobody sees -/

/-- A loop makes a step that reads and writes nothing but the loop. -/
inductive Pace.Next : Pace → Pace → Prop
  | resume {effect : Effect} : Next (.waiting effect) (.resumed effect)
  | start {effect : Effect} : Next (.resumed effect) (.eval [] effect)
  | pure {above : List Frame} {v : Value} :
      Next (.eval above (.pure v)) (.unwind above (.succeeded v))
  | fail {above : List Frame} {x : Value} :
      Next (.eval above (.fail x)) (.unwind above (.errored x))
  | map {above : List Frame} {source : Effect} {f : Value → Except Fault Value} :
      Next (.eval above (.map source f)) (.eval (.map f :: above) source)
  | bind {above : List Frame} {source : Effect} {f : Value → Effect} :
      Next (.eval above (.flatMap source f)) (.eval (.bind f :: above) source)
  | mapped {above : List Frame} {f : Value → Except Fault Value} {v w : Value} (h : f v = .ok w) :
      Next (.unwind (.map f :: above) (.succeeded v)) (.unwind above (.succeeded w))
  | bound {above : List Frame} {f : Value → Effect} {v : Value} :
      Next (.unwind (.bind f :: above) (.succeeded v)) (.eval above (f v))
  | mapFailed {above : List Frame} {f : Value → Except Fault Value} {x : Value} :
      Next (.unwind (.map f :: above) (.errored x)) (.unwind above (.errored x))
  | bindFailed {above : List Frame} {f : Value → Effect} {x : Value} :
      Next (.unwind (.bind f :: above) (.errored x)) (.unwind above (.errored x))
  | handle {above : List Frame} {source : Effect} {handler : Value → Effect} :
      Next (.eval above (.handleErrorWith source handler)) (.eval (.handle handler :: above) source)
  | handled {above : List Frame} {handler : Value → Effect} {x : Value} :
      Next (.unwind (.handle handler :: above) (.errored x)) (.eval above (handler x))
  | unhandled {above : List Frame} {handler : Value → Effect} {v : Value} :
      Next (.unwind (.handle handler :: above) (.succeeded v)) (.unwind above (.succeeded v))

/-- Such a step changes nothing but the strand of the loop. -/
theorem Pace.Next.goes {pace pace' : Pace} {loop : Loop} {s s' : Store} {run : TokenId}
    {role : Strand.Role} {μ' : Strand} {begun : Multiset Strand} {marks : List Moment}
    (next : pace.Next pace')
    (goes : Strand.Goes s ⟨run, role, pace.state loop⟩ s' μ' begun marks) :
    s' = s ∧ μ' = ⟨run, role, pace'.state loop⟩ ∧ begun = 0 ∧ marks = [] := by
  have turned {c : Config} (goes : Strand.Goes s ⟨run, role, .running c⟩ s' μ' begun marks)
      {progress : Progress} (step : ∀ worker, c.step worker s = (progress, s))
      (state : progress.state = pace'.state loop) :
      s' = s ∧ μ' = ⟨run, role, pace'.state loop⟩ ∧ begun = 0 ∧ marks = [] := by
    cases goes with
    | report run t result came h => cases h
    | @turn _ _ _ worker es new trace spawned =>
      rw [step worker] at trace spawned ⊢
      obtain rfl : es = [] := List.self_eq_append_left.mp trace
      obtain rfl : new = [] := List.self_eq_append_left.mp spawned
      exact ⟨rfl, by rw [state], rfl, rfl⟩
  cases next with
  | resume =>
    cases goes with
    | report run t result came h => cases h
    | poll => exact ⟨rfl, rfl, rfl, rfl⟩
  | mapped h =>
    refine turned goes (fun worker => (?_ : _ = (Machine.unwind ⟨loop.env, _⟩ _ [], s))) rfl
    simp only [Config.step, Machine.unwindStep, List.cons_append, Machine.frameStep, h]
  | start | pure | fail | map | bind | bound | mapFailed | bindFailed
  | handle | handled | unhandled =>
    exact turned goes (fun worker => rfl) rfl

/-! ## What a program comes to -/

/-- The program evaluates the effects with the labels of the list, one after the other, and comes
to the exit if they come to the results. -/
inductive InTurn (e : ι → Effect) (results : ι → Result) : List ι → Effect → Exit → Prop
  | pure (v : Value) : InTurn e results [] (.pure v) (.succeeded v)
  | fail (x : Value) : InTurn e results [] (.fail x) (.errored x)
  | operand (i : ι) : InTurn e results [i] (e i) (.ofExcept (results i))
  | map {l : List ι} {source : Effect} {f : Value → Except Fault Value} {v w : Value}
      (first : InTurn e results l source (.succeeded v)) (h : f v = .ok w) :
      InTurn e results l (.map source f) (.succeeded w)
  | mapFailed {l : List ι} {source : Effect} {f : Value → Except Fault Value} {x : Value}
      (first : InTurn e results l source (.errored x)) :
      InTurn e results l (.map source f) (.errored x)
  | bind {l l' : List ι} {source : Effect} {f : Value → Effect} {v : Value} {x : Exit}
      (first : InTurn e results l source (.succeeded v)) (next : InTurn e results l' (f v) x) :
      InTurn e results (l ++ l') (.flatMap source f) x
  | bindFailed {l : List ι} {source : Effect} {f : Value → Effect} {x : Value}
      (first : InTurn e results l source (.errored x)) :
      InTurn e results l (.flatMap source f) (.errored x)

/-- A loop that carries an exit up through its frames evaluates the effects with the labels of the
list on its way, and comes to the second exit. -/
inductive Climbs (e : ι → Effect) (results : ι → Result) : List ι → List Frame → Exit → Exit → Prop
  | nil (x : Exit) : Climbs e results [] [] x x
  | map {l : List ι} {frames : List Frame} {f : Value → Except Fault Value} {v w : Value} {z : Exit}
      (h : f v = .ok w) (rest : Climbs e results l frames (.succeeded w) z) :
      Climbs e results l (.map f :: frames) (.succeeded v) z
  | mapFailed {l : List ι} {frames : List Frame} {f : Value → Except Fault Value} {x : Value}
      {z : Exit} (rest : Climbs e results l frames (.errored x) z) :
      Climbs e results l (.map f :: frames) (.errored x) z
  | bind {l l' : List ι} {frames : List Frame} {f : Value → Effect} {v : Value} {x z : Exit}
      (next : InTurn e results l (f v) x) (rest : Climbs e results l' frames x z) :
      Climbs e results (l ++ l') (.bind f :: frames) (.succeeded v) z
  | bindFailed {l : List ι} {frames : List Frame} {f : Value → Effect} {x : Value} {z : Exit}
      (rest : Climbs e results l frames (.errored x) z) :
      Climbs e results l (.bind f :: frames) (.errored x) z

/-- Where a loop is: the effects with the labels of the list are still to be evaluated, and then
it comes to the exit. -/
inductive Position (e : ι → Effect) (results : ι → Result) (z : Exit) : List ι → Pace → Prop
  | waiting {l : List ι} {effect : Effect} (h : InTurn e results l effect z) :
      Position e results z l (.waiting effect)
  | resumed {l : List ι} {effect : Effect} (h : InTurn e results l effect z) :
      Position e results z l (.resumed effect)
  | eval {l l' : List ι} {above : List Frame} {effect : Effect} {x : Exit}
      (h : InTurn e results l effect x) (below : Climbs e results l' above x z) :
      Position e results z (l ++ l') (.eval above effect)
  | unwind {l : List ι} {above : List Frame} {x : Exit} (below : Climbs e results l above x z) :
      Position e results z l (.unwind above x)

/-- A loop makes a step that nobody sees, has come to the next effect, or is at its end. -/
theorem Position.next {e : ι → Effect} {results : ι → Result} {z : Exit} {l : List ι} {pace : Pace}
    (h : Position e results z l pace) :
    (∃ pace', pace.Next pace' ∧ Position e results z l pace') ∨
      (∃ i l' above, l = i :: l' ∧ pace = .eval above (e i) ∧
        Climbs e results l' above (.ofExcept (results i)) z) ∨
      l = [] ∧ pace = .unwind [] z := by
  cases h with
  | waiting h => exact .inl ⟨_, .resume, .resumed h⟩
  | resumed h =>
    refine .inl ⟨_, .start, ?_⟩
    rw [← l.append_nil]
    exact .eval h (.nil z)
  | @eval l l' above effect x h below =>
    cases h with
    | pure v => exact .inl ⟨_, .pure, .unwind below⟩
    | fail x => exact .inl ⟨_, .fail, .unwind below⟩
    | operand i => exact .inr (.inl ⟨i, l', above, rfl, rfl, below⟩)
    | map first h => exact .inl ⟨_, .map, .eval first (.map h below)⟩
    | mapFailed first => exact .inl ⟨_, .map, .eval first (.mapFailed below)⟩
    | bind first next =>
      refine .inl ⟨_, .bind, ?_⟩
      rw [List.append_assoc]
      exact .eval first (.bind next below)
    | bindFailed first => exact .inl ⟨_, .bind, .eval first (.bindFailed below)⟩
  | unwind below =>
    cases below with
    | nil => exact .inr (.inr ⟨rfl, rfl⟩)
    | map h rest => exact .inl ⟨_, .mapped h, .unwind rest⟩
    | mapFailed rest => exact .inl ⟨_, .mapFailed, .unwind rest⟩
    | bind next rest => exact .inl ⟨_, .bound, .eval next rest⟩
    | bindFailed rest => exact .inl ⟨_, .bindFailed, .unwind rest⟩

/-! ## The loop of a run -/

namespace Runtime

variable {σ : Runtime} {κ : Company} {b : Berth} {μ : Strand} {env : Env} {frames : List Frame}
  {x : Exit}

/-- The loop of a run is inside of no other one. -/
theorem Reachable.outermost (h : Reachable σ) (mem : κ ∈ σ.companies) (inside : b ∈ κ.berths)
    (token : b.token = κ.run) : b.room = .outer := by
  obtain outer | ⟨b', mem', φ, piece, hosts⟩ := (nest_company mem).inside b inside
  · exact outer
  · have young := (h.orderly κ mem).young b inside φ.token hosts.around
    obtain ⟨room', _⟩ := b'
    cases piece
    have older := h.separate.rooted _ _ (holds_of_berth mem mem')
    exact (Nat.not_lt.mpr older (token ▸ young)).elim

theorem unwinding_of_segment {segment : Segment} {l room : Room} :
    (⟨l, .fiber ⟨⟨env, frames⟩, .unwinding x⟩⟩ : Berth) ∉ segment.berths room := by
  induction segment generalizing room with
  | start | callback | future | gathering | shifted =>
    intro mem
    cases Multiset.mem_singleton.mp mem
  | acquiring _ _ _ _ ih | releasing _ _ _ _ ih | settling _ _ _ _ ih | remaining _ _ _ ih =>
    intro mem
    obtain same | mem := Multiset.mem_cons.mp mem
    · cases same
    · exact ih mem
  | racing _ _ _ _ ih ih' =>
    intro mem
    obtain same | mem := Multiset.mem_cons.mp mem
    · cases same
    · exact (Multiset.mem_add.mp mem).elim ih ih'

theorem unwinding_of_callers {l : Room} {callers : List Caller} :
    (⟨l, .fiber ⟨⟨env, frames⟩, .unwinding x⟩⟩ : Berth) ∉ Caller.allBerths callers := by
  intro mem
  induction callers with
  | nil => cases mem
  | cons caller callers ih =>
    obtain mem | mem := Multiset.mem_add.mp mem
    · cases caller with
      | acquiring | releasing | settling | remaining => cases Multiset.mem_singleton.mp mem
      | racingLeft | racingRight =>
        obtain same | mem := Multiset.mem_cons.mp mem
        · cases same
        · exact unwinding_of_segment mem
    · exact ih mem

/-- The strand in which the loop of a run unwinds does nothing else. -/
theorem Reachable.loop_unwinds (h : Reachable σ) (mem : μ ∈ σ.strands)
    (inside : ⟨⟨env, frames⟩, .unwinding x⟩ ∈ Post.fibers μ.posts) (token : env.token = μ.run) :
    μ.state = (Pace.unwind frames x).state ⟨env, []⟩ := by
  obtain ⟨l, inside⟩ := Post.mem_fibers.mp inside
  rw [← μ.map_berths] at inside
  obtain ⟨⟨room, piece⟩, inside, same⟩ := Multiset.mem_map.mp inside
  obtain rfl : piece = _ := congrArg Post.piece same
  obtain rfl : room = .outer :=
    h.outermost (Multiset.mem_map_of_mem Strand.company mem) inside token
  obtain ⟨run, role, state⟩ := μ
  cases state with
  | waiting segment => exact (unwinding_of_segment inside).elim
  | ended | faulted | dropped => cases inside
  | running c =>
    obtain ⟨focus, callers⟩ := c
    obtain inside | inside := Multiset.mem_add.mp inside
    · cases focus with
      | eval => cases congrArg Berth.piece (Multiset.mem_singleton.mp inside)
      | leave => cases inside
      | resume segment | park segment => exact (unwinding_of_segment inside).elim
      | unwind loop y =>
        have here := Multiset.mem_singleton.mp inside
        simp only [Loop.berth, Berth.mk.injEq, Piece.fiber.injEq, Fiber.mk.injEq,
          Doing.unwinding.injEq] at here
        obtain ⟨room, rfl, rfl⟩ := here
        cases callers with
        | nil => simp [Pace.state]
        | cons caller callers => cases caller <;> cases room
    · exact (unwinding_of_callers inside).elim

end Runtime

end EffectFibers
