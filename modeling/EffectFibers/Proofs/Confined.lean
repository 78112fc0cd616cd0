import EffectFibers.Proofs.Openings
import EffectFibers.Proofs.Turns

/-!
# Effects that work on memory of their own

An effect without suspension points may read and write a part of the memory that nobody else
writes, such as the cells that it was given.  What it comes to is said here by what it sees of the
memory (`Effect.Yields`).  In the ambit in which nobody changes that part it comes to just this,
and it leaves alone whoever sees another part.

## Main definitions

* `Effect.Yields`: what an effect comes to that sees a part of the memory.
* `Ambit.seeing`: nobody else changes what is seen.

## Main statements

* `Effect.Yields.comesTo`: an effect comes to what it yields.
* `Effect.Yields.respects`: effects that see different parts leave each other alone.
-/

namespace EffectFibers

variable {P P' : Type} {view : Memory → P} {view' : Memory → P'} {keeps : Memory → Memory → Prop}

/-! ## What an effect yields -/

/-- The effect reads nothing of the memory but the view, and each of its steps on the memory is
one of those that keep what is outside: from the first view it comes to the exit, with the second
view. -/
inductive Effect.Yields (view : Memory → P) (keeps : Memory → Memory → Prop) :
    P → Effect → P → Exit → Prop
  | pure (p : P) (v : Value) : Yields view keeps p (.pure v) p (.succeeded v)
  | fail (p : P) (x : Value) : Yields view keeps p (.fail x) p (.errored x)
  | perform {p p' q : P} {act : Site → Memory → Except Fault Reply × Memory} {reply : Reply}
      {next : Reply → Effect} {x : Exit}
      (acts : ∀ site m, view m = p →
        ∃ m', act site m = (.ok reply, m') ∧ view m' = p' ∧ keeps m m')
      (rest : Yields view keeps p' (next reply) q x) : Yields view keeps p (.perform act next) q x
  | map {p q : P} {source : Effect} {f : Value → Except Fault Value} {v w : Value}
      (first : Yields view keeps p source q (.succeeded v)) (h : f v = .ok w) :
      Yields view keeps p (.map source f) q (.succeeded w)
  | mapFailed {p q : P} {source : Effect} {f : Value → Except Fault Value} {x : Value}
      (first : Yields view keeps p source q (.errored x)) :
      Yields view keeps p (.map source f) q (.errored x)
  | bind {p p' q : P} {source : Effect} {f : Value → Effect} {v : Value} {x : Exit}
      (first : Yields view keeps p source p' (.succeeded v))
      (next : Yields view keeps p' (f v) q x) : Yields view keeps p (.flatMap source f) q x
  | bindFailed {p q : P} {source : Effect} {f : Value → Effect} {x : Value}
      (first : Yields view keeps p source q (.errored x)) :
      Yields view keeps p (.flatMap source f) q (.errored x)
  | handled {p p' q : P} {source : Effect} {handler : Value → Effect} {x : Value} {y : Exit}
      (first : Yields view keeps p source p' (.errored x))
      (next : Yields view keeps p' (handler x) q y) :
      Yields view keeps p (.handleErrorWith source handler) q y
  | unhandled {p q : P} {source : Effect} {handler : Value → Effect} {v : Value}
      (first : Yields view keeps p source q (.succeeded v)) :
      Yields view keeps p (.handleErrorWith source handler) q (.succeeded v)

/-- The same for an exit that is carried up through frames. -/
inductive Frame.Yields (view : Memory → P) (keeps : Memory → Memory → Prop) (z : Exit) :
    P → List Frame → Exit → Prop
  | nil (p : P) : Yields view keeps z p [] z
  | map {p : P} {frames : List Frame} {f : Value → Except Fault Value} {v w : Value}
      (h : f v = .ok w) (rest : Yields view keeps z p frames (.succeeded w)) :
      Yields view keeps z p (.map f :: frames) (.succeeded v)
  | mapFailed {p : P} {frames : List Frame} {f : Value → Except Fault Value} {x : Value}
      (rest : Yields view keeps z p frames (.errored x)) :
      Yields view keeps z p (.map f :: frames) (.errored x)
  | bind {p q : P} {frames : List Frame} {f : Value → Effect} {v : Value} {x : Exit}
      (next : (f v).Yields view keeps p q x) (rest : Yields view keeps z q frames x) :
      Yields view keeps z p (.bind f :: frames) (.succeeded v)
  | bindFailed {p : P} {frames : List Frame} {f : Value → Effect} {x : Value}
      (rest : Yields view keeps z p frames (.errored x)) :
      Yields view keeps z p (.bind f :: frames) (.errored x)
  | handled {p q : P} {frames : List Frame} {handler : Value → Effect} {x : Value} {y : Exit}
      (next : (handler x).Yields view keeps p q y) (rest : Yields view keeps z q frames y) :
      Yields view keeps z p (.handle handler :: frames) (.errored x)
  | unhandled {p : P} {frames : List Frame} {handler : Value → Effect} {v : Value}
      (rest : Yields view keeps z p frames (.succeeded v)) :
      Yields view keeps z p (.handle handler :: frames) (.succeeded v)

/-! ## The loop -/

namespace Pace

/-- A loop is on its way to the exit. -/
inductive Yields (view : Memory → P) (keeps : Memory → Memory → Prop) (z : Exit) : P → Pace → Prop
  | waiting {p q : P} {effect : Effect} (h : effect.Yields view keeps p q z) :
      Yields view keeps z p (.waiting effect)
  | resumed {p q : P} {effect : Effect} (h : effect.Yields view keeps p q z) :
      Yields view keeps z p (.resumed effect)
  | eval {p q : P} {above : List Frame} {effect : Effect} {x : Exit}
      (h : effect.Yields view keeps p q x) (below : Frame.Yields view keeps z q above x) :
      Yields view keeps z p (.eval above effect)
  | unwind {p : P} {above : List Frame} {x : Exit} (below : Frame.Yields view keeps z p above x) :
      Yields view keeps z p (.unwind above x)

variable {p : P} {pace : Pace} {loop : Loop} {s s' : Store} {run : TokenId} {role : Strand.Role}
  {μ' : Strand} {begun : Multiset Strand} {marks : List Moment} {z : Exit}

/-- The loop makes a step that nobody sees, or one on the memory, or is at its end. -/
theorem Yields.next (h : pace.Yields view keeps z p) :
    (∃ pace', pace.Next pace' ∧ pace'.Yields view keeps z p) ∨
      (∃ above act next reply q, pace = .eval above (.perform act next) ∧
        (∀ site m, view m = p →
          ∃ m', act site m = (.ok reply, m') ∧ view m' = q ∧ keeps m m') ∧
        (Pace.eval above (next reply)).Yields view keeps z q) ∨
      pace = .unwind [] z := by
  cases h with
  | waiting h => exact .inl ⟨_, .resume, .resumed h⟩
  | resumed h => exact .inl ⟨_, .start, .eval h (.nil _)⟩
  | @eval _ above effect x h below =>
    cases h with
    | pure v => exact .inl ⟨_, .pure, .unwind below⟩
    | fail x => exact .inl ⟨_, .fail, .unwind below⟩
    | perform acts rest => exact .inr (.inl ⟨above, _, _, _, _, rfl, acts, .eval rest below⟩)
    | map first h => exact .inl ⟨_, .map, .eval first (.map h below)⟩
    | mapFailed first => exact .inl ⟨_, .map, .eval first (.mapFailed below)⟩
    | bind first next => exact .inl ⟨_, .bind, .eval first (.bind next below)⟩
    | bindFailed first => exact .inl ⟨_, .bind, .eval first (.bindFailed below)⟩
    | handled first next => exact .inl ⟨_, .handle, .eval first (.handled next below)⟩
    | unhandled first => exact .inl ⟨_, .handle, .eval first (.unhandled below)⟩
  | unwind below =>
    cases below with
    | nil => exact .inr (.inr rfl)
    | map h rest => exact .inl ⟨_, .mapped h, .unwind rest⟩
    | mapFailed rest => exact .inl ⟨_, .mapFailed, .unwind rest⟩
    | bind next rest => exact .inl ⟨_, .bound, .eval next rest⟩
    | bindFailed rest => exact .inl ⟨_, .bindFailed, .unwind rest⟩
    | handled next rest => exact .inl ⟨_, .handled, .eval next rest⟩
    | unhandled rest => exact .inl ⟨_, .unhandled, .unwind rest⟩

/-- A step on the memory changes nothing else. -/
theorem goes_perform {above : List Frame} {act : Site → Memory → Except Fault Reply × Memory}
    {next : Reply → Effect} {reply : Reply} {Q : Memory → Prop}
    (goes : Strand.Goes s ⟨run, role, (Pace.eval above (.perform act next)).state loop⟩ s' μ' begun
      marks) (acts : ∀ site, ∃ m', act site s.memory = (.ok reply, m') ∧ Q m') :
    Q s'.memory ∧ μ' = ⟨run, role, (Pace.eval above (next reply)).state loop⟩ ∧ begun = 0 := by
  rw [state] at goes
  cases goes with
  | report run t result came h => cases h
  | @turn _ _ _ worker es new trace spawned =>
    obtain ⟨m', ok, holds⟩ := acts ⟨worker.thread, s.time⟩
    have step : Config.step worker
        ⟨.eval ⟨loop.env, above ++ loop.frames⟩ (.perform act next), []⟩ s =
        (.next ⟨.eval ⟨loop.env, above ++ loop.frames⟩ (next reply), []⟩,
          { s with memory := m' }) := by
      simp only [Config.step, Machine.evalStep, ok, Machine.eval]
    rw [step] at spawned ⊢
    obtain rfl : new = [] := List.self_eq_append_left.mp spawned
    exact ⟨holds, rfl, rfl⟩

/-- A loop that ends leaves the memory as it is. -/
theorem memory_of_leaves {env : Env}
    (goes : Strand.Goes s ⟨run, role, (Pace.unwind [] z).state ⟨env, []⟩⟩ s' μ' begun marks) :
    s'.memory = s.memory := by
  rw [state] at goes
  cases goes with
  | report run t result came h => cases h
  | turn => rfl

/-- A step of the loop keeps what is outside of the view, or the loop is at its end. -/
theorem Yields.goes (h : pace.Yields view keeps z (view s.memory))
    (goes : Strand.Goes s ⟨run, role, pace.state loop⟩ s' μ' begun marks) :
    pace = .unwind [] z ∨ ∃ pace' : Pace, pace'.Yields view keeps z (view s'.memory) ∧
      μ' = ⟨run, role, pace'.state loop⟩ ∧ begun = 0 ∧
      (s'.memory = s.memory ∨ keeps s.memory s'.memory) := by
  obtain ⟨pace', next, yields⟩ | ⟨above, act, next, reply, q, rfl, acts, yields⟩ | rfl := h.next
  · obtain ⟨rfl, rfl, rfl, rfl⟩ := next.goes goes
    exact .inr ⟨pace', yields, rfl, rfl, .inl rfl⟩
  · obtain ⟨⟨seen, kept⟩, rfl, rfl⟩ := goes_perform goes fun site => acts site _ rfl
    exact .inr ⟨_, seen ▸ yields, rfl, rfl, .inr kept⟩
  · exact .inl rfl

end Pace

/-- A strand that carries out nothing leaves the memory as it is. -/
theorem Strand.Goes.memory_of_idle {s s' : Store} {μ μ' : Strand} {begun : Multiset Strand}
    {marks : List Moment} (goes : μ.Goes s s' μ' begun marks) (none : μ.posts = 0) :
    s'.memory = s.memory := by
  have posts (segment : Segment) (l : Link) (ps : Multiset Post) : segment.posts l + ps ≠ 0 := by
    cases segment <;> simp [Segment.posts]
  cases goes with
  | poll => rfl
  | report =>
    rw [Store.finish]
    exact congrArg Face.memory (Store.face_wakeAll _ _)
  | turn run role c worker trace spawned =>
    obtain ⟨focus, callers⟩ := c
    have idle : Config.posts ⟨focus, callers⟩ = 0 := none
    cases focus with
    | eval loop effect => simp at idle
    | unwind loop x => simp at idle
    | leave x =>
      cases callers with
      | nil => rfl
      | cons caller callers =>
        rw [Config.posts_leave] at idle
        cases caller <;> simp [Caller.allPosts, Caller.posts] at idle
    | resume segment | park segment => exact (posts segment _ _ idle).elim

/-! ## The effect by itself -/

/-- The ambit of an effect that sees the view as it is, and relies on nobody to change it. -/
def Ambit.seeing (view : Memory → P) (p : P) : Ambit where
  named _ := False
  opens s := view s.memory = p
  allows _ f f' := view f.memory = view f'.memory
  idle _ _ := rfl

namespace Effect

variable {p q : P} {p' : P'} {effect : Effect} {π : Runtime} {deeds : List Transition} {o : Outset}
  {z : Exit}

/-- The effect by itself: it sees what it is to begin with, or its loop is on its way, or nothing
of it is left. -/
theorem Yields.alone {outset : Option Outset} (h : effect.Yields view keeps p q z)
    (alone : effect.Alone (Ambit.seeing view p) π deeds outset) :
    (outset = none → view π.store.memory = p) ∧ ∀ o, outset = some o →
      (∃ pace : Pace, pace.Yields view keeps z (view π.store.memory) ∧
        π.strands = {⟨o.run, o.role, pace.state o.loop⟩}) ∨ ∀ μ ∈ π.strands, μ.posts = 0 := by
  induction alone with
  | opens begins => exact ⟨fun _ => begins.opens, fun o began => by cases began⟩
  | waits before size spares ih =>
    exact ⟨fun _ => spares.face.symm.trans (ih.1 rfl), fun o began => by cases began⟩
  | @begins σ log deeds state o before reached about size ih =>
    refine ⟨fun none => (by cases none), fun o began => ?_⟩
    cases began
    have seen : view σ.store.memory = p := ih.1 rfl
    rw [← seen] at h
    cases about with
    | waiting => exact .inl ⟨.waiting effect, .waiting h, rfl⟩
    | resumed => exact .inl ⟨.resumed effect, .resumed h, rfl⟩
    | running => exact .inl ⟨.eval [] effect, .eval h (.nil q), rfl⟩
  | @own π π' deeds o before busy act ih =>
    refine ⟨fun none => (by cases none), fun o began => ?_⟩
    cases began
    obtain ⟨pace, yields, strands⟩ | none := ih.2 o rfl
    · obtain @⟨s, s', μ, μ', begun, marks, goes, rest, log⟩ := act
      obtain ⟨rfl, rfl⟩ := (Multiset.singleton_eq_cons_iff _).mp strands.symm
      obtain rfl | ⟨pace', yields', rfl, rfl, -⟩ := yields.goes goes
      · obtain ⟨run, role, ⟨env, frames⟩, size⟩ := o
        obtain rfl : frames = [] := Pace.bare_of_busy busy
        rw [add_zero]
        exact .inr fun ν mem => Pace.leaves goes mem
      · exact .inl ⟨pace', yields', rfl⟩
    · exact .inr (idle_of_act act none)
  | @around π s deeds o before around ih =>
    refine ⟨fun none => (by cases none), fun o began => ?_⟩
    cases began
    obtain ⟨pace, yields, strands⟩ | none := ih.2 o rfl
    · have same : view π.store.memory = view s.memory := around.spares.face
      exact .inl ⟨pace, same ▸ yields, strands⟩
    · exact .inr none
  | @yields s μ own log deeds o y before past ih =>
    refine ⟨fun none => (by cases none), fun o began => .inr fun ν mem => ?_⟩
    cases began
    obtain ⟨pace, -, strands⟩ | none := ih.2 o rfl
    · obtain ⟨-, rfl⟩ := (Multiset.singleton_eq_cons_iff _).mp strands.symm
      cases mem
    · exact none ν (Multiset.mem_cons_of_mem mem)

/-- An effect comes to what it yields. -/
theorem Yields.comesTo (h : effect.Yields view keeps p q z) :
    effect.ComesTo (Ambit.seeing view p) z := by
  rintro π deeds o y alone - - - - ⟨μ, mem, past⟩
  obtain ⟨pace, yields, strands⟩ | none := (h.alone alone).2 o rfl
  · rw [strands, Multiset.mem_singleton] at mem
    subst mem
    obtain rfl := Pace.over_iff.mp past
    cases yields with
    | unwind below =>
      cases below
      rfl
  · obtain ⟨env, -, inside⟩ := past
    rw [none μ mem] at inside
    cases inside

/-- An effect leaves alone what is kept by its steps on the memory. -/
theorem Yields.respects (h : effect.Yields view keeps p q z)
    (kept : ∀ m m', keeps m m' → view' m = view' m') :
    effect.Respects (Ambit.seeing view p) (Ambit.seeing view' p') := by
  intro π π' deeds o alone busy act deeds' _
  refine ⟨?_, fun _ named => named.elim⟩
  obtain @⟨s, s', μ, μ', begun, marks, goes, rest, log⟩ := act
  show view' s.memory = view' s'.memory
  obtain ⟨pace, yields, strands⟩ | none := (h.alone alone).2 o rfl
  · obtain ⟨rfl, rfl⟩ := (Multiset.singleton_eq_cons_iff _).mp strands.symm
    obtain rfl | ⟨pace', -, -, -, same | keeps⟩ := yields.goes goes
    · obtain ⟨run, role, ⟨env, frames⟩, size⟩ := o
      obtain rfl : frames = [] := Pace.bare_of_busy busy
      rw [Pace.memory_of_leaves goes]
    · rw [same]
    · exact kept _ _ keeps
  · rw [goes.memory_of_idle (none μ (Multiset.mem_cons_self _ _))]

end Effect

end EffectFibers
