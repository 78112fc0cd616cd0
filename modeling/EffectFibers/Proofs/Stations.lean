import EffectFibers.Proofs.Upkeep
import EffectFibers.Proofs.Course

/-!
# Where a run is carried out

A task runs on the threads of the context on which it was started, and a run on those of whoever
polls it.  `Located` is a runtime in which every strand has such a station; a step of a poll is
made on the thread of the station.  Beside the station a strand has the context that the
environments of its loops name, and the two are to agree.

## Main definitions

* `Launch`: the ways of running an effect, with the context that they give to it.
* `Located.Step`: the steps of a runtime with its stations.
* `Fiber.Itinerary`: where the steps of a loop were made, from its beginning on.

## Main statements

* `Located.Reachable.seated`: every loop is at the station to which its itinerary leads.
-/

namespace EffectFibers

/-! ## Ways of running an effect -/

/-- The ways in which a caller runs an effect. -/
inductive Launch where
  /-- The caller polls the run itself, which may be below a token of the caller. -/
  | run
  /-- The same on a context of the caller's choice. -/
  | runOn (context : Context)
  | start
  | startOn (context : Context)
  /-- The run is a task whose outcome is handed to an observer. -/
  | runAsync

namespace Launch

/-- The context that the run is given. -/
def context (caller : Context) : Launch → Context
  | .run | .start | .runAsync => caller
  | .runOn c | .startOn c => c

/-- The context on which the run is polled: `runOn` starts no task. -/
def station (caller : Context) : Launch → Context
  | .run | .runOn _ | .start | .runAsync => caller
  | .startOn c => c

/-- The run has a context, but is polled by its caller. -/
def lends : Launch → Bool
  | .runOn _ => true
  | .run | .start | .startOn _ | .runAsync => false

theorem station_of_not_lends {launch : Launch} (h : launch.lends = false) (caller : Context) :
    launch.station caller = launch.context caller := by
  cases launch <;> first | rfl | cases h

end Launch

/-! ## Strands with their stations -/

structure Placed where
  strand : Strand
  /-- The context on whose threads the strand is polled. -/
  station : Context
  /-- The context that the environments of its loops name. -/
  context : Context
  /-- The run was begun by `runOn`, and its caller polls it. -/
  lent : Bool

namespace Placed

/-- The strand after a step, where it was. -/
def become (p : Placed) (state : Strand.State) : Placed :=
  { p with strand := { p.strand with state } }

/-- A task that is a part of a run. -/
def ofSpawn? (run : TokenId) (x : Spawn) : Option Placed :=
  (Strand.ofSpawn? run x).map fun τ => ⟨τ, x.context, x.context, false⟩

def ofSpawns (run : TokenId) (new : List Spawn) : Multiset Placed :=
  (new.filterMap (ofSpawn? run) : List Placed)

theorem map_ofSpawns (run : TokenId) (new : List Spawn) :
    (ofSpawns run new).map strand = Strand.ofSpawns run new := by
  simp only [ofSpawns, Strand.ofSpawns, Multiset.map_coe, List.map_filterMap]
  refine congrArg _ (List.filterMap_congr fun x _ => ?_)
  simp [ofSpawn?, Function.comp_def]

theorem ofSpawns_append (run : TokenId) (new new' : List Spawn) :
    ofSpawns run (new ++ new') = ofSpawns run new + ofSpawns run new' := by
  simp [ofSpawns]

theorem mem_ofSpawns {run : TokenId} {new : List Spawn} {p : Placed} : p ∈ ofSpawns run new ↔
    ∃ x ∈ new, ∃ segment, x.segment? = some segment ∧
      p = ⟨⟨run, .task x.task, .waiting segment⟩, x.context, x.context, false⟩ := by
  simp only [ofSpawns, Multiset.mem_coe, List.mem_filterMap, ofSpawn?, Strand.ofSpawn?,
    Option.map_eq_some_iff]
  constructor
  · rintro ⟨x, mem, τ, ⟨segment, found, rfl⟩, rfl⟩
    exact ⟨x, mem, segment, found, rfl⟩
  · rintro ⟨x, mem, segment, found, rfl⟩
    exact ⟨x, mem, _, ⟨segment, found, rfl⟩, rfl⟩

end Placed

structure Located where
  store : Store := {}
  placed : Multiset Placed := 0
  log : List Moment := []

namespace Located

/-- The runtime without the stations. -/
def runtime (L : Located) : Runtime := ⟨L.store, L.placed.map Placed.strand, L.log⟩

/-- A new token, which may be below one of the caller. -/
def Issues (s : Store) (new : TokenId × Store) : Prop :=
  new = s.freshToken ∨ ∃ parent < s.size, new = s.childToken parent

/-- A caller on a context runs an effect. -/
def begin (L : Located) (launch : Launch) (caller : Context) (new : TokenId × Store)
    (effect : Effect) (kept : List TokenId) : Located :=
  let r := Run.new effect kept new.1 (launch.context caller) new.2
  { L with
    store := r.2
    placed := ⟨.ofRun r.1, launch.station caller, launch.context caller, launch.lends⟩ ::ₘ L.placed }

/-- One strand makes a step of its poll; the tasks it starts are at their contexts. -/
def turn (worker : Worker) (c : Config) (p : Placed) (L : Located) : Located :=
  let r := c.step worker L.store
  { store := r.2
    placed := p.become r.1.state ::ₘ
      (Placed.ofSpawns p.strand.run (L.store.started r.2) + L.placed)
    log := ((L.store.since r.2).filter Event.isMark).map (.of p.strand.run L.store) ++ L.log }

inductive Step : Located → Located → Prop
  | begin (L : Located) (launch : Launch) (caller : Context) (new : TokenId × Store)
      (issues : Issues L.store new) (effect : Effect) (kept : List TokenId) :
      Step L (L.begin launch caller new effect kept)
  | poll (s : Store) (rest : Multiset Placed) (log : List Moment) (p : Placed) (segment : Segment)
      (waits : p.strand.state = .waiting segment) :
      Step ⟨s, p ::ₘ rest, log⟩ ⟨s, p.become (.running ⟨.resume segment, []⟩) ::ₘ rest, log⟩
  /-- A poll goes on, on a thread of the station. -/
  | turn (s : Store) (rest : Multiset Placed) (log : List Moment) (p : Placed) (c : Config)
      (worker : Worker) (runs : p.strand.state = .running c)
      (there : worker.thread = p.station.thread) :
      Step ⟨s, p ::ₘ rest, log⟩ (turn worker c p ⟨s, rest, log⟩)
  /-- What is left of a run that is given up goes on as a task on the context of the run. -/
  | giveUp (s : Store) (rest : Multiset Placed) (log : List Moment) (p : Placed) (r : Run)
      (segment : Segment) (holds : p.strand = .ofRun r) (own : r.context = p.context)
      (live : r.state = .live segment) (unstarted : r.started = false → segment.isFresh = true) :
      Step ⟨s, p ::ₘ rest, log⟩
        ⟨r.giveUp s, ⟨.remainder r, r.context, r.context, false⟩ ::ₘ rest, log⟩
  /-- What changes the store and no strand. -/
  | around (L : Located) (s : Store) (h : Runtime.Step L.runtime { L.runtime with store := s }) :
      Step L { L with store := s }

abbrev Steps : Located → Located → Prop := Relation.ReflTransGen Step

/-- The runtimes with stations that come about from an empty one. -/
def Reachable (L : Located) : Prop := Steps {} L

variable {L L' : Located}

/-- Without the stations a step is a step of the runtime. -/
theorem Step.runtime (h : L.Step L') : Runtime.Step L.runtime L'.runtime := by
  cases h with
  | begin _ launch caller new issues effect kept =>
    have step : ∀ {new}, Issues L.store new → Runtime.Step L.runtime
        (L.runtime.begin new effect kept (launch.context caller)) := by
      rintro new (rfl | ⟨parent, lt, rfl⟩)
      · exact .begin _ effect kept _
      · exact .beginBelow _ parent lt effect kept _
    simpa [Located.runtime, Located.begin, Runtime.begin] using step issues
  | poll s rest log p segment waits =>
    obtain ⟨⟨run, role, state⟩, station, context, lent⟩ := p
    cases waits
    simpa [Located.runtime, Placed.become] using Runtime.Step.poll s (rest.map Placed.strand) log run role segment
  | turn s rest log p c worker runs there =>
    obtain ⟨⟨run, role, state⟩, station, context, lent⟩ := p
    cases runs
    simpa [Located.runtime, Located.turn, Runtime.turn, Placed.become, Placed.map_ofSpawns] using
      Runtime.Step.turn s (rest.map Placed.strand) log run role c worker
  | giveUp s rest log p r segment holds own live unstarted =>
    simpa [Located.runtime, holds] using
      Runtime.Step.giveUp s (rest.map Placed.strand) log r segment live unstarted
  | around _ s h => exact h

theorem Steps.runtime (h : Steps L L') : Runtime.Steps L.runtime L'.runtime := by
  induction h with
  | refl => exact .refl
  | tail _ step ih => exact ih.tail step.runtime

theorem Reachable.runtime (h : L.Reachable) : Runtime.Reachable L.runtime := Steps.runtime h

end Located

/-! ## Itineraries -/

/-- A loop that has come to be a fiber is carried out at a context.  It began there, and where it
began is decided by how its run was begun or by where the loop was carried out that began it; only
a shift of its own leads the loop elsewhere. -/
inductive Fiber.Itinerary : Fiber → Context → Prop
  | begin (launch : Launch) (caller : Context) (t : TokenId) (kept : List TokenId)
      (effect : Effect) :
      Itinerary ⟨⟨⟨t, launch.context caller, kept⟩, []⟩, .evaluating effect⟩
        (launch.station caller)
  /-- An acquisition, a release or an operand of a race begins where the loop around it is. -/
  | nested {φ φ' : Fiber} {d : Context} {s : Store} {ms : List Event} {t : TokenId}
      {effect : Effect} (outer : Itinerary φ d) (step : φ.Step s ms φ') (nests : φ'.nests = true) :
      Itinerary ⟨⟨φ.loop.env.withToken t, []⟩, .evaluating effect⟩ d
  /-- A parallel operand begins on the context of the loop that begins the group. -/
  | operand {loop : Loop} {n : Nat} {operands : Fin n → Effect} {d : Context} {t : TokenId}
      {effect : Effect} (outer : Itinerary ⟨loop, .evaluating (.parallel n operands)⟩ d) :
      Itinerary ⟨⟨loop.env.withToken t, []⟩, .evaluating effect⟩ loop.env.context
  | act {φ φ' : Fiber} {d : Context} {s : Store} {ms : List Event} (before : Itinerary φ d)
      (step : φ.Step s ms φ') (env : φ'.loop.env = φ.loop.env) (still : φ.performs = false) :
      Itinerary φ' d
  /-- A step on the memory sees the thread of the context. -/
  | perform {loop : Loop} {act : Site → Memory → Except Fault Reply × Memory}
      {next : Reply → Effect} {d : Context} {time : Nat} {m : Memory} {reply : Reply}
      (before : Itinerary ⟨loop, .evaluating (.perform act next)⟩ d)
      (done : (act ⟨d.thread, time⟩ m).1 = .ok reply) :
      Itinerary ⟨loop, .evaluating (next reply)⟩ d
  | shift {loop : Loop} {d e : Context} (before : Itinerary ⟨loop, .evaluating (.shift e)⟩ d) :
      Itinerary ⟨{ loop with env := loop.env.withContext e }, .evaluating Effect.unit⟩ e
  /-- What is left of a run that is given up goes on on the context of the run. -/
  | givenUp {φ : Fiber} {d : Context} (before : Itinerary φ d) : Itinerary φ φ.loop.env.context

/-- The loop names a context, and its itinerary leads to a station. -/
structure Fiber.Sits (context station : Context) (φ : Fiber) : Prop where
  context : φ.loop.env.context = context
  itinerary : φ.Itinerary station

/-- The rules lead every loop on from its station, and every task to its context. -/
theorem Fiber.upkeep_sits {worker : Worker} {s : Store} {context station : Context}
    (there : worker.thread = station.thread) :
    Fiber.Upkeep worker s (Sits context station) fun c => Sits c c where
  act kept step env still := ⟨env ▸ kept.context, kept.itinerary.act step env still⟩
  perform {_ _ _ _ m} kept done :=
    ⟨kept.context, kept.itinerary.perform (by rw [← there, done])⟩
  nested kept step nests := ⟨kept.context, kept.itinerary.nested step nests⟩
  operand kept := ⟨rfl, kept.itinerary.operand⟩
  shift kept := ⟨rfl, kept.itinerary.shift⟩

/-- A strand with its loops where they belong. -/
structure Placed.Seated (p : Placed) : Prop where
  loops : Post.All (Fiber.Sits p.context p.station) p.strand.posts
  /-- Only a run that its caller polls on behalf of another context is elsewhere. -/
  station : p.lent = false → p.station = p.context
  lent : p.lent = true → p.strand.role = .root

namespace Located

variable {L L' : Located}

theorem seated_ofSpawns {new : List Spawn} {run : TokenId} {p : Placed}
    (comply : Spawn.Comply (fun c => Fiber.Sits c c) new) (mem : p ∈ Placed.ofSpawns run new) :
    p.Seated := by
  obtain ⟨x, started, segment, found, rfl⟩ := Placed.mem_ofSpawns.mp mem
  have loops := comply x started
  rw [Spawn.posts, found] at loops
  exact ⟨loops, fun _ => rfl, fun lent => by cases lent⟩

theorem Step.seated (h : ∀ p ∈ L.placed, p.Seated) (step : L.Step L') :
    ∀ p ∈ L'.placed, p.Seated := by
  have split : ∀ {p : Placed} {new rest : Multiset Placed}, p.Seated → (∀ q ∈ new, q.Seated) →
      (∀ q ∈ rest, q.Seated) → ∀ q ∈ p ::ₘ (new + rest), q.Seated := by
    intro p new rest seated new' rest' q mem
    obtain rfl | mem := Multiset.mem_cons.mp mem
    · exact seated
    · exact (Multiset.mem_add.mp mem).elim (new' q) (rest' q)
  have none : ∀ q ∈ (0 : Multiset Placed), q.Seated := fun _ mem => by cases mem
  cases step with
  | begin _ launch caller new issues effect kept =>
    have seated : Placed.Seated ⟨.ofRun (Run.new effect kept new.1 (launch.context caller) new.2).1,
        launch.station caller, launch.context caller, launch.lends⟩ := by
      refine ⟨?_, fun own => launch.station_of_not_lends own caller, fun _ => rfl⟩
      have sits : Fiber.Sits (launch.context caller) (launch.station caller)
          ⟨⟨⟨new.1, launch.context caller, kept⟩, []⟩, .evaluating effect⟩ :=
        ⟨rfl, .begin launch caller new.1 kept effect⟩
      simpa [Strand.posts, Strand.ofRun, Run.new, Segment.posts] using sits
    simpa [Located.begin] using split seated none h
  | poll s rest log p segment waits =>
    obtain ⟨loops, station, lent⟩ := h p (Multiset.mem_cons_self _ _)
    have seated : (p.become (.running ⟨.resume segment, []⟩)).Seated := by
      refine ⟨?_, station, lent⟩
      simpa [Strand.posts, waits, Placed.become] using loops
    simpa using split seated none fun q mem => h q (Multiset.mem_cons_of_mem mem)
  | turn s rest log p c worker runs there =>
    obtain ⟨loops, station, lent⟩ := h p (Multiset.mem_cons_self _ _)
    rw [Strand.posts, runs] at loops
    obtain ⟨all, new, spawned, comply⟩ := c.step_upkeep (Fiber.upkeep_sits (s := s) there) loops
    have seated : (p.become (c.step worker s).1.state).Seated := by
      refine ⟨?_, station, lent⟩
      generalize (c.step worker s).1 = progress at all ⊢
      cases progress <;> exact all
    refine split seated (fun q mem => ?_) fun q mem => h q (Multiset.mem_cons_of_mem mem)
    rw [Store.started_eq spawned] at mem
    exact seated_ofSpawns comply mem
  | giveUp s rest log p r segment holds own live unstarted =>
    obtain ⟨loops, station, lent⟩ := h p (Multiset.mem_cons_self _ _)
    have seated : Placed.Seated ⟨.remainder r, r.context, r.context, false⟩ := by
      refine ⟨?_, fun _ => rfl, fun lent => by cases lent⟩
      unfold Strand.remainder
      split
      · rw [← holds]
        refine loops.mono fun φ sits => ⟨sits.context.trans own.symm, ?_⟩
        rw [own, ← sits.context]
        exact sits.itinerary.givenUp
      · exact Post.all_zero
    simpa using split seated none fun q mem => h q (Multiset.mem_cons_of_mem mem)
  | around => exact h

/-- Every loop is at the station to which its itinerary leads. -/
theorem Reachable.seated (h : L.Reachable) : ∀ p ∈ L.placed, p.Seated := by
  induction h with
  | refl => exact fun _ mem => by cases mem
  | tail _ step ih => exact step.seated ih

end Located

end EffectFibers
