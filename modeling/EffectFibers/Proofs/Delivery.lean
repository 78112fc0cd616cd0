import EffectFibers.Proofs.Ensemble

/-!
# What a group goes on to

When every operand of a group has ended, nobody but the loop that waits for the group is needed any
more: it delivers when it is polled, and goes on to the end of the run by itself.

## Main statements

* `Position.paces`: how a loop goes on that has no more effects to evaluate.
* `Ensemble.delivers`: a group whose operands have ended is delivered, and the run ends.
-/

namespace EffectFibers

open Relation (ReflTransGen)
open Shares

/-! ## A loop by itself -/

section

variable {ι : Type} {e : ι → Effect} {results : ι → Result} {l : List ι} {effect : Effect}
  {frames : List Frame} {x z : Exit} {pace pace' : Pace}

/-- A program that evaluates none of the effects comes to its exit by steps that nobody sees. -/
theorem InTurn.paces (h : InTurn e results l effect x) (none : l = []) (above : List Frame) :
    ReflTransGen Pace.Next (.eval above effect) (.unwind above x) := by
  induction h generalizing above with
  | pure v => exact .single .pure
  | fail x => exact .single .fail
  | operand i => cases none
  | map first h ih => exact .head .map (.tail (ih none _) (.mapped h))
  | mapFailed first ih => exact .head .map (.tail (ih none _) .mapFailed)
  | bind first next ih ih' =>
    obtain ⟨none, none'⟩ := List.append_eq_nil_iff.mp none
    exact .head .bind (.trans (ih none _) (.head .bound (ih' none' _)))
  | bindFailed first ih => exact .head .bind (.tail (ih none _) .bindFailed)

theorem Climbs.paces (h : Climbs e results l frames x z) (none : l = []) :
    ReflTransGen Pace.Next (.unwind frames x) (.unwind [] z) := by
  induction h with
  | nil => exact .refl
  | map h rest ih => exact .head (.mapped h) (ih none)
  | mapFailed rest ih => exact .head .mapFailed (ih none)
  | bind next rest ih =>
    obtain ⟨none, none'⟩ := List.append_eq_nil_iff.mp none
    exact .head .bound (.trans (next.paces none _) (ih none'))
  | bindFailed rest ih => exact .head .bindFailed (ih none)

/-- A loop with no more effects to evaluate goes on to its end. -/
theorem Position.paces (h : Position e results z [] pace) :
    ReflTransGen Pace.Next pace (.unwind [] z) := by
  generalize none : [] = l at h
  cases h with
  | waiting h => exact .head .resume (.head .start (h.paces none.symm _))
  | resumed h => exact .head .start (h.paces none.symm _)
  | eval h below =>
    obtain ⟨none, none'⟩ := List.append_eq_nil_iff.mp none.symm
    exact .trans (h.paces none _) (below.paces none')
  | unwind below => exact below.paces none.symm

/-- A program that evaluates some of the effects comes to the first of them by steps that nobody
sees. -/
theorem InTurn.paces_first (h : InTurn e results l effect x) (above : List Frame) :
    l = [] ∨ ∃ i above', ReflTransGen Pace.Next (.eval above effect) (.eval above' (e i)) := by
  induction h generalizing above with
  | pure | fail => exact .inl rfl
  | operand i => exact .inr ⟨i, above, .refl⟩
  | map first h ih =>
    exact (ih _).imp_right fun ⟨i, above', paces⟩ => ⟨i, above', .head .map paces⟩
  | mapFailed first ih =>
    exact (ih _).imp_right fun ⟨i, above', paces⟩ => ⟨i, above', .head .map paces⟩
  | bind first next ih ih' =>
    obtain rfl | ⟨i, above', paces⟩ := ih (.bind _ :: above)
    · refine (ih' above).imp_right fun ⟨i, above', paces⟩ => ⟨i, above', ?_⟩
      exact .head .bind (.trans (first.paces rfl _) (.head .bound paces))
    · exact .inr ⟨i, above', .head .bind paces⟩
  | bindFailed first ih =>
    exact (ih _).imp_right fun ⟨i, above', paces⟩ => ⟨i, above', .head .bind paces⟩

theorem Climbs.paces_first (h : Climbs e results l frames x z) :
    l = [] ∨ ∃ i above', ReflTransGen Pace.Next (.unwind frames x) (.eval above' (e i)) := by
  induction h with
  | nil => exact .inl rfl
  | map h rest ih =>
    exact ih.imp_right fun ⟨i, above', paces⟩ => ⟨i, above', .head (.mapped h) paces⟩
  | mapFailed rest ih =>
    exact ih.imp_right fun ⟨i, above', paces⟩ => ⟨i, above', .head .mapFailed paces⟩
  | @bind l l' frames f v x z next rest ih =>
    obtain rfl | ⟨i, above', paces⟩ := next.paces_first frames
    · refine ih.imp_right fun ⟨i, above', paces⟩ => ⟨i, above', ?_⟩
      exact .head .bound (.trans (next.paces rfl _) paces)
    · exact .inr ⟨i, above', .head .bound paces⟩
  | bindFailed rest ih =>
    exact ih.imp_right fun ⟨i, above', paces⟩ => ⟨i, above', .head .bindFailed paces⟩

/-- A loop with effects to evaluate goes on to the first of them. -/
theorem Position.paces_first (h : Position e results z l pace) (some : l ≠ []) :
    ∃ i above', ReflTransGen Pace.Next pace (.eval above' (e i)) := by
  cases h with
  | waiting h =>
    obtain ⟨i, above', paces⟩ := (h.paces_first []).resolve_left some
    exact ⟨i, above', .head .resume (.head .start paces)⟩
  | resumed h =>
    obtain ⟨i, above', paces⟩ := (h.paces_first []).resolve_left some
    exact ⟨i, above', .head .start paces⟩
  | @eval l l' above effect x h below =>
    obtain rfl | ⟨i, above', paces⟩ := h.paces_first above
    · obtain ⟨i, above', paces⟩ := below.paces_first.resolve_left some
      exact ⟨i, above', .trans (h.paces rfl _) paces⟩
    · exact ⟨i, above', paces⟩
  | unwind below => exact below.paces_first.resolve_left some

end

namespace Runtime

variable {σ σ' : Runtime} {s s' : Store} {run : TokenId} {role : Strand.Role}
  {rest : Multiset Strand} {log : List Moment}

/-- A turn that changes nothing but its strand is a step of the run. -/
theorem ActOf.of_quiet {c : Config} {state : Strand.State} (worker : Worker)
    (quiet : (c.step worker s).2 = s) (goes : (c.step worker s).1.state = state) :
    ActOf run ⟨s, ⟨run, role, .running c⟩ ::ₘ rest, log⟩
      ⟨s, ⟨run, role, state⟩ ::ₘ rest, log⟩ := by
  have trace : (c.step worker s).2.trace = [] ++ s.trace := by rw [quiet]; rfl
  have spawned : (c.step worker s).2.spawned = [] ++ s.spawned := by rw [quiet]; rfl
  have act := ActOf.mk (Strand.Goes.turn run role c worker trace spawned) rfl rest log
  rwa [quiet, goes, show Strand.ofSpawns run [] = 0 from rfl, zero_add] at act

theorem ActOf.of_poll {segment : Segment} :
    ActOf run ⟨s, ⟨run, role, .waiting segment⟩ ::ₘ rest, log⟩
      ⟨s, ⟨run, role, .running ⟨.resume segment, []⟩⟩ ::ₘ rest, log⟩ := by
  have act := ActOf.mk (Strand.Goes.poll (s := s) run role segment) rfl rest log
  rwa [zero_add] at act

/-- So is any other turn. -/
theorem ActOf.of_turn (run : TokenId) (role : Strand.Role) (rest : Multiset Strand)
    (log : List Moment) {c : Config} {progress : Progress} {worker : Worker}
    (step : c.step worker s = (progress, s')) : ∃ rest' log',
      ActOf run ⟨s, ⟨run, role, .running c⟩ ::ₘ rest, log⟩
        ⟨s', ⟨run, role, progress.state⟩ ::ₘ rest', log'⟩ := by
  obtain ⟨-, es, new, trace, spawned, -⟩ := c.step_reacts worker s
  have goes := Strand.Goes.turn run role c worker trace spawned
  rw [step] at goes
  exact ⟨_, _, .mk goes rfl rest log⟩

theorem ActOf.step (act : ActOf run σ σ') : Step σ σ' := by
  obtain ⟨goes, own, rest, log⟩ := act
  exact (Act.mk goes rest log).step

theorem ActOf.steps (acts : ReflTransGen (ActOf run) σ σ') : Steps σ σ' := by
  induction acts with
  | refl => exact .refl
  | tail _ act ih => exact .tail ih act.step

end Runtime

variable {s s' : Store} {run : TokenId} {role : Strand.Role} {rest : Multiset Strand}
  {log : List Moment} {pace pace' : Pace} {loop : Loop} {g : Group} {state : Strand.State}
  {z : Exit}

theorem Pace.Next.act (next : pace.Next pace') :
    Runtime.ActOf run ⟨s, ⟨run, role, pace.state loop⟩ ::ₘ rest, log⟩
      ⟨s, ⟨run, role, pace'.state loop⟩ ::ₘ rest, log⟩ := by
  cases next with
  | resume => exact .of_poll
  | mapped h =>
    refine .of_quiet ⟨1, "main"⟩ ?_ ?_ <;>
      simp [Config.step, Machine.unwindStep, Machine.frameStep, h, Machine.unwind, Progress.state,
        Pace.state]
  | start | pure | fail | map | bind | bound | mapFailed | bindFailed
  | handle | handled | unhandled =>
    exact .of_quiet ⟨1, "main"⟩ rfl rfl

theorem Pace.acts (paces : ReflTransGen Pace.Next pace pace') (run : TokenId) (role : Strand.Role)
    (loop : Loop) (s : Store) (rest : Multiset Strand) (log : List Moment) :
    ReflTransGen (Runtime.ActOf run) ⟨s, ⟨run, role, pace.state loop⟩ ::ₘ rest, log⟩
      ⟨s, ⟨run, role, pace'.state loop⟩ ::ₘ rest, log⟩ := by
  induction paces with
  | refl => exact .refl
  | tail _ next ih => exact .tail ih next.act

/-- A loop at its end ends its strand. -/
theorem Pace.ends (run : TokenId) (role : Strand.Role) (env : Env) (s : Store)
    (rest : Multiset Strand) (log : List Moment) (z : Exit) : ∃ σ', ReflTransGen (Runtime.ActOf run)
      ⟨s, ⟨run, role, (Pace.unwind [] z).state ⟨env, []⟩⟩ ::ₘ rest, log⟩ σ' ∧
    ⟨run, role, .ended z⟩ ∈ σ'.strands := by
  have left : Config.step ⟨1, "main"⟩ ⟨.unwind ⟨env, []⟩ z, []⟩ s
      = (Machine.leave z [], s.emit (.left env.token z)) := rfl
  have ended (s : Store) : Config.step ⟨1, "main"⟩ ⟨.leave z, []⟩ s = (.ended z, s) := rfl
  obtain ⟨rest₁, log₁, leaves⟩ := Runtime.ActOf.of_turn run role rest log left
  obtain ⟨rest₂, log₂, ends⟩ := Runtime.ActOf.of_turn run role rest₁ log₁ (ended _)
  exact ⟨_, .tail (.single leaves) ends, Multiset.mem_cons_self _ _⟩

/-- A loop that waits for a group can look at it again. -/
theorem AtGroup.ready (h : AtGroup loop g state) (run : TokenId) (role : Strand.Role) (s : Store)
    (rest : Multiset Strand) (log : List Moment) :
    ReflTransGen (Runtime.ActOf run) ⟨s, ⟨run, role, state⟩ ::ₘ rest, log⟩
      ⟨s, ⟨run, role, .running ⟨.resume (.gathering loop g), []⟩⟩ ::ₘ rest, log⟩ := by
  cases h with
  | waiting => exact .single .of_poll
  | resumed => exact .refl
  | parks => exact .head (.of_quiet ⟨1, "main"⟩ rfl rfl) (.single .of_poll)

/-! ## The group -/

variable {n : Nat} {S : Fin n → Ambit} {e : Fin n → Effect} {results : Fin n → Result} {r : Result}
  {path : List Transition}

namespace Ensemble

/-- As long as its loop goes on, the run can come to the group or to its end by itself. -/
theorem reaches (h : Ensemble S e results r run z σ path)
    (here : run ∈ Runtime.badges σ.crew) : ∃ σ', ReflTransGen (Runtime.ActOf run) σ σ' ∧
      ((∃ loop g, (run, ⟨loop, .gathering g⟩) ∈ σ'.crew ∧ loop.env.token = run) ∨
        ⟨run, .root, .ended z⟩ ∈ σ'.strands) := by
  cases h with
  | departed gone => exact (gone here).elim
  | @gathers σ₁ loop group tasks tokens outset assembled waiting awaits =>
    obtain @⟨M, deeds, g, state, divided, host, gathers, token, steps, marks, left⟩ := waiting
    exact ⟨σ, .refl, .inl ⟨loop, g,
      Runtime.mem_crew_of_strand divided.mem_strands gathers.mem_fibers, assembled.own⟩⟩
  | @before M deeds env pace underway host token position named =>
    obtain ⟨s, strands, log⟩ := σ
    obtain ⟨rest, rfl⟩ := Multiset.exists_cons_of_mem underway.divided.mem_strands
    obtain ⟨i, above, paces⟩ := position.paces_first (List.cons_ne_nil _ _)
    have acts := Pace.acts paces run .root ⟨env, []⟩ s rest log
    have state : (Pace.eval above (.parallel n e)).state ⟨env, []⟩ =
        .running ⟨.eval ⟨env, above⟩ (.parallel n e), []⟩ := by
      rw [Pace.state, List.append_nil]
    rw [state] at acts
    obtain ⟨g, s', opened⟩ : ∃ g s', Config.step ⟨1, "main"⟩
        ⟨.eval ⟨env, above⟩ (.parallel n e), []⟩ s =
          (.next ⟨.resume (.gathering ⟨env, above⟩ g), []⟩, s') := ⟨_, _, rfl⟩
    obtain ⟨rest', log', act⟩ := Runtime.ActOf.of_turn run .root rest log opened
    exact ⟨_, acts.tail act, .inl ⟨⟨env, above⟩, g, Runtime.mem_crew_of_strand
      (Multiset.mem_cons_self _ _) AtGroup.resumed.mem_fibers, token⟩⟩
  | @after env pace mem token position performed marks =>
    obtain ⟨s, strands, log⟩ := σ
    obtain ⟨rest, rfl⟩ := Multiset.exists_cons_of_mem mem
    have acts := Pace.acts position.paces run .root ⟨env, []⟩ s rest log
    obtain ⟨σ', ends, there⟩ := Pace.ends run .root env s rest log z
    exact ⟨σ', acts.trans ends, .inr there⟩

/-- When every operand has ended, the run can go on by itself, and ends. -/
theorem delivers (h : Ensemble S e results r run z σ path) (reach : σ.Reachable)
    (unrefused : ∀ t, σ.store.joined? t ≠ some .aborted)
    (together : Exit.Together (List.ofFn fun i => .ofExcept (results i)) (.ofExcept r))
    (mem : (run, ⟨loop, .gathering g⟩) ∈ σ.crew) (own : loop.env.token = run)
    (ended : ∀ y ∈ g.pending, ∃ x, σ.store.exit? y.2 = some x) :
    ∃ σ', ReflTransGen (Runtime.ActOf run) σ σ' ∧ ⟨run, .root, .ended z⟩ ∈ σ'.strands := by
  have same {φ : Fiber} {ρ : Strand} (here : ρ ∈ σ.strands) (inside : φ ∈ Post.fibers ρ.posts)
      (token : φ.token = run) : ⟨loop, .gathering g⟩ = φ :=
    congrArg Prod.snd (reach.manned.unique mem (Runtime.mem_crew_of_strand here inside)
      (own.trans token.symm))
  have elsewhere {pace : Pace} {env : Env} (token : env.token = run)
      (here : ⟨run, .root, pace.state ⟨env, []⟩⟩ ∈ σ.strands) : False := by
    obtain ⟨φ, inside, token'⟩ := pace.exists_fiber ⟨env, []⟩ run .root
    exact pace.not_gathering (same here inside (token'.trans token) ▸ inside)
  cases h with
  | before underway host token => exact (elsewhere token underway.divided.mem_strands).elim
  | after here token => exact (elsewhere token here).elim
  | departed gone =>
    exact (gone (Runtime.mem_badges.mpr ⟨_, mem, own⟩)).elim
  | @gathers σ₁ loop' group tasks tokens outset assembled waiting awaits =>
    obtain @⟨M, deeds, g', state, divided, host, gathers, token, steps, marks, left⟩ := waiting
    have here := divided.mem_strands
    obtain ⟨rfl, rfl⟩ : loop = loop' ∧ g = g' := by
      cases same here gathers.mem_fibers assembled.own
      exact ⟨rfl, rfl⟩
    obtain ⟨s, strands, log⟩ := σ
    obtain ⟨rest, rfl⟩ := Multiset.exists_cons_of_mem here
    -- The loop looks at the group again, and finds every operand ended.
    obtain ⟨y, s', delivered⟩ := Machine.resumeStep_delivers ⟨1, "main"⟩ [] loop ended
    have delivered' : Config.step ⟨1, "main"⟩ ⟨.resume (.gathering loop g), []⟩ s
        = (Machine.unwind loop y [], s') := delivered
    have ready := gathers.ready run .root s rest log
    obtain ⟨rest', log', act⟩ := Runtime.ActOf.of_turn run .root rest log delivered'
    obtain ⟨xs, exits, made⟩ := assembled.opening.result
      (steps.trans (Runtime.ActOf.steps ready)) act.step unrefused
      (Runtime.mem_crew_of_strand (Multiset.mem_cons_self _ _) AtGroup.resumed.mem_fibers) token
      (Runtime.mem_crew_of_running (Multiset.mem_cons_self _ _) (Multiset.mem_singleton_self _)) rfl
    obtain rfl : xs = fun i => .ofExcept (results i) := funext fun i => marks i _ (exits i)
    obtain rfl := made.unique together
    -- The rest of the program evaluates nothing more.
    have paces : ReflTransGen Pace.Next _ _ := Position.paces (.unwind awaits)
    have acts := Pace.acts paces run .root ⟨loop.env, []⟩ s' rest' log'
    obtain ⟨σ', ends, there⟩ := Pace.ends run .root loop.env s' rest' log' z
    simp only [Pace.state, List.append_nil] at acts ends
    exact ⟨σ', ready.trans (.head act (acts.trans ends)), there⟩

end Ensemble

end EffectFibers
