import EffectFibers.Proofs.AlikeSteps
import EffectFibers.Proofs.Confined
import EffectFibers.Proofs.Counterparts
import EffectFibers.Proofs.Delivery

/-!
# Parallel agrees with sequential

Operands that leave each other alone may be evaluated one after the other or as a group, and the
program ends with the same: if they have no suspension points, or if all of them succeed and the
run is not cancelled.  When they are evaluated as a group all of them are carried out to the end;
the sequential program stops at the first one that fails.

## Main definitions

* `Admits`: a run of a program, and what may have happened in it so far.
* `Agreement`: what a sequential program and a parallel one have in common.

## Main statements

* `Effect.Counterparts.agreement`: a sequential program agrees with its counterpart.
* `Effect.parallel_on_closed_context`: a group is canceled where a context refuses its operands.
-/

namespace EffectFibers

open Relation

/-! ## Runs -/

variable {n : Nat}

/-- A run of a program has come from where it begins to where it is: around it nothing was done but
what the ambits of the operands allow, it has not panicked, and no context has refused a task; and
the operands have no suspension points, or all of them succeed and the run is not cancelled. -/
structure Admits (S : Fin n → Ambit) (e : Fin n → Effect) (results : Fin n → Result)
    (effect : Effect) (env : Env) (σ₀ σ : Runtime) (path : List Transition) : Prop where
  starts : Runtime.Starts effect env σ₀
  begins : ∀ i, (S i).Begins σ₀.store
  civil : Civil S env.token σ₀ σ path
  whole : ¬ σ.Failed env.token
  unrefused : ∀ t, σ.store.joined? t ≠ some .aborted
  calm : Uncancelled e results env.token σ

/-- What a sequential program of some operands and a parallel one have in common. -/
structure Agreement (S : Fin n → Ambit) (e : Fin n → Effect) (results : Fin n → Result)
    (sequential parallel : Effect) (r : Result) : Prop where
  /-- The sequential program evaluates the operands up to the first that fails. -/
  stops : InTurn e results (untilFailure results (List.finRange n)) sequential (.ofExcept r)
  /-- It ends with nothing but the result. -/
  ends : ∀ {env σ₀ σ path x}, Admits S e results sequential env σ₀ σ path →
    ⟨env.token, .root, .ended x⟩ ∈ σ.strands → x = .ofExcept r
  /-- So does the parallel one, and all operands have been carried out. -/
  gathers : ∀ {env σ₀ σ path x}, Admits S e results parallel env σ₀ σ path →
    ⟨env.token, .root, .ended x⟩ ∈ σ.strands → x = .ofExcept r ∧ AllPerformed results σ
  /-- As long as its loop goes on, the parallel one can come to its group or its end by itself. -/
  reaches : ∀ {env σ₀ σ path}, Admits S e results parallel env σ₀ σ path →
    env.token ∈ Runtime.badges σ.crew → ∃ σ', ReflTransGen (Runtime.ActOf env.token) σ σ' ∧
      ((∃ loop g, (env.token, ⟨loop, .gathering g⟩) ∈ σ'.crew ∧ loop.env.token = env.token) ∨
        ⟨env.token, .root, .ended (.ofExcept r)⟩ ∈ σ'.strands)
  /-- When the operands have ended, it can end by itself, and with the result. -/
  delivers : ∀ {env σ₀ σ path loop g}, Admits S e results parallel env σ₀ σ path →
    (env.token, ⟨loop, .gathering g⟩) ∈ σ.crew → loop.env.token = env.token →
    (∀ y ∈ g.pending, ∃ x, σ.store.exit? y.2 = some x) →
    ∃ σ', ReflTransGen (Runtime.ActOf env.token) σ σ' ∧
      ⟨env.token, .root, .ended (.ofExcept r)⟩ ∈ σ'.strands

/-- Operands that come to their results as long as nothing is done around them but what their
ambits allow, and that allow each other what they do, come to the same one after the other and as a
group. -/
theorem Effect.Counterparts.agreement {es : List Effect} {S : Fin es.length → Ambit}
    {results : Fin es.length → Result} {sequential parallel : Effect}
    {finish : List Value → Except Fault Value} {r : Result}
    (h : Counterparts es sequential parallel finish)
    (comes : ∀ i, (es.get i).ComesTo (S i) (.ofExcept (results i)))
    (respects : ∀ i j, i ≠ j → (es.get j).Respects (S j) (S i))
    (whole : collected finish (List.ofFn results) = .ok r) :
    Agreement S es.get results sequential parallel r := by
  obtain ⟨c, rfl, collects⟩ := h.collects
  obtain ⟨r', together, turn⟩ := h.gathers whole
  have stops : InTurn es.get results (untilFailure results (List.finRange es.length))
      (c.effect es.get) (.ofExcept r) := by
    rw [← collects.visits]
    refine c.inTurn ?_
    rw [collects.result, ← List.ofFn_eq_map, whole]
  have nodup : (untilFailure results (List.finRange es.length)).Nodup :=
    (List.nodup_finRange _).sublist (isPrefix_untilFailure _).sublist
  -- Where a run of the parallel program is.
  have stage {env : Env} {σ₀ σ : Runtime} {path : List Transition}
      (admits : Admits S es.get results parallel env σ₀ σ path) :
      Ensemble S es.get results r' env.token (.ofExcept r) σ path :=
    admits.civil.ensemble admits.starts admits.begins turn together comes respects
      admits.whole admits.unrefused admits.calm
  refine ⟨stops, fun admits ended => ?_, fun admits ended => ?_,
    fun admits here => (stage admits).reaches here, fun admits mem own exits => ?_⟩
  · exact admits.civil.inTurn admits.starts admits.begins stops nodup comes respects admits.whole
      admits.unrefused (admits.calm.imp_right And.right) ended
  · exact admits.civil.together admits.starts admits.begins turn together comes respects
      admits.whole admits.unrefused admits.calm ended
  · exact (stage admits).delivers (admits.civil.reachable admits.starts.fresh.reached)
      admits.unrefused together mem own exits

/-- Writes a value to a cell, and comes to a result. -/
def Effect.recording (c : CellId) (v : Value) (result : Result) : Effect :=
  (delay fun _ m => (.ok .null, m.setCell c ((m.cell c).store v))).andThen (ofResult result)

/-- What such an effect does to its cell, it does to no other one. -/
theorem Effect.recording_yields (c : CellId) (v : Value) (result : Result) (cell : Cell Value) :
    (recording c v result).Yields (fun m => m.cells[c]?)
      (fun m m' => ∀ d, d ≠ c → m.cells[d]? = m'.cells[d]?) (some cell) (some (cell.store v))
      (.ofExcept result) := by
  have written : (delay fun _ m => (.ok .null, m.setCell c ((m.cell c).store v))).Yields
      (fun m => m.cells[c]?) (fun m m' => ∀ d, d ≠ c → m.cells[d]? = m'.cells[d]?) (some cell)
      (some (cell.store v)) (.succeeded .null) := by
    refine .perform (fun site m seen => ⟨_, rfl, ?_, fun d ne => ?_⟩)
      (.pure _ _)
    · obtain ⟨lt, rfl⟩ := Array.getElem?_eq_some_iff.mp seen
      simp [Memory.setCell, Memory.cell, lt]
    · simp [Memory.setCell, ne.symm]
  refine .bind written ?_
  cases result with
  | ok w => exact .pure _ w
  | error x => exact .fail _ x

/-- Three operands with a cell each, two of which fail: the error of the lower index is reported,
one after the other and as a group. -/
theorem Effect.Counterparts.agreement_failure :
    let cell : Cell Value := .new (.int 0) .spin
    let results : List Result := [.ok (.int 1), .error (.text "E"), .error (.text "F")]
    let es : List Effect := [recording 0 .null results[0], recording 1 .null results[1],
      recording 2 .null results[2]]
    Agreement (fun i => Ambit.seeing (fun m => m.cells[i.val]?) (some cell)) es.get results.get
      (collecting [] es) (parSequence es) (.error (.text "E")) := by
  intro cell results es
  have yields (i : Fin es.length) : (es.get i).Yields (fun m => m.cells[i.val]?)
      (fun m m' => ∀ d, d ≠ i.val → m.cells[d]? = m'.cells[d]?) (some cell)
      (some (cell.store .null)) (.ofExcept (results.get i)) := by
    match i with
    | 0 | 1 | 2 => exact recording_yields _ _ _ _
  exact Effect.Counterparts.agreement .sequence (fun i => (yields i).comesTo)
    (fun i j ne => (yields j).respects fun m m' kept => kept i fun same => ne (Fin.ext same)) rfl

/-- A group of two operands that were refused is canceled. -/
theorem Machine.resumeStep_refused (worker : Worker) (loop : Loop) (callers : List Caller)
    {s : Store} (token : TokenId) {t u : TaskId} (left : s.joined? t = some .aborted)
    (right : s.joined? u = some .aborted) (sorted : (s.join t).order ≤ (s.join u).order) :
    Machine.resumeStep worker callers s (.gathering loop { token, pending := [(0, t), (1, u)] }) =
      (Machine.unwind loop .canceled callers, s) := by
  have ended : Machine.endedOperands { token, pending := [(0, t), (1, u)] } s =
      [(0, .aborted), (1, .aborted)] := by
    simp only [Machine.endedOperands, List.filterMap_cons, List.filterMap_nil, left, right,
      Option.map_some]
    rw [List.mergeSort_of_pairwise (by simpa using sorted)]
    rfl
  rw [Machine.resumeStep, ended]
  rfl

/-- On a closed context a group is canceled, though its operands succeed by themselves and one
after the other. -/
theorem Effect.parallel_on_closed_context : ∃ (closed : Context) (s s₁ s₂ s₃ : Store),
    let poll (effect : Effect) := Segment.poll ⟨1, "main"⟩ 12 (.start ⟨⟨0, closed, []⟩, []⟩ effect)
      (Runtime.starting effect closed).store
    let left : Effect := .succeed (.int 1)
    let right : Effect := .succeed (.int 2)
    poll left = (.ended (.succeeded (.int 1)), s) ∧
      poll right = (.ended (.succeeded (.int 2)), s₁) ∧
      poll (left.product right) = (.ended (.succeeded (.list [.int 1, .int 2])), s₂) ∧
      poll (left.parZip right) = (.ended .canceled, s₃) := by
  let closed : Context := { thread := "dead", isOpen := false }
  let worker : Worker := ⟨1, "main"⟩
  let loop : Loop := ⟨⟨0, closed, []⟩, []⟩
  let pair : Effect := Effect.parZip (.succeed (.int 1)) (.succeed (.int 2))
  let start : Store := (Runtime.starting pair closed).store
  let s : Store := (Machine.evalStep worker loop [] start pair).2
  have gathered : Config.step worker
      ⟨.resume (.gathering loop { token := 1, pending := [(0, 1), (1, 2)] }), []⟩ s =
      (.next ⟨.unwind loop .canceled, []⟩, s) :=
    Machine.resumeStep_refused worker loop [] 1 rfl rfl (by decide)
  have resumed : Config.step worker ⟨.resume (.start loop pair), []⟩ start =
      (.next ⟨.eval loop pair, []⟩, start) := rfl
  have began : Config.step worker ⟨.eval loop pair, []⟩ start =
      (.next ⟨.resume (.gathering loop { token := 1, pending := [(0, 1), (1, 2)] }), []⟩, s) :=
    Prod.ext rfl rfl
  have left : Config.step worker ⟨.unwind loop .canceled, []⟩ s =
      (.next ⟨.leave .canceled, []⟩, s.emit (.left 0 .canceled)) := rfl
  have poll : Segment.poll worker 12 (.start loop pair) start =
      (.ended .canceled, s.emit (.left 0 .canceled)) := by
    rw [Segment.poll, Config.run_next resumed, Config.run_next began, Config.run_next gathered,
      Config.run_next left]
    rfl
  exact ⟨closed, _, _, _, _, rfl, rfl, rfl, poll⟩

end EffectFibers
