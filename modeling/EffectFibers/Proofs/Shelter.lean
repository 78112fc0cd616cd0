import EffectFibers.Proofs.Masks
import EffectFibers.Proofs.Veils

/-!
# Masked parts of fibers

The masked part of a fiber, with the tasks that it has begun, is seen as a runtime of its own: it
has the store of the runtime around it, and the same run and the same numbers of tasks, but nothing
is around it (`Mask.Houses`).  Each step around is a step of the masked part, or happens elsewhere,
until the masked part hands its exit over or its strand is cut off (`Mask.Onward`).

## Main statements

* `Mask.Shows.goes`: what the strand of the fiber does, for the masked part.
* `Mask.Houses.step`: a step of the runtime, for the masked part.
-/

namespace EffectFibers

/-! ## The strand of the fiber -/

/-- What the strand of a fiber shows of a masked part: the state that the masked part would be in
if it were a strand of its own. -/
inductive Mask.Shows (m : Mask) : Strand.State → Strand.State → Prop
  /-- The masked part is in the middle of a poll; around the mask nothing else happens. -/
  | inside (c : Config) (callers : List Caller) :
      Shows m (.running (c.onto (m.caller :: callers))) (.running c)
  | waits {host : Strand.State} {g : Segment} (held : host.Holds m g) : Shows m host (.waiting g)
  | panicked (f : Fault) : Shows m (.faulted f) (.faulted f)

namespace Post

theorem owned_of_pieces {P Q : Multiset Post} (le : P.map piece ≤ Q.map piece) {p : Post}
    (mem : p ∈ P) : ∃ q ∈ Q, q.owned = p.owned := by
  obtain ⟨q, inside, same⟩ :=
    Multiset.mem_map.mp (Multiset.mem_of_le le (Multiset.mem_map_of_mem piece mem))
  refine ⟨q, inside, ?_⟩
  simp only [owned, same]

end Post

theorem Strand.State.Holds.pieces {m : Mask} {g : Segment} {host : Strand.State}
    (h : host.Holds m g) (run : TokenId) (role : Strand.Role) (l : Link) :
    (g.posts l).map Post.piece ≤ (Strand.posts ⟨run, role, host⟩).map Post.piece := by
  cases h with
  | waiting h => exact h.pieces l .outer
  | running h => exact h.pieces l

namespace Mask.Shows

variable {m : Mask} {host core : Strand.State} {run : TokenId} {role : Strand.Role}

/-- What the masked part holds on to is held on to by the strand. -/
theorem owned (h : m.Shows host core) {p : Post} (mem : p ∈ Strand.posts ⟨run, role, core⟩) :
    ∃ q ∈ Strand.posts ⟨run, role, host⟩, q.owned = p.owned := by
  cases h with
  | inside c callers =>
    refine Post.owned_of_pieces (Q := Config.posts _) ?_ mem
    show c.posts.map Post.piece ≤ _
    rw [c.pieces_onto]
    exact Multiset.le_add_right _ _
  | waits held => exact Post.owned_of_pieces (held.pieces run role .outer) mem
  | panicked => cases mem

theorem joined? (h : m.Shows host core) : core.joined? = host.joined? := by
  cases h with
  | inside | panicked => rfl
  | waits held => cases held <;> rfl

end Mask.Shows

/-- What becomes of a masked part when the strand of its fiber goes on. -/
inductive Mask.Goes (m : Mask) (run : TokenId) (role : Strand.Role) (s s' : Store)
    (host core host' : Strand.State) (begun : Multiset Strand) (marks : List Moment) : Prop
  | own {core' : Strand.State}
      (goes : Strand.Goes s ⟨run, role, core⟩ s' ⟨run, role, core'⟩ begun marks)
      (seen : m.Shows host' core')
  /-- Something else is polled. -/
  | other (grows : s.Grows s') (seen : m.Shows host' core)
  /-- The masked part has ended, and its exit is handed over. -/
  | ended {x : Exit} {callers : List Caller} (came : core = .running ⟨.leave x, []⟩)
      (before : host = .running ⟨.leave x, m.caller :: callers⟩)
  /-- Something else has panicked. -/
  | cut {f : Fault} (panicked : host' = .faulted f)

theorem Mask.Shows.goes {m : Mask} {host core : Strand.State} {run : TokenId} {role : Strand.Role}
    {s s' : Store} {μ : Strand} {begun : Multiset Strand} {marks : List Moment}
    (h : m.Shows host core) (goes : Strand.Goes s ⟨run, role, host⟩ s' μ begun marks) :
    ∃ host', μ = ⟨run, role, host'⟩ ∧ m.Goes run role s s' host core host' begun marks := by
  cases goes with
  | poll _ _ segment =>
    cases h with
    | waits held =>
      obtain ⟨held⟩ := held
      exact ⟨_, rfl, .other .refl (.waits (.running (.resume [] held)))⟩
  | report _ t _ result came =>
    refine ⟨_, rfl, .own (.report run t core result (h.joined?.trans came)) h⟩
  | @turn _ _ c worker es new trace spawned =>
    refine ⟨_, rfl, ?_⟩
    cases h with
    | inside c callers =>
      by_cases done : c.AtEnd
      · obtain ⟨focus, cs⟩ := c
        obtain ⟨rfl, ⟨x, rfl⟩ | ⟨g, rfl⟩⟩ := done
        · exact .ended rfl rfl
        · have parked : Config.step worker (Config.onto ⟨.park g, []⟩ (m.caller :: callers)) s
              = (.next ⟨.park (m.around g), callers⟩, s) := congrArg (·, s) (m.parkStep g callers)
          rw [parked] at trace spawned ⊢
          exact .own (.turn run role ⟨.park g, []⟩ worker trace spawned)
            (.waits (.running (.park callers .here)))
      · have onto := Config.step_onto done worker (m.caller :: callers) s
        have goes := @Strand.Goes.turn s run role c worker es new
        generalize c.step worker s = r at onto goes
        generalize (c.onto (m.caller :: callers)).step worker s = r' at onto trace spawned ⊢
        cases onto with
        | next f cs s' => exact .own (goes trace spawned) (.inside ⟨f, cs⟩ callers)
        | faulted f s' => exact .own (goes trace spawned) (.panicked f)
    | @waits _ g held =>
      obtain - | held := held
      have grows := (c.step_reacts worker s).1
      obtain ⟨cs, rfl⟩ | still | ⟨f, fault⟩ := held.step worker s
      · have resumed : Config.step worker ⟨.resume (m.around g), cs⟩ s
            = (.next ⟨.resume g, m.caller :: cs⟩, s) := m.resumeStep worker g cs s
        rw [resumed] at trace spawned ⊢
        obtain rfl : es = [] := by simpa using trace
        obtain rfl : new = [] := by simpa using spawned
        exact .own (.poll run role g) (.inside ⟨.resume g, []⟩ cs)
      · exact .other grows (.waits still)
      · exact .cut (f := f) (by rw [fault]; rfl)

/-! ## The masked part as a runtime of its own -/

theorem cons_eq_cons_add {α : Type*} {a b : α} {s t u : Multiset α}
    (h : a ::ₘ s = b ::ₘ (t + u)) : (a = b ∧ s = t + u) ∨
      (∃ t', t = a ::ₘ t' ∧ s = b ::ₘ (t' + u)) ∨ ∃ u', u = a ::ₘ u' ∧ s = b ::ₘ (t + u') := by
  obtain ⟨same, rest⟩ | ⟨-, cs, rest, others⟩ := Multiset.cons_eq_cons.mp h
  · exact .inl ⟨same, rest⟩
  · right
    have mem : a ∈ t + u := others ▸ Multiset.mem_cons_self a cs
    obtain mem | mem := Multiset.mem_add.mp mem
    · obtain ⟨t', rfl⟩ := Multiset.exists_cons_of_mem mem
      rw [Multiset.cons_add, Multiset.cons_inj_right] at others
      exact .inl ⟨t', rfl, others ▸ rest⟩
    · obtain ⟨u', rfl⟩ := Multiset.exists_cons_of_mem mem
      rw [Multiset.add_cons, Multiset.cons_inj_right] at others
      exact .inr ⟨u', rfl, others ▸ rest⟩

namespace Runtime

theorem Drifts.of_roles {own own' : Multiset Strand} {s s' : Store} (h : Drifts own s s')
    (roles : ∀ μ ∈ own', ∃ μ' ∈ own, μ'.role = μ.role) : Drifts own' s s' := by
  obtain ⟨tokens, brackets, joins, joined⟩ := h
  refine ⟨tokens, brackets, joins, fun t lt => (joined t lt).imp_right ?_⟩
  rintro ⟨none, others⟩
  refine ⟨none, fun μ mem role => ?_⟩
  obtain ⟨μ', mem', same⟩ := roles μ mem
  exact others μ' mem' (same.trans role)

/-- What one strand does happens elsewhere for the others. -/
theorem Act.elsewhere {s s' : Store} {μ μ' : Strand} {begun rest own : Multiset Strand}
    {marks log : List Moment} (booked : Booked ⟨s, μ ::ₘ rest, log⟩)
    (goes : μ.Goes s s' μ' begun marks)
    (roles : ∀ ν ∈ own, ∃ ν' ∈ rest, ν'.role = ν.role) : Elsewhere own s s' := by
  cases goes with
  | poll => exact elsewhere_of_grows .refl
  | turn run role c worker => exact elsewhere_of_grows (c.step_reacts worker s).1
  | report run t state result came =>
    have lt := booked.known _ (Multiset.mem_cons_self _ _) t rfl
    refine .drifts ⟨⟨s, .refl, ?_⟩, ?_, ?_, fun u known => ?_⟩
    · exact (same_finish s t result).tokens
    · exact Nat.le_of_eq (same_finish s t result).brackets.symm
    · rw [finish_joins]
    · rw [finish_joined s t u result lt]
      split
      · next same =>
        subst same
        cases found : s.joined? u with
        | some result' =>
          have recorded := booked.results _ (Multiset.mem_cons_self _ _) u rfl result' found
          exact .inl (came.symm.trans recorded)
        | none =>
          refine .inr ⟨rfl, fun ν mem role => ?_⟩
          obtain ⟨ν', mem', same⟩ := roles ν mem
          have distinct := booked.distinct
          rw [tasks, Multiset.filterMap_cons_some Strand.task? _ _ rfl] at distinct
          refine (Multiset.nodup_cons.mp distinct).1 (mem_tasks.mpr ⟨ν', mem', ?_⟩)
          simp [Strand.task?, same, role]
      · exact .inl rfl

end Runtime

/-- The runtime `τ` is the masked part of a strand of `σ`, with the tasks that it has begun. -/
inductive Mask.Houses (m : Mask) (run : TokenId) (role : Strand.Role) :
    Runtime → Runtime → Prop
  | mk {host core : Strand.State} (seen : m.Shows host core) {tasks : Multiset Strand}
      (below : ∀ μ ∈ tasks, μ.role ≠ .root) (rest : Multiset Strand) (s : Store)
      (log log' : List Moment) : Houses m run role ⟨s, ⟨run, role, host⟩ ::ₘ (tasks + rest), log⟩
        ⟨s, ⟨run, role, core⟩ ::ₘ tasks, log'⟩

/-- The exit of a masked part is handed to the loop that waits for it. -/
inductive Mask.Hands (m : Mask) (run : TokenId) (role : Strand.Role) (x : Exit) :
    Runtime → Runtime → Prop
  | mk (worker : Worker) (callers : List Caller) (s : Store) (rest : Multiset Strand)
      (log : List Moment) : Hands m run role x
        ⟨s, ⟨run, role, .running ⟨.leave x, m.caller :: callers⟩⟩ ::ₘ rest, log⟩
        (Runtime.turn worker run role ⟨.leave x, m.caller :: callers⟩ ⟨s, rest, log⟩)

/-- What a step means for a masked part. -/
inductive Mask.Onward (m : Mask) (run : TokenId) (role : Strand.Role) (σ τ σ' : Runtime) : Prop
  /-- The masked part goes on. -/
  | own {τ' : Runtime} (act : Runtime.Act τ τ') (houses : m.Houses run role σ' τ')
      (marks : ∃ new, σ'.log = new ++ σ.log ∧ τ'.log = new ++ τ.log)
  | other (h : Runtime.Elsewhere τ.strands τ.store σ'.store)
      (houses : m.Houses run role σ' { τ with store := σ'.store })
  /-- The masked part has ended. -/
  | ended {x : Exit} (came : ⟨run, role, .running ⟨.leave x, []⟩⟩ ∈ τ.strands)
      (hands : m.Hands run role x σ σ')
  /-- The strand of the fiber was given up, or something else in it has panicked. -/
  | cut (failed : ∃ μ ∈ σ'.strands, μ.run = run ∧ μ.role = role ∧ μ.failed)

namespace Mask

variable {m : Mask} {run : TokenId} {role : Strand.Role} {σ σ' τ : Runtime}

theorem Hands.step {x : Exit} (hands : m.Hands run role x σ σ') : Runtime.Step σ σ' := by
  obtain ⟨worker, callers, s, rest, log⟩ := hands
  exact .turn s rest log run role _ worker

theorem Houses.store (h : m.Houses run role σ τ) : τ.store = σ.store := by
  cases h
  rfl

/-- What happens elsewhere for all strands happens elsewhere for the masked part. -/
theorem Houses.elsewhere (h : m.Houses run role σ τ) {s : Store}
    (other : Runtime.Elsewhere σ.strands σ.store s) :
    Runtime.Elsewhere τ.strands τ.store s := by
  obtain ⟨seen, below, rest, s₀, log, log'⟩ := h
  cases other with
  | drifts drifts =>
    refine .drifts (drifts.of_roles fun μ mem => ?_)
    obtain rfl | mem := Multiset.mem_cons.mp mem
    · exact ⟨_, Multiset.mem_cons_self _ _, rfl⟩
    · exact ⟨μ, Multiset.mem_cons_of_mem (Multiset.mem_add.mpr (.inl mem)), rfl⟩
  | prune held owned same =>
    refine .prune held (fun μ mem p inside t own => ?_) same
    obtain rfl | mem := Multiset.mem_cons.mp mem
    · obtain ⟨q, inside', same'⟩ := seen.owned inside
      exact owned _ (Multiset.mem_cons_self _ _) q inside' t (same' ▸ own)
    · exact owned μ (Multiset.mem_cons_of_mem (Multiset.mem_add.mpr (.inl mem))) p inside t own

/-- What one strand does, for the masked part. -/
theorem Houses.act (h : m.Houses run role σ τ) (booked : σ.Booked) (act : Runtime.Act σ σ') :
    m.Onward run role σ τ σ' := by
  obtain @⟨host, core, seen, tasks, below, rest, s, log, log'⟩ := h
  generalize same : (⟨run, role, host⟩ : Strand) ::ₘ (tasks + rest) = S at booked act
  obtain @⟨_, s', μ, μ', begun, marks, goes, rest₀, _⟩ := act
  have new : ∀ ν ∈ begun, ν.role ≠ .root := goes.begun_role
  obtain ⟨rfl, rfl⟩ | ⟨tasks', rfl, rfl⟩ | ⟨rest', rfl, rfl⟩ := cons_eq_cons_add same.symm
  -- the strand of the fiber
  · obtain ⟨host', rfl, came⟩ := seen.goes goes
    cases came with
    | @own core' goes' seen' =>
      rw [← add_assoc]
      refine .own (.mk goes' tasks log') (.mk seen' (fun ν mem => ?_) rest s' _ _)
        ⟨marks, rfl, rfl⟩
      exact (Multiset.mem_add.mp mem).elim (new ν) (below ν)
    | other grows seen' =>
      rw [add_left_comm]
      exact .other (Runtime.elsewhere_of_grows grows)
        (.mk seen' below (begun + rest) s' _ log')
    | ended came before =>
      subst came before
      obtain ⟨worker, turned⟩ := goes.turned
      rw [turned]
      exact .ended (Multiset.mem_cons_self _ _) (.mk worker _ s _ log)
    | cut panicked =>
      subst panicked
      exact .cut ⟨_, Multiset.mem_cons_self _ _, rfl, rfl, trivial⟩
  -- a task that the masked part has begun
  · have act := Runtime.Act.mk goes (⟨run, role, core⟩ ::ₘ tasks') log'
    rw [Multiset.add_cons, Multiset.cons_swap, Multiset.cons_swap μ'] at act
    rw [Multiset.add_cons, Multiset.cons_swap μ', ← add_assoc, ← Multiset.cons_add μ']
    refine .own act (.mk seen (fun ν mem => ?_) rest s' _ _) ⟨marks, rfl, rfl⟩
    obtain rfl | mem := Multiset.mem_cons.mp mem
    · rw [goes.role]
      exact below μ (Multiset.mem_cons_self _ _)
    · refine (Multiset.mem_add.mp mem).elim (new ν) fun mem => ?_
      exact below ν (Multiset.mem_cons_of_mem mem)
  -- a strand around the masked part
  · refine .other (Runtime.Act.elsewhere booked goes fun ν mem => ?_) ?_
    · obtain rfl | mem := Multiset.mem_cons.mp mem
      · exact ⟨_, Multiset.mem_cons_self _ _, rfl⟩
      · exact ⟨ν, Multiset.mem_cons_of_mem (Multiset.mem_add.mpr (.inl mem)), rfl⟩
    · rw [Multiset.add_cons, Multiset.cons_swap μ', add_left_comm, ← Multiset.add_cons μ']
      exact .mk seen below (μ' ::ₘ (begun + rest')) s' _ log'

/-- A strand is given up, for the masked part. -/
theorem Houses.giveUp {s s' : Store} {μ μ' : Strand} {rest₀ : Multiset Strand} {log : List Moment}
    (h : m.Houses run role ⟨s, μ ::ₘ rest₀, log⟩ τ) (root : μ.role = .root)
    (left : μ' = μ ∨ μ' = { μ with state := .dropped }) (grows : s.Grows s') :
    m.Onward run role ⟨s, μ ::ₘ rest₀, log⟩ τ ⟨s', μ' ::ₘ rest₀, log⟩ := by
  generalize same : μ ::ₘ rest₀ = S at h ⊢
  obtain @⟨host, core, seen, tasks, below, rest, _, _, log'⟩ := h
  have other : Runtime.Elsewhere (⟨run, role, core⟩ ::ₘ tasks) s s' :=
    Runtime.elsewhere_of_grows grows
  obtain ⟨rfl, rfl⟩ | ⟨tasks', rfl, rfl⟩ | ⟨rest', rfl, rfl⟩ := cons_eq_cons_add same
  · obtain rfl | rfl := left
    · exact .other other (.mk seen below rest s' log log')
    · exact .cut ⟨_, Multiset.mem_cons_self _ _, rfl, rfl, trivial⟩
  · exact (below μ (Multiset.mem_cons_self _ _) root).elim
  · rw [Multiset.cons_swap μ', ← Multiset.add_cons μ']
    exact .other other (.mk seen below (μ' ::ₘ rest') s' log log')

/-- A step of the runtime, for the masked part. -/
theorem Houses.step (h : m.Houses run role σ τ) (booked : σ.Booked) (step : Runtime.Step σ σ') :
    m.Onward run role σ τ σ' := by
  cases step.occurs with
  | act act => exact h.act booked act
  | giveUp root waits left grows => exact h.giveUp root left grows
  | elsewhere other begun =>
    refine .other (h.elsewhere other) ?_
    obtain @⟨host, core, seen, tasks, below, rest, s, log, log'⟩ := h
    have strands : begun + (⟨run, role, host⟩ : Strand) ::ₘ (tasks + rest)
        = ⟨run, role, host⟩ ::ₘ (tasks + (begun + rest)) := by
      rw [Multiset.add_cons, add_left_comm]
    simp only [strands]
    exact .mk seen below (begun + rest) _ log log'

end Mask

end EffectFibers
