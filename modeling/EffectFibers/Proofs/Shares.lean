import EffectFibers.Proofs.Straight

/-!
# A run in parts

The strands of a run may carry out several effects, each in a part of the run to itself.  Every
strand of a runtime is shared out to one of the parts, or to none; so a strand that goes on is a
step of its own part, and for the other parts something that happens around them.

Each part is then what becomes of its effect by itself (`Effect.Alone`): the other effects do what
the ambit of this one allows (`Effect.Respects`), and so does whoever is not of the run
(`Civil`).

## Main definitions

* `Civil`: runs in whose surroundings nothing is done but what the ambits allow.
* `Shares`, `Divided`: the strands, shared out to the parts.

## Main statements

* `Divided.own`, `Divided.pass`: a step of a part, and of nobody in a part.
* `Divided.next`: a step of the runtime.
* `Divided.begins`, `Divided.yields`: a strand comes to be in a part, and is no longer.
* `Divided.comes`: what a part comes to.
-/

namespace EffectFibers

variable {ι : Type}

/-- Less is left alone. -/
theorem Runtime.Elsewhere.mono {own own' : Multiset Strand} {s s' : Store}
    (h : Runtime.Elsewhere own s s') (sub : own' ⊆ own) : Runtime.Elsewhere own' s s' := by
  cases h with
  | drifts h =>
    refine .drifts ⟨h.tokens, h.brackets, h.joins, fun t lt => ?_⟩
    exact (h.joined t lt).imp_right fun settled => ⟨settled.1, fun μ mem => settled.2 μ (sub mem)⟩
  | prune held h same => exact .prune held (fun μ mem => h μ (sub mem)) same

/-! ## Civil runs -/

/-- A strand of the run goes on. -/
inductive Runtime.ActOf (run : TokenId) : Runtime → Runtime → Prop
  | mk {s s' : Store} {μ μ' : Strand} {begun : Multiset Strand} {marks : List Moment}
      (goes : μ.Goes s s' μ' begun marks) (own : μ.run = run) (rest : Multiset Strand)
      (log : List Moment) : ActOf run ⟨s, μ ::ₘ rest, log⟩ ⟨s', μ' ::ₘ (begun + rest), marks ++ log⟩

/-- What was done, as it is seen from a part: its own steps are some of the steps of the run. -/
def Refines : List Transition → List Transition → Prop :=
  List.Forall₂ fun d p => d.before = p.before ∧ d.after = p.after ∧ (d.own → p.own)

/-- Steps in which nobody asks for the cancellation of what only the run loops know, and in which
nothing is done around the run but what the ambits allow, whichever steps of the run are those of
the part. -/
inductive Civil (S : ι → Ambit) (run : TokenId) (σ₀ : Runtime) : Runtime → List Transition → Prop
  | refl : Civil S run σ₀ σ₀ []
  | tail {σ σ' : Runtime} {path : List Transition} (before : Civil S run σ₀ σ path)
      (step : Runtime.Discreet σ σ')
      (fair : Runtime.ActOf run σ σ' ∨ ∀ i deeds, Refines deeds path →
        (S i).Spares deeds σ.store σ'.store) :
      Civil S run σ₀ σ' (⟨Runtime.ActOf run σ σ', σ.store.face, σ'.store.face⟩ :: path)

/-! ## Shares -/

/-- Strands, each with the part that it is in, if it is in any. -/
abbrev Shares (ι : Type) := Multiset (Option ι × Strand)

namespace Shares

variable {L M : Shares ι} {i : ι} {l : Option ι} {μ : Strand} {run : TokenId}

/-- Strands that are shared out to one part, or to none. -/
def all (l : Option ι) (strands : Multiset Strand) : Shares ι := strands.map (Prod.mk l)

/-- The strands of the run that are in no part. -/
def host (L : Shares ι) (run : TokenId) : Multiset Strand :=
  (L.filter fun x => x.1 = none ∧ x.2.run = run).map Prod.snd

theorem map_all (strands : Multiset Strand) : (all l strands).map Prod.snd = strands := by
  simp [all]

theorem mem_host : μ ∈ host L run ↔ (none, μ) ∈ L ∧ μ.run = run := by
  simp [host]

theorem host_add : host (L + M) run = host L run + host M run := by simp [host]

theorem host_cons : host ((l, μ) ::ₘ L) run
    = if l = none ∧ μ.run = run then μ ::ₘ host L run else host L run := by
  unfold host
  rw [Multiset.filter_cons]
  split <;> simp_all

theorem host_all {strands : Multiset Strand} (other : l ≠ none ∨ ∀ μ ∈ strands, μ.run ≠ run) :
    host (all l strands) run = 0 := by
  refine Multiset.eq_zero_of_forall_notMem fun μ mem => ?_
  obtain ⟨mem, same⟩ := mem_host.mp mem
  obtain ⟨ν, inside, eq⟩ := Multiset.mem_map.mp mem
  cases eq
  exact other.elim (fun ne => ne rfl) fun ne => ne _ inside same

/-- A strand is shared out somehow. -/
theorem exists_share {rest : Multiset Strand} (h : L.map Prod.snd = μ ::ₘ rest) :
    ∃ l L₀, L = (l, μ) ::ₘ L₀ ∧ L₀.map Prod.snd = rest := by
  obtain ⟨⟨l, ν⟩, mem, rfl⟩ : ∃ x ∈ L, x.2 = μ :=
    Multiset.mem_map.mp (h ▸ Multiset.mem_cons_self μ rest)
  obtain ⟨L₀, rfl⟩ := Multiset.exists_cons_of_mem mem
  rw [Multiset.map_cons] at h
  exact ⟨l, L₀, rfl, (Multiset.cons_inj_right _).mp h⟩

variable [DecidableEq ι]

/-- The strands of a part. -/
def part (L : Shares ι) (i : ι) : Multiset Strand := (L.filter (·.1 = some i)).map Prod.snd

/-- The strands that are not in a part. -/
def others (L : Shares ι) (i : ι) : Multiset Strand := (L.filter (·.1 ≠ some i)).map Prod.snd

theorem part_add_others (L : Shares ι) (i : ι) : part L i + others L i = L.map Prod.snd := by
  rw [part, others, ← Multiset.map_add, Multiset.filter_add_not]

theorem mem_part : μ ∈ part L i ↔ (some i, μ) ∈ L := by
  simp [part]

theorem part_add : part (L + M) i = part L i + part M i := by simp [part]

theorem others_add : others (L + M) i = others L i + others M i := by simp [others]

theorem part_cons : part ((l, μ) ::ₘ L) i = if l = some i then μ ::ₘ part L i else part L i := by
  unfold part
  rw [Multiset.filter_cons]
  split <;> simp

theorem others_cons :
    others ((l, μ) ::ₘ L) i = if l = some i then others L i else μ ::ₘ others L i := by
  unfold others
  rw [Multiset.filter_cons]
  split <;> simp_all

theorem part_all (strands : Multiset Strand) :
    part (all l strands) i = if l = some i then strands else 0 := by
  unfold part all
  split <;> simp_all [Multiset.filter_map]

theorem others_all (strands : Multiset Strand) :
    others (all l strands) i = if l = some i then 0 else strands := by
  unfold others all
  split <;> simp_all [Multiset.filter_map]

theorem part_le (L : Shares ι) (i : ι) : part L i ≤ L.map Prod.snd := by
  rw [← part_add_others L i]
  exact Multiset.le_add_right _ _

/-! ### A strand of a part, or of no part -/

variable {μ' : Strand} {begun : Multiset Strand}

theorem part_cons_self : part ((some i, μ) ::ₘ L) i = μ ::ₘ part L i := by
  rw [part_cons, if_pos rfl]

theorem part_cons_of_ne (other : l ≠ some i) : part ((l, μ) ::ₘ L) i = part L i := by
  rw [part_cons, if_neg other]

theorem others_cons_self : others ((some i, μ) ::ₘ L) i = others L i := by
  rw [others_cons, if_pos rfl]

theorem others_cons_of_ne (other : l ≠ some i) :
    others ((l, μ) ::ₘ L) i = μ ::ₘ others L i := by
  rw [others_cons, if_neg other]

/-! What a strand has begun is in its part. -/

theorem part_goes_self :
    part ((some i, μ') ::ₘ (all (some i) begun + L)) i = μ' ::ₘ (begun + part L i) := by
  rw [part_cons_self, part_add, part_all, if_pos rfl]

theorem part_goes_of_ne (other : l ≠ some i) :
    part ((l, μ') ::ₘ (all l begun + L)) i = part L i := by
  rw [part_cons_of_ne other, part_add, part_all, if_neg other, zero_add]

theorem others_goes_self :
    others ((some i, μ') ::ₘ (all (some i) begun + L)) i = others L i := by
  rw [others_cons_self, others_add, others_all, if_pos rfl, zero_add]

theorem others_goes_of_ne (other : l ≠ some i) :
    others ((l, μ') ::ₘ (all l begun + L)) i = μ' ::ₘ (begun + others L i) := by
  rw [others_cons_of_ne other, others_add, others_all, if_neg other]

end Shares

open Shares

namespace Strand.Goes

variable {s s' : Store} {μ μ' : Strand} {begun : Multiset Strand} {marks : List Moment}

theorem run (goes : μ.Goes s s' μ' begun marks) : μ'.run = μ.run := by
  cases goes <;> rfl

theorem begun_run (goes : μ.Goes s s' μ' begun marks) : ∀ ν ∈ begun, ν.run = μ.run := by
  cases goes with
  | poll | report => simp
  | turn run role c worker trace spawned =>
    intro ν mem
    obtain ⟨x, -, segment, -, rfl⟩ := mem_ofSpawns.mp mem
    rfl

/-- What others hold on to when one of them goes on, they did before, or it is new. -/
theorem owns {rest : Multiset Strand} {t : TokenId} (goes : μ.Goes s s' μ' begun marks)
    (owns : Strand.Owns (μ' ::ₘ (begun + rest)) t) : Strand.Owns (μ ::ₘ rest) t ∨ s.size ≤ t := by
  rw [← Multiset.cons_add, Strand.owns_add] at owns
  rw [← Multiset.singleton_add, Strand.owns_add]
  obtain now | old := owns
  · exact (goes.owned now).imp .inl Within.le
  · exact .inl (.inr old)

end Strand.Goes

/-- The frames at the end of a loop stay there until the loop unwinds to them. -/
theorem Fiber.Step.suffix {s : Store} {φ φ' : Fiber} {ms : List Event} {F : List Frame}
    (step : φ.Step s ms φ') (below : F <:+ φ.frames)
    (above : ∀ x, φ ≠ ⟨⟨φ.loop.env, F⟩, .unwinding x⟩) : F <:+ φ'.frames := by
  have pop {env : Env} {frame : Frame} {frames : List Frame} {x : Exit}
      (below : F <:+ frame :: frames)
      (above : ∀ y, (⟨⟨env, frame :: frames⟩, .unwinding x⟩ : Fiber) ≠ ⟨⟨env, F⟩, .unwinding y⟩) :
      F <:+ frames := by
    obtain rfl | below := List.suffix_cons_iff.mp below
    · exact (above x rfl).elim
    · exact below
  cases step with
  | mapped | bound | repeated | handled | skipped | release => exact pop below above
  | map | bind | handle | again | acquired | acquiredLate =>
    exact below.trans (List.suffix_cons ..)
  | _ => exact below

/-- The frames below an effect stay where they are while a strand is busy with it. -/
theorem Strand.Goes.keeps_frames {s s' : Store} {μ μ' : Strand} {begun own : Multiset Strand}
    {marks : List Moment} {o : Outset} (goes : μ.Goes s s' μ' begun marks)
    (known : o.token < s.size) (busy : o.Busy (μ ::ₘ own))
    (frames : ∀ ν ∈ μ ::ₘ own, ∀ φ ∈ Post.fibers ν.posts, φ.token = o.token →
      o.loop.frames <:+ φ.frames) (ν : Strand) (mem : ν ∈ μ' ::ₘ (begun + own)) (φ' : Fiber)
    (inside : φ' ∈ Post.fibers ν.posts) (token : φ'.token = o.token) :
    o.loop.frames <:+ φ'.frames := by
  rw [← Multiset.cons_add, Multiset.mem_add] at mem
  obtain mem | mem := mem
  · obtain fresh | ⟨φ, before, moved⟩ := goes.fibers mem inside
    · exact (Nat.not_lt.mpr fresh.le (token ▸ known)).elim
    · obtain rfl | ⟨ms, step⟩ := moved
      · exact frames μ (Multiset.mem_cons_self _ _) φ' before token
      · have token' := step.token.symm.trans token
        have below := frames μ (Multiset.mem_cons_self _ _) φ before token'
        obtain bare | free := busy
        · rw [bare]
          exact List.nil_suffix
        · refine step.suffix below fun x same => ?_
          refine free μ (Multiset.mem_cons_self _ _) x ⟨φ.loop.env, token', ?_⟩
          exact same ▸ before
  · exact frames ν (Multiset.mem_cons_of_mem mem) φ' inside token

/-! ## Parts of a run -/

/-- Each part of a run is what becomes of its effect by itself. -/
structure Divided [DecidableEq ι] (S : ι → Ambit) (e : ι → Effect) (run : TokenId) (σ : Runtime)
    (path : List Transition) (L : Shares ι) (deeds : ι → List Transition)
    (outset : ι → Option Outset) : Prop where
  strands : L.map Prod.snd = σ.strands
  runs : ∀ i, ∀ μ ∈ part L i, μ.run = run
  alone : ∀ i, ∃ log, (e i).Alone (S i) ⟨σ.store, part L i, log⟩ (deeds i) (outset i)
  apart : ∀ i j, i ≠ j → Effect.Apart (deeds i) (deeds j)
  refines : ∀ i, Refines (deeds i) path
  known : ∀ i o, outset i = some o → o.token < o.size
  holdings : ∀ i o, outset i = some o →
    ∃ mine, Belongings σ.store run (part L i) (others L i) mine o.token
  /-- The frames below the effect stay where they are. -/
  frames : ∀ i o, outset i = some o → ∀ μ ∈ part L i, ∀ φ ∈ Post.fibers μ.posts,
    φ.token = o.token → o.loop.frames <:+ φ.frames

namespace Divided

variable [DecidableEq ι] {S : ι → Ambit} {e : ι → Effect} {run : TokenId} {σ σ' : Runtime}
  {path : List Transition} {L L' : Shares ι} {deeds : ι → List Transition}
  {outset : ι → Option Outset} {i j : ι} {o : Outset}

theorem mem_strands {l : Option ι} {μ : Strand}
    (h : Divided S e run σ path ((l, μ) ::ₘ L) deeds outset) : μ ∈ σ.strands := by
  rw [← h.strands, Multiset.map_cons]
  exact Multiset.mem_cons_self _ _

/-- Nothing of an effect is there before it is evaluated. -/
theorem nothing {S : Ambit} {e : Effect} {π : Runtime} {deeds : List Transition}
    (alone : e.Alone S π deeds none) : π.strands = 0 := by
  generalize same : (none : Option Outset) = found at alone
  cases alone with
  | opens | waits => rfl
  | begins | own | around | yields => cases same

/-- The store has changed around an effect. -/
theorem around_of_elsewhere {S : Ambit} {e : Effect} {s s' : Store} {own : Multiset Strand}
    {deeds : List Transition} {found : Option Outset}
    (alone : ∃ log, e.Alone S ⟨s, own, log⟩ deeds found) (ages : s.Ages s')
    (elsewhere : Runtime.Elsewhere own s s') (spares : S.Spares deeds s s')
    (calm : ∀ o, found = some o → ∀ t, Strand.Owns own t → t ≠ o.token →
      s'.isCancelled t = true → s.isCancelled t = true) :
    ∃ log, e.Alone S ⟨s', own, log⟩ (.around s s' :: deeds) found := by
  obtain ⟨log, alone⟩ := alone
  cases found with
  | none =>
    obtain rfl : own = 0 := nothing alone
    exact ⟨log, .waits alone ages.size spares⟩
  | some o =>
    refine ⟨log, .around alone ⟨?_, ages, spares, calm o rfl⟩⟩
    cases elsewhere with
    | drifts h => exact .inl h
    | prune held h same =>
      refine .inr ⟨held, fun t owns _ => ?_, same⟩
      obtain ⟨μ, mem, p, inside, own⟩ := owns
      exact h μ mem p inside t own

/-- A step of nobody in a part. -/
theorem pass (h : Divided S e run σ path L deeds outset) (own : Prop)
    (strands : L'.map Prod.snd = σ'.strands) (same : ∀ i, part L' i = part L i)
    (new : ∀ i t, Strand.Owns (others L' i) t →
      Strand.Owns (others L i) t ∨ σ.store.size ≤ t) (ages : σ.store.Ages σ'.store)
    (elsewhere : ∀ i, Runtime.Elsewhere (part L i) σ.store σ'.store)
    (spares : ∀ i, (S i).Spares (deeds i) σ.store σ'.store)
    (calm : ∀ i o, outset i = some o → ∀ t, Strand.Owns (part L i) t → t ≠ o.token →
      σ'.store.isCancelled t = true → σ.store.isCancelled t = true) :
    Divided S e run σ' (⟨own, σ.store.face, σ'.store.face⟩ :: path) L'
      (fun i => .around σ.store σ'.store :: deeds i) outset where
  strands := strands
  runs i := same i ▸ h.runs i
  alone i := by
    rw [same i]
    exact around_of_elsewhere (h.alone i) ages (elsewhere i) (spares i) (calm i)
  apart i j ne := .cons ⟨rfl, rfl, fun both => both.1⟩ (h.apart i j ne)
  refines i := .cons ⟨rfl, rfl, False.elim⟩ (h.refines i)
  known := h.known
  holdings i o began := by
    obtain ⟨mine, holdings⟩ := h.holdings i o began
    exact ⟨mine, same i ▸ holdings.around ages (new i)⟩
  frames i o began := same i ▸ h.frames i o began

/-- A step of a part. -/
theorem own {s s' : Store} {μ μ' : Strand} {begun : Multiset Strand} {marks log : List Moment}
    (h : Divided S e run ⟨s, μ ::ₘ L.map Prod.snd, log⟩ path ((some j, μ) ::ₘ L) deeds outset)
    (reach : Runtime.Reachable ⟨s, μ ::ₘ L.map Prod.snd, log⟩)
    (goes : μ.Goes s s' μ' begun marks) (began : outset j = some o)
    (busy : o.Busy (part ((some j, μ) ::ₘ L) j))
    (respects : ∀ i, i ≠ j → (e j).Respects (S j) (S i))
    (calm : ∀ i, i ≠ j → ∀ o, outset i = some o → ∀ t, Strand.Owns (part L i) t → t ≠ o.token →
      s'.isCancelled t = true → s.isCancelled t = true) :
    Divided S e run ⟨s', μ' ::ₘ (begun + L.map Prod.snd), marks ++ log⟩
      (⟨Runtime.ActOf run ⟨s, μ ::ₘ L.map Prod.snd, log⟩
        ⟨s', μ' ::ₘ (begun + L.map Prod.snd), marks ++ log⟩, s.face, s'.face⟩ :: path)
      ((some j, μ') ::ₘ (all (some j) begun + L))
      (fun i => ⟨i = j, s.face, s'.face⟩ :: deeds i) outset := by
  have step := (Runtime.Act.mk goes (L.map Prod.snd) log).step
  have reach' : Runtime.Reachable ⟨s', μ' ::ₘ (begun + L.map Prod.snd), marks ++ log⟩ :=
    .tail reach step
  have acting : μ.run = run := h.runs j μ (by rw [part_cons_self]; simp)
  have other {i : ι} (ne : i ≠ j) : some j ≠ some i := fun same => ne (Option.some.inj same).symm
  rw [part_cons_self] at busy
  obtain ⟨log₀, alone⟩ := h.alone j
  rw [part_cons_self, began] at alone
  have act : Runtime.Act ⟨s, μ ::ₘ part L j, log₀⟩ ⟨s', μ' ::ₘ (begun + part L j), marks ++ log₀⟩ :=
    .mk goes (part L j) log₀
  refine ⟨?_, fun i ν mem => ?_, fun i => ?_, fun i k ne => ?_, fun i => ?_, h.known,
    fun i o' began' => ?_, fun i o' began' => ?_⟩
  · simp [map_all]
  · have runs := h.runs i
    by_cases same : i = j
    · subst same
      rw [part_cons_self] at runs
      rw [part_goes_self, Multiset.mem_cons, Multiset.mem_add] at mem
      obtain rfl | mem | mem := mem
      · exact goes.run.trans acting
      · exact (goes.begun_run ν mem).trans acting
      · exact runs ν (Multiset.mem_cons_of_mem mem)
    · rw [part_cons_of_ne (other same)] at runs
      exact runs ν (part_goes_of_ne (other same) ▸ mem)
  · by_cases same : i = j
    · subst same
      rw [part_goes_self, began, eq_self]
      exact ⟨marks ++ log₀, .own alone busy act⟩
    · have parts := h.alone i
      rw [part_cons_of_ne (other same)] at parts
      rw [part_goes_of_ne (other same), eq_false same]
      refine around_of_elsewhere parts step.ages
        (Runtime.Act.elsewhere reach.booked goes fun ν mem => ?_)
        (respects i same _ _ _ _ alone busy act _ (h.apart j i fun eq => same eq.symm))
        (calm i same)
      exact ⟨ν, Multiset.mem_map_of_mem Prod.snd (mem_part.mp mem), rfl⟩
  · refine .cons ⟨rfl, rfl, ?_⟩ (h.apart i k ne)
    rintro ⟨rfl, rfl⟩
    exact ne rfl
  · exact .cons ⟨rfl, rfl, fun _ => .mk goes acting _ log⟩ (h.refines i)
  · obtain ⟨mine, holdings⟩ := h.holdings i o' began'
    by_cases same : i = j
    · subst same
      rw [part_cons_self, others_cons_self] at holdings
      rw [part_goes_self, others_goes_self]
      refine ⟨_, holdings.act goes step.ages reach.kindred.family reach'.kindred.family
        fun t owns => ?_⟩
      obtain ⟨ν, mem, held⟩ := owns
      refine reach.owned_known ⟨ν, Multiset.mem_cons_of_mem ?_, held⟩
      rw [← part_add_others L i]
      exact Multiset.mem_add.mpr (.inr mem)
    · rw [part_cons_of_ne (other same), others_cons_of_ne (other same)] at holdings
      rw [part_goes_of_ne (other same), others_goes_of_ne (other same)]
      exact ⟨mine, holdings.around step.ages fun t owns => goes.owns owns⟩
  · have frames := h.frames i o' began'
    by_cases same : i = j
    · subst same
      obtain rfl := Option.some.inj (began'.symm.trans began)
      obtain ⟨mine, holdings⟩ := h.holdings i _ began
      rw [part_cons_self] at frames
      rw [part_goes_self]
      exact goes.keeps_frames (holdings.known _ holdings.first) busy frames
    · rw [part_cons_of_ne (other same)] at frames
      rwa [part_goes_of_ne (other same)]

/-! ### Who comes to be in a part, and who leaves it -/

/-- A strand of the run is about to evaluate the effect of a part. -/
structure Opens (σ : Runtime) (run : TokenId) (effect : Effect) (own others : Multiset Strand)
    (o : Outset) : Prop where
  same : o.run = run
  size : o.size = σ.store.size
  known : o.token < o.size
  own : ∃ state : Strand.State, own = {⟨o.run, o.role, state⟩} ∧ state.Before o.loop effect
  free : Strand.Owns others o.token → o.token = run

/-- The loop of a strand that is about to evaluate an effect is the only one. -/
theorem posts_before {state : Strand.State} {loop : Loop} {effect : Effect} {role : Strand.Role}
    (about : state.Before loop effect) : (⟨run, role, state⟩ : Strand).posts
      = {loop.at .outer (.evaluating effect)} := by
  cases about <;> simp [Strand.posts, Segment.posts]

/-- Strands of the run come to be in parts. -/
theorem begins {outset' : ι → Option Outset} (h : Divided S e run σ path L deeds outset)
    (reach : σ.Reachable) (strands : L'.map Prod.snd = σ.strands)
    (parts : ∀ i, outset' i = outset i ∧ part L' i = part L i ∧ others L' i = others L i ∨
      outset i = none ∧ ∃ o, outset' i = some o ∧ Opens σ run (e i) (part L' i) (others L' i) o) :
    Divided S e run σ path L' deeds outset' := by
  have old {i : ι} {o : Outset} (began : outset' i = some o) :
      (outset i = some o ∧ part L' i = part L i ∧ others L' i = others L i) ∨
        Opens σ run (e i) (part L' i) (others L' i) o := by
    obtain ⟨same, rest⟩ | ⟨-, o', began', opens⟩ := parts i
    · exact .inl ⟨same.symm.trans began, rest⟩
    · obtain rfl := Option.some.inj (began'.symm.trans began)
      exact .inr opens
  refine ⟨strands, fun i μ mem => ?_, fun i => ?_, h.apart, h.refines, fun i o began => ?_,
    fun i o began => ?_, fun i o began μ mem φ inside token => ?_⟩
  · obtain ⟨-, same, -⟩ | ⟨-, o, -, opens⟩ := parts i
    · exact h.runs i μ (same ▸ mem)
    · obtain ⟨state, own, -⟩ := opens.own
      rw [own, Multiset.mem_singleton] at mem
      exact mem ▸ opens.same
  · obtain ⟨log, alone⟩ := h.alone i
    obtain ⟨same, own, -⟩ | ⟨none, o, began, opens⟩ := parts i
    · exact ⟨log, by rw [same, own]; exact alone⟩
    · obtain ⟨state, own, about⟩ := opens.own
      have empty : part L i = 0 := nothing (none ▸ alone)
      rw [none, empty] at alone
      exact ⟨log, by rw [began, own]; exact .begins alone reach about opens.size⟩
  · obtain ⟨began, -⟩ | opens := old began
    · exact h.known i o began
    · exact opens.known
  · obtain ⟨began, own, others⟩ | opens := old began
    · rw [own, others]
      exact h.holdings i o began
    · obtain ⟨state, own, about⟩ := opens.own
      have first : ∀ t, Strand.Owns (part L' i) t → t = o.token := by
        rintro t ⟨μ, mem, p, inside, own'⟩
        rw [own, Multiset.mem_singleton] at mem
        subst mem
        rw [posts_before about, Multiset.mem_singleton] at inside
        subst inside
        exact List.mem_singleton.mp own'
      refine ⟨(· = o.token), ⟨?_, rfl, first, ?_, fun t q owns ne => (ne (first t owns)).elim⟩⟩
      · rintro t rfl
        exact opens.size ▸ opens.known
      · rintro t owns rfl
        exact opens.free owns
  · obtain ⟨began, own, -⟩ | opens := old began
    · exact h.frames i o began μ (own ▸ mem) φ inside token
    · obtain ⟨state, own, about⟩ := opens.own
      rw [own, Multiset.mem_singleton] at mem
      subst mem
      rw [posts_before about] at inside
      obtain ⟨l, inside⟩ := Post.mem_fibers.mp inside
      cases Multiset.mem_singleton.mp inside
      exact List.suffix_rfl

/-- A strand leaves its part when the effect has come to an exit. -/
theorem yields {μ : Strand} {x : Exit}
    (h : Divided S e run σ path ((some j, μ) ::ₘ L) deeds outset) (began : outset j = some o)
    (past : o.Over μ.posts x) (single : ∀ t, Strand.Owns {μ} t → t = run) :
    Divided S e run σ path ((none, μ) ::ₘ L) deeds outset := by
  have other {i : ι} (ne : i ≠ j) : some j ≠ some i := fun same => ne (Option.some.inj same).symm
  have nobody (i : ι) : none ≠ some i := (Option.some_ne_none i).symm
  have sub : ∀ i, part L i ⊆ part ((some j, μ) ::ₘ L) i := fun i ν mem =>
    mem_part.mpr (Multiset.mem_cons_of_mem (mem_part.mp mem))
  refine ⟨by simpa using h.strands, fun i ν mem => ?_, fun i => ?_, h.apart, h.refines, h.known,
    fun i o' began' => ?_, fun i o' began' ν mem => ?_⟩
  · rw [part_cons_of_ne (nobody i)] at mem
    exact h.runs i ν (sub i mem)
  · obtain ⟨log, alone⟩ := h.alone i
    rw [part_cons_of_ne (nobody i)]
    by_cases same : i = j
    · subst same
      rw [part_cons_self, began] at alone
      rw [began]
      exact ⟨log, .yields alone past⟩
    · rw [part_cons_of_ne (other same)] at alone
      exact ⟨log, alone⟩
  · obtain ⟨mine, holdings⟩ := h.holdings i o' began'
    refine ⟨mine, ?_⟩
    rw [part_cons_of_ne (nobody i), others_cons_of_ne (nobody i)]
    by_cases same : i = j
    · subst same
      rw [part_cons_self, others_cons_self] at holdings
      refine ⟨holdings.known, holdings.first, fun t owns => ?_, fun t owns inside => ?_,
        fun t q owns ne parent => ?_⟩
      · exact holdings.inside t (Strand.owns_cons.mpr (.inr owns))
      · obtain held | owns := Strand.owns_cons.mp owns
        · exact single t ⟨μ, Multiset.mem_singleton_self μ, held⟩
        · exact holdings.outside t owns inside
      · exact holdings.parent t q (Strand.owns_cons.mpr (.inr owns)) ne parent
    · rwa [part_cons_of_ne (other same), others_cons_of_ne (other same)] at holdings
  · rw [part_cons_of_ne (nobody i)] at mem
    exact h.frames i o' began' ν (sub i mem)

/-! ### What a part comes to -/

/-- A part comes to what its effect comes to by itself. -/
theorem comes {x y : Exit} {μ : Strand} (h : Divided S e run σ path L deeds outset)
    (comes : (e i).ComesTo (S i) x) (whole : ¬ σ.Failed run)
    (unrefused : ∀ t, σ.store.joined? t ≠ some .aborted) (began : outset i = some o)
    (quiet : (e i).Straight ∨ σ.store.isCancelled o.token = false) (mem : μ ∈ part L i)
    (past : o.Over μ.posts y) : y = x := by
  obtain ⟨log, alone⟩ := h.alone i
  rw [began] at alone
  obtain straight | clear := quiet
  · exact comes.straight straight alone unrefused mem past
  · refine comes _ _ o y alone (fun ν inside failed => whole ⟨ν, ?_, h.runs i ν inside, failed⟩)
      unrefused (.inl (h.known i o began)) clear ⟨μ, mem, past⟩
    rw [← h.strands, ← part_add_others L i]
    exact Multiset.mem_add.mpr (.inl inside)

/-- Nothing of a part is cancelled from around but its loop. -/
theorem calm (h : Divided S e run σ path L deeds outset) (reach : σ.Reachable)
    (discreet : Runtime.Discreet σ σ') (whole : ¬ σ.Failed run) (began : outset i = some o)
    (quiet : (e i).Straight ∨ σ'.store.isCancelled run = false ∧
      (Strand.Owns (part L i) o.token → σ'.store.isCancelled o.token = false))
    (spreads : σ.store.Spreads σ'.store fun t =>
      Runtime.Asks σ σ' t ∨ σ.Holds t t ∨ Strand.Owns (others L i) t) (t : TokenId)
    (owns : Strand.Owns (part L i) t) (ne : t ≠ o.token)
    (cancelled : σ'.store.isCancelled t = true) : σ.store.isCancelled t = true := by
  obtain straight | ⟨alive, clear⟩ := quiet
  · obtain ⟨log, alone⟩ := h.alone i
    rw [began] at alone
    exact (ne (alone.owns_straight straight owns)).elim
  · obtain ⟨mine, holdings⟩ := h.holdings i o began
    exact holdings.calm reach discreet whole (h.strands ▸ (part_add_others L i).symm) (h.runs i)
      spreads alive clear owns ne cancelled

/-! ### A step of the runtime -/

/-- No part is cancelled from around, unless its effect has no suspension points. -/
def Quiet (e : ι → Effect) (run : TokenId) (σ : Runtime) (outset : ι → Option Outset) : Prop :=
  ∀ i o, outset i = some o → (e i).Straight ∨ σ.store.isCancelled run = false ∧
    (σ.Holds run o.token → σ.store.isCancelled o.token = false)

/-- What holds of a part that is quiet while it stays as it is. -/
theorem quiet_part (quiet : Quiet e run σ' outset) (began : outset i = some o)
    (kept : part L i ≤ σ'.strands) (runs : ∀ μ ∈ part L i, μ.run = run) :
    (e i).Straight ∨ σ'.store.isCancelled run = false ∧
      (Strand.Owns (part L i) o.token → σ'.store.isCancelled o.token = false) := by
  refine (quiet i o began).imp_right fun clear => ⟨clear.1, fun owns => clear.2 ?_⟩
  obtain ⟨μ, mem, p, inside, own⟩ := owns
  exact ⟨μ.party, Multiset.mem_map_of_mem _ (Multiset.subset_of_le kept mem), runs μ mem, p,
    inside, own⟩

section Act

variable {s s' : Store} {μ μ' : Strand} {begun : Multiset Strand} {marks log : List Moment}

/-- Nothing of a part is cancelled but its loop when a strand goes on that is not in it. -/
theorem calm_beside {l : Option ι}
    (h : Divided S e run ⟨s, μ ::ₘ L.map Prod.snd, log⟩ path ((l, μ) ::ₘ L) deeds outset)
    (reach : Runtime.Reachable ⟨s, μ ::ₘ L.map Prod.snd, log⟩)
    (goes : μ.Goes s s' μ' begun marks)
    (discreet : Runtime.Discreet ⟨s, μ ::ₘ L.map Prod.snd, log⟩
      ⟨s', μ' ::ₘ (begun + L.map Prod.snd), marks ++ log⟩)
    (whole : ¬ Runtime.Failed ⟨s, μ ::ₘ L.map Prod.snd, log⟩ run)
    (quiet : Quiet e run ⟨s', μ' ::ₘ (begun + L.map Prod.snd), marks ++ log⟩ outset)
    (other : l ≠ some i) (began : outset i = some o) (t : TokenId)
    (owns : Strand.Owns (part L i) t) (ne : t ≠ o.token) (cancelled : s'.isCancelled t = true) :
    s.isCancelled t = true := by
  have runs := h.runs i
  rw [part_cons_of_ne other] at runs
  have kept : part L i ≤ μ' ::ₘ (begun + L.map Prod.snd) :=
    (part_le L i).trans ((Multiset.le_add_left _ _).trans (Multiset.le_cons_self _ _))
  have calm := h.calm reach discreet whole began
  rw [part_cons_of_ne other, others_cons_of_ne other] at calm
  refine calm (quiet_part quiet began kept runs)
    ((goes.spreads reach).mono fun t target => target.imp_right fun held => .inr ?_) t owns ne
    cancelled
  obtain ⟨ν, mem, held⟩ := held
  exact ⟨ν, Multiset.mem_cons.mpr (.inl (Multiset.mem_singleton.mp mem)), held⟩

/-- A strand that is in no part goes on. -/
theorem bystander (h : Divided S e run ⟨s, μ ::ₘ L.map Prod.snd, log⟩ path ((none, μ) ::ₘ L) deeds
      outset) (reach : Runtime.Reachable ⟨s, μ ::ₘ L.map Prod.snd, log⟩)
    (goes : μ.Goes s s' μ' begun marks)
    (discreet : Runtime.Discreet ⟨s, μ ::ₘ L.map Prod.snd, log⟩
      ⟨s', μ' ::ₘ (begun + L.map Prod.snd), marks ++ log⟩)
    (whole : ¬ Runtime.Failed ⟨s, μ ::ₘ L.map Prod.snd, log⟩ run) (own : Prop)
    (spares : ∀ i, (S i).Spares (deeds i) s s')
    (quiet : Quiet e run ⟨s', μ' ::ₘ (begun + L.map Prod.snd), marks ++ log⟩ outset) :
    Divided S e run ⟨s', μ' ::ₘ (begun + L.map Prod.snd), marks ++ log⟩
      (⟨own, s.face, s'.face⟩ :: path) ((none, μ') ::ₘ (all none begun + L))
      (fun i => .around s s' :: deeds i) outset := by
  have nobody (i : ι) : none ≠ some i := (Option.some_ne_none i).symm
  refine h.pass own (by simp [map_all]) (fun i => ?_) (fun i t owns => ?_) discreet.step.ages
    (fun i => ?_) spares fun i o began t owns => ?_
  · rw [part_goes_of_ne (nobody i), part_cons_of_ne (nobody i)]
  · rw [others_goes_of_ne (nobody i)] at owns
    rw [others_cons_of_ne (nobody i)]
    exact goes.owns owns
  · rw [part_cons_of_ne (nobody i)]
    refine Runtime.Act.elsewhere reach.booked goes fun ν mem => ?_
    exact ⟨ν, Multiset.mem_map_of_mem Prod.snd (mem_part.mp mem), rfl⟩
  · rw [part_cons_of_ne (nobody i)] at owns
    exact h.calm_beside reach goes discreet whole quiet (nobody i) began t owns

end Act

/-- A strand of the run that is in no part goes on. -/
inductive HostActs (run : TokenId) : Runtime → Runtime → Shares ι → Prop
  | mk {s s' : Store} {μ μ' : Strand} {begun : Multiset Strand} {marks : List Moment}
      (goes : μ.Goes s s' μ' begun marks) (own : μ.run = run) (L : Shares ι) (log : List Moment) :
      HostActs run ⟨s, μ ::ₘ L.map Prod.snd, log⟩
        ⟨s', μ' ::ₘ (begun + L.map Prod.snd), marks ++ log⟩ ((none, μ) ::ₘ L)

/-- The run stays divided in a step, and the strands of the run that are in no part stay as they
are.  Loops stay in the part that they are in. -/
structure Stays (S : ι → Ambit) (e : ι → Effect) (run : TokenId) (σ σ' : Runtime)
    (path : List Transition) (L L' : Shares ι) (deeds' : ι → List Transition)
    (outset : ι → Option Outset) : Prop where
  divided : Divided S e run σ' (⟨Runtime.ActOf run σ σ', σ.store.face, σ'.store.face⟩ :: path) L'
    deeds' outset
  host : Shares.host L' run = Shares.host L run
  loops : ∀ l, ∀ ν, (l, ν) ∈ L' → ∀ φ ∈ Post.fibers ν.posts, φ.token < σ.store.size →
    ∃ ν₀ φ₀, (l, ν₀) ∈ L ∧ φ₀ ∈ Post.fibers ν₀.posts ∧ φ₀.token = φ.token

omit [DecidableEq ι] in
theorem loops_of_goes {l : Option ι} {s s' : Store} {μ μ' : Strand} {begun : Multiset Strand}
    {marks : List Moment} (goes : μ.Goes s s' μ' begun marks) {l' : Option ι} {ν : Strand}
    (mem : (l', ν) ∈ (l, μ') ::ₘ (all l begun + L)) {φ : Fiber} (inside : φ ∈ Post.fibers ν.posts)
    (known : φ.token < s.size) :
    ∃ ν₀ φ₀, (l', ν₀) ∈ (l, μ) ::ₘ L ∧ φ₀ ∈ Post.fibers ν₀.posts ∧ φ₀.token = φ.token := by
  have acted (here : ν ∈ μ' ::ₘ begun) (same : l' = l) :
      ∃ ν₀ φ₀, (l', ν₀) ∈ (l, μ) ::ₘ L ∧ φ₀ ∈ Post.fibers ν₀.posts ∧ φ₀.token = φ.token := by
    subst same
    obtain fresh | ⟨φ₀, before, moved⟩ := goes.fibers here inside
    · exact (Nat.not_lt.mpr fresh.le known).elim
    · refine ⟨μ, φ₀, Multiset.mem_cons_self _ _, before, ?_⟩
      obtain rfl | ⟨ms, step⟩ := moved
      · rfl
      · exact step.token.symm
  obtain same | mem := Multiset.mem_cons.mp mem
  · cases same
    exact acted (Multiset.mem_cons_self _ _) rfl
  · obtain mem | mem := Multiset.mem_add.mp mem
    · obtain ⟨ν', mem, same⟩ := Multiset.mem_map.mp mem
      cases same
      exact acted (Multiset.mem_cons_of_mem mem) rfl
    · exact ⟨ν, φ, Multiset.mem_cons_of_mem mem, inside, rfl⟩

section Stays

variable {s s' : Store} {μ μ' : Strand} {begun : Multiset Strand} {marks log : List Moment}

/-- A strand of a part goes on. -/
theorem stays_own (h : Divided S e run ⟨s, μ ::ₘ L.map Prod.snd, log⟩ path ((some j, μ) ::ₘ L) deeds
      outset) (reach : Runtime.Reachable ⟨s, μ ::ₘ L.map Prod.snd, log⟩)
    (goes : μ.Goes s s' μ' begun marks)
    (discreet : Runtime.Discreet ⟨s, μ ::ₘ L.map Prod.snd, log⟩
      ⟨s', μ' ::ₘ (begun + L.map Prod.snd), marks ++ log⟩)
    (whole : ¬ Runtime.Failed ⟨s, μ ::ₘ L.map Prod.snd, log⟩ run)
    (busy : ∀ i o, outset i = some o → o.Busy (part ((some j, μ) ::ₘ L) i))
    (respects : ∀ i j, i ≠ j → (e j).Respects (S j) (S i))
    (quiet : Quiet e run ⟨s', μ' ::ₘ (begun + L.map Prod.snd), marks ++ log⟩ outset) :
    ∃ L' deeds', Stays S e run ⟨s, μ ::ₘ L.map Prod.snd, log⟩
      ⟨s', μ' ::ₘ (begun + L.map Prod.snd), marks ++ log⟩ path ((some j, μ) ::ₘ L) L' deeds'
      outset := by
  obtain ⟨o, began⟩ : ∃ o, outset j = some o := by
    cases found : outset j with
    | some o => exact ⟨o, rfl⟩
    | none =>
      obtain ⟨log, alone⟩ := h.alone j
      rw [found, part_cons_self] at alone
      exact (Multiset.cons_ne_zero (nothing alone)).elim
  refine ⟨_, _, h.own reach goes began (busy j o began) (fun i ne => respects i j ne)
    fun i ne o began => ?_, ?_, fun l ν mem φ inside => loops_of_goes goes mem inside⟩
  · exact h.calm_beside reach goes discreet whole quiet
      (fun same => ne (Option.some.inj same).symm) began
  · rw [host_cons, host_add, host_all (.inl (Option.some_ne_none j)), host_cons]
    simp

/-- A strand of another run goes on. -/
theorem stays_bystander (h : Divided S e run ⟨s, μ ::ₘ L.map Prod.snd, log⟩ path
      ((none, μ) ::ₘ L) deeds outset) (reach : Runtime.Reachable ⟨s, μ ::ₘ L.map Prod.snd, log⟩)
    (goes : μ.Goes s s' μ' begun marks)
    (discreet : Runtime.Discreet ⟨s, μ ::ₘ L.map Prod.snd, log⟩
      ⟨s', μ' ::ₘ (begun + L.map Prod.snd), marks ++ log⟩)
    (whole : ¬ Runtime.Failed ⟨s, μ ::ₘ L.map Prod.snd, log⟩ run)
    (spares : ∀ i, (S i).Spares (deeds i) s s') (other : μ.run ≠ run)
    (quiet : Quiet e run ⟨s', μ' ::ₘ (begun + L.map Prod.snd), marks ++ log⟩ outset) :
    ∃ L' deeds', Stays S e run ⟨s, μ ::ₘ L.map Prod.snd, log⟩
      ⟨s', μ' ::ₘ (begun + L.map Prod.snd), marks ++ log⟩ path ((none, μ) ::ₘ L) L' deeds'
      outset := by
  refine ⟨_, _, h.bystander reach goes discreet whole _ spares quiet, ?_,
    fun l ν mem φ inside => loops_of_goes goes mem inside⟩
  have begunOther : ∀ ν ∈ begun, ν.run ≠ run := fun ν mem => by
    rw [goes.begun_run ν mem]
    exact other
  rw [host_cons, host_add, host_all (.inr begunOther), host_cons, goes.run]
  simp [other]

end Stays

/-- A strand of another run is in no part. -/
theorem unlabelled (h : Divided S e run σ path L deeds outset) {l : Option ι} {μ : Strand}
    (mem : (l, μ) ∈ L) (other : μ.run ≠ run) : l = none := by
  cases l with
  | none => rfl
  | some i => exact (other (h.runs i μ (mem_part.mpr mem))).elim

/-- No strand goes on. -/
theorem stays_aside (h : Divided S e run σ path L deeds outset) (reach : σ.Reachable)
    (discreet : Runtime.Discreet σ σ') (aside : Runtime.Aside σ σ')
    (spreads : σ.store.Spreads σ'.store fun t => Runtime.Asks σ σ' t ∨ σ.Holds t t)
    (spares : ∀ i, (S i).Spares (deeds i) σ.store σ'.store) (known : run < σ.store.size)
    (whole' : ¬ σ'.Failed run) (quiet : Quiet e run σ' outset) :
    ∃ L' deeds', Stays S e run σ σ' path L L' deeds' outset := by
  have whole : ¬ σ.Failed run := fun failed => whole' (discreet.step.failure failed)
  have nobody (i : ι) : none ≠ some i := (Option.some_ne_none i).symm
  cases aside with
  | @begins _ s' begun elsewhere runs fresh =>
    have kept : ∀ i, part L i ≤ σ.strands := fun i => h.strands ▸ part_le L i
    have part' : ∀ i, part (all none begun + L) i = part L i := fun i => by
      rw [part_add, part_all, if_neg (nobody i), zero_add]
    have begunOther : ∀ ν ∈ begun, ν.run ≠ run := fun ν mem same =>
      Nat.not_lt.mpr (same ▸ runs ν mem) known
    refine ⟨all none begun + L, _, h.pass _ ?_ part' (fun i t owns => ?_) discreet.step.ages
      (fun i => elsewhere.mono (Multiset.subset_of_le (kept i))) spares fun i o began => ?_, ?_,
      fun l ν mem φ inside old => ?_⟩
    · rw [Multiset.map_add, map_all, h.strands]
    · rw [others_add, others_all, if_neg (nobody i), Strand.owns_add] at owns
      exact owns.symm.imp_right (fresh t)
    · refine h.calm reach discreet whole began (quiet_part quiet began ?_ (h.runs i))
        (spreads.mono fun t target => target.imp_right .inl)
      exact (kept i).trans (Multiset.le_add_left _ _)
    · rw [host_add, host_all (.inr begunOther), zero_add]
    · obtain mem | mem := Multiset.mem_add.mp mem
      · obtain ⟨ν', mem, same⟩ := Multiset.mem_map.mp mem
        cases same
        obtain ⟨l, inside⟩ := Post.mem_fibers.mp inside
        exact (Nat.not_lt.mpr (fresh φ.token ⟨ν, mem, _, inside, Post.token_mem_owned _⟩) old).elim
      · exact ⟨ν, φ, mem, inside, rfl⟩
  | @drops s s' grows μ rest log =>
    have other : μ.run ≠ run := fun same => whole' ⟨_, Multiset.mem_cons_self _ _, same, trivial⟩
    obtain ⟨l, L, rfl, rfl⟩ := exists_share h.strands
    obtain rfl := h.unlabelled (Multiset.mem_cons_self _ _) other
    have runs : ∀ i, ∀ ν ∈ part L i, ν.run = run := fun i =>
      part_cons_of_ne (nobody i) ▸ h.runs i
    refine ⟨(none, { μ with state := .dropped }) ::ₘ L, _, h.pass _ (by simp) (fun i => ?_)
      (fun i t owns => ?_) discreet.step.ages (fun i => Runtime.elsewhere_of_grows grows) spares
      fun i o began => ?_, ?_, fun l ν mem φ inside old => ?_⟩
    · rw [part_cons_of_ne (nobody i), part_cons_of_ne (nobody i)]
    · rw [others_cons_of_ne (nobody i), Strand.owns_cons] at owns ⊢
      obtain ⟨p, inside, -⟩ | owns := owns
      · cases inside
      · exact .inl (.inr owns)
    · refine h.calm reach discreet whole began ?_
        (spreads.mono fun t target => target.imp_right .inl)
      rw [part_cons_of_ne (nobody i)]
      exact quiet_part quiet began ((part_le L i).trans (Multiset.le_cons_self _ _)) (runs i)
    · simp [host_cons, other]
    · obtain same | mem := Multiset.mem_cons.mp mem
      · cases same
        cases inside
      · exact ⟨ν, φ, Multiset.mem_cons_of_mem mem, inside, rfl⟩

/-- A step of the runtime: a strand of the run goes on that is in no part, or the run stays
divided. -/
theorem next (h : Divided S e run σ path L deeds outset) (reach : σ.Reachable)
    (discreet : Runtime.Discreet σ σ')
    (fair : Runtime.ActOf run σ σ' ∨ ∀ i deeds, Refines deeds path →
      (S i).Spares deeds σ.store σ'.store)
    (known : run < σ.store.size) (whole' : ¬ σ'.Failed run)
    (busy : ∀ j o, outset j = some o → o.Busy (part L j))
    (respects : ∀ i j, i ≠ j → (e j).Respects (S j) (S i)) (quiet : Quiet e run σ' outset) :
    HostActs run σ σ' L ∨ ∃ L' deeds', Stays S e run σ σ' path L L' deeds' outset := by
  have whole : ¬ σ.Failed run := fun failed => whole' (discreet.step.failure failed)
  by_cases byRun : Runtime.ActOf run σ σ'
  · obtain @⟨s, s', μ, μ', begun, marks, goes, own, rest, log⟩ := id byRun
    obtain ⟨l, L, rfl, rfl⟩ := exists_share h.strands
    cases l with
    | none => exact .inl (.mk goes own L log)
    | some j => exact .inr (h.stays_own reach goes discreet whole busy respects quiet)
  · have spares : ∀ i, (S i).Spares (deeds i) σ.store σ'.store := fun i =>
      fair.resolve_left byRun i _ (h.refines i)
    obtain act | ⟨aside, spreads⟩ := discreet.step.act_or_aside reach
    · obtain @⟨s, s', μ, μ', begun, marks, goes, rest, log⟩ := act
      have other : μ.run ≠ run := fun same => byRun (.mk goes same rest log)
      obtain ⟨l, L, rfl, rfl⟩ := exists_share h.strands
      obtain rfl := h.unlabelled (Multiset.mem_cons_self _ _) other
      exact .inr (h.stays_bystander reach goes discreet whole spares other quiet)
    · exact .inr (h.stays_aside reach discreet aside spreads spares known whole' quiet)

end Divided

end EffectFibers
