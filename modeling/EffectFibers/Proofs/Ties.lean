import EffectFibers.Proofs.Parents

/-!
# How loops are tied

A loop is tied to the loop around it by its token: an operand's token is a child of its loop's
token, and the token of an acquisition or a release has no parent.  The outermost loop of a task
is tied across tasks, to a post that waits for the task (`Post.Ties`).  A reaction keeps the
ties that there are, except to tasks that have ended, and makes those of the loops it begins.

## Main statements

* `Reaction.linked`, `Reaction.ties`, `Reaction.tied`: what a reaction does to the ties.
* `Reaction.owned`, `Reaction.outer`: which tokens and which outermost loops there are after it.
-/

namespace EffectFibers

/-- What a link says of the token of its loop. -/
def Link.Fits (s : Store) (c : TokenId) : Link → Prop
  | .operand q => s.Parent q c
  | .apart => ∀ q, ¬ s.Derived q c
  | .outer => True

theorem Link.Fits.mono {s s' : Store} {c : TokenId} {l : Link} (h : l.Fits s c)
    (ages : s.Ages s') (known : c < s.size) : l.Fits s' c := by
  cases l with
  | operand q => exact Store.Parent.mono h ages
  | apart =>
    intro q derived
    obtain old | young := ages.young q c derived
    · exact h q old
    · exact Nat.not_lt.mpr young.le known
  | outer => trivial

/-- A loop comes to wait for a group from that group, if it does not begin it. -/
theorem Fiber.Step.gathering {s : Store} {φ : Fiber} {ms : List Event} {loop : Loop} {g' : Group}
    (h : φ.Step s ms ⟨loop, .gathering g'⟩) (single : φ.fans = false) :
    ∃ g, φ = ⟨loop, .gathering g⟩ ∧ g.Advances s g' := by
  cases h with
  | fan => cases single
  | gather advances => exact ⟨_, rfl, advances⟩

namespace Post

/-- The tasks that a loop waits for. -/
def waits (p : Post) : List TaskId :=
  match p.piece with
  | .fiber ⟨_, .gathering group⟩ => group.pending.map Prod.snd
  | .fiber _ => []
  | .away _ task => [task]

/-- The loop waits for a task whose outermost loop has the token `c`. -/
inductive Ties (s : Store) (t : TaskId) (c : TokenId) : Post → Prop
  | away {l : Link} {env : Env} (same : env.token = c) : Ties s t c ⟨l, .away env t⟩
  | gathering {l : Link} {loop : Loop} {g : Group} {i : Nat} (mem : (i, t) ∈ g.pending)
      (parent : s.Parent g.token c) : Ties s t c ⟨l, .fiber ⟨loop, .gathering g⟩⟩

structure Linked (s : Store) (p : Post) : Prop where
  bound : ∀ t ∈ p.owned, t < s.size
  link : p.link.Fits s p.token
  group : ∀ loop g, p.piece = .fiber ⟨loop, .gathering g⟩ →
    s.Parent loop.env.token g.token ∧ (g.pending.map Prod.fst).Nodup

variable {s s' : Store} {p : Post} {t : TaskId} {c : TokenId} {l : Link}

theorem token_mem_owned (p : Post) : p.token ∈ p.owned := by
  obtain ⟨l, ⟨loop, doing⟩ | ⟨env, task⟩⟩ := p
  · cases doing <;> simp [owned, token, Fiber.token]
  · simp [owned, token]

theorem mem_owned : c ∈ p.owned ↔
    c = p.token ∨ ∃ loop g, p.piece = .fiber ⟨loop, .gathering g⟩ ∧ c = g.token := by
  obtain ⟨l, ⟨loop, doing⟩ | ⟨env, task⟩⟩ := p
  · cases doing with
    | gathering g => simp [owned, token, Fiber.token]
    | _ => simp [owned, token, Fiber.token]
  · simp [owned, token]

theorem owned_of_newborn {of : TokenId} (h : p.Newborn s s' of) : p.owned = [p.token] := by
  obtain ⟨⟨env, effect, same⟩, -, -⟩ := h
  simp [owned, token, same]

theorem Ties.waits (h : p.Ties s t c) : t ∈ p.waits := by
  cases h with
  | away => exact List.mem_singleton_self t
  | gathering mem => exact List.mem_map_of_mem mem

theorem Ties.mono (h : p.Ties s t c) (ages : s.Ages s') : p.Ties s' t c := by
  cases h with
  | away same => exact .away same
  | gathering mem parent => exact .gathering mem (parent.mono ages)

theorem Linked.mono (h : p.Linked s) (ages : s.Ages s') : p.Linked s' where
  bound t mem := Nat.lt_of_lt_of_le (h.bound t mem) ages.size
  link := h.link.mono ages (h.bound _ p.token_mem_owned)
  group loop g same := (h.group loop g same).imp_left fun parent => parent.mono ages

/-- A loop that has just begun is linked to the one that began it. -/
theorem Newborn.linked {of : TokenId} (h : p.Newborn s s' of) (family : s.Family)
    (known : of < s.size) : p.Linked s' where
  bound t mem := by
    rw [owned_of_newborn h, List.mem_singleton] at mem
    exact mem ▸ h.fresh.lt
  link := by
    have link := h.link
    cases same : p.link with
    | operand q =>
      rw [same] at link
      obtain ⟨rfl, derived⟩ := link
      exact ⟨derived, Nat.lt_of_lt_of_le known h.fresh.le⟩
    | apart =>
      rw [same] at link
      intro q derived
      exact Nat.not_lt.mpr h.fresh.le (family.bound q _ (link q derived))
    | outer => trivial
  group loop g same := by
    obtain ⟨env, effect, other⟩ := h.loop
    cases same.symm.trans other

/-- A post keeps its link in a step of its loop. -/
theorem Linked.step {φ φ' : Fiber} {ms : List Event} (h : Linked s ⟨l, .fiber φ⟩)
    (step : φ.Step s ms φ') (single : φ.fans = false) : Linked s ⟨l, .fiber φ'⟩ := by
  have token := step.token
  have known : φ.token < s.size := h.bound _ (token_mem_owned _)
  have link : l.Fits s φ'.token := by
    rw [token]
    exact h.link
  obtain ⟨loop', doing'⟩ := φ'
  cases doing' with
  | gathering g' =>
    obtain ⟨g, rfl, advances⟩ := step.gathering single
    obtain ⟨parent, indices⟩ := h.group _ g rfl
    have same : loop'.env.token = _ := token
    refine ⟨fun t mem => ?_, ?_, fun loop g₁ found => ?_⟩
    · refine h.bound t ?_
      simpa only [owned, same, advances.token] using mem
    · exact link
    · cases found
      rw [same, advances.token]
      exact ⟨parent, indices.sublist (advances.pending.map _)⟩
  | _ =>
    refine ⟨fun t mem => ?_, ?_, fun loop g₁ found => nomatch found⟩
    · obtain rfl := List.mem_singleton.mp mem
      exact token ▸ known
    · exact link

/-- A loop holds on to nothing new in its step. -/
theorem owned_step {φ φ' : Fiber} {ms : List Event} (step : φ.Step s ms φ')
    (single : φ.fans = false) (own : t ∈ owned ⟨l, .fiber φ'⟩) : t ∈ owned ⟨l, .fiber φ⟩ := by
  have token := step.token
  obtain ⟨loop', doing'⟩ := φ'
  cases doing' with
  | gathering g' =>
    obtain ⟨g, rfl, advances⟩ := step.gathering single
    have same : loop'.env.token = _ := token
    simpa only [owned, same, advances.token] using own
  | _ =>
    obtain rfl := List.mem_singleton.mp own
    rw [token]
    exact token_mem_owned ⟨l, .fiber φ⟩

/-- A loop that waits for an open task still does after its step. -/
theorem Ties.step {φ φ' : Fiber} {ms : List Event} (h : Ties s t c ⟨l, .fiber φ⟩)
    (linked : Linked s ⟨l, .fiber φ⟩) (step : φ.Step s ms φ') (unsettled : s.joined? t = none) :
    Ties s t c ⟨l, .fiber φ'⟩ := by
  cases h with
  | @gathering _ loop g i mem parent =>
    have stays : ∀ g', g.Advances s g' → (i, t) ∈ g'.pending := fun g' advances => by
      refine (advances.ended _ mem).resolve_right ?_
      rintro ⟨⟨j, u⟩, other, rfl, ended⟩
      cases List.inj_on_of_nodup_map (linked.group _ _ rfl).2 mem other rfl
      exact ended unsettled
    cases step with
    | gather advances =>
      exact .gathering (stays _ advances) (advances.token ▸ parent)
    | gathered advances none => simpa [none] using stays _ advances

end Post

/-! ## Reactions -/

namespace Spawn

/-- An operand of a group begins with one post. -/
theorem posts_of_segment? {x : Spawn} {loop : Loop} {effect : Effect}
    (h : x.segment? = some (.start loop effect)) :
    x.posts = {loop.at .outer (.evaluating effect)} := by
  simp [posts, h, Segment.posts]

end Spawn

namespace Reaction

variable {s s' : Store} {P P' : Multiset Post} {ms : List Event} {new : List Spawn} {p : Post}

/-- The tasks that a reaction starts begin with a loop that waits for nothing. -/
theorem starting (h : Reaction s s' P ms new P') {x : Spawn} (mem : x ∈ new)
    (inside : p ∈ x.posts) : ∃ loop effect, p = Loop.at loop .outer (.evaluating effect) ∧
      ((∃ p₀ ∈ P, loop.env.token ∈ p₀.owned) ∨ Within s.size s'.size loop.env.token) := by
  have quiet : x.segment? = none → p ∈ x.posts → False := fun none mem => by
    simp [Spawn.posts, none] at mem
  cases h with
  | idle | back | left => cases mem
  | act step single newborn distinct silent => exact (quiet (silent x mem) inside).elim
  | fan begun =>
    obtain ⟨env, effect, segment, fresh, -⟩ := begun.operands x mem
    rw [Spawn.posts_of_segment? segment, Multiset.mem_singleton] at inside
    exact ⟨_, effect, inside, .inr (fresh.mono (Nat.le_succ_of_le begun.token.le) (Nat.le_refl _))⟩
  | @sent l loop context P live refused =>
    split at mem
    · obtain rfl := List.mem_singleton.mp mem
      rw [Spawn.posts_of_segment? rfl, Multiset.mem_singleton] at inside
      exact ⟨_, _, inside, .inl ⟨_, Multiset.mem_cons_self _ _, List.mem_singleton_self _⟩⟩
    · cases mem

/-- Every loop behind a reaction is linked. -/
theorem linked (h : Reaction s s' P ms new P') (ages : s.Ages s') (family : s.Family)
    (linked : ∀ p ∈ P, p.Linked s) : ∀ p ∈ P', p.Linked s' := by
  intro p mem
  cases h with
  | idle => exact (linked p mem).mono ages
  | @act l φ φ' ms nested new P step single newborn distinct quiet =>
    have acting := linked _ (Multiset.mem_cons_self _ _)
    obtain rfl | mem := Multiset.mem_cons.mp mem
    · exact (acting.step step single).mono ages
    · obtain mem | mem := Multiset.mem_add.mp mem
      · exact (newborn p mem).linked family (acting.bound _ (Post.token_mem_owned _))
      · exact (linked p (Multiset.mem_cons_of_mem mem)).mono ages
  | @fan l loop n operands group new P begun =>
    have acting := linked _ (Multiset.mem_cons_self _ _)
    have known : loop.env.token < s.size := acting.bound _ (Post.token_mem_owned _)
    obtain rfl | mem := Multiset.mem_cons.mp mem
    · have parent : s'.Parent loop.env.token group.token :=
        ⟨begun.derived, Nat.lt_of_lt_of_le known begun.token.le⟩
      refine ⟨fun t mem => ?_, acting.link.mono ages known, fun loop g found => ?_⟩
      · obtain rfl | rfl : t = loop.env.token ∨ t = group.token := by
          simpa [Post.owned, Loop.at] using mem
        · exact Nat.lt_of_lt_of_le known ages.size
        · exact begun.token.lt
      · cases found
        exact ⟨parent, begun.indices⟩
    · exact (linked p (Multiset.mem_cons_of_mem mem)).mono ages
  | sent live refused =>
    obtain rfl | mem := Multiset.mem_cons.mp mem
    · obtain ⟨bound, link, -⟩ := linked _ (Multiset.mem_cons_self _ _)
      refine Post.Linked.mono ⟨bound, link, fun loop g found => ?_⟩ ages
      cases found
    · exact (linked p (Multiset.mem_cons_of_mem mem)).mono ages
  | back | left => exact (linked p (Multiset.mem_cons_of_mem mem)).mono ages

/-- A loop behind a reaction holds on to a token that was held before, or to a new one. -/
theorem owned (h : Reaction s s' P ms new P') (mem : p ∈ P') {t : TokenId} (own : t ∈ p.owned) :
    (∃ p₀ ∈ P, t ∈ p₀.owned) ∨ Within s.size s'.size t := by
  have others : ∀ {p₀ : Post} {P : Multiset Post}, p ∈ P →
      (∃ p₁ ∈ p₀ ::ₘ P, t ∈ p₁.owned) ∨ Within s.size s'.size t :=
    fun mem => .inl ⟨p, Multiset.mem_cons_of_mem mem, own⟩
  cases h with
  | idle => exact .inl ⟨p, mem, own⟩
  | @act l φ φ' ms nested new P step single newborn distinct quiet =>
    obtain rfl | mem := Multiset.mem_cons.mp mem
    · exact .inl ⟨_, Multiset.mem_cons_self _ _, Post.owned_step step single own⟩
    · obtain mem | mem := Multiset.mem_add.mp mem
      · rw [Post.owned_of_newborn (newborn p mem), List.mem_singleton] at own
        exact .inr (own ▸ (newborn p mem).fresh)
      · exact others mem
  | @fan l loop n operands group new P begun =>
    obtain rfl | mem := Multiset.mem_cons.mp mem
    · obtain rfl | rfl : t = loop.env.token ∨ t = group.token := by
        simpa [Post.owned, Loop.at] using own
      · exact .inl ⟨_, Multiset.mem_cons_self _ _, List.mem_singleton_self _⟩
      · exact .inr begun.token
    · exact others mem
  | sent live refused =>
    obtain rfl | mem := Multiset.mem_cons.mp mem
    · exact .inl ⟨_, Multiset.mem_cons_self _ _, own⟩
    · exact others mem
  | back | left => exact others mem

/-- The outermost loops keep their tokens. -/
theorem outer (h : Reaction s s' P ms new P') (mem : p ∈ P') (link : p.link = .outer) :
    ∃ p₀ ∈ P, p₀.link = .outer ∧ p₀.token = p.token := by
  have others : ∀ {p₀ : Post} {P : Multiset Post}, p ∈ P →
      ∃ p₁ ∈ p₀ ::ₘ P, p₁.link = .outer ∧ p₁.token = p.token :=
    fun mem => ⟨p, Multiset.mem_cons_of_mem mem, link, rfl⟩
  cases h with
  | idle => exact ⟨p, mem, link, rfl⟩
  | act step single newborn distinct quiet =>
    obtain rfl | mem := Multiset.mem_cons.mp mem
    · exact ⟨_, Multiset.mem_cons_self _ _, link, step.token.symm⟩
    · obtain mem | mem := Multiset.mem_add.mp mem
      · have newLink := (newborn p mem).link
        rw [link] at newLink
        exact newLink.elim
      · exact others mem
  | fan | sent =>
    obtain rfl | mem := Multiset.mem_cons.mp mem
    · exact ⟨_, Multiset.mem_cons_self _ _, link, rfl⟩
    · exact others mem
  | back | left => exact others mem

/-- Whoever waits for a task that has not ended goes on to wait for it. -/
theorem ties (h : Reaction s s' P ms new P') (ages : s.Ages s') (linked : ∀ p ∈ P, p.Linked s)
    (mem : p ∈ P) {t : TaskId} {c : TokenId} (tied : p.Ties s t c)
    (unsettled : s.joined? t = none) : ∃ p' ∈ P', p'.token = p.token ∧ p'.Ties s' t c := by
  cases h with
  | idle => exact ⟨p, mem, rfl, tied.mono ages⟩
  | act step single newborn distinct quiet =>
    obtain rfl | mem := Multiset.mem_cons.mp mem
    · have kept := tied.step (linked _ (Multiset.mem_cons_self _ _)) step unsettled
      exact ⟨_, Multiset.mem_cons_self _ _, step.token, kept.mono ages⟩
    · exact ⟨p, by simp [mem], rfl, tied.mono ages⟩
  | fan | sent =>
    obtain rfl | mem := Multiset.mem_cons.mp mem
    · cases tied
    · exact ⟨p, Multiset.mem_cons_of_mem mem, rfl, tied.mono ages⟩
  | back ended =>
    obtain rfl | mem := Multiset.mem_cons.mp mem
    · cases tied
      exact (ended unsettled).elim
    · exact ⟨p, mem, rfl, tied.mono ages⟩
  | left =>
    obtain rfl | mem := Multiset.mem_cons.mp mem
    · cases tied
    · exact ⟨p, mem, rfl, tied.mono ages⟩

/-- A task that a reaction starts is waited for. -/
theorem tied (h : Reaction s s' P ms new P') {x : Spawn} (mem : x ∈ new) (inside : p ∈ x.posts) :
    ∃ p' ∈ P', p'.Ties s' x.task p.token := by
  cases h with
  | idle | back | left => cases mem
  | act step single newborn distinct silent =>
    simp [Spawn.posts, silent x mem] at inside
  | fan begun =>
    obtain ⟨env, effect, segment, fresh, derived, i, pending⟩ := begun.operands x mem
    rw [Spawn.posts_of_segment? segment, Multiset.mem_singleton] at inside
    subst inside
    exact ⟨_, Multiset.mem_cons_self _ _, .gathering pending ⟨derived, fresh.le⟩⟩
  | sent live refused =>
    split at mem
    · obtain rfl := List.mem_singleton.mp mem
      rw [Spawn.posts_of_segment? rfl, Multiset.mem_singleton] at inside
      subst inside
      exact ⟨_, Multiset.mem_cons_self _ _, .away rfl⟩
    · cases mem

/-- Loops come to wait for new tasks only. -/
theorem waits (h : Reaction s s' P ms new P') (mem : p ∈ P') {t : TaskId} (wait : t ∈ p.waits) :
    (∃ p₀ ∈ P, t ∈ p₀.waits) ∨ s.joins.size ≤ t := by
  have others : ∀ {p₀ : Post} {P : Multiset Post}, p ∈ P →
      (∃ p₁ ∈ p₀ ::ₘ P, t ∈ p₁.waits) ∨ s.joins.size ≤ t :=
    fun mem => .inl ⟨p, Multiset.mem_cons_of_mem mem, wait⟩
  cases h with
  | idle => exact .inl ⟨p, mem, wait⟩
  | @act l φ φ' ms nested new P step single newborn distinct quiet =>
    obtain rfl | mem := Multiset.mem_cons.mp mem
    · obtain ⟨loop', doing'⟩ := φ'
      cases doing' with
      | gathering g' =>
        obtain ⟨g, rfl, advances⟩ := step.gathering single
        exact .inl ⟨_, Multiset.mem_cons_self _ _, (advances.pending.map _).subset wait⟩
      | _ => cases wait
    · obtain mem | mem := Multiset.mem_add.mp mem
      · obtain ⟨env, effect, same⟩ := (newborn p mem).loop
        simp [Post.waits, same] at wait
      · exact others mem
  | fan begun =>
    obtain rfl | mem := Multiset.mem_cons.mp mem
    · obtain ⟨x, pending, rfl⟩ := List.mem_map.mp wait
      exact .inr (begun.tasks x pending).le
    · exact others mem
  | sent live refused =>
    obtain rfl | mem := Multiset.mem_cons.mp mem
    · obtain rfl := List.mem_singleton.mp wait
      exact .inr (Nat.le_refl _)
    · exact others mem
  | back | left => exact others mem

end Reaction

end EffectFibers
