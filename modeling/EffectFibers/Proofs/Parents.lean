import EffectFibers.Proofs.Runtime

/-!
# Parents

A token has at most one parent, which is older.  While somebody holds on to a token, it hangs
below its parent in the forest: a cancellation of the parent has come to it or is going to
(`Forest.Hangs`).

## Main statements

* `Store.Grows.family`: no token gets a second parent.
* `Store.Grows.hangs`: growth keeps a token below its parent.
* `Runtime.Elapse.listed`: nothing is ever listed below a token but what was derived from it.
* `Store.Listed.below`: so a cancellation comes to nothing else.
-/

namespace EffectFibers

namespace Store

/-- The token `c` was derived from the older token `p`. -/
structure Parent (s : Store) (p c : TokenId) : Prop where
  derived : s.Derived p c
  lt : p < c

theorem Parent.mono {s s' : Store} {p c : TokenId} (h : s.Parent p c) (ages : s.Ages s') :
    s'.Parent p c :=
  ⟨ages.derived p c h.derived, h.lt⟩

/-- The token `c` is `p` or was derived from it, over any number of generations. -/
abbrev Below (s : Store) : TokenId → TokenId → Prop := Relation.ReflTransGen s.Parent

/-- Derived tokens exist, and each was derived once. -/
structure Family (s : Store) : Prop where
  bound : ∀ p c, s.Derived p c → c < s.size
  unique : ∀ p p' c, s.Derived p c → s.Derived p' c → p = p'

variable {s s' : Store} {p c : TokenId}

theorem below_le (below : s.Below p c) : p ≤ c := by
  induction below with
  | refl => exact Nat.le_refl p
  | tail _ parent ih => exact Nat.le_trans ih (Nat.le_of_lt parent.lt)

theorem Family.mono (h : s.Family) (size : s.size ≤ s'.size)
    (derived : ∀ p c, s'.Derived p c → s.Derived p c) : s'.Family :=
  ⟨fun p c mem => Nat.lt_of_lt_of_le (h.bound p c (derived p c mem)) size,
    fun p p' c mem mem' => h.unique p p' c (derived p c mem) (derived p' c mem')⟩

theorem derived_emit {e : Event} (plain : e.isPlain = true) (h : (s.emit e).Derived p c) :
    s.Derived p c := by
  refine (List.mem_cons.mp h).resolve_left ?_
  rintro rfl
  cases plain

theorem derived_childToken {q : TokenId} (h : (s.childToken q).2.Derived p c) :
    p = q ∧ c = s.size ∨ s.Derived p c := by
  rw [Derived, trace_childToken] at h
  simpa [Derived] using h

theorem Change.family (change : s.Change s') (h : s.Family) : s'.Family := by
  cases change with
  | same same => exact h.mono (by simp [size, same.tokens]) fun p c => by simp [Derived, same.trace]
  | emit e plain => exact h.mono (Nat.le_refl _) fun p c => derived_emit plain
  | acquire t v => exact h.mono (Nat.le_refl _) fun p c mem => by simpa [Derived] using mem
  | fresh => exact h.mono (by simp) fun p c => id
  | child q =>
    constructor
    · intro p c mem
      rw [size_childToken]
      obtain ⟨-, rfl⟩ | mem := derived_childToken mem
      · exact Nat.lt_succ_self _
      · exact Nat.lt_succ_of_lt (h.bound p c mem)
    · intro p p' c mem mem'
      obtain ⟨rfl, rfl⟩ | mem := derived_childToken mem
      · obtain ⟨rfl, -⟩ | mem' := derived_childToken mem'
        · rfl
        · exact absurd (h.bound p' _ mem') (Nat.lt_irrefl _)
      · obtain ⟨-, rfl⟩ | mem' := derived_childToken mem'
        · exact absurd (h.bound p _ mem) (Nat.lt_irrefl _)
        · exact h.unique p p' c mem mem'
  | cancel t => exact h.mono (by simp) fun p c => by simp [Derived]
  | spawn context job => exact h.mono (by simp) fun p c => by simp [Derived]

theorem Grows.family (grows : s.Grows s') (h : s.Family) : s'.Family := by
  induction grows with
  | refl => exact h
  | tail _ change ih => exact change.family ih

/-- A change keeps a token below its parent, and puts a new one there. -/
theorem Change.hangs (change : s.Change s') (family : s.Family) (parent : s'.Parent p c)
    (h : s.Derived p c → s.tokens.Hangs p c) : s'.tokens.Hangs p c := by
  obtain ⟨derived, lt⟩ := parent
  cases change with
  | same same =>
    rw [same.tokens]
    exact h (by simpa [Derived, same.trace] using derived)
  | emit e plain => exact h (derived_emit plain derived)
  | acquire t v => exact h (by simpa [Derived] using derived)
  | fresh => exact (h derived).fresh
  | child q =>
    obtain ⟨rfl, rfl⟩ | old := derived_childToken derived
    · exact Forest.hangs_child lt
    · exact (h old).child
  | cancel t =>
    have old : s.Derived p c := by simpa [Derived] using derived
    rw [tokens_cancel]
    exact (h old).cancel (family.bound p c old)
  | spawn context job =>
    rw [tokens_spawn]
    exact h (by simpa [Derived] using derived)

theorem Grows.hangs (grows : s.Grows s') (family : s.Family) (parent : s'.Parent p c)
    (h : s.Derived p c → s.tokens.Hangs p c) : s'.tokens.Hangs p c := by
  obtain ⟨derived, lt⟩ := parent
  induction grows with
  | refl => exact h derived
  | tail grows change ih =>
    exact change.hangs (Grows.family grows family) ⟨derived, lt⟩ ih

/-- Only what was derived from a token is listed below it. -/
def Listed (s : Store) : Prop := ∀ p c, c ∈ s.tokens.children p → s.Parent p c

theorem Listed.mono (h : s.Listed) (children : ∀ p c, c ∈ s'.tokens.children p →
    c ∈ s.tokens.children p) (derived : ∀ p c, s.Derived p c → s'.Derived p c) : s'.Listed :=
  fun p c mem => by
    obtain ⟨old, lt⟩ := h p c (children p c mem)
    exact ⟨derived p c old, lt⟩

theorem Change.listed (change : s.Change s') (h : s.Listed) : s'.Listed := by
  have ages := Grows.ages (.single change)
  have children : s'.tokens = s.tokens → s'.Listed := fun same =>
    h.mono (fun p c mem => same ▸ mem) ages.derived
  cases change with
  | same same => exact children same.tokens
  | emit | acquire => exact children rfl
  | fresh => exact h.mono (fun p c mem => Forest.children_fresh ▸ mem) ages.derived
  | child q =>
    intro p c mem
    obtain old | ⟨rfl, rfl, lt⟩ := Forest.mem_children_of_child mem
    · exact (h p c old).mono ages
    · exact ⟨by simp [Derived], lt⟩
  | cancel t =>
    refine h.mono (fun p c mem => ?_) ages.derived
    rw [tokens_cancel] at mem
    exact Forest.mem_children_of_cancelAll mem
  | spawn context job => exact children (s.tokens_spawn _ _)

theorem Grows.listed (grows : s.Grows s') (h : s.Listed) : s'.Listed := by
  induction grows with
  | refl => exact h
  | tail _ change ih => exact change.listed ih

/-- A cancellation comes only to the token and to what was derived from it. -/
theorem Listed.below (h : s.Listed) {t u : TokenId}
    (cancelled : (s.tokens.cancel t).isCancelled u = true) :
    s.isCancelled u = true ∨ s.Below t u :=
  (Forest.listed_of_isCancelled_cancel cancelled).imp_right fun lists =>
    Relation.ReflTransGen.mono h _ _ lists

end Store

namespace Runtime

variable {σ σ' : Runtime} {p c : TokenId}

theorem Elapse.listed (elapse : Elapse σ σ') (h : σ.store.Listed) : σ'.store.Listed := by
  have ages := elapse.ages
  cases elapse with
  | grows grows => exact grows.listed h
  | still tokens brackets derived => exact h.mono (fun p c mem => tokens ▸ mem) ages.derived
  | prune owned tokens brackets trace =>
    refine h.mono (fun p c mem => ?_) ages.derived
    rw [tokens] at mem
    exact Forest.mem_children_of_prune mem

theorem Elapse.family (elapse : Elapse σ σ') (h : σ.store.Family) : σ'.store.Family := by
  cases elapse with
  | grows grows => exact grows.family h
  | still tokens brackets derived =>
    exact h.mono (by simp [Store.size, tokens]) fun p c => (derived p c).mp
  | prune owned tokens brackets trace =>
    exact h.mono (by simp [Store.size, tokens, Forest.prune]) fun p c => by
      simp [Store.Derived, trace]

/-- A step keeps a token below its parent, if it is one that a loop held on to before. -/
theorem Elapse.hangs (elapse : Elapse σ σ') (family : σ.store.Family)
    (parent : σ'.store.Parent p c)
    (owned : c < σ.store.size → ∃ τ ∈ σ.strands, ∃ q ∈ τ.posts, c ∈ q.owned)
    (h : σ.store.Parent p c → σ.store.tokens.Hangs p c) : σ'.store.tokens.Hangs p c := by
  have old : σ.store.Derived p c → σ.store.tokens.Hangs p c := fun derived =>
    h ⟨derived, parent.lt⟩
  cases elapse with
  | grows grows => exact grows.hangs family parent old
  | still tokens brackets derived =>
    rw [tokens]
    exact old ((derived p c).mp parent.derived)
  | prune held tokens brackets trace =>
    have derived : σ.store.Derived p c := by simpa [Store.Derived, trace] using parent.derived
    obtain ⟨τ, mem, q, mem', own⟩ := owned (family.bound p c derived)
    rw [tokens]
    exact (old derived).prune (held τ mem q mem' c own)

end Runtime

end EffectFibers
