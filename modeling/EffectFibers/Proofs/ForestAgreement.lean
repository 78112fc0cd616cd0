import EffectFibers.Proofs.TokenForest

/-!
# Forests that agree on what is shown

Some tokens of a forest may be hidden: whether they are cancelled is nobody's business, as long as
what hangs below a hidden token is hidden too.  Two forests agree if they have the same tokens and
differ in hidden ones only.  Every operation keeps the agreement, and the cancellation of a hidden
token may even be left out on one side.

## Main statements

* `Forest.Agree.cancel`: the same cancellation on both sides.
* `Forest.Agree.hide`: the cancellation of a hidden token on one side.
-/

namespace EffectFibers.Forest

variable {f g h : Forest} {t u p c : TokenId} {ts ts' : List TokenId}

/-! ## Cancellations one after the other -/

theorem cancelAll_append (f : Forest) (ts ts' : List TokenId) :
    f.cancelAll (ts ++ ts') = (f.cancelAll ts).cancelAll ts' := by
  fun_induction cancelAll f ts with
  | case1 => rfl
  | case2 f t rest found ih =>
    rw [List.cons_append, cancelAll]
    split
    · exact ih
    · next node some => cases some.symm.trans found
  | case3 f t rest node found cancelled ih =>
    rw [List.cons_append, cancelAll]
    split
    · exact ih
    · next node' some =>
      cases some.symm.trans found
      split
      · exact ih
      · next live => cases live.symm.trans cancelled
  | case4 f t rest node found live ih =>
    rw [List.cons_append, cancelAll]
    split
    · next none => cases none.symm.trans found
    · next node' some =>
      cases some.symm.trans found
      split
      · next cancelled => cases cancelled.symm.trans live
      · rw [← List.append_assoc]
        exact ih

theorem cancelAll_cons (f : Forest) (t : TokenId) (ts : List TokenId) :
    f.cancelAll (t :: ts) = (f.cancel t).cancelAll ts :=
  f.cancelAll_append [t] ts

theorem cancel_of_live {node : Node} (found : f.nodes[t]? = some node)
    (live : node.cancelled = false) : f.cancel t = (f.mark t).cancelAll node.children := by
  rw [cancel, cancelAll]
  split
  · next none => cases none.symm.trans found
  · next node' some =>
    cases some.symm.trans found
    split
    · next cancelled => cases cancelled.symm.trans live
    · rw [List.append_nil]

theorem cancel_of_none (none : f.nodes[t]? = none) : f.cancel t = f := by
  rw [cancel, cancelAll]
  split
  · rw [cancelAll]
  · next node some => cases some.symm.trans none

theorem liveCount_cancelAll_le : (f.cancelAll ts).liveCount ≤ f.liveCount := by
  fun_induction cancelAll f ts with
  | case1 => exact Nat.le_refl _
  | case2 f t rest found ih => exact ih
  | case3 f t rest node found cancelled ih => exact ih
  | case4 f t rest node found live ih =>
    exact Nat.le_trans ih (Nat.le_of_lt (liveCount_mark_lt found live))

/-- A token derived from an unknown one is derived from nothing. -/
theorem child_unknown (le : f.nodes.size ≤ p) :
    (f.child p).2 = f.fresh.2 := by
  have live : f.isCancelled p = false := by simp [isCancelled, Array.getElem?_eq_none le]
  have same : (f.nodes.modify p fun node =>
      { node with children := node.children ++ [f.nodes.size] }) = f.nodes := by
    refine Array.ext_getElem? fun u => ?_
    rw [Array.getElem?_modify]
    split
    · next same => simp [← same, Array.getElem?_eq_none le]
    · rfl
  simp [child, fresh, live, same]

/-! ## Agreement -/

/-- The forests have the same tokens, and differ in hidden ones only. -/
structure Agree (hidden : TokenId → Prop) (f g : Forest) : Prop where
  size : f.nodes.size = g.nodes.size
  nodes : ∀ u, ¬ hidden u → f.nodes[u]? = g.nodes[u]?
  closed : ∀ p c, hidden p → c ∈ f.children p ∨ c ∈ g.children p → hidden c
  known : ∀ u, hidden u → u < f.nodes.size

namespace Agree

variable {hidden : TokenId → Prop}

theorem symm (agree : Agree hidden f g) : Agree hidden g f where
  size := agree.size.symm
  nodes u shown := (agree.nodes u shown).symm
  closed p c inside below := agree.closed p c inside below.symm
  known u inside := agree.size ▸ agree.known u inside

theorem isCancelled (agree : Agree hidden f g) (shown : ¬ hidden t) :
    f.isCancelled t = g.isCancelled t := by
  simp only [Forest.isCancelled, agree.nodes t shown]

theorem fresh (agree : Agree hidden f g) : Agree hidden f.fresh.2 g.fresh.2 where
  size := by simp [Forest.fresh, agree.size]
  nodes u shown := by
    simp only [Forest.fresh, Array.getElem?_push, agree.size, agree.nodes u shown]
  closed p c inside below := by
    rw [children_fresh, children_fresh] at below
    exact agree.closed p c inside below
  known u inside := by
    simpa [Forest.fresh] using Nat.lt_succ_of_lt (agree.known u inside)

/-- A token derived from one that is shown. -/
theorem child (agree : Agree hidden f g) (shown : ¬ hidden p) :
    Agree hidden (f.child p).2 (g.child p).2 where
  size := by
    unfold Forest.child
    rw [agree.isCancelled shown]
    split <;> simp [agree.size]
  nodes u visible := by
    unfold Forest.child
    rw [agree.isCancelled shown]
    split
    · simp only [Array.getElem?_push, agree.size, agree.nodes u visible]
    · simp only [Array.getElem?_push, Array.getElem?_modify, Array.size_modify, agree.size,
        agree.nodes u visible]
  closed q c inside below := by
    have old : c ∈ f.children q ∨ c ∈ g.children q :=
      below.imp (fun mem => (mem_children_of_child mem).resolve_right fun new => ?_)
        fun mem => (mem_children_of_child mem).resolve_right fun new => ?_
    · exact agree.closed q c inside old
    · exact shown (new.1 ▸ inside)
    · exact shown (new.1 ▸ inside)
  known u inside := by
    have known := agree.known u inside
    unfold Forest.child
    split <;> simpa using Nat.lt_succ_of_lt known

theorem prune (agree : Agree hidden f g) (held : TokenId → Bool) :
    Agree hidden (f.prune held) (g.prune held) where
  size := by simp [Forest.prune, agree.size]
  nodes u shown := by simp only [Forest.prune, Array.getElem?_map, agree.nodes u shown]
  closed p c inside below := agree.closed p c inside
    (below.imp mem_children_of_prune mem_children_of_prune)
  known u inside := by simpa [Forest.prune] using agree.known u inside

theorem mark_hidden (agree : Agree hidden f g) (inside : hidden t) : Agree hidden (f.mark t) g where
  size := by simp [mark, agree.size]
  nodes u shown := by
    have ne : t ≠ u := fun same => shown (same ▸ inside)
    simp [mark, ne, agree.nodes u shown]
  closed p c inside below := agree.closed p c inside (below.imp_left mem_children_of_mark)
  known u inside := by simpa [mark] using agree.known u inside

theorem mark (agree : Agree hidden f g) (t : TokenId) : Agree hidden (f.mark t) (g.mark t) where
  size := by simp [Forest.mark, agree.size]
  nodes u shown := by
    simp only [Forest.mark, Array.getElem?_setIfInBounds, agree.size, agree.nodes u shown]
  closed p c inside below := agree.closed p c inside
    (below.imp mem_children_of_mark mem_children_of_mark)
  known u inside := by simpa [Forest.mark] using agree.known u inside

/-- Hidden tokens may be cancelled on one side alone. -/
theorem hideAll (agree : Agree hidden f g) (inside : ∀ t ∈ ts, hidden t) :
    Agree hidden (f.cancelAll ts) g := by
  fun_induction cancelAll f ts with
  | case1 => exact agree
  | case2 f t rest found ih | case3 f t rest node found cancelled ih =>
    exact ih agree fun t mem => inside t (List.mem_cons_of_mem _ mem)
  | case4 f t rest node found live ih =>
    have first := inside t (List.mem_cons_self ..)
    refine ih (agree.mark_hidden first) fun c mem => ?_
    obtain mem | mem := List.mem_append.mp mem
    · exact agree.closed t c first (.inl (by simpa [children, found] using mem))
    · exact inside c (List.mem_cons_of_mem _ mem)

theorem hide (agree : Agree hidden f g) (inside : hidden t) : Agree hidden (f.cancel t) g :=
  agree.hideAll fun _ mem => List.mem_singleton.mp mem ▸ inside

theorem cancelAll (agree : Agree hidden f g) (ts : List TokenId) :
    Agree hidden (f.cancelAll ts) (g.cancelAll ts) := by
  generalize bound : f.liveCount = n
  -- By induction on how many tokens are live: a live token is marked, then what is below it.
  induction n using Nat.strongRecOn generalizing f g ts with
  | ind n deeper =>
    replace bound : f.liveCount ≤ n := Nat.le_of_eq bound
    induction ts generalizing f g with
    | nil => simpa only [Forest.cancelAll] using agree
    | cons t rest ih =>
      rw [cancelAll_cons, cancelAll_cons]
      refine ih ?_ (Nat.le_trans liveCount_cancelAll_le bound)
      by_cases inside : hidden t
      · exact (agree.hide inside).symm.hide inside |>.symm
      · have same := agree.nodes t inside
        cases found : f.nodes[t]? with
        | none =>
          rw [cancel_of_none found, cancel_of_none (same.symm.trans found)]
          exact agree
        | some node =>
          cases live : node.cancelled with
          | true =>
            have cancelled : f.isCancelled t = true := by simp [Forest.isCancelled, found, live]
            rw [cancel_of_isCancelled cancelled,
              cancel_of_isCancelled ((agree.isCancelled inside).symm.trans cancelled)]
            exact agree
          | false =>
            rw [cancel_of_live found live, cancel_of_live (same.symm.trans found) live]
            have fewer := Nat.lt_of_lt_of_le (liveCount_mark_lt found live) bound
            exact deeper _ fewer (agree.mark t) node.children rfl

theorem cancel (agree : Agree hidden f g) (t : TokenId) :
    Agree hidden (f.cancel t) (g.cancel t) := agree.cancelAll [t]

/-- A token derived from a hidden one is hidden too. -/
theorem child_hidden (agree : Agree hidden f g) (inside : hidden p) :
    Agree (fun u => hidden u ∨ u = f.nodes.size) (f.child p).2 (g.child p).2 where
  size := by
    unfold Forest.child
    split <;> split <;> simp [agree.size]
  nodes u shown := by
    obtain ⟨visible, old⟩ := not_or.mp shown
    have ne : p ≠ u := fun same => visible (same ▸ inside)
    have old' : u ≠ g.nodes.size := agree.size ▸ old
    unfold Forest.child
    split <;> split <;>
      simp [Array.getElem?_push, Array.getElem?_modify, old, old', ne, agree.nodes u visible]
  closed q c below listed := by
    have old : (c ∈ f.children q ∨ c ∈ g.children q) ∨ c = f.nodes.size := by
      obtain mem | mem := listed
      · exact (mem_children_of_child mem).imp .inl fun new => new.2.1
      · exact (mem_children_of_child mem).imp .inr fun new => new.2.1.trans agree.size.symm
    refine old.imp_left fun old => ?_
    obtain inside | rfl := below
    · exact agree.closed q c inside old
    · have none : ∀ {k : Forest}, c ∈ k.children f.nodes.size → f.nodes.size < k.nodes.size :=
        lt_of_mem_children
      obtain mem | mem := old
      · exact (Nat.lt_irrefl _ (none mem)).elim
      · exact (Nat.lt_irrefl _ (agree.size ▸ none mem)).elim
  known u below := by
    have grown : (f.child p).2.nodes.size = f.nodes.size + 1 := by
      unfold Forest.child
      split <;> simp
    rw [grown]
    obtain inside | rfl := below
    · exact Nat.lt_succ_of_lt (agree.known u inside)
    · exact Nat.lt_succ_self _

end Agree

end EffectFibers.Forest
