import EffectFibers.Cancellation
import Mathlib.Logic.Relation

/-!
# The forest of tokens

A cancellation goes down from a token to all that hangs below it.  `Forest.Hangs f p c` says that
a token `c` derived from `p` is within reach: it is cancelled already, or it is listed below a
`p` that is not cancelled, so that the cancellation of `p` will come by.  Every operation of the
forest keeps that up, except that a token which nobody holds may be cut loose.

## Main statements

* `Forest.Hangs.cancelled`: a token within reach of a cancelled one is cancelled.
* `Forest.hangs_child`: a derived token hangs below the one it was derived from.
* `Forest.Hangs.cancel`, `Forest.Hangs.child`, `Forest.Hangs.fresh`, `Forest.Hangs.prune`: the
  operations keep a token within reach.
* `Forest.listed_of_isCancelled_cancel`: a cancellation comes to nothing else.
-/

namespace EffectFibers.Forest

/-- The tokens listed below a token. -/
def children (f : Forest) (t : TokenId) : List TokenId :=
  match f.nodes[t]? with
  | some node => node.children
  | none => []

/-- A cancellation of `p` has come to `c` or is going to. -/
def Hangs (f : Forest) (p c : TokenId) : Prop :=
  f.isCancelled c = true ∨ f.isCancelled p = false ∧ c ∈ f.children p

variable {f : Forest} {p c t u : TokenId} {ts : List TokenId}

/-! ## New tokens -/

theorem isCancelled_lt (h : f.isCancelled t = true) : t < f.nodes.size := by
  unfold isCancelled at h
  split at h
  · next node found => exact (Array.getElem?_eq_some_iff.mp found).1
  · cases h

theorem isCancelled_push (node : Node) : isCancelled ⟨f.nodes.push node⟩ t
    = if t = f.nodes.size then node.cancelled else f.isCancelled t := by
  simp only [isCancelled, Array.getElem?_push]
  by_cases h : t = f.nodes.size <;> simp [h]

theorem isCancelled_fresh : f.fresh.2.isCancelled t = f.isCancelled t := by
  unfold fresh
  rw [isCancelled_push]
  split
  · next h => simp [isCancelled, h]
  · rfl

theorem isCancelled_child : (f.child p).2.isCancelled t
    = (f.isCancelled t || (t == f.nodes.size && f.isCancelled p)) := by
  unfold child
  have beyond : f.isCancelled f.nodes.size = false := by simp [isCancelled]
  cases hp : f.isCancelled p with
  | true =>
    simp only [if_true, isCancelled_push, Bool.and_true]
    by_cases h : t = f.nodes.size <;> simp [h]
  | false =>
    simp only [isCancelled, Bool.false_eq_true, if_false, Bool.and_false, Bool.or_false,
      Array.getElem?_push, Array.getElem?_modify, Array.size_modify]
    by_cases h : t = f.nodes.size
    · simp [h]
    · rw [if_neg h]
      by_cases hpt : p = t
      · subst hpt
        cases f.nodes[p]? <;> simp
      · simp [hpt]

theorem children_fresh : f.fresh.2.children t = f.children t := by
  simp only [fresh, children, Array.getElem?_push]
  by_cases h : t = f.nodes.size <;> simp [h]

theorem lt_of_mem_children (h : t ∈ f.children u) : u < f.nodes.size := by
  unfold children at h
  split at h
  · next node found => exact (Array.getElem?_eq_some_iff.mp found).1
  · cases h

theorem mem_children_child (h : t ∈ f.children u) : t ∈ (f.child p).2.children u := by
  have lt := lt_of_mem_children h
  unfold child
  cases hp : f.isCancelled p with
  | true => simpa [children, Array.getElem?_push, Nat.ne_of_lt lt] using h
  | false =>
    simp only [children, Bool.false_eq_true, if_false, Array.getElem?_push,
      Array.getElem?_modify, Array.size_modify, Nat.ne_of_lt lt] at h ⊢
    by_cases hpu : p = u
    · subst hpu
      rw [Array.getElem?_eq_getElem lt] at h ⊢
      simp [h]
    · simpa [hpu] using h

theorem mem_children_of_child (h : t ∈ (f.child p).2.children u) :
    t ∈ f.children u ∨ u = p ∧ t = f.nodes.size ∧ p < f.nodes.size := by
  unfold child at h
  cases hp : f.isCancelled p with
  | true =>
    simp only [hp, if_true, children, Array.getElem?_push] at h
    by_cases hu : u = f.nodes.size
    · simp [hu] at h
    · exact .inl (by simpa [children, hu] using h)
  | false =>
    simp only [hp, Bool.false_eq_true, if_false, children, Array.getElem?_push,
      Array.getElem?_modify, Array.size_modify] at h
    by_cases hu : u = f.nodes.size
    · simp [hu] at h
    · rw [if_neg hu] at h
      by_cases hpu : p = u
      · subst hpu
        cases found : f.nodes[p]? with
        | none => simp [found] at h
        | some node =>
          simp only [found, if_true, Option.map_some, List.mem_append, List.mem_singleton] at h
          refine h.imp (fun mem => by simpa [children, found] using mem) fun new => ⟨rfl, new, ?_⟩
          exact (Array.getElem?_eq_some_iff.mp found).1
      · exact .inl (by simpa [children, hpu] using h)

theorem hangs_child (lt : p < f.nodes.size) : (f.child p).2.Hangs p f.nodes.size := by
  cases hp : f.isCancelled p with
  | true => exact .inl (by simp [isCancelled_child, hp])
  | false =>
    refine .inr ⟨by simp [isCancelled_child, hp], ?_⟩
    simp [child, children, hp, Array.getElem?_push, Array.getElem_modify, Nat.ne_of_lt lt, lt]

/-! ## Cancellation -/

@[simp] theorem size_cancelAll : (f.cancelAll ts).nodes.size = f.nodes.size := by
  fun_induction cancelAll f ts with
  | case1 => rfl
  | case2 f t rest _ ih => exact ih
  | case3 f t rest node _ _ ih => exact ih
  | case4 f t rest node _ _ ih => simpa [mark] using ih

@[simp] theorem size_cancel : (f.cancel t).nodes.size = f.nodes.size := size_cancelAll

/-- A token is not cancelled twice. -/
theorem cancel_of_isCancelled (h : f.isCancelled t = true) : f.cancel t = f := by
  unfold isCancelled at h
  unfold cancel
  rw [cancelAll]
  split
  · rw [cancelAll]
  · next node found =>
    split
    · rw [cancelAll]
    · next live => simp [found, live] at h

theorem children_mark_ne (h : t ≠ u) : (f.mark t).children u = f.children u := by
  simp [children, mark, h]

/-- Whatever is on the list is cancelled. -/
theorem isCancelled_cancelAll_of_mem (mem : t ∈ ts) (lt : t < f.nodes.size) :
    (f.cancelAll ts).isCancelled t = true := by
  fun_induction cancelAll f ts with
  | case1 => cases mem
  | case2 f u rest found ih =>
    refine ih ((List.mem_cons.mp mem).resolve_left fun same => ?_) lt
    exact absurd (same ▸ lt) (Nat.not_lt.mpr (Array.getElem?_eq_none_iff.mp found))
  | case3 f u rest node found cancelled ih =>
    obtain rfl | mem := List.mem_cons.mp mem
    · exact isCancelled_cancelAll (by simp [isCancelled, found, cancelled])
    · exact ih mem lt
  | case4 f u rest node found live ih =>
    obtain rfl | mem := List.mem_cons.mp mem
    · exact isCancelled_cancelAll (by simp [isCancelled_mark, lt])
    · exact ih (List.mem_append_right _ mem) (by simpa [mark] using lt)

/-- A token that becomes cancelled takes along all that is listed below it. -/
theorem isCancelled_cancelAll_child (after : (f.cancelAll ts).isCancelled p = true)
    (before : f.isCancelled p = false) (mem : c ∈ f.children p) (lt : c < f.nodes.size) :
    (f.cancelAll ts).isCancelled c = true := by
  fun_induction cancelAll f ts with
  | case1 => simp [before] at after
  | case2 f u rest found ih => exact ih after before mem lt
  | case3 f u rest node found cancelled ih => exact ih after before mem lt
  | case4 f u rest node found live ih =>
    by_cases hup : u = p
    · subst hup
      have listed : c ∈ node.children ++ rest := by
        simp only [children, found] at mem
        exact List.mem_append_left _ mem
      exact isCancelled_cancelAll_of_mem listed (by simpa [mark] using lt)
    · have before' : (f.mark u).isCancelled p = false := by simp [isCancelled_mark, before, hup]
      exact ih after before' (by rwa [children_mark_ne hup]) (by simpa [mark] using lt)

theorem children_cancelAll (h : (f.cancelAll ts).isCancelled p = false) :
    (f.cancelAll ts).children p = f.children p := by
  fun_induction cancelAll f ts with
  | case1 => rfl
  | case2 f u rest found ih => exact ih h
  | case3 f u rest node found cancelled ih => exact ih h
  | case4 f u rest node found live ih =>
    have hup : u ≠ p := by
      rintro rfl
      have lt := (Array.getElem?_eq_some_iff.mp found).1
      have marked : (f.mark u).isCancelled u = true := by simp [isCancelled_mark, lt]
      rw [isCancelled_cancelAll marked] at h
      cases h
    rw [ih h, children_mark_ne hup]

theorem mem_children_of_mark (h : c ∈ (f.mark t).children p) : c ∈ f.children p := by
  by_cases same : t = p
  · subst same
    simp only [children, mark, Array.getElem?_setIfInBounds_self] at h
    split at h
    · next node found =>
      obtain ⟨-, rfl⟩ : t < f.nodes.size ∧ { cancelled := true } = node := by simpa using found
      cases h
    · cases h
  · rwa [children_mark_ne same] at h

theorem mem_children_of_cancelAll (h : c ∈ (f.cancelAll ts).children p) : c ∈ f.children p := by
  fun_induction cancelAll f ts with
  | case1 => exact h
  | case2 f u rest found ih => exact ih h
  | case3 f u rest node found cancelled ih => exact ih h
  | case4 f u rest node found live ih => exact mem_children_of_mark (ih h)

/-- What is listed below a token, over any number of generations. -/
abbrev Lists (f : Forest) : TokenId → TokenId → Prop :=
  Relation.ReflTransGen fun p c => c ∈ f.children p

theorem Lists.of_mark (h : (f.mark t).Lists p c) : f.Lists p c :=
  Relation.ReflTransGen.mono (fun _ _ mem => mem_children_of_mark mem) _ _ h

/-- A cancellation comes only to what is listed below the tokens of its list. -/
theorem listed_of_isCancelled_cancelAll (h : (f.cancelAll ts).isCancelled u = true) :
    f.isCancelled u = true ∨ ∃ t ∈ ts, f.Lists t u := by
  fun_induction cancelAll f ts with
  | case1 => exact .inl h
  | case2 f t rest found ih | case3 f t rest node found cancelled ih =>
    refine (ih h).imp_right ?_
    rintro ⟨t, mem, lists⟩
    exact ⟨t, List.mem_cons_of_mem _ mem, lists⟩
  | case4 f t rest node found live ih =>
    obtain marked | ⟨t', mem, lists⟩ := ih h
    · rw [isCancelled_mark, Bool.or_eq_true, Bool.and_eq_true, beq_iff_eq] at marked
      obtain before | ⟨rfl, -⟩ := marked
      · exact .inl before
      · exact .inr ⟨t, List.mem_cons_self .., .refl⟩
    · obtain listed | mem := List.mem_append.mp mem
      · have child : t' ∈ f.children t := by simpa [children, found] using listed
        exact .inr ⟨t, List.mem_cons_self .., .head child lists.of_mark⟩
      · exact .inr ⟨t', List.mem_cons_of_mem _ mem, lists.of_mark⟩

theorem listed_of_isCancelled_cancel (h : (f.cancel t).isCancelled u = true) :
    f.isCancelled u = true ∨ f.Lists t u := by
  refine (listed_of_isCancelled_cancelAll h).imp_right ?_
  rintro ⟨t', mem, lists⟩
  exact List.mem_singleton.mp mem ▸ lists

/-- A cancellation comes to the tokens of its list, and from a token to those listed below it. -/
theorem cause_of_isCancelled_cancelAll (h : (f.cancelAll ts).isCancelled u = true) :
    f.isCancelled u = true ∨ u ∈ ts ∨
      ∃ q, u ∈ f.children q ∧ (f.cancelAll ts).isCancelled q = true := by
  fun_induction cancelAll f ts with
  | case1 => exact .inl h
  | case2 f t rest found ih | case3 f t rest node found cancelled ih =>
    exact (ih h).imp_right (Or.imp_left (List.mem_cons_of_mem _))
  | case4 f t rest node found live ih =>
    obtain marked | mem | ⟨q, mem, cancelled⟩ := ih h
    · rw [isCancelled_mark, Bool.or_eq_true, Bool.and_eq_true, beq_iff_eq] at marked
      obtain before | ⟨rfl, -⟩ := marked
      · exact .inl before
      · exact .inr (.inl (List.mem_cons_self ..))
    · obtain listed | mem := List.mem_append.mp mem
      · have lt := (Array.getElem?_eq_some_iff.mp found).1
        refine .inr (.inr ⟨t, by simpa [children, found] using listed, ?_⟩)
        exact isCancelled_cancelAll (by simp [isCancelled_mark, lt])
      · exact .inr (.inl (List.mem_cons_of_mem _ mem))
    · exact .inr (.inr ⟨q, mem_children_of_mark mem, cancelled⟩)

/-! ## What hangs below a token -/

theorem Hangs.cancelled (h : f.Hangs p c) (hp : f.isCancelled p = true) :
    f.isCancelled c = true := by
  obtain h | ⟨live, -⟩ := h
  · exact h
  · simp [live] at hp

theorem Hangs.fresh (h : f.Hangs p c) : f.fresh.2.Hangs p c := by
  simpa only [Hangs, isCancelled_fresh, children_fresh] using h

theorem Hangs.child (h : f.Hangs p c) : (f.child t).2.Hangs p c := by
  obtain h | ⟨live, mem⟩ := h
  · exact .inl (by simp [isCancelled_child, h])
  · have ne := Nat.ne_of_lt (lt_of_mem_children mem)
    exact .inr ⟨by simp [isCancelled_child, live, ne], mem_children_child mem⟩

theorem Hangs.cancel (h : f.Hangs p c) (lt : c < f.nodes.size) : (f.cancel t).Hangs p c := by
  obtain h | ⟨live, mem⟩ := h
  · exact .inl (isCancelled_cancelAll h)
  · cases hp : (f.cancel t).isCancelled p with
    | true => exact .inl (isCancelled_cancelAll_child hp live mem lt)
    | false => exact .inr ⟨hp, by rwa [Forest.cancel, children_cancelAll hp]⟩

theorem isCancelled_prune (held : TokenId → Bool) :
    (f.prune held).isCancelled t = f.isCancelled t := by
  simp only [isCancelled, prune, Array.getElem?_map]
  cases f.nodes[t]? <;> rfl

theorem Hangs.prune {held : TokenId → Bool} (h : f.Hangs p c) (hc : held c = true) :
    (f.prune held).Hangs p c := by
  unfold Hangs
  rw [isCancelled_prune, isCancelled_prune]
  refine h.imp_right (And.imp_right fun mem => ?_)
  simp only [children, Forest.prune, Array.getElem?_map] at mem ⊢
  cases found : f.nodes[p]? with
  | none => simp [found] at mem
  | some node => simpa [found, hc] using mem

theorem mem_children_prune {held : TokenId → Bool} :
    c ∈ (f.prune held).children p ↔ c ∈ f.children p ∧ held c = true := by
  simp only [children, Forest.prune, Array.getElem?_map]
  cases f.nodes[p]? <;> simp

theorem mem_children_of_prune {held : TokenId → Bool} (h : c ∈ (f.prune held).children p) :
    c ∈ f.children p :=
  (mem_children_prune.mp h).1

end EffectFibers.Forest
