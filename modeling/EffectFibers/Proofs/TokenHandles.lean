import EffectFibers.Proofs.TokenForest
import Mathlib.Data.Multiset.MapFold

/-!
# Tokens and the handles on them

A program has handles on tokens.  It derives tokens, clones handles, cancels, arms a handle so
that dropping it cancels, and drops handles in any order.  A token whose last handle is dropped
is let go, and the forest forgets where it hung (`Forest.prune`).

`Holdings` is the forest with the handles on it and with what happened before: who was derived
from whom, which tokens were let go, and which were cancelled when.  A token that is held is
cancelled exactly if a cancellation could come down to it: it or a token above it was cancelled
at a time when no token strictly between the two had been let go.  So the cancellation of a token
does not come to a descendant that outlived a token in between.

## Main statements

* `Holdings.Step.kept`: every operation keeps the invariant.
* `Holdings.Reachable.law`: which tokens are cancelled, after any operations.
* `Holdings.orphan_not_cancelled`: a cancellation does not come to a descendant whose parent was
  let go.
-/

namespace EffectFibers

/-- A hold on a token.  An armed one cancels the token when it is dropped. -/
structure TokenHandle where
  token : TokenId
  armed : Bool
deriving DecidableEq

/-- A token was cancelled, when some tokens had been let go. -/
structure Request where
  token : TokenId
  lost : List TokenId

structure Holdings where
  forest : Forest := {}
  handles : Multiset TokenHandle := 0
  derived : List (TokenId × TokenId) := []
  /-- The tokens that were let go. -/
  lost : List TokenId := []
  requests : List Request := []

namespace Holdings

/-! ## Operations -/

def held (handles : Multiset TokenHandle) : Multiset TokenId := handles.map TokenHandle.token

/-- The token has a handle. -/
def Holds (σ : Holdings) (t : TokenId) : Prop := t ∈ held σ.handles

def fresh (σ : Holdings) : Holdings :=
  { σ with forest := σ.forest.fresh.2, handles := ⟨σ.forest.fresh.1, false⟩ ::ₘ σ.handles }

def child (σ : Holdings) (t : TokenId) : Holdings :=
  { σ with
    forest := (σ.forest.child t).2
    handles := ⟨(σ.forest.child t).1, false⟩ ::ₘ σ.handles
    derived := (t, (σ.forest.child t).1) :: σ.derived }

def cancel (σ : Holdings) (t : TokenId) : Holdings :=
  { σ with forest := σ.forest.cancel t, requests := ⟨t, σ.lost⟩ :: σ.requests }

/-- Some handles are left; the token of the one that is dropped may be let go. -/
def leave (σ : Holdings) (t : TokenId) (rest : Multiset TokenHandle) : Holdings :=
  { σ with
    forest := σ.forest.prune fun u => u ∈ held rest
    handles := rest
    lost := if t ∈ held rest then σ.lost else t :: σ.lost }

inductive Step : Holdings → Holdings → Prop
  | fresh (σ : Holdings) : Step σ σ.fresh
  | child (σ : Holdings) (t : TokenId) (mem : ⟨t, false⟩ ∈ σ.handles) : Step σ (σ.child t)
  | clone (σ : Holdings) (t : TokenId) (mem : ⟨t, false⟩ ∈ σ.handles) :
      Step σ { σ with handles := ⟨t, false⟩ ::ₘ σ.handles }
  | cancel (σ : Holdings) (t : TokenId) (mem : ⟨t, false⟩ ∈ σ.handles) : Step σ (σ.cancel t)
  | arm (σ : Holdings) (t : TokenId) (rest : Multiset TokenHandle)
      (handles : σ.handles = ⟨t, false⟩ ::ₘ rest) :
      Step σ { σ with handles := ⟨t, true⟩ ::ₘ rest }
  | disarm (σ : Holdings) (t : TokenId) (rest : Multiset TokenHandle)
      (handles : σ.handles = ⟨t, true⟩ ::ₘ rest) : Step σ (σ.leave t rest)
  | drop (σ : Holdings) (t : TokenId) (rest : Multiset TokenHandle)
      (handles : σ.handles = ⟨t, false⟩ ::ₘ rest) : Step σ (σ.leave t rest)
  | dropArmed (σ : Holdings) (t : TokenId) (rest : Multiset TokenHandle)
      (handles : σ.handles = ⟨t, true⟩ ::ₘ rest) : Step σ ((σ.cancel t).leave t rest)

abbrev Steps : Holdings → Holdings → Prop := Relation.ReflTransGen Step

/-- What comes about from no tokens at all. -/
def Reachable (σ : Holdings) : Prop := Steps {} σ

/-! ## Descent -/

def Derived (σ : Holdings) (p c : TokenId) : Prop := (p, c) ∈ σ.derived

/-- The token `c` is `p` or was derived from it, over any number of generations. -/
abbrev Below (σ : Holdings) : TokenId → TokenId → Prop := Relation.ReflTransGen σ.Derived

/-- The token `c` was derived from `p`, over any number of generations. -/
abbrev Under (σ : Holdings) : TokenId → TokenId → Prop := Relation.TransGen σ.Derived

/-- A cancellation that was asked for has come down to the token: nothing on the way had been let
go of by then. -/
def Doomed (σ : Holdings) (t : TokenId) : Prop :=
  ∃ r ∈ σ.requests, σ.Below r.token t ∧ ∀ b, σ.Under r.token b → σ.Under b t → b ∉ r.lost

/-! ## The invariant -/

structure Kept (σ : Holdings) : Prop where
  known : ∀ t, σ.Holds t → t < σ.forest.nodes.size
  present : ∀ t < σ.forest.nodes.size, σ.Holds t ∨ t ∈ σ.lost
  gone : ∀ t ∈ σ.lost, t < σ.forest.nodes.size ∧ ¬ σ.Holds t
  older : ∀ p c, σ.Derived p c → p < c ∧ c < σ.forest.nodes.size
  unique : ∀ p p' c, σ.Derived p c → σ.Derived p' c → p = p'
  hangs : ∀ p c, σ.Derived p c → σ.Holds c → σ.forest.Hangs p c
  listed : ∀ p c, c ∈ σ.forest.children p → σ.Derived p c ∧ σ.Holds c
  asked : ∀ r ∈ σ.requests, r.token < σ.forest.nodes.size ∧ r.lost ⊆ σ.lost
  law : ∀ t, σ.Holds t → (σ.forest.isCancelled t = true ↔ σ.Doomed t)

variable {σ σ' : Holdings} {t p c a b : TokenId}

namespace Kept

theorem under_lt (h : σ.Kept) (under : σ.Under p c) : p < c := by
  induction under with
  | single derived => exact (h.older _ _ derived).1
  | tail _ derived ih => exact Nat.lt_trans ih (h.older _ _ derived).1

theorem under_known (h : σ.Kept) (under : σ.Under p c) : c < σ.forest.nodes.size := by
  obtain ⟨q, -, derived⟩ := Relation.TransGen.tail'_iff.mp under
  exact (h.older q c derived).2

/-- A token above another one is its parent or above that. -/
theorem under_parent (h : σ.Kept) (under : σ.Under b c) (derived : σ.Derived p c) :
    σ.Below b p := by
  obtain ⟨q, below, derived'⟩ := Relation.TransGen.tail'_iff.mp under
  exact h.unique q p c derived' derived ▸ below

/-- What is listed below a token was derived from it, and all on the way is held. -/
theorem lists (h : σ.Kept) (lists : σ.forest.Lists a c) : σ.Below a c ∧
    ∀ b, σ.Under a b → σ.Below b c → σ.Holds b := by
  induction lists with
  | refl =>
    refine ⟨.refl, fun b under below => ?_⟩
    have cycle := h.under_lt (under.trans_left below)
    exact absurd cycle (Nat.lt_irrefl a)
  | @tail p c _ mem ih =>
    obtain ⟨derived, holds⟩ := h.listed p c mem
    refine ⟨ih.1.tail derived, fun b under below => ?_⟩
    obtain rfl | up := Relation.reflTransGen_iff_eq_or_transGen.mp below
    · exact holds
    · exact ih.2 b under (h.under_parent up derived)

/-- What is strictly between two tokens and was not let go of is held. -/
theorem between (h : σ.Kept) (under : σ.Under a b) (stays : b ∉ σ.lost) : σ.Holds b :=
  (h.present b (h.under_known under)).resolve_right stays

/-- A cancellation comes down to a held token if all on the way is held. -/
theorem cancelled (h : σ.Kept) (lt : a < σ.forest.nodes.size) (holds : σ.Holds c)
    (below : σ.Below a c) (way : ∀ b, σ.Under a b → σ.Under b c → σ.Holds b) :
    (σ.forest.cancel a).isCancelled c = true := by
  have down : ∀ b, σ.Below a b → σ.Below b c → (σ.forest.cancel a).isCancelled b = true := by
    intro b above below
    induction above with
    | refl => exact Forest.isCancelled_cancel_self lt
    | @tail p b above derived ih =>
      have cancelled := ih (.head derived below)
      have held : σ.Holds b := by
        obtain rfl | under := Relation.reflTransGen_iff_eq_or_transGen.mp below
        · exact holds
        · exact way b (.tail' above derived) under
      exact ((h.hangs p b derived held).cancel (h.known b held)).cancelled cancelled
  exact down c below .refl

end Kept

/-! ## Every operation keeps the invariant -/

theorem kept_empty : Kept {} where
  known := by simp [Holds, held]
  present := by simp
  gone := by simp
  older := by simp [Derived]
  unique := by simp [Derived]
  hangs := by simp [Derived]
  listed := by simp [Forest.children]
  asked := by simp
  law := by simp [Holds, held]

/-- A change of the handles that leaves every token held. -/
theorem Kept.rehold (h : σ.Kept) {handles : Multiset TokenHandle}
    (same : ∀ t, t ∈ held handles ↔ σ.Holds t) : Kept { σ with handles } where
  known t holds := h.known t ((same t).mp holds)
  present t lt := (h.present t lt).imp_left (same t).mpr
  gone t mem := ⟨(h.gone t mem).1, fun holds => (h.gone t mem).2 ((same t).mp holds)⟩
  older := h.older
  unique := h.unique
  hangs p c derived holds := h.hangs p c derived ((same c).mp holds)
  listed p c mem := ⟨(h.listed p c mem).1, (same c).mpr (h.listed p c mem).2⟩
  asked := h.asked
  law t holds := h.law t ((same t).mp holds)

/-! ### New tokens -/

/-- A token is added, below a parent or on its own. -/
structure Adds (σ σ' : Holdings) (parent : Option TokenId) : Prop where
  size : σ'.forest.nodes.size = σ.forest.nodes.size + 1
  holds : ∀ t, σ'.Holds t ↔ t = σ.forest.nodes.size ∨ σ.Holds t
  derived : ∀ p c, σ'.Derived p c ↔
    σ.Derived p c ∨ parent = some p ∧ c = σ.forest.nodes.size
  lost : σ'.lost = σ.lost
  requests : σ'.requests = σ.requests
  kept : ∀ p c, σ.forest.Hangs p c → σ'.forest.Hangs p c
  hangs : ∀ p, parent = some p → σ'.forest.Hangs p σ.forest.nodes.size
  listed : ∀ p c, c ∈ σ'.forest.children p →
    c ∈ σ.forest.children p ∨ parent = some p ∧ c = σ.forest.nodes.size
  cancelled : ∀ t, σ'.forest.isCancelled t = true ↔ σ.forest.isCancelled t = true ∨
    t = σ.forest.nodes.size ∧ ∃ p, parent = some p ∧ σ.forest.isCancelled p = true

theorem adds_fresh (σ : Holdings) : Adds σ σ.fresh none where
  size := by simp [fresh, Forest.fresh]
  holds t := by simp [Holds, held, fresh, Forest.fresh]
  derived p c := by simp [Derived, fresh]
  lost := rfl
  requests := rfl
  kept p c hangs := hangs.fresh
  hangs p parent := nomatch parent
  listed p c mem := .inl (by simpa [fresh, Forest.children_fresh] using mem)
  cancelled t := by simp [fresh, Forest.isCancelled_fresh]

theorem child_fst (f : Forest) (t : TokenId) : (f.child t).1 = f.nodes.size := by
  unfold Forest.child
  split <;> rfl

theorem size_child (f : Forest) (t : TokenId) :
    (f.child t).2.nodes.size = f.nodes.size + 1 := by
  unfold Forest.child
  split <;> simp

theorem adds_child (σ : Holdings) (lt : t < σ.forest.nodes.size) :
    Adds σ (σ.child t) (some t) where
  size := by simp [child, size_child]
  holds u := by simp [Holds, held, child, child_fst]
  derived p c := by simp [Derived, child, child_fst, or_comm, eq_comm]
  lost := rfl
  requests := rfl
  kept p c hangs := hangs.child
  hangs p parent := by
    cases parent
    exact Forest.hangs_child lt
  listed p c mem := (Forest.mem_children_of_child mem).imp_right fun ⟨parent, new, _⟩ =>
    ⟨congrArg some parent.symm, new⟩
  cancelled u := by simp [child, Forest.isCancelled_child]

namespace Adds

variable {parent : Option TokenId} (h : Adds σ σ' parent)

include h

theorem below_old (kept : σ.Kept) (below : σ'.Below a t) (lt : t < σ.forest.nodes.size) :
    σ.Below a t := by
  induction below with
  | refl => exact .refl
  | @tail q t _ derived ih =>
    have old := ((h.derived q t).mp derived).resolve_right fun new => Nat.ne_of_lt lt new.2
    exact (ih (Nat.lt_trans (kept.older q t old).1 lt)).tail old

theorem below_mono (below : σ.Below a t) : σ'.Below a t :=
  Relation.ReflTransGen.mono (fun p c derived => (h.derived p c).mpr (.inl derived)) _ _ below

theorem under_old (kept : σ.Kept) (under : σ'.Under a t) (lt : t < σ.forest.nodes.size) :
    σ.Under a t := by
  obtain ⟨q, below, derived⟩ := Relation.TransGen.tail'_iff.mp under
  have old := ((h.derived q t).mp derived).resolve_right fun new => Nat.ne_of_lt lt new.2
  exact .tail' (h.below_old kept below (Nat.lt_trans (kept.older q t old).1 lt)) old

theorem under_mono (under : σ.Under a t) : σ'.Under a t :=
  Relation.TransGen.mono (fun p c derived => (h.derived p c).mpr (.inl derived)) _ _ under

/-- What is doomed among the tokens that were there before is doomed as before. -/
theorem doomed_old (kept : σ.Kept) (lt : t < σ.forest.nodes.size) :
    σ'.Doomed t ↔ σ.Doomed t := by
  unfold Doomed
  rw [h.requests]
  refine exists_congr fun r => and_congr_right fun mem => ?_
  refine ⟨fun ⟨below, way⟩ => ⟨h.below_old kept below lt, fun b above below => ?_⟩,
    fun ⟨below, way⟩ => ⟨h.below_mono below, fun b above below => ?_⟩⟩
  · exact way b (h.under_mono above) (h.under_mono below)
  · have below₀ := h.under_old kept below lt
    exact way b (h.under_old kept above (Nat.lt_trans (kept.under_lt below₀) lt)) below₀

/-- The new token is doomed exactly if its parent is. -/
theorem doomed_new (kept : σ.Kept) (holds : ∀ p, parent = some p → σ.Holds p) :
    σ'.Doomed σ.forest.nodes.size ↔ ∃ p, parent = some p ∧ σ.Doomed p := by
  have last : ∀ q, σ'.Derived q σ.forest.nodes.size → parent = some q := fun q derived =>
    (((h.derived q _).mp derived).resolve_left fun old =>
      Nat.lt_irrefl _ (kept.older q _ old).2).1
  constructor
  · rintro ⟨r, mem, below, way⟩
    rw [h.requests] at mem
    obtain same | ⟨p, below, derived⟩ := Relation.ReflTransGen.cases_tail below
    · exact absurd (same ▸ (kept.asked r mem).1) (Nat.lt_irrefl _)
    · have lt := kept.known p (holds p (last p derived))
      refine ⟨p, last p derived, r, mem, h.below_old kept below lt, fun b above under => ?_⟩
      exact way b (h.under_mono above) ((h.under_mono under).tail derived)
  · rintro ⟨p, rfl, r, mem, below, way⟩
    have derived : σ'.Derived p σ.forest.nodes.size := (h.derived p _).mpr (.inr ⟨rfl, rfl⟩)
    have lt := kept.known p (holds p rfl)
    refine ⟨r, h.requests ▸ mem, (h.below_mono below).tail derived, fun b above under => ?_⟩
    obtain ⟨q, below', derived'⟩ := Relation.TransGen.tail'_iff.mp under
    cases last q derived'
    have old := h.below_old kept below' lt
    obtain rfl | up := Relation.reflTransGen_iff_eq_or_transGen.mp old
    · -- The parent itself is held, so it has never been let go of.
      exact fun lost => (kept.gone _ ((kept.asked r mem).2 lost)).2 (holds _ rfl)
    · exact way b (h.under_old kept above (Nat.lt_trans (kept.under_lt up) lt)) up

theorem kept_add (kept : σ.Kept) (holds : ∀ p, parent = some p → σ.Holds p) : σ'.Kept := by
  have new : ∀ t, σ.Holds t → t ≠ σ.forest.nodes.size := fun t held =>
    Nat.ne_of_lt (kept.known t held)
  refine ⟨fun t held => ?_, fun t lt => ?_, fun t mem => ?_, fun p c derived => ?_,
    fun p p' c derived derived' => ?_, fun p c derived held => ?_, fun p c mem => ?_,
    fun r mem => ?_, fun t held => ?_⟩
  · rw [h.size]
    obtain rfl | old := (h.holds t).mp held
    · exact Nat.lt_succ_self _
    · exact Nat.lt_succ_of_lt (kept.known t old)
  · rw [h.size] at lt
    rw [h.lost]
    obtain lt | rfl := Nat.lt_succ_iff_lt_or_eq.mp lt
    · exact (kept.present t lt).imp_left fun old => (h.holds t).mpr (.inr old)
    · exact .inl ((h.holds _).mpr (.inl rfl))
  · rw [h.lost] at mem
    obtain ⟨lt, free⟩ := kept.gone t mem
    rw [h.size, h.holds]
    exact ⟨Nat.lt_succ_of_lt lt, fun held => held.elim (Nat.ne_of_lt lt) free⟩
  · rw [h.size]
    obtain old | ⟨parent, rfl⟩ := (h.derived p c).mp derived
    · exact ⟨(kept.older p c old).1, Nat.lt_succ_of_lt (kept.older p c old).2⟩
    · exact ⟨kept.known p (holds p parent), Nat.lt_succ_self _⟩
  · obtain old | ⟨parent, rfl⟩ := (h.derived p c).mp derived
    all_goals obtain old' | ⟨parent', same⟩ := (h.derived p' _).mp derived'
    · exact kept.unique p p' c old old'
    · exact absurd (same ▸ (kept.older p c old).2) (Nat.lt_irrefl _)
    · exact absurd (kept.older p' _ old').2 (Nat.lt_irrefl _)
    · exact Option.some.inj (parent.symm.trans parent')
  · obtain old | ⟨parent, rfl⟩ := (h.derived p c).mp derived
    · have held₀ := ((h.holds c).mp held).resolve_left (Nat.ne_of_lt (kept.older p c old).2)
      exact h.kept p c (kept.hangs p c old held₀)
    · exact h.hangs p parent
  · rw [h.derived, h.holds]
    obtain old | new := h.listed p c mem
    · exact ⟨.inl (kept.listed p c old).1, .inr (kept.listed p c old).2⟩
    · exact ⟨.inr new, .inl new.2⟩
  · rw [h.requests] at mem
    rw [h.size, h.lost]
    exact ⟨Nat.lt_succ_of_lt (kept.asked r mem).1, (kept.asked r mem).2⟩
  · rw [h.cancelled]
    obtain rfl | old := (h.holds t).mp held
    · rw [h.doomed_new kept holds]
      have beyond : σ.forest.isCancelled σ.forest.nodes.size ≠ true := fun cancelled =>
        Nat.lt_irrefl _ (Forest.isCancelled_lt cancelled)
      rw [or_iff_right beyond, and_iff_right rfl]
      exact exists_congr fun p => and_congr_right fun parent => kept.law p (holds p parent)
    · rw [h.doomed_old kept (kept.known t old), or_iff_left fun other => new t old other.1]
      exact kept.law t old

end Adds

/-! ### Cancellation and letting go -/

theorem Kept.cancel (h : σ.Kept) (holds : σ.Holds t) : (σ.cancel t).Kept where
  known u held := by simpa [Holdings.cancel] using h.known u held
  present u lt := h.present u (by simpa [Holdings.cancel] using lt)
  gone u mem := by
    obtain ⟨lt, free⟩ := h.gone u mem
    exact ⟨by simpa [Holdings.cancel] using lt, free⟩
  older p c derived := by simpa [Holdings.cancel] using h.older p c derived
  unique := h.unique
  hangs p c derived held := (h.hangs p c derived held).cancel (h.known c held)
  listed p c mem := h.listed p c (Forest.mem_children_of_cancelAll mem)
  asked r mem := by
    have size : (σ.cancel t).forest.nodes.size = σ.forest.nodes.size := Forest.size_cancel
    rw [size]
    obtain rfl | mem := List.mem_cons.mp mem
    · exact ⟨h.known t holds, List.Subset.refl _⟩
    · exact h.asked r mem
  law u held := by
    constructor
    · intro cancelled
      obtain before | lists := Forest.listed_of_isCancelled_cancel cancelled
      · obtain ⟨r, mem, doomed⟩ := (h.law u held).mp before
        exact ⟨r, List.mem_cons_of_mem _ mem, doomed⟩
      · obtain ⟨below, way⟩ := h.lists lists
        refine ⟨_, List.mem_cons_self .., below, fun b above under lost => ?_⟩
        exact (h.gone b lost).2 (way b above under.to_reflTransGen)
    · rintro ⟨r, mem, below, way⟩
      obtain rfl | mem := List.mem_cons.mp mem
      · exact h.cancelled (h.known t holds) held below fun b above low =>
          h.between above (way b above low)
      · exact Forest.isCancelled_cancelAll ((h.law u held).mpr ⟨r, mem, below, way⟩)

theorem Kept.leave (h : σ.Kept) {rest : Multiset TokenHandle} {armed : Bool}
    (handles : σ.handles = ⟨t, armed⟩ ::ₘ rest) : (σ.leave t rest).Kept := by
  have before : ∀ u, σ.Holds u ↔ u = t ∨ u ∈ held rest := fun u => by
    simp [Holds, held, handles]
  have size : (σ.leave t rest).forest.nodes.size = σ.forest.nodes.size := by
    simp [Holdings.leave, Forest.prune]
  have lost : ∀ u, u ∈ (σ.leave t rest).lost ↔ u ∈ σ.lost ∨ u = t ∧ t ∉ held rest := fun u => by
    simp only [Holdings.leave]
    split <;> simp_all [or_comm]
  have kept : ∀ u, (σ.leave t rest).Holds u → σ.Holds u := fun u holds =>
    (before u).mpr (.inr holds)
  refine ⟨fun u holds => ?_, fun u lt => ?_, fun u mem => ?_, fun p c derived => ?_, h.unique,
    fun p c derived holds => ?_, fun p c mem => ?_, fun r mem => ?_, fun u holds => ?_⟩
  · rw [size]
    exact h.known u (kept u holds)
  · rw [size] at lt
    rw [lost]
    obtain holds | gone := h.present u lt
    · by_cases left : u ∈ held rest
      · exact .inl left
      · obtain rfl := ((before u).mp holds).resolve_right left
        exact .inr (.inr ⟨rfl, left⟩)
    · exact .inr (.inl gone)
  · rw [size]
    obtain gone | ⟨rfl, gone⟩ := (lost u).mp mem
    · exact ⟨(h.gone u gone).1, fun holds => (h.gone u gone).2 (kept u holds)⟩
    · exact ⟨h.known u ((before u).mpr (.inl rfl)), gone⟩
  · rw [size]
    exact h.older p c derived
  · have left : decide (c ∈ held rest) = true := decide_eq_true holds
    exact (h.hangs p c derived (kept c holds)).prune left
  · obtain ⟨mem, left⟩ := Forest.mem_children_prune.mp mem
    have holds : c ∈ held rest := of_decide_eq_true left
    exact ⟨(h.listed p c mem).1, holds⟩
  · rw [size]
    exact ⟨(h.asked r mem).1, fun u lost' => (lost u).mpr (.inl ((h.asked r mem).2 lost'))⟩
  · have same : (σ.leave t rest).forest.isCancelled u = σ.forest.isCancelled u :=
      Forest.isCancelled_prune _
    rw [same]
    exact h.law u (kept u holds)

theorem Step.kept (h : σ.Kept) (step : Step σ σ') : σ'.Kept := by
  have holds : ∀ {t armed}, ⟨t, armed⟩ ∈ σ.handles → σ.Holds t := fun mem =>
    Multiset.mem_map.mpr ⟨_, mem, rfl⟩
  cases step with
  | fresh => exact (adds_fresh σ).kept_add h nofun
  | child t mem =>
    refine (adds_child σ (h.known t (holds mem))).kept_add h fun p parent => ?_
    cases parent
    exact holds mem
  | clone t mem =>
    refine h.rehold fun u => ?_
    have known : t ∈ held σ.handles := holds mem
    simp only [held, Multiset.map_cons, Multiset.mem_cons, Holds]
    exact or_iff_right_of_imp fun same => same ▸ known
  | cancel t mem => exact h.cancel (holds mem)
  | arm t rest handles =>
    refine h.rehold fun u => ?_
    simp [Holds, held, handles]
  | disarm t rest handles | drop t rest handles => exact h.leave handles
  | dropArmed t rest handles =>
    exact (h.cancel (holds (handles ▸ Multiset.mem_cons_self _ _))).leave handles

theorem Reachable.kept (h : Reachable σ) : σ.Kept := by
  induction h with
  | refl => exact kept_empty
  | tail _ step ih => exact Step.kept ih step

/-! ## Which tokens are cancelled -/

theorem Step.lasting (step : Step σ σ') (cancelled : σ.forest.isCancelled t = true) :
    σ'.forest.isCancelled t = true := by
  cases step with
  | fresh => exact ((adds_fresh σ).cancelled t).mpr (.inl cancelled)
  | child u mem =>
    exact Forest.isCancelled_child.trans (by simp [cancelled])
  | clone | arm => exact cancelled
  | cancel => exact Forest.isCancelled_cancelAll cancelled
  | disarm | drop => simpa [leave, Forest.isCancelled_prune] using cancelled
  | dropArmed u rest handles =>
    have after : (σ.forest.cancel u).isCancelled t = true :=
      Forest.isCancelled_cancelAll cancelled
    exact (Forest.isCancelled_prune _).trans after

theorem Steps.lasting (steps : Steps σ σ') (cancelled : σ.forest.isCancelled t = true) :
    σ'.forest.isCancelled t = true := by
  induction steps with
  | refl => exact cancelled
  | tail _ step ih => exact step.lasting ih

/-- What is known of a token that has a handle. -/
structure Law (σ : Holdings) (t : TokenId) : Prop where
  exact : σ.forest.isCancelled t = true ↔ σ.Doomed t
  /-- As long as nothing between the token and one that was cancelled has been let go of, it is
  cancelled exactly if it or a token above it was. -/
  unbroken : (∀ r ∈ σ.requests, ∀ b, σ.Under r.token b → σ.Under b t → σ.Holds b) →
    (σ.forest.isCancelled t = true ↔ ∃ r ∈ σ.requests, σ.Below r.token t)
  lasting : ∀ σ', Steps σ σ' → σ.forest.isCancelled t = true → σ'.forest.isCancelled t = true
  idempotent : σ.forest.isCancelled t = true → σ.forest.cancel t = σ.forest
  /-- A cancellation comes to no token but the descendants. -/
  confined : ∀ u, (σ.forest.cancel t).isCancelled u = true →
    σ.forest.isCancelled u = true ∨ σ.Below t u
  reaching : ∀ u, σ.Holds u → σ.Below t u → (∀ b, σ.Under t b → σ.Under b u → σ.Holds b) →
    (σ.forest.cancel t).isCancelled u = true

/-- After any operations, a token that has a handle is cancelled exactly if it or a token above it
was cancelled while everything strictly between the two was held. -/
theorem Reachable.law (h : Reachable σ) (holds : σ.Holds t) : Law σ t where
  exact := h.kept.law t holds
  unbroken whole := by
    rw [h.kept.law t holds]
    refine exists_congr fun r => and_congr_right fun mem => and_iff_left fun b above under => ?_
    exact fun lost => (h.kept.gone b ((h.kept.asked r mem).2 lost)).2 (whole r mem b above under)
  lasting _ steps := Steps.lasting steps
  idempotent := Forest.cancel_of_isCancelled
  confined u cancelled :=
    (Forest.listed_of_isCancelled_cancel cancelled).imp_right fun lists => (h.kept.lists lists).1
  reaching u held below way := h.kept.cancelled (h.kept.known t holds) held below way

/-- The token `2` was derived from `1`, and `1` from `0`. -/
def line : Holdings := ((fresh {}).child 0).child 1

theorem handles_line : line.handles = ⟨1, false⟩ ::ₘ {⟨2, false⟩, ⟨0, false⟩} := by
  simp [line, fresh, child, child_fst, size_child, Forest.fresh]
  exact Multiset.cons_swap _ _ _

theorem reachable_line : Reachable line := by
  have one : Reachable (fresh {}) := .single (.fresh {})
  have two : Reachable ((fresh {}).child 0) :=
    .tail one (.child _ 0 (by simp [fresh, Forest.fresh]))
  exact .tail two (.child _ 1 (by simp [fresh, child, child_fst, Forest.fresh]))

/-- A cancellation does not come to a descendant whose parent was let go. -/
theorem orphan_not_cancelled : ∃ σ, Reachable σ ∧ σ.Holds 0 ∧ σ.Holds 2 ∧ σ.Under 0 2 ∧
    σ.forest.isCancelled 0 = true ∧ σ.forest.isCancelled 2 = false ∧ Law σ 2 := by
  let orphaned := line.leave 1 {⟨2, false⟩, ⟨0, false⟩}
  have reach : Reachable (orphaned.cancel 0) :=
    .tail (.tail reachable_line (.drop line 1 _ handles_line))
      (.cancel orphaned 0 (by simp [orphaned, leave]))
  have zero : orphaned.Holds 0 := by simp [orphaned, leave, Holds, held]
  have two : (orphaned.cancel 0).Holds 2 := by simp [orphaned, leave, cancel, Holds, held]
  have derived : (orphaned.cancel 0).derived = [(1, 2), (0, 1)] := by
    simp [orphaned, leave, cancel, line, fresh, child, child_fst, size_child, Forest.fresh]
  have upper : (orphaned.cancel 0).Under 0 1 := .single (by simp [Derived, derived])
  have lower : (orphaned.cancel 0).Under 1 2 := .single (by simp [Derived, derived])
  have law := Reachable.law reach two
  refine ⟨_, reach, zero, two, upper.trans lower, ?_, ?_, law⟩
  · have known := (Reachable.kept (.tail reachable_line (.drop line 1 _ handles_line))).known 0 zero
    exact Forest.isCancelled_cancel_self known
  · rw [Bool.eq_false_iff, ne_eq, law.exact]
    rintro ⟨r, mem, -, way⟩
    have requests : (orphaned.cancel 0).requests = [⟨0, [1]⟩] := by
      simp [orphaned, cancel, leave, held, line, fresh, child]
    rw [requests] at mem
    obtain rfl := List.mem_singleton.mp mem
    exact way 1 upper lower (List.mem_singleton_self 1)

end Holdings

end EffectFibers
