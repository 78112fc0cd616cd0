import EffectFibers.Effect.Combinators

/-!
# Resources

A `Resource` says how to acquire a value and how to release it.  It is consumed by `Resource.use`,
which nests one bracket per leaf: leaves are acquired from left to right, the body sees the value
the tree computes, and releases run in the opposite order, each before the next outer one.

## Main statements

* `Resource.use_map`, `Resource.use_bind`: a use of a derived resource is a use of its source.
* `Resource.use_pure`: a pure resource is a bracket whose release does nothing.
-/

namespace EffectFibers

inductive Resource where
  | make (acquire : Effect) (release : Value → ExitCase Value → Effect)
  | map (source : Resource) (f : Value → Except Fault Value)
  | flatMap (source : Resource) (f : Value → Resource)
  /-- A resource whose construction gave up. -/
  | fault (fault : Fault)
deriving Inhabited

namespace Resource

def ofExcept : Except Fault Resource → Resource
  | .ok r => r
  | .error f => .fault f

/-- Acquire, run the body on the value, release. -/
def use : Resource → (Value → Effect) → Effect
  | .make acquire release, body =>
    match acquire.fault? with
    | some f => .fault f
    | none => .bracket acquire body release
  | .map source f, body => source.use fun v => match f v with
    | .ok v => body v
    | .error x => .fault x
  | .flatMap source f, body => source.use fun v => (f v).use body
  | .fault f, _ => .fault f

/-- A resource without anything to release. -/
def eval (acquire : Effect) : Resource := .make acquire fun _ _ => Effect.unit

def pure (v : Value) : Resource := eval (.succeed v)

/-- Both resources, their values combined. -/
def combine (op : Value → Value → Except Fault Value) (left right : Resource) : Resource :=
  left.flatMap fun a => right.map fun b => op a b

def combineAll (op : Value → Value → Except Fault Value) (empty : Value)
    (rs : List Resource) : Resource :=
  rs.foldl (combine op) (pure empty)

/-- All the resources combined without an empty one, if there are any. -/
def reduceAll? (op : Value → Value → Except Fault Value) : List Resource → Option Resource
  | [] => none
  | r :: rs => some (rs.foldl (combine op) r)

/-! ## Lemmas -/

theorem use_map (r : Resource) (f : Value → Except Fault Value) (body : Value → Effect) :
    (r.map f).use body = r.use fun v => match f v with
      | .ok v => body v
      | .error x => .fault x := rfl

theorem use_bind (r : Resource) (f : Value → Resource) (body : Value → Effect) :
    (r.flatMap f).use body = r.use fun v => (f v).use body := rfl

theorem use_pure (v : Value) (body : Value → Effect) :
    (pure v).use body = .bracket (.succeed v) body fun _ _ => Effect.unit := rfl

end Resource

end EffectFibers
