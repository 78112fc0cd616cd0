import EffectFibers.Script.Term

/-!
# What terms hold

An effect holds the tokens that it will use, and so keeps them in reach of the tokens that they
were derived from.  A closure holds every token in its scope, whether it uses it or not.

`Term.held` and `ResourceTerm.held` give the tokens that are held by what is built from a term.
-/

namespace EffectFibers.Script

namespace Scope

/-- All tokens that a closure holds. -/
def tokens (scope : Scope) : List TokenId :=
  scope.filterMap fun (_, b) => match b with
    | .token t => some t
    | _ => none

/-- The token with a name, if it is one. -/
def tokenNamed (scope : Scope) (name : String) : List TokenId :=
  match scope.lookup name with
  | some (.token t) => [t]
  | _ => []

end Scope

mutual

def Term.held (scope : Scope) : Term → List TokenId
  | .succeed _ | .fail _ | .unit | .fromResult _ | .never | .sleep _ | .future .. | .currentThread
  | .shift _ | .dropUnrun _ | .malformed _ => []
  | .delay _ | .tryDelay _ | .suspend _ | .log _ | .async _ => scope.tokens
  | .map .. | .flatMap .. | .map2 .. | .mapError .. | .handleErrorWith .. | .handleError ..
  | .bracket .. | .guaranteeCase .. | .parMap .. | .newCell .. | .access .. | .use ..
  | .loop .. => scope.tokens
  | .cell _ (.update ..) => scope.tokens
  | .cell .. | .set .. => []
  | .cancel name | .isCancelled name | .cancelled name | .describe name => scope.tokenNamed name
  | .bindValue _ _ body => body.held scope
  | .bindResource resource _ body => resource.held scope ++ body.held scope
  | .parTraverse _ _ body => body.held scope
  | .andThen a b | .product a b | .guarantee a b | .onCancel a b | .race a b | .raceFirst a b
  | .parZip a b => a.held scope ++ b.held scope
  | .asUnit source | .continueOn source _ | .attempt source | .timeoutWith source _ _
  | .timeout source _ | .chain _ _ source => source.held scope
  | .parSequence items | .parTupled items => heldByAll scope items
termination_by structural t => t

def heldByAll (scope : Scope) : List Term → List TokenId
  | [] => []
  | t :: ts => t.held scope ++ heldByAll scope ts
termination_by structural ts => ts

def ResourceTerm.held (scope : Scope) : ResourceTerm → List TokenId
  | .make .. | .eval _ | .map .. | .flatMap .. => scope.tokens
  | .pure _ | .empty | .named _ | .malformed _ => []
  | .combine left right => left.held scope ++ right.held scope
  | .combineAll items | .reduceAll items => heldByResources scope items
termination_by structural r => r

def heldByResources (scope : Scope) : List ResourceTerm → List TokenId
  | [] => []
  | r :: rs => r.held scope ++ heldByResources scope rs
termination_by structural rs => rs

end

end EffectFibers.Script
