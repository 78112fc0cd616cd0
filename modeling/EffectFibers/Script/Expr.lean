import EffectFibers.Resource
import EffectFibers.Value.Text

/-!
# Expressions

Where an effect takes a value or a function, a script has an expression over named variables.
Values, cells, setters, tokens and resources share one space of names; an inner binding hides an
outer one.
-/

namespace EffectFibers.Script

inductive Binding where
  | value (v : Value)
  | cell (c : CellId)
  | setter (s : SetterId)
  | token (t : TokenId)
  | resource (r : Resource)
deriving Inhabited

/-- The variables in force, innermost first. -/
abbrev Scope := List (String × Binding)

namespace Scope

def noValue {α : Type} (name : String) : Except Fault α := .error (.malformed (.noValue name))

def value (scope : Scope) (name : String) : Except Fault Value :=
  match scope.lookup name with
  | some (.value v) => .ok v
  | _ => noValue name

def cell (scope : Scope) (name : String) : Except Fault CellId :=
  match scope.lookup name with
  | some (.cell c) => .ok c
  | _ => noValue name

def setter (scope : Scope) (name : String) : Except Fault SetterId :=
  match scope.lookup name with
  | some (.setter s) => .ok s
  | _ => noValue name

def token (scope : Scope) (name : String) : Except Fault TokenId :=
  match scope.lookup name with
  | some (.token t) => .ok t
  | _ => noValue name

def resource (scope : Scope) (name : String) : Except Fault Resource :=
  match scope.lookup name with
  | some (.resource r) => .ok r
  | _ => noValue name

/-- Binds a variable, if there is a name for it. -/
def bind (scope : Scope) (name : Option String) (b : Binding) : Scope :=
  match name with
  | some name => (name, b) :: scope
  | none => scope

def bindValue (scope : Scope) (name : Option String) (v : Value) : Scope :=
  scope.bind name (.value v)

end Scope

inductive ArithOp where
  | add
  | sub
  | mul
deriving DecidableEq, Inhabited

/-- Arithmetic wraps, and what is not an integer counts as zero. -/
def ArithOp.apply : ArithOp → Value → Value → Value
  | .add, a, b => .int (a.toInt + b.toInt)
  | .sub, a, b => .int (a.toInt - b.toInt)
  | .mul, a, b => .int (a.toInt * b.toInt)

inductive Expr where
  | lit (v : Value)
  | list (items : List Expr)
  | var (name : String)
  | arith (op : ArithOp) (a b : Expr)
  | concat (items : List Expr)
  | len (e : Expr)
  | eq (a b : Expr)
  | lt (a b : Expr)
  | cond (test yes no : Expr)
  | push (l x : Expr)
  | nth (l i : Expr)
  | tag (e : Expr)
  | untag (e : Expr)
  | panic (text : String)
  | malformed (cause : Malformed)
deriving Inhabited

namespace Expr

mutual

def eval (scope : Scope) : Expr → Except Fault Value
  | .lit v => .ok v
  | .list items => do return .list (← evalAll scope items)
  | .var name => scope.value name
  | .arith op a b => do
    let x ← eval scope a
    let y ← eval scope b
    return op.apply x y
  | .concat items => do
    let vs ← evalAll scope items
    return .text (String.join (vs.map Value.display))
  | .len e => do
    let v ← eval scope e
    return .int (Int64.ofNat v.length)
  | .eq a b => do
    let x ← eval scope a
    let y ← eval scope b
    return .bool (x = y)
  | .lt a b => do
    let x ← eval scope a
    let y ← eval scope b
    return .bool (x.toInt < y.toInt)
  | .cond test yes no => do
    let v ← eval scope test
    if v = .bool true then eval scope yes else eval scope no
  | .push l x => do
    let l ← eval scope l
    let x ← eval scope x
    return l.push x
  | .nth l i => do
    let l ← eval scope l
    let i ← eval scope i
    return l.nth i
  | .tag e => do return (← eval scope e).tagName
  | .untag e => do return (← eval scope e).untag
  | .panic text => .error (.raised text)
  | .malformed cause => .error (.malformed cause)
termination_by structural e => e

/-- The values of expressions, from left to right. -/
def evalAll (scope : Scope) : List Expr → Except Fault (List Value)
  | [] => .ok []
  | e :: es => do
    let v ← eval scope e
    let vs ← evalAll scope es
    return v :: vs
termination_by structural es => es

end

end Expr

end EffectFibers.Script
