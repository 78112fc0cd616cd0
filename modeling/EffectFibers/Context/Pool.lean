import EffectFibers.Context

/-!
# Pools of threads

A `Pool` says how a context with threads of its own is set up: how many threads, and what they
are called.  Without a number the machine decides.  There is always at least one thread.
-/

namespace EffectFibers

structure Pool where
  workers : Option { n : Nat // 0 < n } := none
  threadName : String := Context.shared.thread
deriving DecidableEq, Inhabited

namespace Pool

/-- Sets the number of threads; zero counts as one. -/
def withWorkers (p : Pool) (n : Nat) : Pool :=
  { p with workers := some ⟨max n 1, by omega⟩ }

def withThreadName (p : Pool) (name : String) : Pool := { p with threadName := name }

/-- One thing that is set. -/
inductive Setting where
  | workers (n : Nat)
  | threadName (name : String)

/-- The pool after some settings, one after the other. -/
def configure (p : Pool) (settings : List Setting) : Pool :=
  settings.foldl (fun p setting => match setting with
    | .workers n => p.withWorkers n
    | .threadName name => p.withThreadName name) p

/-- The context that a pool sets up. -/
def context (p : Pool) : Context := { thread := p.threadName }

/-- The text that shows a pool whose size is set. -/
def describe? (p : Pool) : Option String :=
  p.workers.map fun n =>
    "RuntimeConfig \x7b worker_threads: " ++ toString n.val ++ ", thread_name: "
      ++ Text.quoted p.threadName ++ " \x7d"

@[simp] theorem thread_context (p : Pool) : p.context.thread = p.threadName := rfl

end Pool

end EffectFibers
