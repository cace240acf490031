/-!
Settings of the worker pool. They decide how fast the workers of a pass run and never what the pass
answers.
-/

namespace HotReload

/-- How the workers of a pass run. -/
structure Pool where
  /-- On a pool of threads instead of one after the other. -/
  parallel : Bool
  /-- The number of threads; zero leaves it to the pool. -/
  threads : Nat
  /-- The stack of a thread, in bytes. -/
  stackSize : Nat
  deriving DecidableEq, Repr

namespace Pool

/-- As many threads as the pool likes, with stacks of eight mebibytes. -/
def standard : Pool := ⟨true, 0, 8 * 1024 * 1024⟩

/-- One worker after the other. -/
def sequential : Pool := { standard with parallel := false }

/-- A fixed number of threads. -/
def withThreads (n : Nat) : Pool := { standard with threads := n }

end Pool

end HotReload
