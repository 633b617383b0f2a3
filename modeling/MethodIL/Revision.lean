import MethodIL.Body.Image
import MethodIL.Stack.Heights
import MethodIL.Tree.ToBody
set_option autoImplicit false

/-!
# Revising method bodies

A body is revised by making it a tree, letting a pass edit the tree, measuring the stack anew, and
making the tree a body again.  Many bodies are revised as a batch, in which every job has an outcome
of its own.
-/

namespace MethodIL

/-- How bodies are revised. -/
structure Policy where
  /-- the stack is measured after the pass -/
  recomputeMaxStack : Bool
  /-- a declared stack size is kept if it is larger than the measured one -/
  preserveLarger : Bool
  /-- the jobs of a batch may run side by side; their outcomes do not depend on it -/
  parallel : Bool
  deriving DecidableEq, Repr

namespace Policy

/-- Every stack size is measured. -/
def strict : Policy := ⟨true, false, true⟩

/-- Bodies keep their declared stack sizes. -/
def passthrough : Policy := ⟨false, false, false⟩

/-- Measured stack sizes never go below declared ones. -/
def conservative : Policy := ⟨true, true, true⟩

instance : Inhabited Policy := ⟨strict⟩

end Policy

/-- An edit of a tree that takes notes. -/
abbrev Pass : Type := Tree → Journaled Tree

/-- Revise a body. -/
def Body.revise (body : Body) (resolver : Resolver) (policy : Policy) (pass : Pass) :
    Journaled Body := do
  let t ← pass (← Tree.ofBodyJournaled body)
  if policy.recomputeMaxStack then
    let heights ← StackHeights.ofTreeJournaled t resolver
    (heights.apply t policy.preserveLarger).toBodyJournaled
  else t.toBodyJournaled

/-- A body to revise, and what is known about the methods it calls. -/
structure Job where
  body : Body
  resolver : Resolver

/-- The outcomes of a batch, in the order of its jobs. -/
structure BatchOutcome where
  results : List (Except Fault Body)

namespace BatchOutcome

/-- The number of jobs that have a body. -/
def succeeded (outcome : BatchOutcome) : Nat :=
  outcome.results.countP fun
    | .ok _ => true
    | .error _ => false

/-- The failed jobs with their faults. -/
def failed (outcome : BatchOutcome) : List (Nat × Fault) :=
  outcome.results.zipIdx.filterMap fun
    | (.ok _, _) => none
    | (.error fault, index) => some (index, fault)

/-- The jobs that have a body, with it. -/
def bodies (outcome : BatchOutcome) : List (Nat × Body) :=
  outcome.results.zipIdx.filterMap fun
    | (.ok body, index) => some (index, body)
    | (.error _, _) => none

end BatchOutcome

/-- Run a job for itself: its fault is noted and becomes its outcome. -/
def Job.run (job : Job) (policy : Policy) (pass : Pass) (index : Nat) :
    StateM (List Event) (Except Fault Body) := do
  let outcome ← (job.body.revise job.resolver policy pass).run
  if let .error _ := outcome then modify fun journal => journal ++ [.jobFailed index]
  return outcome

/-- Revise the bodies of a batch. -/
def reviseBatch (jobs : List Job) (policy : Policy) (pass : Pass) :
    StateM (List Event) BatchOutcome := do
  let results ← jobs.zipIdx.mapM fun (job, index) => job.run policy pass index
  let outcome : BatchOutcome := ⟨results⟩
  modify fun journal => journal ++ [.batchDone jobs.length outcome.failed.length]
  return outcome

/-- Read a body, make it a tree and a body again, and write it. -/
def renewBytes (data : List UInt8) : Journaled (List UInt8) := do
  let body ← Journaled.ofExcept (Body.ofBytes data)
  let t ← Tree.ofBodyJournaled body
  let renewed ← t.toBodyJournaled
  Journaled.ofExcept renewed.toBytes

end MethodIL
