import Mathlib.Logic.Function.Basic
import Mathlib.Data.List.Perm.Basic
import Jaiba.Config

/-!
# Flow graph (`jaiba-core/src/graph.rs`)

`FlowGraph::build`: Kahn's algorithm over the processors and connections of a
manifest. The initial queue follows the iteration order of a hash map, which is
a parameter.
-/

namespace Jaiba

inductive GraphError where
  | empty
  | duplicateProcessor (id : String)
  | unknownProcessor (source target : String)
  | cycle
  deriving Repr, DecidableEq

/-- `Display`. -/
def GraphError.text : GraphError → String
  | .empty => "the flow must contain at least one processor"
  | .duplicateProcessor id => "duplicate processor id '" ++ id ++ "'"
  | .unknownProcessor source target =>
    "connection '" ++ source ++ " -> " ++ target ++ "' references an unknown processor"
  | .cycle => "the flow graph contains a cycle"

/-- The order in which a hash map over processor ids iterates. -/
structure HashOrder where
  iter : List String → List String
  perm : ∀ l, (iter l).Perm l

def HashOrder.asStored : HashOrder := ⟨id, fun l => .refl l⟩

namespace FlowGraph

/-- The first id that already occurred. -/
def firstDuplicate (seen : List String) : List String → Option String
  | [] => none
  | id :: ids => if id ∈ seen then some id else firstDuplicate (id :: seen) ids

/-- One round of the inner loop: a destination whose degree reaches zero is queued. -/
def relax (indegree : String → ℕ) (pending : List String) :
    List String → (String → ℕ) × List String
  | [] => (indegree, pending)
  | destination :: rest =>
    let degree := indegree destination - 1
    relax (Function.update indegree destination degree)
      (if degree = 0 then pending ++ [destination] else pending) rest

/-- The outer loop; each round moves one id to the order, so as many rounds as
there are processors are enough. -/
def drain (connections : List ConnectionConfig) :
    ℕ → (String → ℕ) → List String → List String → List String
  | 0, _, _, order => order
  | _ + 1, _, [], order => order
  | rounds + 1, indegree, id :: pending, order =>
    let next := relax indegree pending
      ((connections.filter fun k => k.source = id).map ConnectionConfig.target)
    drain connections rounds next.1 next.2 (order ++ [id])

/-- The topological order, or the first error. -/
def build (hash : HashOrder) (config : FlowConfig) : Except GraphError (List String) :=
  if config.processors.isEmpty then .error .empty
  else
    let ids := config.processors.map ProcessorConfig.id
    match firstDuplicate [] ids with
    | some id => .error (.duplicateProcessor id)
    | none =>
      match config.connections.find? fun k => k.source ∉ ids || k.target ∉ ids with
      | some k => .error (.unknownProcessor k.source k.target)
      | none =>
        let indegree : String → ℕ := fun id =>
          config.connections.countP fun k => k.target = id
        let order := drain config.connections ids.length indegree
          (hash.iter (ids.filter fun id => indegree id = 0)) []
        if order.length ≠ ids.length then .error .cycle else .ok order

end FlowGraph

end Jaiba
