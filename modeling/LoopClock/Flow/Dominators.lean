import LoopClock.Flow.Layout
import LoopClock.Flow.Search

/-! Dominance. A block dominates those that cannot be reached any more once it is removed.
Unreachable blocks take no part. -/
namespace LoopClock

/-- For each reachable id of the layout, in order, what it dominates. -/
structure DomTree where
  dominated : List (Int × List Int)
  deriving DecidableEq, Repr

namespace DomTree

def reachable (d : DomTree) : List Int := d.dominated.map (·.1)

def isReachable (d : DomTree) (b : Int) : Bool := b ∈ d.reachable

def dominatedBy? (d : DomTree) (a : Int) : Option (List Int) := d.dominated.lookup a

def dominates (d : DomTree) (a b : Int) : Bool := (d.dominatedBy? a).any (b ∈ ·)

/-- The strict dominator that dominates the fewest blocks. -/
def idom? (d : DomTree) (b : Int) : Option Int :=
  (leastBy (·.2.length) (d.dominated.filter fun p => p.1 ≠ b ∧ b ∈ p.2)).map (·.1)

end DomTree

namespace Flow

/-- What the entry reaches by paths through blocks other than `removed`. -/
def reachableWithout (g : Flow) (removed : Option Int) : List Int :=
  reached Vertex.id queue g.succ (g.layout.take 1) (g.space.filter (some · ≠ removed))

def domTree (g : Flow) : DomTree :=
  let all := g.reachableWithout none
  ⟨(all.filter (· ∈ g.ids)).map fun b =>
    let others := g.reachableWithout (some b)
    (b, all.filter (· ∉ others))⟩

end Flow
end LoopClock
