import LoopClock.Trace.Traced

/-! Splitting the edges into a block, and giving loops exits of their own. Moved edges meet in a
new block, which falls through to the old target; phi entries move along with them. -/
namespace LoopClock

namespace Phi

/-- What becomes of a phi when the edges from `moved` are led through the block `via`: the phi
that stays, the phi that has to be added to the new block, and the number of the last temporary.
The new block needs no phi where all moved edges bring the same value. -/
def reroute (moved : List Label) (via : Label) (temps : Nat) (p : Phi) : Phi × Option Phi × Nat :=
  let incoming := p.source.filter (·.2 ∈ moved)
  let kept := p.source.filter (·.2 ∉ moved)
  match incoming with
  | [] => (p, none, temps)
  | (first, _) :: _ =>
    if incoming.all fun s => s.1.same first then
      ({ p with source := kept ++ [(first, via)] }, none, temps)
    else
      let merged := Temp.fresh temps p.target.ty
      ({ p with source := kept ++ [(.temp merged, via)] }, some ⟨merged, incoming⟩, temps + 1)

/-- All phis of a block in order, with the phis of the new block. -/
def rerouteAll (moved : List Label) (via : Label) (temps : Nat) :
    List Phi → List Phi × List Phi × Nat
  | [] => ([], [], temps)
  | p :: ps =>
    let (stays, added, temps) := p.reroute moved via temps
    let (rest, more, temps) := rerouteAll moved via temps ps
    (stays :: rest, added.toList ++ more, temps)

end Phi

namespace Program

/-- The next new block of a function: its id is one more than the greatest in use. -/
def nextVertex (p : Program) (func : Nat) : Vertex :=
  ⟨func, (p.funcs[func]?.map (·.total)).getD 0 + 1⟩

/-- Lays out the block `b` as `v`, in front of the block `before` if that is in the same
function. -/
def addBlock (p : Program) (v : Vertex) (b : Block) (before : Vertex) : Program :=
  let place (f : Func) : Func :=
    { f.place b (if before.func = v.func then some before.id else none) with total := v.id }
  { p with funcs := p.funcs.modify v.func place }

/-- Leads the edge from `pred` to `target` to `via`, in the graph and in the terminator. -/
def reroute (target via : Vertex) (p : Program) (pred : Vertex) : Program :=
  (p.redirect pred target via).retarget pred target.label via.label

/-- Moves the edges from `preds` into `target` over to a new block of the function. -/
def splitPredecessors (p : Program) (func : Nat) (target : Vertex) (preds : List Vertex) :
    Program × Vertex :=
  let via := p.nextVertex func
  let phis := ((p.block? target).map (·.phis)).getD []
  let (stay, added, temps) := Phi.rerouteAll (preds.map Vertex.label) via.label p.temps phis
  let block : Block := ⟨via.id, [], [], added, [], some (.jump target.label)⟩
  let moved := preds.foldl (reroute target via) (p.addBlock via block target)
  let linked := (moved.update target fun b => { b with phis := stay }).link via target
  ({ linked with temps }, via)

def first? (p : Program) (func : Nat) : Option Vertex :=
  (p.funcs[func]?.bind Func.first?).map (⟨func, ·⟩)

/-- Gives the exit `exit` of a loop a block of its own in the function, unless it already is
entered from the loop only. The entry of the function is also entered from outside. -/
def dedicateExit (func : Nat) (l : Loop) (s : Program × Bool) (exit : Vertex) :
    Traced (Program × Bool) := do
  let (p, changed) := s
  let (inside, outside) := (p.prev exit).partition (l.holds ·.id)
  if outside = [] ∧ p.first? func ≠ some exit then
    Traced.tell (.alreadyDedicated exit.id)
    return (p, changed)
  else
    let (p, via) := p.splitPredecessors func exit inside
    Traced.tell (.exitDedicated via.id exit.id)
    return (p, true)

/-- Gives every exit of the loop a block entered only from the loop, and tells whether blocks were
added. They are added to the given function. -/
def dedicateExits (p : Program) (func : Nat) (l : Loop) : Traced (Program × Bool) :=
  (p.exitBlocks l).foldlM (dedicateExit func l) (p, false)

end Program
end LoopClock
