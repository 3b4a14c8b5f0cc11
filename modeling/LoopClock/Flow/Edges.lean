import LoopClock.IR.Program

/-! The edges between the blocks of a program. An edge is kept at both of its ends, and every
operation here changes both. -/
namespace LoopClock.Program

def block? (p : Program) (v : Vertex) : Option Block := p.funcs[v.func]?.bind (·.block? v.id)

def succ (p : Program) (v : Vertex) : List Vertex := ((p.block? v).map (·.succ)).getD []

def prev (p : Program) (v : Vertex) : List Vertex := ((p.block? v).map (·.prev)).getD []

def update (p : Program) (v : Vertex) (change : Block → Block) : Program :=
  { p with funcs := p.funcs.modify v.func (·.update v.id change) }

/-- Adds the edge from `a` to `b`, unless `a` has an edge to a block of that id already. -/
def link (p : Program) (a b : Vertex) : Program :=
  if b.id ∈ (p.succ a).map (·.id) then p
  else (p.update a fun n => { n with succ := n.succ ++ [b] }).update b fun n =>
    { n with prev := n.prev ++ [a] }

/-- Moves the edge from `a` to `old` over to `new`. It keeps its place among the successors of
`a`. Without such an edge nothing happens. -/
def redirect (p : Program) (a old new : Vertex) : Program :=
  if old ∈ p.succ a then
    ((p.update a fun n => { n with succ := n.succ.replace old new }).update old fun n =>
      { n with prev := n.prev.filter (· != a) }).update new fun n =>
        { n with prev := n.prev ++ [a] }
  else p

def retarget (p : Program) (v : Vertex) (old new : Label) : Program :=
  p.update v fun b => { b with jump := b.jump.map (Terminator.retarget old new) }

end LoopClock.Program
