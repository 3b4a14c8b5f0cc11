import LoopClock.Flow.Edges

/-! Blocks in a layout, as the analyses see them. The layout is that of one function, whose edges
may lead on to blocks of other functions: these are then met on the way but are not laid out. Or it
takes in all functions of a program. -/
namespace LoopClock

structure Flow where
  /-- The blocks in layout order, the entry first. -/
  layout : List Vertex
  /-- The ids that can be met along the edges, each of them once, those of the layout first. -/
  space : List Int
  succ : Vertex → List Vertex
  prev : Vertex → List Vertex

/-- The ids of the blocks in layout order. -/
def Flow.ids (g : Flow) : List Int := g.layout.map (·.id)

namespace Program

def ids (p : Program) (func : Nat) : List Int := (p.funcs[func]?.map Func.ids).getD []

/-- Whether no edge leads out of the function. -/
def isClosed (p : Program) (func : Nat) : Bool :=
  p.funcs[func]?.all fun f => f.blocks.all fun b => b.succ.all (·.func == func)

/-- Nothing lies beyond a function that no edge leaves. -/
def idsBeyond (p : Program) (func : Nat) : List Int :=
  if p.isClosed func then []
  else ((p.funcs.flatMap Func.ids).filter (· ∉ p.ids func)).eraseDups

def flow (p : Program) (func : Nat) : Flow where
  layout := (p.ids func).map (⟨func, ·⟩)
  space := p.ids func ++ p.idsBeyond func
  succ := p.succ
  prev := p.prev

def vertices (p : Program) : List Vertex :=
  p.funcs.zipIdx.flatMap fun (f, func) => f.ids.map (⟨func, ·⟩)

/-- All functions laid out one after the other. The same id may then occur several times. -/
def wholeFlow (p : Program) : Flow where
  layout := p.vertices
  space := (p.vertices.map (·.id)).eraseDups
  succ := p.succ
  prev := p.prev

/-- A flow graph without code. Each id makes a block, in a function of its own; an edge leads from
one place in the list of ids to another. -/
def ofEdges (ids : List Int) (edges : List (Nat × Nat)) : Program :=
  let bare (id : Int) : Func := ⟨"", .void, [], id, [⟨id, [], [], [], [], none⟩]⟩
  edges.foldl (fun p (a, b) =>
    match ids[a]?, ids[b]? with
    | some i, some j => p.link ⟨a, i⟩ ⟨b, j⟩
    | _, _ => p) { funcs := ids.map bare }

end Program
end LoopClock
