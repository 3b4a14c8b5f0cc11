import LoopClock.Flow.Dominators

/-! Natural loops and their forest. A reachable block heads a loop when one of its predecessors is
dominated by it; the loop is the header with all that reaches such a predecessor around it. -/
namespace LoopClock

/-- Loops are numbered by the layout order of their headers. `outer` and `subloops` are numbers of
loops, `blocks` is in layout order. -/
structure Loop where
  id : Nat
  header : Vertex
  blocks : List Vertex
  outer : Option Nat
  subloops : List Nat
  level : Nat
  deriving DecidableEq, Repr

namespace Loop

def isInnermost (l : Loop) : Bool := l.subloops.isEmpty

/-- A block belongs to a loop by its id. -/
def holds (l : Loop) (id : Int) : Bool := l.blocks.any (·.id == id)

def text (l : Loop) : String :=
  "loop " ++ Numeral.nat l.id ++ ": outer: " ++ ((l.outer.map Numeral.nat).getD "None")
    ++ ", header: " ++ l.header.label ++ ", level: " ++ Numeral.nat l.level
    ++ ", no_inner: " ++ if l.isInnermost then "true" else "false"

end Loop

/-- The loops of a graph, and for each block in a loop the innermost one. -/
structure LoopForest where
  loops : List Loop
  innermost : List (Int × Nat)
  deriving DecidableEq, Repr

namespace LoopForest

def get? (f : LoopForest) (id : Nat) : Option Loop := f.loops[id]?

def byHeader? (f : LoopForest) (header : Int) : Option Loop := f.loops.find? (·.header.id == header)

def loopFor? (f : LoopForest) (block : Int) : Option Loop :=
  (f.innermost.lookup block).bind f.get?

def topLevel (f : LoopForest) : List Loop := f.loops.filter (·.outer.isNone)

/-- The loops nested in `l` up to `depth` levels down, inner ones first, and `l` itself. -/
def postOrderFrom (f : LoopForest) : Nat → Loop → List Loop
  | 0, l => [l]
  | depth + 1, l => (l.subloops.filterMap f.get?).flatMap (f.postOrderFrom depth) ++ [l]

/-- Every loop after the loops nested in it. No nesting is deeper than the number of loops. -/
def postOrder (f : LoopForest) : List Loop :=
  f.topLevel.flatMap (f.postOrderFrom f.loops.length)

/-- The headers in the order in which loops are worked on. -/
def visitOrder (f : LoopForest) : List Int := f.postOrder.map (·.header.id)

end LoopForest

/-- A header and the ids met in its loop. -/
structure LoopBody where
  header : Vertex
  ids : List Int
  deriving DecidableEq, Repr

namespace Flow

def latches (g : Flow) (d : DomTree) (header : Vertex) : List Vertex :=
  (g.prev header).filter fun v => d.dominates header.id v.id

/-- The header with every reachable block that has a path to a latch not passing the header. -/
def naturalLoop (g : Flow) (d : DomTree) (header : Int) (latches : List Vertex) : List Int :=
  let reachable := d.reachable
  let space := reachable ++ ((latches.map (·.id)).filter (· ∉ reachable)).eraseDups
  let body := reached Vertex.id stack (fun v => (g.prev v).filter (·.id ∈ reachable))
    latches.reverse (space.filter (· ≠ header))
  space.filter fun b => b = header ∨ b ∈ body

def loopBodies (g : Flow) (d : DomTree) : List LoopBody :=
  g.layout.filterMap fun v =>
    let latches := g.latches d v
    if d.isReachable v.id ∧ latches ≠ [] then some ⟨v, g.naturalLoop d v.id latches⟩ else none

/-- The number of the smallest body that holds `block`, other than number `except`. -/
def smallestBody? (bodies : List LoopBody) (block : Int) (except : Option Nat) : Option Nat :=
  (leastBy (·.1.ids.length) (bodies.zipIdx.filter fun p =>
    some p.2 ≠ except ∧ block ∈ p.1.ids)).map (·.2)

/-- One more than the number of loops met on the way outwards. -/
def levelOf (outers : List (Option Nat)) (id : Nat) : Nat :=
  let outward (i : Nat) : List Nat := (outers[i]?.join).toList
  (reached (fun i => i) queue outward (outward id) (List.range outers.length)).length + 1

def loopForest (g : Flow) (d : DomTree) : LoopForest :=
  let bodies := g.loopBodies d
  let outers := bodies.zipIdx.map fun (b, i) => smallestBody? bodies b.header.id (some i)
  let loops := bodies.zipIdx.map fun (b, i) =>
    { id := i
      header := b.header
      blocks := g.layout.filter (·.id ∈ b.ids)
      outer := outers[i]?.join
      subloops := (List.range bodies.length).filter fun j => outers[j]?.join = some i
      level := levelOf outers i }
  ⟨loops, g.ids.filterMap fun b => (smallestBody? bodies b none).map fun i => (b, i)⟩

end Flow

/-- Blocks outside the loop that an edge from inside leads to, in the order in which the edges of
the members lead to them. Of blocks with one id the first is taken. -/
def Program.exitBlocks (p : Program) (l : Loop) : List Vertex :=
  ((l.blocks.flatMap p.succ).filter (!l.holds ·.id)).eraseDupsBy (·.id == ·.id)

/-- What is known about the flow of a function before a loop is worked on. -/
structure Analyses where
  domTree : DomTree
  forest : LoopForest
  deriving DecidableEq, Repr

def Flow.analyses (g : Flow) : Analyses := ⟨g.domTree, g.loopForest g.domTree⟩

end LoopClock
