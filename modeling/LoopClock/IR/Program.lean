import LoopClock.IR.Global
import LoopClock.IR.Instr

/-! Blocks, functions and programs. Ids of blocks are distinct within a function; `prev` and `succ`
are the flow graph, the terminator is what gets printed. -/
namespace LoopClock

/-- A vertex of the flow graph of a program: a block, named by the place of its function and its id
there. -/
structure Vertex where
  func : Nat
  id : Int
  deriving DecidableEq, Repr

def Vertex.label (v : Vertex) : Label := Label.ofId v.id

structure Block where
  id : Int
  prev : List Vertex := []
  succ : List Vertex := []
  phis : List Phi := []
  body : List Instr := []
  jump : Option Terminator := none
  deriving DecidableEq

namespace Block

def label (b : Block) : Label := Label.ofId b.id

def isRet (b : Block) : Bool := b.jump.any Terminator.isRet

def writes (b : Block) : List Temp := b.phis.map (·.target) ++ b.body.filterMap Instr.target?

def reads (b : Block) : List Temp :=
  b.phis.flatMap Phi.reads ++ b.body.flatMap Instr.reads
    ++ (b.jump.map Terminator.reads).getD []

/-- Puts instructions in front of position `pos`, or at the end if there is no such position. -/
def insertAt (b : Block) (pos : Nat) (instrs : List Instr) : Block :=
  { b with body := b.body.take pos ++ instrs ++ b.body.drop pos }

def text (b : Block) : String :=
  b.label ++ ":\n" ++ joined "\n"
    ((b.phis.map Phi.text ++ b.body.map Instr.text ++ b.jump.toList.map Terminator.text).map
      ("  " ++ ·))

end Block

/-- Blocks are in layout order, the entry first. `total` is the greatest id in use. -/
structure Func where
  name : String
  ret : Ty
  params : List Temp
  total : Int
  blocks : List Block
  deriving DecidableEq

namespace Func

/-- A function without code: its entry block has no terminator yet. -/
def empty (name : String) (ret : Ty) (params : List Temp) : Func :=
  ⟨name, ret, params, 0, [⟨0, [], [], [], [], none⟩]⟩

def ids (f : Func) : List Int := f.blocks.map (·.id)

def first? (f : Func) : Option Int := (f.blocks.head?).map (·.id)

def block? (f : Func) (id : Int) : Option Block := f.blocks.find? (·.id == id)

def update (f : Func) (id : Int) (change : Block → Block) : Func :=
  { f with blocks := f.blocks.map fun b => if b.id = id then change b else b }

/-- Puts `b` in front of the block `before`, or at the end without one, but never in front of the
entry. -/
def place (f : Func) (b : Block) (before : Option Int) : Func :=
  let pos := max (f.blocks.findIdx fun c => some c.id == before) 1
  { f with blocks := f.blocks.take pos ++ b :: f.blocks.drop pos }

def writes (f : Func) : List Temp := f.params ++ f.blocks.flatMap Block.writes

def text (f : Func) : String :=
  "define " ++ f.ret.text ++ " @" ++ f.name ++ "("
    ++ joined ", " (f.params.map fun p => p.ty.text ++ " " ++ p.text) ++ ") \x7b\n"
    ++ joined "\n" (f.blocks.map Block.text) ++ "\n\x7d"

end Func

structure Decl where
  name : String
  ret : Ty
  params : List Ty
  isVariadic : Bool
  deriving DecidableEq, Repr

def Decl.text (d : Decl) : String :=
  "declare " ++ d.ret.text ++ " @" ++ d.name ++ "("
    ++ joined ", " (d.params.map Ty.text ++ if d.isVariadic then ["..."] else []) ++ ")"

/-- `temps` is the greatest number a temporary carries; fresh ones are numbered from there. -/
structure Program where
  decls : List Decl := []
  globals : List Global := []
  funcs : List Func := []
  temps : Nat := 0
  deriving DecidableEq

namespace Program

def decl? (p : Program) (name : String) : Option Decl := p.decls.find? (·.name == name)
def global? (p : Program) (name : String) : Option Global := p.globals.find? (·.name == name)
def func? (p : Program) (name : String) : Option Func := p.funcs.find? (·.name == name)

/-- The place of the first function of that name. -/
def funcIdx? (p : Program) (name : String) : Option Nat := p.funcs.findIdx? (·.name == name)

def funcName (p : Program) (func : Nat) : String := (p.funcs[func]?.map (·.name)).getD ""

/-- Whether a routine of that name is declared or defined. -/
def isDeclared (p : Program) (name : String) : Bool :=
  (p.decl? name).isSome || (p.func? name).isSome

def text (p : Program) : String :=
  let lines := p.decls.map Decl.text ++ p.globals.map Global.text
  String.join (lines.map (· ++ "\n")) ++ (if lines.isEmpty then "" else "\n")
    ++ joined "\n\n" (p.funcs.map Func.text) ++ "\n"

end Program
end LoopClock
