import LoopClock.Pass.Manager
import LoopClock.Source.Parse

/-! Working on a program step by step. A session holds a program, the context of the profiler and
the analyses that were saved last, of whichever function. They may be out of date. -/
namespace LoopClock

structure Session where
  program : Program
  context : Context
  saved : Option Analyses

namespace Session

def start : Session := ⟨{}, .ofModule {} 0, none⟩

/-- A loop that a step works on: made from given blocks, one of the saved ones, or one of those
the function has now. -/
inductive LoopRef where
  | made (header : Int) (blocks : List Int)
  | saved (header : Int)
  | current (header : Int)
  deriving DecidableEq, Repr

inductive FuncStep where
  | analyze
  | link (a b : Int)
  | redirect (a old new : Int)
  | retarget (block : Int) (old new : Label)
  | insert (block : Int) (pos count : Nat)
  | split (block : Int) (preds : List Int)
  | exits (l : LoopRef)
  | count (l : LoopRef)
  | dedicate (l : LoopRef)
  | time (l : LoopRef)

inductive Step where
  | parse (text : String)
  | newContext (config : Config)
  | addFunc (name : String) (ret : Ty) (params : List Temp)
  | addDecl (d : Decl)
  | clearDecls
  | addGlobal (g : Global)
  | get (name : String)
  | grow (name : String) (len : Nat)
  | prepare
  | find
  | takeSlot
  | require (slot : Nat)
  | sync
  | report (slots : Option Nat) (entry : Option String)
  | newTemp (ty : Ty)
  | run (m : Manager) (names : Option (List String))
  | onFunc (func : String) (s : FuncStep)

/-- What a step asked for and did not find. -/
inductive Part where
  | global
  | state
  | func
  | block
  | loop
  deriving DecidableEq, Repr

def Part.text : Part → String
  | global => "global"
  | state => "state"
  | func => "func"
  | block => "block"
  | loop => "loop"

inductive Reply where
  | done
  | unreadable (e : Source.ParseError)
  | failed (e : Error)
  | missing (what : Part)
  | flag (b : Bool)
  | found (decl : Option Decl) (global : Option Global) (func : Option Func)
  | slot (n : Nat)
  | temp (t : Temp)
  | ran (order : List String) (changed : Bool)
  | analyzed (func : Nat) (a : Analyses)
  | block (id : Int)
  | exits (l : Loop) (ids : List Int)

def setProgram (s : Session) (program : Program) : Session := { s with program }

def loop? (s : Session) (func : Nat) : LoopRef → Traced (Option Loop)
  | .made header blocks =>
    return if (header :: blocks).all (· ∈ s.program.ids func) then
        some ⟨0, ⟨func, header⟩, blocks.map (⟨func, ·⟩), none, [], 1⟩
      else none
  | .saved header => return s.saved.bind (·.forest.byHeader? header)
  | .current header => return (← s.program.tracedAnalyses func).forest.byHeader? header

/-- Stack slots for 1, 2, … elements, each in a fresh temporary. -/
def stackSlots (temps count : Nat) : List Instr :=
  (List.range count).map fun k =>
    .alloca (.fresh (temps + k) .i32Ptr) .i32 (.int (Int32.ofNat (k + 1)))

def withBlocks (s : Session) (func : Nat) (ids : List Int) (next : Reply × Session) :
    Reply × Session :=
  if ids.all (· ∈ s.program.ids func) then next else (.missing .block, s)

def withLoop (s : Session) (func : Nat) (l : LoopRef) (next : Loop → Traced (Reply × Session)) :
    Traced (Reply × Session) := do
  match ← s.loop? func l with
  | none => return (.missing .loop, s)
  | some l => next l

/-- A step on the function at place `func`. The loop of a step may belong to another function. -/
def stepFunc (s : Session) (func : Nat) : FuncStep → Traced (Reply × Session)
  | .analyze => do
    let a ← s.program.tracedAnalyses func
    return (.analyzed func a, { s with saved := some a })
  | .link a b =>
    return s.withBlocks func [a, b] (.done, s.setProgram (s.program.link ⟨func, a⟩ ⟨func, b⟩))
  | .redirect a old new =>
    let p := s.program.redirect ⟨func, a⟩ ⟨func, old⟩ ⟨func, new⟩
    return s.withBlocks func [a, old, new] (.done, s.setProgram p)
  | .retarget block old new =>
    let p := s.program.retarget ⟨func, block⟩ old new
    return s.withBlocks func [block] (.done, s.setProgram p)
  | .insert block pos count =>
    let slots := stackSlots s.program.temps count
    let p := s.program.update ⟨func, block⟩ (·.insertAt pos slots)
    return s.withBlocks func [block] (.done, s.setProgram { p with temps := p.temps + count })
  | .split block preds =>
    let (p, via) := s.program.splitPredecessors func ⟨func, block⟩ (preds.map (⟨func, ·⟩))
    return s.withBlocks func (block :: preds) (.block via.id, s.setProgram p)
  | .exits l => s.withLoop func l fun l =>
    return (.exits l ((s.program.exitBlocks l).map (·.id)), s)
  | .count l => s.withLoop func l fun l => do
    let (r, p, c) ← Profiler.countLoops.run l func s.program s.context
    return (.flag r.isChanged, { s with program := p, context := c })
  | .dedicate l => s.withLoop func l fun l => do
    let (p, changed) ← s.program.dedicateExits func l
    return (.flag changed, s.setProgram p)
  | .time l => s.withLoop func l fun l =>
    match s.context.instrumentation with
    | none => return (.missing .state, s)
    | some _ => do
      let (r, p, c) ← Profiler.insertTimer.run l func s.program s.context
      return (.flag r.isChanged, { s with program := p, context := c })

def withState (s : Session) (next : Instrumentation → Traced (Reply × Session)) :
    Traced (Reply × Session) :=
  match s.context.instrumentation with
  | none => return (.missing .state, s)
  | some i => next i

def setState (s : Session) (i : Option Instrumentation) : Session :=
  { s with context := { s.context with instrumentation := i } }

def step (s : Session) : Step → Traced (Reply × Session)
  | .parse text =>
    match Source.parse text with
    | .error e => return (.unreadable e, s)
    | .ok p => return (.done, { s with program := p, saved := none })
  | .newContext config => return (.done, { s with context := .ofModule config s.context.tally })
  | .addFunc name ret params =>
    let funcs := s.program.funcs ++ [.empty name ret params]
    return (.done, { s with program := { s.program with funcs } })
  | .addDecl d =>
    let decls := s.program.decls ++ [d]
    return (.done, { s with program := { s.program with decls } })
  | .clearDecls => return (.done, { s with program := { s.program with decls := [] } })
  | .addGlobal g =>
    let globals := s.program.globals ++ [g]
    return (.done, { s with program := { s.program with globals } })
  | .get name =>
    return (.found (s.program.decl? name) (s.program.global? name) (s.program.func? name), s)
  | .grow name len =>
    if (s.program.global? name).isNone then return (.missing .global, s)
    else
      let (grown, program) := s.program.growGlobal name len
      return (.flag grown, { s with program })
  | .prepare => do
    let (r, p, c) ← Profiler.insertStorage.run s.program s.context
    return (.flag r.isChanged, { s with program := p, context := c })
  | .find =>
    let i := s.program.instrumentation? s.context.config
    return (.flag i.isSome, s.setState i)
  | .takeSlot =>
    let slots := s.context.slots
    return (.slot slots, { s with context := { s.context with slots := slots + 1 } })
  | .require slot => s.withState fun i =>
    let (grew, i) := i.require slot
    return (.flag grew, s.setState (some i))
  | .sync => s.withState fun i => do
    let (grown, program) ← s.program.syncStorage i
    return (.flag grown, { s with program })
  | .report slots entry => s.withState fun i => do
    let (r, program) ← Report.insert s.program i (slots.getD s.context.slots)
      (entry.getD s.context.config.entryFn)
    return (.flag r.isChanged, { s with program })
  | .newTemp ty =>
    let temps := s.program.temps
    return (.temp (.fresh temps ty), { s with program := { s.program with temps := temps + 1 } })
  | .run m names => do
    match ← m.run names s.program s.context with
    | .error e => return (.failed e, s)
    | .ok r =>
      let s := { s with program := r.program, context := r.context }
      return (.ran r.order r.changed, s)
  | .onFunc name step =>
    match s.program.funcIdx? name with
    | none => return (.missing .func, s)
    | some func => s.stepFunc func step

end Session
end LoopClock
