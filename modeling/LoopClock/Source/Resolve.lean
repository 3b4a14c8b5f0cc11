import LoopClock.IR.Program
import LoopClock.Single.Nearest
import LoopClock.Source.Fault
import LoopClock.Source.Tree

/-! From program text to programs. Numbers get their values, blocks their neighbours, and the
first fault in reading order is reported. -/
namespace LoopClock.Source

def integer (text : String) : Except Fault Int :=
  match Numeral.int64? text.toList with
  | some i => .ok i
  | none => .error (.badInteger text)

/-- Integers of type `i64` are long; for any other type they have to fit in 32 bits. -/
def constantInt (ty : Ty) (text : String) : Except Fault Value := do
  let i ← integer text
  if ty = .i64 then return .long (Int64.ofInt i)
  else if Numeral.fits32 i then return .int (Int32.ofInt i)
  else throw (.tooWide text ty)

def value (ty : Ty) : Operand → Except Fault Value
  | .localName name => .ok (.temp ⟨name, false, ty⟩)
  | .globalName name => .ok (.temp ⟨name, true, ty⟩)
  | .float text =>
    match Single.read? text.toList with
    | some x => .ok (.float x)
    | none => .error (.badFloat text)
  | .int text => constantInt ty text

def typedValue (v : TypedOperand) : Except Fault Value := value v.1 v.2

def localTemp (name : String) (ty : Ty) : Temp := ⟨name, false, ty⟩

/-- A statement by the place it takes in its block. -/
inductive Placed where
  | phi (p : Phi)
  | body (i : Instr)
  | last (t : Terminator)

/-- The value of a typed operand is of the type written in front of it, and the result of a
statement is of the type it works on, but for comparisons, addresses and stack slots. -/
def placed : Statement → Except Fault Placed
  | .arith t op ty lhs rhs => do
    return .body (.arith (localTemp t ty) op ty (← value ty lhs) (← value ty rhs))
  | .comp t op ty lhs rhs => do
    return .body (.comp (localTemp t .i32) op ty (← value ty lhs) (← value ty rhs))
  | .phi t ty source => do
    return .phi ⟨localTemp t ty, ← source.mapM fun s => do return (← value ty s.1, s.2)⟩
  | .alloca t ty length => do return .body (.alloca (localTemp t ty.toPtr) ty (← typedValue length))
  | .load t ty addr => do return .body (.load (localTemp t ty) ty (← typedValue addr))
  | .gep t ty addr offset => do
    return .body (.gep (localTemp t addr.1) ty (← typedValue addr) (← typedValue offset))
  | .call t ty callee args => do
    let args ← args.mapM fun a => do return (a.1, ← typedValue a)
    return .body (.call (t.map (localTemp · ty)) ty callee args)
  | .store v addr => do return .body (.store (← typedValue v) (← typedValue addr))
  | .jump target => .ok (.last (.jump target))
  | .branch cond ifTrue ifFalse => do
    return .last (.branch cond.1 (← typedValue cond) ifTrue ifFalse)
  | .retVoid => .ok (.last (.ret none))
  | .ret v => do return .last (.ret (some (← typedValue v)))

def addPlaced (b : Block) : Placed → Block
  | .phi p => { b with phis := b.phis ++ [p] }
  | .body i => { b with body := b.body ++ [i] }
  | .last t => { b with jump := some t }

def addStatement (func label : String) (b : Block) (s : Statement) : Except Fault Block :=
  if b.jump.isSome then .error (.afterTerminator label func) else (addPlaced b) <$> placed s

def block (func : String) (s : Section) : Except Fault Block :=
  match s.label.id? with
  | none => .error (.badLabel s.label func)
  | some id => do
    let b ← s.statements.foldlM (addStatement func s.label) ⟨id, [], [], [], [], none⟩
    if b.jump.isSome then return b else throw (.unterminated s.label func)

def addBlock (func : String) (bs : List Block) (s : Section) : Except Fault (List Block) := do
  let b ← block func s
  if b.id ∈ bs.map (·.id) then throw (.duplicateBlock b.label func) else return bs ++ [b]

/-- Every local value that is read has to be a parameter or defined somewhere in the function. -/
def checkReads (func : String) (params : List Temp) (bs : List Block) : Except Fault Unit :=
  let defined := (params ++ bs.flatMap Block.writes).map (·.name)
  match (bs.flatMap Block.reads).find? fun t => !t.isGlobal && !defined.contains t.name with
  | some t => .error (.undefinedValue t func)
  | none => .ok ()

/-- The block that a label leads to. -/
def destination (func : String) (ids : List Int) (l : Label) : Except Fault Int :=
  match l.id? with
  | some id => if id ∈ ids then .ok id else .error (.unknownBlock l func)
  | none => .error (.unknownBlock l func)

/-- The blocks that the terminator of a block leads to. -/
def destinations (func : String) (ids : List Int) (b : Block) : Except Fault (List Int) := do
  return (← ((b.jump.map Terminator.targets).getD []).mapM (destination func ids)).eraseDups

/-- Gives each block its neighbours in function number `index`, from the blocks it leads to. -/
def linked (index : Nat) (bs : List (Block × List Int)) : List Block :=
  bs.map fun (b, leads) =>
    let entered := (bs.filter (b.id ∈ ·.2)).map (·.1.id)
    { b with prev := entered.map (⟨index, ·⟩), succ := leads.map (⟨index, ·⟩) }

def function (index : Nat) (ret : Ty) (name : String) (params : List (Ty × String))
    (sections : List Section) : Except Fault Func := do
  let params := params.map fun p => localTemp p.2 p.1
  let bs ← sections.foldlM (addBlock name) []
  let ids : List Int := bs.map (·.id)
  if ids.head? ≠ some 0 then throw (.noEntry name)
  checkReads name params bs
  let leads ← bs.mapM (destinations name ids)
  return ⟨name, ret, params, ids.foldl max 0, linked index (bs.zip leads)⟩

def word (text : String) : Except Fault UInt64 := do
  return (Int64.ofInt (← integer text)).toUInt64

def lengthOf (name text : String) : Except Fault Nat := do
  let len ← integer text
  if len < 0 then throw (.negativeLength name len) else return len.toNat

def globalOf (name : String) : Init → Except Fault Global
  | .scalar ty value => do return ⟨name, [.word (← word value)], ty.bits, false⟩
  | .zeros len ty => do return .zeroed name (← lengthOf name len) ty.bits
  | .words len ty values => do
    let len ← lengthOf name len
    let data ← values.mapM fun v => do return Global.Item.word (← word v)
    if data.length = len then return ⟨name, data, ty.bits, true⟩
    else throw (.lengthMismatch name len data.length)

def declaration (ret : Ty) (name : String) (params : List (Option Ty)) : Decl :=
  ⟨name, ret, params.filterMap id, params.contains none⟩

def addItem (p : Program) : Item → Except Fault Program
  | .declare ret name params => .ok { p with decls := p.decls ++ [declaration ret name params] }
  | .globalVar name init => do return { p with globals := p.globals ++ [← globalOf name init] }
  | .define ret name params sections => do
    let f ← function p.funcs.length ret name params sections
    if (p.func? name).isSome then throw (.duplicateFunction name)
    return { p with funcs := p.funcs ++ [f] }

/-- The greatest number among the names of the values that a program defines. -/
def highest (funcs : List Func) : Nat :=
  ((funcs.flatMap Func.writes).map Temp.number).foldl max 0

def program (items : List Item) : Except Fault Program := do
  let p ← items.foldlM addItem {}
  return { p with temps := highest p.funcs }

end LoopClock.Source
