import LoopClock.Proofs.Run.Again

/-! The code of a program as one list of instructions, and what the units put into it. Nothing is asked of
the program: the lists of a timer are put in wherever a block has the id of the vertex. -/
namespace LoopClock

namespace Woven

variable {new : Instr → Prop} {as bs cs ds : List Instr}

theorem mono {old : Instr → Prop} (h : ∀ x, old x → new x) (k : Woven old as bs) : Woven new as bs := by
  induction k with
  | nil => exact .nil
  | keep x _ ih => exact .keep x ih
  | add x hx _ ih => exact .add x (h x hx) ih

theorem concat (h : Woven new as bs) (k : Woven new cs ds) : Woven new (as ++ cs) (bs ++ ds) := by
  induction h with
  | nil => exact k
  | keep x _ ih => exact .keep x ih
  | add x hx _ ih => exact .add x hx ih

theorem flatMap {α : Type} {f g : α → List Instr} (h : ∀ a, Woven new (f a) (g a)) (xs : List α) :
    Woven new (xs.flatMap f) (xs.flatMap g) := by
  induction xs with
  | nil => exact .nil
  | cons x xs ih => exact (h x).concat ih

theorem modify {α : Type} {f : α → List Instr} {g : α → α} (h : ∀ a, Woven new (f a) (f (g a)))
    (xs : List α) (i : Nat) : Woven new (xs.flatMap f) ((xs.modify i g).flatMap f) := by
  induction xs generalizing i with
  | nil => rw [List.modify_nil]; exact .nil
  | cons x xs ih =>
    cases i with
    | zero => exact (h x).concat (.refl _)
    | succ i => exact .append_left _ (ih i)

theorem insertAt (h : ∀ x ∈ bs, new x) (b : Block) (pos : Nat) :
    Woven new b.body (b.insertAt pos bs).body := by
  have hbody := List.take_append_drop pos b.body
  rw [Block.insertAt, List.append_assoc]
  conv => lhs; rw [← hbody]
  exact .append_left _ (.prepend h (.refl _))

end Woven

def Func.code (f : Func) : List Instr := f.blocks.flatMap (·.body)

namespace Program

/-- The ordinary instructions of all functions in layout order. -/
def code (p : Program) : List Instr := p.funcs.flatMap Func.code

/-- `q` is `p` with other blocks and edges, with instructions of which `new` holds put in between. -/
structure Weaves (new : Instr → Prop) (p q : Program) : Prop extends Inside p q where
  names : q.funcs.map (·.name) = p.funcs.map (·.name)
  ids : ∀ i, p.ids i ⊆ q.ids i
  code : Woven new p.code q.code

variable {new : Instr → Prop} {p q r : Program} {v target : Vertex} {func n : Nat} {l : Loop}

namespace Weaves

theorem refl : Weaves new p p := ⟨.refl, rfl, fun _ => List.Subset.refl _, .refl _⟩

theorem trans (h : Weaves new p q) (k : Weaves new q r) : Weaves new p r :=
  ⟨h.toInside.trans k.toInside, k.names.trans h.names, fun i => List.Subset.trans (h.ids i) (k.ids i),
    h.code.trans k.code⟩

theorem temps : Weaves new p { p with temps := n } :=
  ⟨⟨rfl, rfl⟩, rfl, fun _ => List.Subset.refl _, .refl _⟩

theorem modify {g : Func → Func} (hname : ∀ f, (g f).name = f.name) (hids : ∀ f, f.ids ⊆ (g f).ids)
    (hcode : ∀ f : Func, Woven new f.code (g f).code) :
    Weaves new p { p with funcs := p.funcs.modify func g } := by
  refine ⟨⟨rfl, rfl⟩, List.ext_getElem? fun j => ?_, subset_ids_modify hids func, .modify hcode _ _⟩
  rw [List.getElem?_map, List.getElem?_map, List.getElem?_modify]
  cases p.funcs[j]? with
  | none => rfl
  | some f => by_cases hj : func = j <;> simp [hj, hname]

theorem update {change : Block → Block} (hid : ∀ b, (change b).id = b.id)
    (h : ∀ b, Woven new b.body (change b).body) : Weaves new p (p.update v change) := by
  refine modify (fun _ => rfl) (fun f => (f.ids_update hid) ▸ List.Subset.refl _) fun f => ?_
  rw [Func.code, Func.code, Func.update, List.flatMap_map]
  refine .flatMap (fun b => ?_) _
  split
  · exact h b
  · exact .refl _

/-- Changes of edges, phis and terminators put nothing in. -/
theorem rewire {change : Block → Block} (hid : ∀ b, (change b).id = b.id)
    (h : ∀ b, (change b).body = b.body) : Weaves new p (p.update v change) :=
  update hid fun b => by rw [h]; exact .refl _

theorem addBlock {b : Block} (h : b.body = []) : Weaves new p (p.addBlock v b target) := by
  refine modify (fun _ => rfl) (fun f => ?_) fun f => ?_
  · have hperm := (f.perm_place b (if target.func = v.func then some target.id else none)).map (·.id)
    exact List.Subset.trans (List.subset_cons_self _ _) hperm.symm.subset
  · simp only [Func.code, Func.place]
    generalize max _ 1 = pos
    have hblocks := List.take_append_drop pos f.blocks
    conv => lhs; rw [← hblocks]
    rw [List.flatMap_append, List.flatMap_append, List.flatMap_cons, h]
    exact .refl _

theorem persists : Persists (Weaves new) where
  refl _ := refl
  trans := trans
  rewire _ _ _ h := rewire (fun b => (h b).1) fun b => (h b).2.1
  retarget _ _ _ _ := rewire (fun _ => rfl) fun _ => rfl
  addBlock _ _ _ _ _ h _ := addBlock h
  temps _ _ := temps

theorem dedicateExits : Weaves new p (p.dedicateExits func l).val.1 := persists.dedicateExits p func l

end Weaves

end Program

/-! ## Instrumentation -/

/-- The instruction calls a routine of the instrumentation if it calls any, and the global that it uses, if
any, is the storage. -/
def Instrumentation.Names (u : Instrumentation) (x : Instr) : Prop :=
  (∀ f, x.callee? = some f → f = u.reportFn ∨ f = u.clockFn) ∧
    ∀ t ∈ x.reads, t.isGlobal = true → t = u.storage

namespace Timer

variable {p : Program} {func slot : Nat} {u : Instrumentation} {header v : Vertex} {exits : List Vertex}
  {stash clock : Temp}

theorem weaves_insertAtTop {instrs : List Instr} (h : ∀ x ∈ instrs, u.Names x) :
    p.Weaves u.Names (p.update v (insertAtTop instrs)) := .update (fun _ => rfl) fun b => .insertAt h b _

theorem forall_names_putBy (hstash : stash.isGlobal = false) (hclock : clock.isGlobal = false) :
    ∀ x ∈ putBy u stash clock, u.Names x := by
  simp [putBy, sampleClock, Instrumentation.Names, Instr.callee?, Instr.reads, LoopClock.temps, Value.temp?,
    hstash, hclock]

theorem forall_names_record (hstash : stash.isGlobal = false) (k : Nat) :
    ∀ x ∈ record u stash slot k, u.Names x := by
  simp [record, sampleClock, Instrumentation.Names, Instr.callee?, Instr.reads, LoopClock.temps, Value.temp?,
    Temp.fresh, hstash]

theorem ids_insertStash (f : Func) : (insertStash stash f).ids = f.ids := by
  rw [insertStash]
  split
  · rfl
  · next h => rw [Func.ids, Func.ids, h]; rfl

theorem weaves_place : p.Weaves u.Names (place p func u slot header exits) := by
  have hstash : p.Weaves u.Names { p with
      funcs := p.funcs.modify func (insertStash (Temp.fresh p.temps .i64Ptr)), temps := p.temps + 2 } := by
    refine .trans (.modify (fun f => ?_) (fun f => ids_insertStash f ▸ List.Subset.refl _) fun f => ?_) .temps
    · rw [insertStash]
      split <;> rfl
    · rw [insertStash]
      split
      · exact .refl _
      · next hblocks =>
        rw [Func.code, Func.code, hblocks]
        refine (Woven.insertAt ?_ _ 0).concat (.refl _)
        simp [Instrumentation.Names, Instr.callee?, Instr.reads, LoopClock.temps, Value.temp?]
  have hsample : ∀ {q : Program}, q.Weaves u.Names (q.update header
      (insertAtTop (putBy u (Temp.fresh p.temps .i64Ptr) (Temp.fresh (p.temps + 1) .i64)))) :=
    weaves_insertAtTop (forall_names_putBy rfl rfl)
  have hrecord : ∀ {q : Program}, q.Weaves u.Names
      (exits.foldl (recordAt u (Temp.fresh p.temps .i64Ptr) slot) q) :=
    Program.Weaves.persists.foldl
      (fun _ _ => (weaves_insertAtTop (forall_names_record rfl _)).trans .temps) _ exits
  exact (hstash.trans hsample).trans hrecord

/-- Timing a loop puts in instructions that keep to the instrumentation. -/
theorem weaves_time (l : Loop) (func : Nat) (t : TimerState) :
    t.program.Weaves t.instrumentation.Names (time l func t).val.2.program := by
  by_cases he : t.program.exitBlocks l = []
  · rw [(time_of_no_exits l func t he).1]
    exact .refl
  · rw [val_time_of_exits l func t he]
    have hnames : (t.instrumentation.require t.slots).2.Names = t.instrumentation.Names := by
      rw [Instrumentation.require]
      split <;> rfl
    have hplace := @weaves_place (t.program.dedicateExits func l).val.1 func t.slots
      (t.instrumentation.require t.slots).2 l.header ((t.program.dedicateExits func l).val.1.exitBlocks l)
    rw [hnames] at hplace
    exact Program.Weaves.dedicateExits.trans hplace

/-- Timing a loop at most makes the storage longer. -/
theorem exists_len_time (l : Loop) (func : Nat) (t : TimerState) :
    ∃ len, (time l func t).val.2.instrumentation = { t.instrumentation with len } := by
  by_cases he : t.program.exitBlocks l = []
  · exact ⟨_, by rw [(time_of_no_exits l func t he).1]⟩
  · rw [val_time_of_exits l func t he, Instrumentation.require]
    split
    exacts [⟨_, rfl⟩, ⟨_, rfl⟩]

end Timer

theorem Report.ids_insertInto {u : Instrumentation} {slots : Nat} (f : Func) :
    Func.ids { f with blocks := f.blocks.map (insertInto u slots) } = f.ids := Func.ids_map fun b _ => by
  rw [insertInto]
  split <;> rfl

/-- A report keeps to the instrumentation too. -/
theorem Report.weaves_insert {p : Program} {u : Instrumentation} {slots : Nat} {entry : String} :
    p.Weaves u.Names (insert p u slots entry).val.2 := by
  rcases insert_cases p u slots entry with h | ⟨i, f, -, h⟩
  · rw [h]
    exact .refl
  · rw [h]
    refine .modify (fun _ => rfl) (fun f => ids_insertInto f ▸ List.Subset.refl _) fun f => ?_
    rw [Func.code, Func.code, List.flatMap_map]
    refine .flatMap (fun b => ?_) _
    rw [insertInto]
    split
    · refine .append fun x hx => ?_
      obtain rfl := List.mem_singleton.1 hx
      simp [call, Instrumentation.Names, Instr.callee?, Instr.reads, LoopClock.temps, Value.temp?]
    · exact .refl _

end LoopClock
