import LoopClock.Proofs.Run.Code

/-! The blocks by which functions are left. The blocks that timing a loop adds are not among them, and what
it puts into the others stands in front of what comes last there. -/
namespace LoopClock

/-- `c` returns what `b` does and has its instructions. Unless it is a stack slot, the last one still comes
last. -/
structure Block.Closes (b c : Block) : Prop where
  id : c.id = b.id
  jump : c.jump = b.jump
  body : b.body.Sublist c.body
  last : ∀ x, b.body.getLast? = some x → x.isAlloca = false → c.body.getLast? = some x

def Func.returns (f : Func) : List Block := f.blocks.filter Block.isRet

/-- The function is left by the same blocks in the same order. -/
def Func.Closes (f g : Func) : Prop := List.Forall₂ Block.Closes f.returns g.returns

/-- All functions stay, and are left as before. -/
def Program.Closes (p q : Program) : Prop :=
  ∀ (i : Nat) (f : Func), p.funcs[i]? = some f → ∃ g, q.funcs[i]? = some g ∧ f.Closes g

variable {new : List Instr} {a b c : Block} {f g : Func}

/-! ## Bodies -/

theorem sublist_topped (new body : List Instr) : body.Sublist (topped new body) := by
  have hsplit := List.takeWhile_append_dropWhile (p := Instr.isAlloca) (l := body)
  rw [topped, List.append_assoc]
  conv => lhs; rw [← hsplit]
  exact (List.Sublist.refl _).append (List.sublist_append_right _ _)

theorem getLast?_topped {body : List Instr} {x : Instr} (h : body.getLast? = some x)
    (hx : x.isAlloca = false) : (topped new body).getLast? = some x := by
  obtain ⟨front, rfl⟩ := List.getLast?_eq_some_iff.1 h
  have hdrop : ∃ rest, (front ++ [x]).dropWhile Instr.isAlloca = rest ++ [x] := by
    induction front with
    | nil => exact ⟨[], by simp [hx]⟩
    | cons y front ih =>
      cases hy : y.isAlloca with
      | true => simpa [hy] using ih (by simp)
      | false => exact ⟨y :: front, by simp [hy]⟩
  obtain ⟨rest, hrest⟩ := hdrop
  rw [topped, hrest, ← List.append_assoc, List.getLast?_concat]

namespace Block.Closes

theorem refl (b : Block) : b.Closes b := ⟨rfl, rfl, .refl _, fun _ h _ => h⟩

theorem trans (h : a.Closes b) (k : b.Closes c) : a.Closes c where
  id := k.id.trans h.id
  jump := k.jump.trans h.jump
  body := h.body.trans k.body
  last x hx hno := k.last x (h.last x hx hno) hno

theorem insertAtTop (new : List Instr) (b : Block) : b.Closes (Timer.insertAtTop new b) := by
  rw [insertAtTop_eq]
  exact ⟨rfl, rfl, sublist_topped _ _, fun x hx hno => getLast?_topped hx hno⟩

theorem insertFirst (new : List Instr) (b : Block) : b.Closes (b.insertAt 0 new) where
  id := rfl
  jump := rfl
  body := by simp [Block.insertAt]
  last x hx _ := by simp [Block.insertAt, List.getLast?_append, hx]

end Block.Closes

/-! ## Functions -/

theorem returns_map {change : Block → Block} (hret : ∀ b, (change b).isRet = b.isRet)
    (h : ∀ b : Block, b.isRet = true → b.Closes (change b)) (bs : List Block) :
    List.Forall₂ Block.Closes (bs.filter Block.isRet) ((bs.map change).filter Block.isRet) := by
  induction bs with
  | nil => exact .nil
  | cons b bs ih =>
    cases hb : b.isRet with
    | true => simpa [hb, hret] using And.intro (h b hb) ih
    | false => simpa [hb, hret] using ih

namespace Func.Closes

theorem refl (f : Func) : f.Closes f := List.forall₂_same.2 fun b _ => .refl b

theorem trans {h : Func} (hfg : f.Closes g) (hgh : g.Closes h) : f.Closes h := by
  unfold Func.Closes at *
  generalize f.returns = as, g.returns = bs, h.returns = cs at *
  induction hfg generalizing cs with
  | nil => exact hgh
  | cons hab _ ih =>
    cases hgh with
    | cons hbc hrest => exact .cons (hab.trans hbc) (ih _ hrest)

theorem update {change : Block → Block} (hret : ∀ b, (change b).isRet = b.isRet)
    (h : ∀ b : Block, b.isRet = true → b.Closes (change b)) (f : Func) (id : Int) :
    f.Closes (f.update id change) := by
  apply returns_map
  · intro b
    split
    · exact hret b
    · rfl
  · intro b hb
    split
    · exact h b hb
    · exact .refl b

theorem place (hb : b.isRet = false) (f : Func) (before : Option Int) (total : Int) :
    f.Closes { f.place b before with total } := by
  have hsame : Func.returns { f.place b before with total } = f.returns := by
    unfold Func.returns Func.place
    rw [List.filter_append, List.filter_cons_of_neg (by simp [hb]), ← List.filter_append,
      List.take_append_drop]
  rw [Func.Closes, hsame]
  exact refl f

theorem insertStash (stash : Temp) (f : Func) : f.Closes (Timer.insertStash stash f) := by
  unfold Timer.insertStash
  split
  · exact refl f
  · next entry rest hblocks =>
    have hrest : List.Forall₂ Block.Closes (rest.filter Block.isRet) (rest.filter Block.isRet) :=
      List.forall₂_same.2 fun b _ => .refl b
    have hentry := Block.Closes.insertFirst [.alloca stash .i64 (.int 1)] entry
    unfold Func.Closes Func.returns
    rw [hblocks]
    cases hret : entry.isRet with
    | true =>
      rw [List.filter_cons_of_pos hret, List.filter_cons_of_pos (by exact hret)]
      exact .cons hentry hrest
    | false =>
      rw [List.filter_cons_of_neg (by simp [hret]), List.filter_cons_of_neg]
      · exact hrest
      · show ¬ entry.isRet = true
        simp [hret]

end Func.Closes

/-! ## Programs -/

theorem Terminator.isRet_retarget (old new : Label) (t : Terminator) :
    (t.retarget old new).isRet = t.isRet := by
  cases t <;> rfl

theorem Terminator.retarget_of_isRet {t : Terminator} (h : t.isRet = true) (old new : Label) :
    t.retarget old new = t := by
  cases t with
  | ret => rfl
  | jump | branch => cases h

namespace Program.Closes

variable {p q r : Program} {change : Block → Block}

theorem refl (p : Program) : p.Closes p := fun _ f hf => ⟨f, hf, .refl f⟩

theorem trans (h : p.Closes q) (k : q.Closes r) : p.Closes r := by
  intro i f hf
  obtain ⟨g, hg, hfg⟩ := h i f hf
  obtain ⟨g', hg', hgg⟩ := k i g hg
  exact ⟨g', hg', hfg.trans hgg⟩

theorem of_funcs (h : q.funcs = p.funcs) : p.Closes q := fun _ f hf => ⟨f, h ▸ hf, .refl f⟩

theorem modify {change : Func → Func} (h : ∀ f : Func, f.Closes (change f)) (p : Program) (func : Nat) :
    p.Closes { p with funcs := p.funcs.modify func change } := by
  intro i f hf
  by_cases hi : func = i
  · exact ⟨change f, by simp [hi, hf], h f⟩
  · exact ⟨f, by simp [hi, hf], .refl f⟩

theorem update (hret : ∀ b, (change b).isRet = b.isRet)
    (h : ∀ b : Block, b.isRet = true → b.Closes (change b)) (p : Program) (v : Vertex) :
    p.Closes (p.update v change) :=
  modify (fun f => .update hret h f v.id) p v.func

/-- Edges and phis play no part. -/
theorem rewire (h : ∀ b, (change b).id = b.id ∧ (change b).body = b.body ∧ (change b).jump = b.jump)
    (p : Program) (v : Vertex) : p.Closes (p.update v change) := by
  apply Closes.update
  · intro b
    rw [Block.isRet, (h b).2.2, Block.isRet]
  · intro b _
    obtain ⟨hid, hbody, hjump⟩ := h b
    exact ⟨hid, hjump, by rw [hbody], fun x hx _ => by rwa [hbody]⟩

/-- A return leads nowhere. -/
theorem retarget (p : Program) (v : Vertex) (old new : Label) : p.Closes (p.retarget v old new) := by
  apply Closes.update
  · intro b
    cases hb : b.jump with
    | none => simp [Block.isRet, hb]
    | some t => simp [Block.isRet, hb, Terminator.isRet_retarget]
  · intro b hb
    have hjump : b.jump.map (Terminator.retarget old new) = b.jump := by
      unfold Block.isRet at hb
      cases ht : b.jump with
      | none => rfl
      | some t =>
        rw [ht] at hb
        exact congrArg some (Terminator.retarget_of_isRet hb old new)
    exact ⟨rfl, hjump, .refl _, fun x hx _ => hx⟩

theorem addBlock (hb : b.isRet = false) (p : Program) (v target : Vertex) :
    p.Closes (p.addBlock v b target) :=
  Closes.modify (fun f => Func.Closes.place hb f _ _) p v.func

theorem persists : Persists Closes where
  refl := refl
  trans := trans
  rewire p v _ h := rewire h p v
  retarget p v _ _ := retarget p v _ _
  addBlock p v before b l _ hjump := addBlock (by rw [Block.isRet, hjump]; rfl) p v before
  temps _ _ := of_funcs rfl

end Program.Closes

/-! ## Timers -/

namespace Timer

theorem closes_insertAtTop (new : List Instr) (p : Program) (v : Vertex) :
    p.Closes (p.update v (insertAtTop new)) := by
  apply Program.Closes.update
  · exact fun _ => rfl
  · exact fun b _ => .insertAtTop new b

theorem closes_place (p : Program) (func : Nat) (u : Instrumentation) (slot : Nat) (header : Vertex)
    (exits : List Vertex) : p.Closes (place p func u slot header exits) := by
  have hstash : p.Closes { p with
      funcs := p.funcs.modify func (insertStash (Temp.fresh p.temps .i64Ptr)), temps := p.temps + 2 } :=
    (Program.Closes.modify (Func.Closes.insertStash _) p func).trans (.of_funcs rfl)
  have hrecord : ∀ (q : Program) (x : Vertex),
      q.Closes (recordAt u (Temp.fresh p.temps .i64Ptr) slot q x) := fun q x =>
    (closes_insertAtTop _ q x).trans (.of_funcs rfl)
  exact (hstash.trans (closes_insertAtTop _ _ header)).trans (Program.Closes.persists.foldl hrecord _ exits)

theorem closes_time (l : Loop) (func : Nat) (t : TimerState) :
    t.program.Closes (time l func t).val.2.program := by
  by_cases he : t.program.exitBlocks l = []
  · rw [(time_of_no_exits l func t he).1]
    exact .refl _
  · rw [val_time_of_exits l func t he]
    exact (Program.Closes.persists.dedicateExits _ func l).trans (closes_place _ _ _ _ _ _)

end Timer

end LoopClock
