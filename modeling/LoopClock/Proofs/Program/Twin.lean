import LoopClock.Proofs.Flow.Congruence
import LoopClock.Proofs.Program.Bodies
import LoopClock.Proofs.Program.Cut
import LoopClock.Proofs.Program.Phis

/-! Programs that differ in the order in which blocks list those before them, and in what stands around
the functions. A loop is split and timed in the same way in both. -/
namespace LoopClock
open Graph Program

/-- A block that knows where it leads to, but not where from it is entered. -/
def Block.onward (b : Block) : Block := { b with prev := [] }

def Func.onward (f : Func) : Func := { f with blocks := f.blocks.map Block.onward }

namespace Program

/-- The functions of a program whose blocks know where they lead to. -/
def onward (p : Program) : Program := { funcs := p.funcs.map Func.onward, temps := p.temps }

variable {p q r : Program} {v : Vertex} {i : Nat}

theorem funcs_onward (p : Program) (i : Nat) :
    p.onward.funcs[i]? = p.funcs[i]?.map Func.onward := List.getElem?_map

theorem bare?_onward (p : Program) (i : Nat) : p.onward.bare? i = p.bare? i := by
  rw [bare?, funcs_onward, Option.map_map]
  rfl

theorem ids_onward (p : Program) (i : Nat) : p.onward.ids i = p.ids i := by
  rw [ids, funcs_onward, Option.map_map, ids]
  refine congrArg (Option.getD · []) (Option.map_congr fun f _ => ?_)
  simp [Func.ids, Func.onward, Block.onward, Function.comp_def]

theorem block?_onward (p : Program) (v : Vertex) :
    p.onward.block? v = (p.block? v).map Block.onward := by
  rw [block?, funcs_onward, block?]
  cases p.funcs[v.func]? with
  | none => rfl
  | some f => exact find?_map_of_id (g := Block.onward) (fun _ => rfl) v.id

theorem succ_onward (p : Program) : p.onward.succ = p.succ := by
  funext v
  rw [succ, block?_onward, Option.map_map]
  rfl

theorem phis_onward (p : Program) : p.onward.phis = p.phis := by
  funext v
  rw [phis, block?_onward, Option.map_map]
  rfl

theorem onward_update {c : Block → Block} (hc : ∀ b, (c b).onward = c b.onward) :
    (p.update v c).onward = p.onward.update v c := by
  have hf : ∀ f : Func, (f.update v.id c).onward = f.onward.update v.id c := fun f => by
    simp only [Func.update, Func.onward, List.map_map]
    refine congrArg (fun bs => { f with blocks := bs }) (List.map_congr_left fun b _ => ?_)
    show (if b.id = v.id then c b else b).onward = if b.id = v.id then c b.onward else b.onward
    split
    · exact hc b
    · rfl
  refine congrArg (fun fs : List Func => ({ funcs := fs, temps := p.temps } : Program)) ?_
  refine List.ext_getElem? fun i => ?_
  have hupdate := funcs_update (p := p.onward) (v := v) (i := i) (c := c)
  rw [funcs_onward] at hupdate
  rw [List.getElem?_map, funcs_update]
  refine Eq.trans ?_ hupdate.symm
  split
  · rw [Option.map_map, Option.map_map]
    exact Option.map_congr fun f _ => hf f
  · rfl

/-- Where there is no function there are no loops. -/
theorem forest_of_le (hi : p.funcs.length ≤ i) : (p.flow i).forest = ⟨[], []⟩ := by
  have hids : p.ids i = [] := by
    rw [ids, List.getElem?_eq_none hi]
    rfl
  simp [Flow.forest, Flow.loopForest, Flow.loopBodies, Flow.ids, flow, hids]

theorem lt_of_mem_loops {l : Loop} (h : l ∈ (p.flow i).forest.loops) : i < p.funcs.length := by
  by_contra hi
  rw [forest_of_le (Nat.le_of_not_lt hi)] at h
  cases h

theorem Proper.hasLoop (hp : p.Proper) {l : Loop} (h : l ∈ (p.flow i).forest.loops) : p.HasLoop i l :=
  (hp.sound (lt_of_mem_loops h)).natural_of_mem_loops h

theorem text_onward (f : Func) : f.onward.text = f.text := by
  have hblocks : f.onward.blocks.map Block.text = f.blocks.map Block.text := by
    rw [Func.onward, List.map_map]
    rfl
  rw [Func.text, hblocks]
  rfl

end Program

namespace Timer
open Program

variable {p : Program} {i slot : Nat} {s : Instrumentation} {stash : Temp} {header : Vertex}
  {exits : List Vertex}

theorem onward_records : (exits.foldl (recordAt s stash slot) p).onward =
    exits.foldl (recordAt s stash slot) p.onward := by
  induction exits generalizing p with
  | nil => rfl
  | cons x xs ih =>
    have hone : (recordAt s stash slot p x).onward = recordAt s stash slot p.onward x := by
      have hu := onward_update (p := p) (v := x) (c := insertAtTop (record s stash slot p.temps))
        fun _ => rfl
      exact congrArg (fun q : Program => { q with temps := p.temps + 4 }) hu
    rw [List.foldl_cons, ih, hone, List.foldl_cons]

theorem onward_insertStash (f : Func) : (insertStash stash f).onward = insertStash stash f.onward := by
  obtain ⟨name, ret, params, total, blocks⟩ := f
  cases blocks <;> rfl

/-- A timer is placed without a look at the blocks before. -/
theorem onward_place : (place p i s slot header exits).onward = place p.onward i s slot header exits := by
  have hstash : ∀ stash : Temp, (p.funcs.modify i (insertStash stash)).map Func.onward =
      (p.funcs.map Func.onward).modify i (insertStash stash) := fun stash => by
    refine List.ext_getElem? fun j => ?_
    simp only [List.getElem?_map, List.getElem?_modify, Option.map_map, Option.map_eq_map]
    refine Option.map_congr fun f _ => ?_
    show Func.onward (if i = j then insertStash stash f else f) =
      if i = j then insertStash stash f.onward else f.onward
    split
    · exact onward_insertStash f
    · rfl
  unfold place
  rw [onward_records, onward_update (c := insertAtTop _) fun _ => rfl]
  simp only [onward, hstash]

end Timer

namespace Report

variable {s : Instrumentation} {slots : Nat}

/-- A function with its reports, seen without the blocks before. -/
theorem onward_reported (f : Func) :
    ({ f with blocks := f.blocks.map (insertInto s slots) } : Func).onward =
      { f.onward with blocks := f.onward.blocks.map (insertInto s slots) } := by
  have hblock : ∀ b : Block, (insertInto s slots b).onward = insertInto s slots b.onward := fun b => by
    rw [insertInto_eq, insertInto_eq]
    rfl
  simp only [Func.onward, List.map_map]
  exact congrArg (fun bs => { f with blocks := bs }) (List.map_congr_left fun b _ => hblock b)

theorem isEmpty_missing (f : Func) : (f.blocks.filter (isMissing s)).isEmpty =
    (f.onward.blocks.filter (isMissing s)).isEmpty := by
  rw [Func.onward, List.filter_map, List.isEmpty_map]
  rfl

end Report

namespace Program

variable {p q r : Program} {v : Vertex} {i : Nat}

/-! ## Twins -/

/-- Two proper programs with the same functions, but for what blocks know of those before them. -/
structure Twin (p q : Program) : Prop where
  left : p.Proper
  right : q.Proper
  onward : q.onward = p.onward

namespace Twin

theorem refl (hp : p.Proper) : Twin p p := ⟨hp, hp, rfl⟩

theorem trans (h : Twin p q) (k : Twin q r) : Twin p r := ⟨h.left, k.right, k.onward.trans h.onward⟩

/-- Programs with the same blocks in the same order are twins. -/
theorem of_blocks (hp : p.Proper) (hq : q.Proper) (bare : ∀ i, q.bare? i = p.bare? i)
    (ids : ∀ i, q.ids i = p.ids i)
    (block? : ∀ v, (q.block? v).map Block.onward = (p.block? v).map Block.onward)
    (temps : q.temps = p.temps) : Twin p q := by
  have hblocks : ∀ {r : Program}, r.Proper → ∀ {i : Nat} {f : Func}, r.funcs[i]? = some f →
      (f.blocks.map Block.onward).map some =
        (r.ids i).map fun j => (r.block? ⟨i, j⟩).map Block.onward := by
    intro r hr i f hf
    rw [ids_eq hf, Func.ids, List.map_map, List.map_map]
    refine List.map_congr_left fun b hb => ?_
    exact congrArg (Option.map Block.onward) (block?_of_mem (hr.nodup i) hf hb).symm
  have hfuncs : q.funcs.map Func.onward = p.funcs.map Func.onward := by
    refine List.ext_getElem? fun i => ?_
    have hbare := bare i
    rw [List.getElem?_map, List.getElem?_map]
    rw [bare?, bare?] at hbare
    cases hf : p.funcs[i]? with
    | none =>
      rw [hf, Option.map_none, Option.map_eq_none_iff] at hbare
      rw [hbare]
    | some f =>
      rw [hf, Option.map_some] at hbare
      obtain ⟨g, hg, hgf⟩ := Option.map_eq_some_iff.1 hbare
      have heq : g.blocks.map Block.onward = f.blocks.map Block.onward := by
        refine (Option.some_injective _).list_map ?_
        rw [hblocks hq hg, hblocks hp hf, ids]
        exact List.map_congr_left fun j _ => block? ⟨i, j⟩
      rw [hg]
      exact congrArg some (show { g.bare with blocks := g.blocks.map Block.onward } =
        { f.bare with blocks := f.blocks.map Block.onward } by rw [hgf, heq])
  exact ⟨hp, hq, by rw [Program.onward, hfuncs, temps, Program.onward]⟩

/-- What stands around the functions does not count. -/
theorem of_funcs (hp : p.Proper) (hf : q.funcs = p.funcs) (ht : q.temps = p.temps) : Twin p q :=
  ⟨hp, (Rebodied.of_funcs hf).proper hp, by rw [Program.onward, hf, ht, Program.onward]⟩

section
variable (T : Twin p q)
include T

theorem symm : Twin q p := ⟨T.right, T.left, T.onward.symm⟩

theorem temps : q.temps = p.temps := congrArg (·.temps) T.onward

theorem bare? (i : Nat) : q.bare? i = p.bare? i := by
  rw [← bare?_onward, T.onward, bare?_onward]

theorem ids (i : Nat) : q.ids i = p.ids i := by
  rw [← ids_onward, T.onward, ids_onward]

theorem block? (v : Vertex) : (q.block? v).map Block.onward = (p.block? v).map Block.onward := by
  rw [← block?_onward, T.onward, block?_onward]

theorem succ : q.succ = p.succ := by rw [← succ_onward, T.onward, succ_onward]

theorem phis : q.phis = p.phis := by rw [← phis_onward, T.onward, phis_onward]

theorem length : q.funcs.length = p.funcs.length := funcs_length_eq T.bare?

theorem mem_prev (v w : Vertex) : v ∈ q.prev w ↔ v ∈ p.prev w := by
  rw [T.right.mem_prev, T.left.mem_prev, Edge, Edge, T.succ]

theorem nextVertex (i : Nat) : q.nextVertex i = p.nextVertex i :=
  congrArg (fun n : Int => (⟨i, n + 1⟩ : Vertex)) (total_eq (T.bare? i))

theorem first? (i : Nat) : q.first? i = p.first? i := by
  have hhead : ∀ r : Program, r.first? i = (r.ids i).head?.map (⟨i, ·⟩) := fun r => by
    rw [Program.first?, Program.ids]
    cases r.funcs[i]? with
    | none => rfl
    | some f => simp [Func.first?, Func.ids]
  rw [hhead, T.ids, hhead]

theorem exitBlocks (l : Loop) : q.exitBlocks l = p.exitBlocks l := by
  rw [Program.exitBlocks, T.succ, Program.exitBlocks]

theorem alike (i : Nat) : (p.flow i).Alike (q.flow i) where
  layout := by simp only [flow, T.ids]
  edge v _ w := by
    show w ∈ q.succ v ↔ w ∈ p.succ v
    rw [T.succ]

theorem analyses_eq (hi : i < p.funcs.length) : (q.flow i).analyses = (p.flow i).analyses :=
  (T.alike i).analyses_eq (T.left.sound hi) (T.right.sound (T.length ▸ hi))

theorem forest_eq (i : Nat) : (q.flow i).forest = (p.flow i).forest := by
  by_cases hi : i < p.funcs.length
  · exact congrArg Analyses.forest (T.analyses_eq hi)
  · rw [forest_of_le (Nat.le_of_not_lt hi), forest_of_le (T.length ▸ Nat.le_of_not_lt hi)]

end

/-! ## Timers and reports -/

theorem place (T : Twin p q) (hi : i < p.funcs.length) (s : Instrumentation) (slot : Nat)
    (header : Vertex) (exits : List Vertex) :
    Twin (Timer.place p i s slot header exits) (Timer.place q i s slot header exits) :=
  ⟨(Timer.rebodied_place T.left hi).proper T.left,
    (Timer.rebodied_place T.right (T.length ▸ hi)).proper T.right, by
      rw [Timer.onward_place, T.onward, Timer.onward_place]⟩

section
variable (T : Twin p q)
include T

theorem func? (name : String) : (q.func? name).map Func.onward = (p.func? name).map Func.onward := by
  have hfind : ∀ r : Program, r.onward.func? name = (r.func? name).map Func.onward := fun r => by
    rw [Program.func?, Program.onward, List.find?_map]
    rfl
  rw [← hfind, T.onward, hfind]

theorem funcIdx? (name : String) : q.funcIdx? name = p.funcIdx? name := by
  have hfind : ∀ r : Program, r.onward.funcIdx? name = r.funcIdx? name := fun r => by
    rw [Program.funcIdx?, Program.onward, List.findIdx?_map]
    rfl
  rw [← hfind, T.onward, hfind]

theorem isDeclared (hd : q.decls = p.decls) (name : String) : q.isDeclared name = p.isDeclared name := by
  have hsome := congrArg Option.isSome (T.func? name)
  rw [Option.isSome_map, Option.isSome_map] at hsome
  rw [Program.isDeclared, decl?, hd, hsome, Program.isDeclared, decl?]

/-- Reports are inserted in both programs or in neither, and at the same places. -/
theorem report (hd : q.decls = p.decls) (s : Instrumentation) (slots : Nat) (entry : String) :
    (Report.insert q s slots entry).val.1 = (Report.insert p s slots entry).val.1 ∧
      Twin (Report.insert p s slots entry).val.2 (Report.insert q s slots entry).val.2 := by
  have hp : Rebodied p (Report.insert p s slots entry).val.2 := Report.reported_insert.rebodied
  have hq : Rebodied q (Report.insert q s slots entry).val.2 := Report.reported_insert.rebodied
  suffices h : (Report.insert q s slots entry).val.1 = (Report.insert p s slots entry).val.1 ∧
      (Report.insert q s slots entry).val.2.onward = (Report.insert p s slots entry).val.2.onward from
    ⟨h.1, hp.proper T.left, hq.proper T.right, h.2⟩
  have hfunc := T.func? entry
  rw [Report.insert, Report.insert, T.isDeclared hd, T.funcIdx?]
  split
  · exact ⟨rfl, T.onward⟩
  cases hi : p.funcIdx? entry with
  | none => exact ⟨rfl, T.onward⟩
  | some i =>
    cases hf : p.func? entry with
    | none =>
      rw [hf, Option.map_none, Option.map_eq_none_iff] at hfunc
      rw [hfunc]
      exact ⟨rfl, T.onward⟩
    | some f =>
      rw [hf, Option.map_some] at hfunc
      obtain ⟨g, hg, hgf⟩ := Option.map_eq_some_iff.1 hfunc
      rw [hg]
      have hfuncs : q.funcs.map Func.onward = p.funcs.map Func.onward :=
        congrArg (·.funcs) T.onward
      constructor
      · show PassResult.ofBool (!(g.blocks.filter (Report.isMissing s)).isEmpty) =
          PassResult.ofBool (!(f.blocks.filter (Report.isMissing s)).isEmpty)
        rw [Report.isEmpty_missing, Report.isEmpty_missing f, hgf]
      · show ({ funcs := (q.funcs.set i _).map Func.onward, temps := q.temps } : Program) =
          { funcs := (p.funcs.set i _).map Func.onward, temps := p.temps }
        rw [List.map_set, List.map_set, Report.onward_reported, Report.onward_reported, hgf, hfuncs,
          T.temps]

end

end Twin

/-! ## Splitting -/

variable {e n x : Vertex} {preds preds' : List Vertex} {b : Block}

theorem onward_addBlock : (p.addBlock n b e).onward = p.onward.addBlock n b.onward e := by
  have hplace : ∀ (f : Func) (before : Option Int),
      (f.place b before).onward = f.onward.place b.onward before := fun f before => by
    have hpos : (f.blocks.map Block.onward).findIdx (fun c => some c.id == before) =
        f.blocks.findIdx fun c => some c.id == before := List.findIdx_map ..
    simp only [Func.place, Func.onward, hpos, List.map_append, List.map_cons, List.map_take,
      List.map_drop]
  refine congrArg (fun fs : List Func => ({ funcs := fs, temps := p.temps } : Program)) ?_
  refine List.ext_getElem? fun j => ?_
  simp only [addBlock, List.getElem?_map, List.getElem?_modify, onward, Option.map_map,
    Option.map_eq_map]
  refine Option.map_congr fun f _ => ?_
  show Func.onward (if n.func = j then _ else f) = if n.func = j then _ else f.onward
  split
  · show ({ (f.place b _).onward with total := n.id } : Func) =
      { f.onward.place b.onward _ with total := n.id }
    rw [hplace]
  · rfl

theorem ids_update {c : Block → Block} (hc : ∀ b, (c b).id = b.id) : (p.update v c).ids i = p.ids i :=
  (revised_update hc).ids i

theorem ids_reroute (p : Program) (a : Vertex) : (reroute e n p a).ids i = p.ids i := by
  have hredirect : (p.redirect a e n).ids i = p.ids i := by
    rw [redirect]
    split
    · rw [ids_update, ids_update, ids_update] <;> exact fun _ => rfl
    · rfl
  exact Eq.trans (ids_update fun _ => rfl) hredirect

theorem ids_link (p : Program) (v w : Vertex) : (p.link v w).ids i = p.ids i := by
  rw [link]
  split
  · rfl
  · rw [ids_update, ids_update] <;> exact fun _ => rfl

/-- The layout of a split program is decided when the new block is laid out. -/
theorem ids_splitPredecessors (p : Program) (i j : Nat) (e : Vertex) (preds : List Vertex) :
    (p.splitPredecessors i e preds).1.ids j = (p.addBlock (p.nextVertex i)
      ⟨(p.nextVertex i).id, [], [], (p.splitPhis e (p.nextVertex i) preds).2.1, [],
        some (.jump e.label)⟩ e).ids j := by
  have hmove : ∀ q : Program, (preds.foldl (reroute e (p.nextVertex i)) q).ids j = q.ids j := by
    intro q
    induction preds generalizing q with
    | nil => rfl
    | cons a as ih => rw [List.foldl_cons, ih, ids_reroute]
  refine Eq.trans (ids_link _ _ _) (Eq.trans (ids_update fun _ => rfl) ?_)
  exact hmove _

theorem Twin.split (T : Twin p q) (C : Cut p e n preds) (C' : Cut q e n preds')
    (hpreds : ∀ v, v ∈ preds' ↔ v ∈ preds) :
    Twin (p.splitPredecessors e.func e preds).1 (q.splitPredecessors e.func e preds').1 := by
  have S := C.split
  have S' := C'.split
  have hphis : q.splitPhis e n preds' = p.splitPhis e n preds := by
    rw [splitPhis, T.temps, T.phis, splitPhis]
    refine Phi.rerouteAll_congr (fun l => ?_) _ _
    simp only [List.mem_map, hpreds]
  refine of_blocks (C.proper_split S) (C'.proper_split S') (fun i => ?_) (fun j => ?_) (fun v => ?_) ?_
  · rw [S'.bare, S.bare, T.bare?]
  · have hphis := C.next ▸ hphis
    rw [ids_splitPredecessors, T.nextVertex, hphis, ids_splitPredecessors, ← ids_onward,
      onward_addBlock, T.onward, ← onward_addBlock, ids_onward]
  · by_cases hv : v = n
    · rw [hv, S'.new, S.new, hphis]
      rfl
    · have hrerouted : ∀ b : Block, (rerouted e n preds' (q.splitPhis e n preds').1 v b).onward =
          (rerouted e n preds (p.splitPhis e n preds).1 v b.onward).onward := fun b => by
        simp only [rerouted, hphis, hpreds]
        rfl
      have hright : ∀ b : Block, (rerouted e n preds (p.splitPhis e n preds).1 v b).onward =
          (rerouted e n preds (p.splitPhis e n preds).1 v b.onward).onward := fun _ => rfl
      have hblock := congrArg (Option.map fun b =>
        (rerouted e n preds (p.splitPhis e n preds).1 v b).onward) (T.block? v)
      rw [Option.map_map, Option.map_map] at hblock
      rw [S'.old v hv, S.old v hv, Option.map_map, Option.map_map]
      exact ((Option.map_congr fun b _ => hrerouted b).trans hblock).trans
        (Option.map_congr fun b _ => (hright b).symm)
  · rw [S'.temps, S.temps, hphis]

end Program
end LoopClock
