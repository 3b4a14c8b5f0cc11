import LoopClock.Flow.Split
import Mathlib.Data.List.Nodup
import Mathlib.Tactic.ByContra

/-! A program seen block by block. What an operation does to a program is said by what becomes of the
block at each vertex; functions and layouts stay as they are unless something is said about them. -/
namespace LoopClock

attribute [ext] Vertex

/-- A function without its blocks. -/
def Func.bare (f : Func) : Func := { f with blocks := [] }

/-- What the callers of a function know of it. -/
def Func.signature (f : Func) : String × Ty × List Temp := (f.name, f.ret, f.params)

theorem Func.ids_map {f : Func} {change : Block → Block} (h : ∀ b ∈ f.blocks, (change b).id = b.id) :
    ids { f with blocks := f.blocks.map change } = f.ids := by
  rw [ids, ids, List.map_map]
  exact List.map_congr_left h

/-- A new block is put between the old ones. -/
theorem Func.perm_place (f : Func) (b : Block) (before : Option Int) :
    (f.place b before).blocks.Perm (b :: f.blocks) := by
  simp only [place]
  refine List.perm_middle.trans (.of_eq ?_)
  rw [List.take_append_drop]

theorem Func.ids_update (f : Func) {id : Int} {change : Block → Block} (h : ∀ b, (change b).id = b.id) :
    (f.update id change).ids = f.ids := ids_map fun b _ => by
  split
  · exact h b
  · rfl

namespace Program

variable {p q r : Program} {v w : Vertex} {b : Block} {i : Nat}

def bare? (p : Program) (i : Nat) : Option Func := p.funcs[i]?.map Func.bare

def phis (p : Program) (v : Vertex) : List Phi := ((p.block? v).map (·.phis)).getD []

def body (p : Program) (v : Vertex) : List Instr := ((p.block? v).map (·.body)).getD []

def jump (p : Program) (v : Vertex) : Option Terminator := (p.block? v).bind (·.jump)

/-- The greatest id in use in a function. -/
def total (p : Program) (i : Nat) : Int := (p.funcs[i]?.map (·.total)).getD 0

theorem id_of_block? (h : p.block? v = some b) : b.id = v.id := by
  obtain ⟨f, _, hf⟩ := Option.bind_eq_some_iff.1 h
  simpa using List.find?_some hf

theorem mem_blocks_of_block? (h : p.block? v = some b) :
    ∃ f, p.funcs[v.func]? = some f ∧ b ∈ f.blocks := by
  obtain ⟨f, hp, hf⟩ := Option.bind_eq_some_iff.1 h
  exact ⟨f, hp, List.mem_of_find?_eq_some hf⟩

theorem ids_eq {f : Func} (h : p.funcs[i]? = some f) : p.ids i = f.ids := by
  simp [ids, h]

theorem subset_ids_modify {g : Func → Func} (h : ∀ f, f.ids ⊆ (g f).ids) (func i : Nat) :
    p.ids i ⊆ ids { p with funcs := p.funcs.modify func g } i := by
  rw [ids, ids, List.getElem?_modify]
  cases p.funcs[i]? with
  | none => exact List.Subset.refl _
  | some f =>
    by_cases hi : func = i
    · simpa [hi] using h f
    · simp [hi]

theorem exists_block? (h : v.id ∈ p.ids v.func) : ∃ b, p.block? v = some b := by
  rw [ids] at h
  cases hf : p.funcs[v.func]? with
  | none => simp [hf] at h
  | some f =>
    rw [hf] at h
    obtain ⟨b, hb, hid⟩ := List.mem_map.1 h
    rw [block?, hf, Option.bind_some, Func.block?, ← Option.isSome_iff_exists, List.find?_isSome]
    exact ⟨b, hb, by simpa using hid⟩

theorem mem_ids_of_block? (h : p.block? v = some b) : v.id ∈ p.ids v.func := by
  obtain ⟨f, hf, hb⟩ := mem_blocks_of_block? h
  rw [ids_eq hf, ← id_of_block? h]
  exact List.mem_map_of_mem hb

theorem block?_eq_none (h : v.id ∉ p.ids v.func) : p.block? v = none := by
  cases hb : p.block? v with
  | none => rfl
  | some b => exact absurd (mem_ids_of_block? hb) h

/-- Ids being distinct, each block is found under its id. -/
theorem block?_of_mem {f : Func} (hn : (p.ids i).Nodup) (hf : p.funcs[i]? = some f)
    (hb : b ∈ f.blocks) : p.block? ⟨i, b.id⟩ = some b := by
  obtain ⟨c, hc⟩ := exists_block? (p := p) (v := ⟨i, b.id⟩)
    (by rw [ids_eq hf]; exact List.mem_map_of_mem hb)
  obtain ⟨f', hf', hcb⟩ := mem_blocks_of_block? hc
  obtain rfl := Option.some.inj (hf.symm.trans hf')
  rw [ids_eq hf] at hn
  rw [hc, List.inj_on_of_nodup_map hn hcb hb (id_of_block? hc)]

theorem lt_of_mem_ids {j : Int} (h : j ∈ p.ids i) : i < p.funcs.length := by
  by_contra hi
  simp [ids, List.getElem?_eq_none (Nat.le_of_not_lt hi)] at h

theorem mem_ids_of_mem_succ (h : w ∈ p.succ v) : v.id ∈ p.ids v.func := by
  cases hb : p.block? v with
  | none => simp [succ, hb] at h
  | some b => exact mem_ids_of_block? hb

theorem mem_ids_of_mem_prev (h : w ∈ p.prev v) : v.id ∈ p.ids v.func := by
  cases hb : p.block? v with
  | none => simp [prev, hb] at h
  | some b => exact mem_ids_of_block? hb

theorem total_eq (h : q.bare? i = p.bare? i) : q.total i = p.total i := by
  have h := congrArg (Option.map (·.total)) h
  simp only [bare?, Option.map_map] at h
  exact congrArg (Option.getD · 0) h

def signatures (p : Program) : List (String × Ty × List Temp) := p.funcs.map Func.signature

theorem signatures_get? (p : Program) (i : Nat) :
    p.signatures[i]? = (p.bare? i).map Func.signature := by
  rw [signatures, List.getElem?_map, bare?, Option.map_map]
  rfl

theorem name?_of_signatures (h : q.signatures = p.signatures) (i : Nat) :
    q.funcs[i]?.map (·.name) = p.funcs[i]?.map (·.name) := by
  have h := congrArg (fun s => s[i]?.map (·.1)) h
  simp only [signatures, List.getElem?_map, Option.map_map] at h
  exact h

theorem length_of_signatures (h : q.signatures = p.signatures) :
    q.funcs.length = p.funcs.length := by
  simpa only [signatures, List.length_map] using congrArg List.length h

theorem signatures_eq (h : ∀ i, q.bare? i = p.bare? i) : q.signatures = p.signatures :=
  List.ext_getElem? fun i => by rw [signatures_get?, signatures_get?, h]

theorem funcs_length_eq (h : ∀ i, q.bare? i = p.bare? i) : q.funcs.length = p.funcs.length :=
  length_of_signatures (signatures_eq h)

/-! ## Changing blocks in their places -/

/-- `q` is `p` with the block at each vertex changed by `g`. -/
structure Revised (g : Vertex → Block → Block) (p q : Program) : Prop where
  bare : ∀ i, q.bare? i = p.bare? i
  ids : ∀ i, q.ids i = p.ids i
  block? : ∀ v, q.block? v = (p.block? v).map (g v)

theorem Revised.refl : Revised (fun _ b => b) p p :=
  ⟨fun _ => rfl, fun _ => rfl, fun v => by simp⟩

theorem Revised.trans {g h : Vertex → Block → Block} (hpq : Revised g p q) (hqr : Revised h q r) :
    Revised (fun v b => h v (g v b)) p r := by
  refine ⟨fun i => (hqr.bare i).trans (hpq.bare i), fun i => (hqr.ids i).trans (hpq.ids i), ?_⟩
  intro v
  rw [hqr.block?, hpq.block?, Option.map_map]
  rfl

theorem Revised.congr {g h : Vertex → Block → Block} (hpq : Revised g p q)
    (hgh : ∀ v b, p.block? v = some b → g v b = h v b) : Revised h p q := by
  refine ⟨hpq.bare, hpq.ids, fun v => ?_⟩
  rw [hpq.block?]
  cases hb : p.block? v with
  | none => rfl
  | some b => simp [hgh v b hb]

/-- The program keeps its functions when other parts of it change. -/
theorem Revised.of_funcs (h : q.funcs = p.funcs) : Revised (fun _ b => b) p q := by
  refine ⟨fun i => ?_, fun i => ?_, fun v => ?_⟩
  · simp [bare?, h]
  · simp [Program.ids, h]
  · simp [Program.block?, h]

theorem find?_map_of_id {bs : List Block} {g : Block → Block} (hg : ∀ b, (g b).id = b.id) (j : Int) :
    (bs.map g).find? (·.id == j) = (bs.find? (·.id == j)).map g := by
  rw [List.find?_map]
  simp [Function.comp_def, hg]

theorem funcs_update {c : Block → Block} : (p.update v c).funcs[i]? =
    if i = v.func then p.funcs[i]?.map (·.update v.id c) else p.funcs[i]? := by
  simp only [update, List.getElem?_modify]
  by_cases h : v.func = i
  · simp [h]
  · simp [h, Ne.symm h]

theorem revised_update {c : Block → Block} (hc : ∀ b, (c b).id = b.id) :
    Revised (fun w b => if w = v then c b else b) p (p.update v c) := by
  have hid : ∀ b : Block, (if b.id = v.id then c b else b).id = b.id := fun b => by
    split
    · exact hc b
    · rfl
  refine ⟨fun i => ?_, fun i => ?_, fun w => ?_⟩
  · rw [bare?, funcs_update, bare?]
    split
    · rw [Option.map_map]
      rfl
    · rfl
  · rw [Program.ids, funcs_update, Program.ids]
    split
    · rw [Option.map_map]
      refine congrArg (Option.getD · []) (Option.map_congr fun f _ => ?_)
      simp [Func.ids, Func.update, hid]
    · rfl
  · rw [Program.block?, funcs_update, Program.block?]
    by_cases hw : w.func = v.func
    · cases hf : p.funcs[w.func]? with
      | none => simp [hw]
      | some f =>
        simp only [hw, if_true, Option.map_some, Option.bind_some, Func.block?, Func.update,
          find?_map_of_id hid]
        refine Option.map_congr fun b hb => ?_
        have hbw : b.id = w.id := by simpa using List.find?_some hb
        have hwv : w = v ↔ b.id = v.id := by
          rw [hbw]
          exact ⟨fun h => h ▸ rfl, fun h => by cases w; cases v; simp_all⟩
        simp [hwv]
    · have hwv : w ≠ v := fun h => hw (h ▸ rfl)
      simp [hw, hwv]

theorem block?_update {c : Block → Block} (hc : ∀ b, (c b).id = b.id) :
    (p.update v c).block? w = if w = v then (p.block? w).map c else p.block? w := by
  rw [(revised_update hc).block?]
  split <;> simp

namespace Revised

variable {g : Vertex → Block → Block} (h : Revised g p q)
include h

theorem succ (hg : ∀ v b, (g v b).succ = b.succ) : q.succ = p.succ := by
  funext v
  simp [Program.succ, h.block?, Option.map_map, Function.comp_def, hg]

theorem prev (hg : ∀ v b, (g v b).prev = b.prev) : q.prev = p.prev := by
  funext v
  simp [Program.prev, h.block?, Option.map_map, Function.comp_def, hg]

theorem phis (hg : ∀ v b, (g v b).phis = b.phis) : q.phis = p.phis := by
  funext v
  simp [Program.phis, h.block?, Option.map_map, Function.comp_def, hg]

theorem jump (hg : ∀ v b, (g v b).jump = b.jump) : q.jump = p.jump := by
  funext v
  cases hb : p.block? v <;> simp [Program.jump, h.block?, hb, hg]

theorem body (hg : ∀ v b, (g v b).body = b.body) : q.body = p.body := by
  funext v
  simp [Program.body, h.block?, Option.map_map, Function.comp_def, hg]

end Revised

/-! ## The exits of a loop, one after the other -/

section
variable {func : Nat} {l : Loop}

/-- An exit is left alone, or the edges from the loop are moved and that is told. -/
theorem dedicateExit_cases (func : Nat) (l : Loop) (s : Program × Bool) (x : Vertex) :
    (dedicateExit func l s x).val = s ∨ (dedicateExit func l s x).val =
      ((s.1.splitPredecessors func x ((s.1.prev x).partition (l.holds ·.id)).1).1, true) := by
  simp only [dedicateExit]
  split
  · exact .inl rfl
  · exact .inr rfl

theorem dedicateExits_induction {I : Program × Bool → Prop} (start : I (p, false))
    (step : ∀ s x, I s → I (dedicateExit func l s x).val) : I (p.dedicateExits func l).val := by
  have hfold : ∀ (xs : List Vertex) s, I s → I (xs.foldlM (dedicateExit func l) s).val := by
    intro xs
    induction xs with
    | nil => exact fun s h => h
    | cons x xs ih =>
      intro s h
      rw [List.foldlM_cons, Traced.val_bind]
      exact ih _ (step s x h)
  exact hfold (p.exitBlocks l) (p, false) start

end

end Program
end LoopClock
