import LoopClock.Proofs.Program.Targets
import LoopClock.Proofs.Run.Steps
import LoopClock.Proofs.Source.Wellformed

/-! Edges stand twice in a program, in the flow graph and in the terminators. Moving an edge changes the graph
by the number of the target, and the terminator by the usual spelling of its label. A label in another
spelling stays behind. -/
namespace LoopClock
open Graph Program

variable {c : Config} {p₀ p q : Program} {u v w e n : Vertex} {preds : List Vertex} {i j : Nat}
  {dest : Int → Int} {l : Label} {t : Terminator}

/-! ## Labels -/

/-- Where `l` is the usual spelling for a block, the label of the block that this one has become. -/
def Label.follow (dest : Int → Int) (l : Label) : Label :=
  match l.id? with
  | some j => if l = Label.ofId j then Label.ofId (dest j) else l
  | none => l

namespace Label

theorem follow_ofId {j : Int} (hj : (ofId j).id? = some j) :
    (ofId j).follow dest = ofId (dest j) := by
  rw [follow, hj]
  exact if_pos rfl

theorem follow_of_ne (h : ∀ j, l.id? = some j → l ≠ ofId j) : l.follow dest = l := by
  unfold follow
  split
  · next j hj => exact if_neg (h j hj)
  · rfl

theorem follow_id (l : Label) : l.follow (fun j => j) = l := by
  unfold follow
  split
  · split
    · next h => exact h.symm
    · rfl
  · rfl

/-- A label is in its usual spelling or it is none that following changes. -/
theorem usual_or (l : Label) :
    (∃ j, l = ofId j ∧ (ofId j).id? = some j) ∨ ∀ j, l.id? = some j → l ≠ ofId j := by
  by_cases h : ∃ j, l = ofId j ∧ (ofId j).id? = some j
  · exact .inl h
  · exact .inr fun j hj hl => h ⟨j, hl, hl ▸ hj⟩

/-- Replacing one label is following one more move. -/
theorem follow_replace {a b : Int} (ha : (ofId a).id? = some a) (l : Label) :
    (if l.follow dest = ofId a then ofId b else l.follow dest) =
      l.follow fun j => if dest j = a then b else dest j := by
  rcases usual_or l with ⟨j, rfl, hj⟩ | hno
  · rw [follow_ofId hj, follow_ofId hj]
    by_cases hja : dest j = a
    · rw [if_pos hja, if_pos (congrArg ofId hja)]
    · rw [if_neg hja, if_neg fun h => hja (ofId_injective h)]
  · have hne : l ≠ ofId a := fun h => hno a (h ▸ ha) h
    rw [follow_of_ne hno, follow_of_ne hno, if_neg hne]

end Label

theorem mem_named {t : Option Terminator} {k : Int} :
    k ∈ named t ↔ ∃ s, t = some s ∧ ∃ l ∈ s.targets, l.id? = some k := by
  rw [named, List.mem_filterMap]
  cases t <;> simp

/-- Labels that come together count once. -/
theorem eraseDups_targets_relabel (f : Label → Label) (t : Terminator) :
    ((t.relabel f).targets.filterMap Label.id?).eraseDups =
      (t.targets.filterMap fun l => (f l).id?).eraseDups := by
  cases t with
  | jump l => rfl
  | branch ty cond l m =>
    simp only [Terminator.relabel, Terminator.targets]
    by_cases hlm : l = m
    · rw [if_pos hlm, if_pos (congrArg f hlm)]
      rfl
    · rw [if_neg hlm]
      by_cases hf : f l = f m
      · rw [if_pos hf]
        cases hm : (f m).id? with
        | none => simp [hf, hm]
        | some k => simp [hf, hm, List.eraseDups_cons]
      · rw [if_neg hf]
        rfl
  | ret value => rfl

/-! ## The edges of one block -/

namespace Program

/-- The edges of a block are those that `t` makes, with the ids of their targets changed by `dest`, and its
terminator is `t`, with the labels in their usual spelling changed likewise. -/
structure Follows (p : Program) (v : Vertex) (t : Option Terminator) (dest : Int → Int) : Prop where
  succ : p.succ v = (named t).eraseDups.map fun j => ⟨v.func, dest j⟩
  jump : p.jump v = t.map (.relabel (Label.follow dest))

/-- The label follows the moves to `dest`, or its edge was not moved. -/
def Followed (dest : Int → Int) (l : Label) : Prop :=
  ∀ j, l.id? = some j → l = Label.ofId j ∨ dest j = j

namespace Follows

variable {t : Option Terminator} (F : Follows p v t dest)
include F

theorem congr (hs : q.succ v = p.succ v) (hj : q.jump v = p.jump v) : Follows q v t dest :=
  ⟨hs.trans F.succ, hj.trans F.jump⟩

theorem mem_succ {w : Vertex} : w ∈ p.succ v ↔ ∃ j ∈ named t, w = ⟨v.func, dest j⟩ := by
  rw [F.succ, List.mem_map]
  simp only [List.mem_eraseDups, eq_comm]

/-- Redirecting the block is a further change of the ids. -/
theorem reroute (C : Cut p e n preds) (S : Split p e n preds q) (hv : v ∈ preds)
    (he : e.label.id? = some e.id) :
    Follows q v t fun j => if dest j = e.id then n.id else dest j := by
  have hvn : v ≠ n := fun h => C.new_not_pred (h ▸ hv)
  have hfe : v.func = e.func := (C.proper.func_eq v e (C.edge v hv)).symm
  constructor
  · rw [C.succ_eq S, if_neg hvn, if_pos hv, replace_eq_map (C.proper.nodup_succ v), F.succ,
      List.map_map]
    refine List.map_congr_left fun j _ => ?_
    have hiff : (⟨v.func, dest j⟩ : Vertex) = e ↔ dest j = e.id :=
      ⟨fun h => congrArg Vertex.id h, fun h => Vertex.ext hfe h⟩
    rw [Function.comp_apply]
    by_cases hj : dest j = e.id
    · rw [if_pos (hiff.2 hj), if_pos hj]
      exact Vertex.ext (C.func_eq.trans hfe.symm) rfl
    · rw [if_neg fun h => hj (hiff.1 h), if_neg hj]
  · rw [C.jump_eq S, if_neg hvn, if_pos hv, F.jump, Option.map_map]
    refine Option.map_congr fun s _ => ?_
    rw [Function.comp_apply, Terminator.retarget_eq_relabel, Terminator.relabel_relabel]
    exact Terminator.relabel_congr fun l _ => Label.follow_replace he l

section
variable (hp : p.Proper) (hfit : ∀ i, p.total i < 0x80000000)
include hp hfit

/-- The label of a target leads to the target. -/
theorem id?_dest {j : Int} (hj : j ∈ named t) : (Label.ofId (dest j)).id? = some (dest j) := by
  have hmem := hp.mem_ids v _ (F.mem_succ.2 ⟨j, hj, rfl⟩)
  have hb := hp.bound v.func (dest j) hmem
  have hlt := hfit v.func
  exact Label.id?_ofId hb.1 (by omega)

theorem id?_follow {s : Terminator} (hs : t = some s) (hl : l ∈ s.targets)
    (hl' : Followed dest l) : (l.follow dest).id? = l.id?.map dest := by
  rcases Label.usual_or l with ⟨j, rfl, hj⟩ | hno
  · rw [Label.follow_ofId hj, hj, F.id?_dest hp hfit (mem_named.2 ⟨s, hs, _, hl, hj⟩)]
    rfl
  · rw [Label.follow_of_ne hno]
    cases hid : l.id? with
    | none => rfl
    | some j => rw [Option.map_some, (hl' j hid).resolve_left (hno j hid)]

/-- Where all labels can be followed, the terminator names the targets of the edges. -/
theorem succ_eq_printed (hall : ∀ s, t = some s → ∀ l ∈ s.targets, Followed dest l) :
    p.succ v = p.printed v := by
  have hinj : ∀ a ∈ named t, ∀ b ∈ named t, dest a = dest b → a = b := fun a ha b hb hab => by
    have hnd := hp.nodup_succ v
    rw [F.succ] at hnd
    exact List.inj_on_of_nodup_map hnd (List.mem_eraseDups.2 ha) (List.mem_eraseDups.2 hb)
      (congrArg (Vertex.mk v.func) hab)
  have hnamed : (named (p.jump v)).eraseDups = ((named t).map dest).eraseDups := by
    rw [F.jump]
    cases ht : t with
    | none => rfl
    | some s =>
      refine (eraseDups_targets_relabel _ s).trans (congrArg List.eraseDups ?_)
      rw [named, List.map_filterMap]
      exact List.filterMap_congr fun l hl => F.id?_follow hp hfit ht hl (hall s ht l hl)
  rw [F.succ, printed, hnamed, eraseDups_map _ hinj, List.map_map]
  rfl

end

end Follows

theorem follows_new (C : Cut p e n preds) (S : Split p e n preds q)
    (he : e.label.id? = some e.id) : Follows q n (some (.jump e.label)) fun j => j := by
  have hnamed : named (some (.jump e.label)) = [e.id] := List.filterMap_cons_some he
  constructor
  · rw [C.succ_eq S, if_pos rfl, hnamed]
    exact congrArg (fun f => [(⟨f, e.id⟩ : Vertex)]) C.func_eq.symm
  · rw [C.jump_eq S, if_pos rfl]
    exact congrArg (some ∘ Terminator.jump) (Label.follow_id e.label).symm

/-! ## All blocks -/

/-- What a block branched to at first: its terminator in `p₀`, or the one branch of a new block. -/
def Origin (p₀ : Program) (v : Vertex) (t : Option Terminator) : Prop :=
  t = p₀.jump v ∨ p₀.jump v = none ∧
    ∃ j, t = some (.jump (Label.ofId j)) ∧ (Label.ofId j).id? = some j

/-- Every block of `p` has come to its edges by moves to blocks that `p₀` does not have. -/
structure Tracks (p₀ p : Program) : Prop where
  ids : ∀ i, ∀ j ∈ p₀.ids i, j ∈ p.ids i
  total : ∀ i, p₀.total i ≤ p.total i
  follows : ∀ v, ∃ t dest, Origin p₀ v t ∧ (∀ j, dest j = j ∨ p₀.total v.func < dest j) ∧
    Follows p v t dest

theorem tracks_start (h : ∀ v, p.succ v = p.printed v) : Tracks p p where
  ids _ _ hj := hj
  total _ := Int.le_refl _
  follows v := by
    refine ⟨p.jump v, fun j => j, .inl rfl, fun _ => .inl rfl, h v, ?_⟩
    have hid : Label.follow (fun j => j) = fun l => l := funext Label.follow_id
    rw [hid]
    cases p.jump v with
    | none => rfl
    | some t => exact congrArg some (Terminator.relabel_id t).symm

namespace Tracks

theorem rebodied (T : Tracks p₀ p) (hr : Rebodied p q) : Tracks p₀ q where
  ids i := hr.ids i ▸ T.ids i
  total i := hr.total i ▸ T.total i
  follows v := by
    obtain ⟨t, dest, ho, hfar, F⟩ := T.follows v
    exact ⟨t, dest, ho, hfar, F.congr (congrFun hr.succ v) (congrFun hr.jump v)⟩

theorem split (T : Tracks p₀ p) (C : Cut p e n preds) (S : Split p e n preds q)
    (hfit : ∀ i, q.total i < 0x80000000) : Tracks p₀ q where
  ids i j hj := S.mem_ids_iff.2 (.inl (T.ids i j hj))
  total i := Int.le_trans (T.total i) (C.total_le S i)
  follows v := by
    have hid := C.id_eq
    have hle := T.total n.func
    have he := C.id?_label_target S (hfit n.func)
    by_cases hvn : v = n
    · subst hvn
      have hnone : p₀.jump v = none := by
        rw [jump, block?_eq_none fun hm => C.new_not_mem (T.ids _ _ hm)]
        rfl
      exact ⟨_, _, .inr ⟨hnone, e.id, rfl, he⟩, fun _ => .inl rfl, follows_new C S he⟩
    · obtain ⟨t, dest, ho, hfar, F⟩ := T.follows v
      by_cases hvp : v ∈ preds
      · have hf : v.func = n.func := (C.proper.func_eq v e (C.edge v hvp)).symm.trans C.func_eq.symm
        refine ⟨t, _, ho, fun j => ?_, F.reroute C S hvp he⟩
        by_cases hj : dest j = e.id
        · rw [if_pos hj, hf]
          exact .inr (by omega)
        · rw [if_neg hj]
          exact hfar j
      · refine ⟨t, dest, ho, hfar, F.congr ?_ ?_⟩
        · rw [C.succ_eq S, if_neg hvn, if_neg hvp]
        · rw [C.jump_eq S, if_neg hvn, if_neg hvp]

theorem steps {ts : List Timing} (T : Tracks p₀ p) (hp : p.Proper) (h : Steps c p q ts)
    (hfit : ∀ i, q.total i < 0x80000000) : Tracks p₀ q := by
  refine h.flow_induction (motive := fun q => (∀ i, q.total i < 0x80000000) → Tracks p₀ q) hp
    (fun _ => T) ?_ ?_ hfit
  · intro q r _ hr ih hfit
    exact (ih fun i => hr.total i ▸ hfit i).rebodied hr
  · intro q r ts i l e hq X S ih hfit
    have C := X.cut hq
    exact (ih fun i => Int.lt_of_le_of_lt (C.total_le S i) (hfit i)).split C S hfit

/-- All labels still name blocks. -/
theorem resolved (T : Tracks p q) (W : Source.Wellformed p) (hq : q.Proper)
    (hfit : ∀ i, q.total i < 0x80000000) (ht : q.jump v = some t) (hl : l ∈ t.targets) :
    ∃ j ∈ q.ids v.func, l.id? = some j := by
  obtain ⟨s, dest, ho, _, F⟩ := T.follows v
  rw [F.jump] at ht
  obtain ⟨s, rfl, rfl⟩ := Option.map_eq_some_iff.1 ht
  obtain ⟨k, hk, rfl⟩ := Terminator.mem_targets_relabel.1 hl
  rcases Label.usual_or k with ⟨j, rfl, hj⟩ | hno
  · have hmem : j ∈ named (some s) := mem_named.2 ⟨s, rfl, _, hk, hj⟩
    rw [Label.follow_ofId hj]
    exact ⟨dest j, hq.mem_ids v _ (F.mem_succ.2 ⟨j, hmem, rfl⟩), F.id?_dest hq hfit hmem⟩
  · rw [Label.follow_of_ne hno]
    rcases ho with ho | ⟨_, j, hs, hid⟩
    · obtain ⟨j, hj, hid⟩ := W.resolved v s ho.symm k hk
      exact ⟨j, T.ids _ j hj, hid⟩
    · obtain rfl := Option.some.inj hs
      obtain rfl := List.mem_singleton.1 hk
      exact absurd rfl (hno j hid)

end Tracks

end Program

end LoopClock
