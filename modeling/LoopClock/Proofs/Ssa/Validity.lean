import LoopClock.Proofs.Program.Names
import Mathlib.Data.List.Pairwise
import Mathlib.Data.List.Perm.Basic

/-! Programs in which every local name has one definition, and every use lies behind it on all paths from
the entry. -/
namespace LoopClock
open Graph

/-- The local names that instructions define. -/
def writes (xs : List Instr) : List String := localNames (xs.filterMap Instr.target?)

/-- Each instruction reads names that are known in front of the list or written earlier in it. -/
def Served (known : String → Prop) (xs : List Instr) : Prop :=
  ∀ pre x post, xs = pre ++ x :: post → ∀ s ∈ localNames x.reads, known s ∨ s ∈ writes pre

section
variable {known more : String → Prop} {x : Instr} {xs ys zs : List Instr} {s : String}

theorem writes_append : writes (xs ++ ys) = writes xs ++ writes ys := by
  rw [writes, List.filterMap_append, localNames_append, writes, writes]

theorem Served.mono (h : Served known xs) (hk : ∀ s, known s → more s) : Served more xs :=
  fun pre x post heq s hs => (h pre x post heq s hs).imp_left (hk s)

theorem served_nil : Served known [] := by
  intro pre x post heq
  simp at heq

theorem served_append : Served known (xs ++ ys) ↔
    Served known xs ∧ Served (fun s => known s ∨ s ∈ writes xs) ys := by
  constructor
  · intro h
    constructor
    · intro pre x post heq
      exact h pre x (post ++ ys) (by simp [heq])
    · intro pre x post heq s hs
      have h := h (xs ++ pre) x post (by simp [heq]) s hs
      rw [writes_append, List.mem_append] at h
      exact or_assoc.2 h
  · rintro ⟨hx, hy⟩ pre x post heq s hs
    rcases List.append_eq_append_iff.1 heq with ⟨mid, rfl, hmid⟩ | ⟨mid, rfl, hmid⟩
    · rw [writes_append, List.mem_append, ← or_assoc]
      exact hy mid x post hmid s hs
    · cases mid with
      | nil =>
        rw [List.append_nil] at hx hy
        rcases hy [] x post (by simpa using hmid.symm) s hs with h | h
        · exact h
        · cases h
      | cons y mid =>
        obtain ⟨rfl, rfl⟩ := List.cons.inj hmid
        exact hx pre x mid rfl s hs

theorem served_cons : Served known (x :: xs) ↔
    (∀ s ∈ localNames x.reads, known s) ∧ Served (fun s => known s ∨ s ∈ writes [x]) xs := by
  rw [← List.singleton_append, served_append]
  refine and_congr_left fun _ => ⟨fun h s hs => ?_, fun h pre y post heq s hs => ?_⟩
  · exact (h [] x [] rfl s hs).resolve_right fun h => nomatch h
  · cases pre with
    | nil =>
      obtain ⟨rfl, _⟩ := List.cons.inj heq
      exact .inl (h s hs)
    | cons z pre => simp at heq

/-- Instructions may be put in between if they are served there. -/
theorem Served.insert (h : Served known (xs ++ zs))
    (hy : Served (fun s => known s ∨ s ∈ writes xs) ys) : Served known (xs ++ ys ++ zs) := by
  obtain ⟨hx, hz⟩ := served_append.1 h
  refine served_append.2 ⟨served_append.2 ⟨hx, hy⟩, hz.mono fun s hs => ?_⟩
  rw [writes_append, List.mem_append]
  exact hs.imp_right .inl

end

namespace Program

variable {p q : Program} {i : Nat} {u v : Vertex} {s : String}

def params (p : Program) (i : Nat) : List String :=
  ((p.bare? i).map fun f => localNames f.params).getD []

/-- The local names that a block defines. -/
def defs (p : Program) (v : Vertex) : List String :=
  localNames ((p.phis v).map (·.target)) ++ writes (p.body v)

/-- All definitions of a function. -/
def definitions (p : Program) (i : Nat) : List String :=
  p.params i ++ (p.ids i).flatMap fun j => p.defs ⟨i, j⟩

/-- A name that has its value at the end of a block. -/
def Known (p : Program) (v : Vertex) (s : String) : Prop :=
  s ∈ p.params v.func ∨ ∃ u, Dominates p.Edge (root v.func) u v ∧ s ∈ p.defs u

/-- A name that has its value in front of the body of a block. -/
def KnownBefore (p : Program) (v : Vertex) (s : String) : Prop :=
  s ∈ p.params v.func ∨ s ∈ localNames ((p.phis v).map (·.target)) ∨
    ∃ u, u ≠ v ∧ Dominates p.Edge (root v.func) u v ∧ s ∈ p.defs u

/-- A name that is read in a block. -/
inductive ReadIn (p : Program) (v : Vertex) (s : String) : Prop
  | phi (φ : Phi) (hφ : φ ∈ p.phis v) (hs : s ∈ localNames φ.reads)
  | body (x : Instr) (hx : x ∈ p.body v) (hs : s ∈ localNames x.reads)
  | jump (t : Terminator) (ht : p.jump v = some t) (hs : s ∈ t.names)

/-- All functions of the program are in a valid form of single assignment. -/
structure Ssa (p : Program) : Prop where
  unique : ∀ i, (p.definitions i).Nodup
  defined : ∀ v s, p.ReadIn v s → s ∈ p.definitions v.func
  /-- A phi has one entry for each block that leads to it. -/
  labels : ∀ v, ∀ φ ∈ p.phis v, (φ.source.map (·.2)).Perm ((p.prev v).map Vertex.label)
  body : ∀ v, Reaches p.Edge (root v.func) v → Served (p.KnownBefore v) (p.body v)
  jump : ∀ v, Reaches p.Edge (root v.func) v → ∀ t, p.jump v = some t →
    ∀ s ∈ t.names, p.Known v s
  entries : ∀ v, ∀ φ ∈ p.phis v, ∀ x ∈ φ.source, ∀ u ∈ p.prev v, x.2 = u.label →
    Reaches p.Edge (root u.func) u → ∀ s ∈ localNames x.1.temp?.toList, p.Known u s

theorem defs_eq_nil (h : v.id ∉ p.ids v.func) : p.defs v = [] := by
  rw [defs, phis, body, block?_eq_none h]
  rfl

theorem mem_definitions : s ∈ p.definitions i ↔
    s ∈ p.params i ∨ ∃ u : Vertex, u.func = i ∧ s ∈ p.defs u := by
  rw [definitions, List.mem_append, List.mem_flatMap]
  refine or_congr_right ⟨fun ⟨j, _, hs⟩ => ⟨⟨i, j⟩, rfl, hs⟩, ?_⟩
  rintro ⟨u, rfl, hs⟩
  by_cases hu : u.id ∈ p.ids u.func
  · exact ⟨u.id, hu, hs⟩
  · rw [defs_eq_nil hu] at hs
    cases hs

theorem mem_definitions_of_body {x : Instr} {t : Temp} (hx : x ∈ p.body v) (ht : x.target? = some t)
    (hlocal : t.isGlobal = false) : t.name ∈ p.definitions v.func :=
  mem_definitions.2 (.inr ⟨v, rfl, List.mem_append_right _
    (mem_localNames.2 ⟨t, List.mem_filterMap.2 ⟨x, hx, ht⟩, hlocal, rfl⟩)⟩)

/-- What is read in a block, and what a function defines, as its text has it. -/
theorem readIn_iff {b : Block} (hb : p.block? v = some b) :
    p.ReadIn v s ↔ s ∈ localNames b.reads := by
  have hphis : p.phis v = b.phis := by rw [phis, hb]; rfl
  have hbody : p.body v = b.body := by rw [body, hb]; rfl
  have hjump : p.jump v = b.jump := by rw [jump, hb]; rfl
  simp only [Block.reads, localNames_append, List.mem_append]
  constructor
  · intro h
    cases h with
    | phi φ hφ hs =>
      obtain ⟨t, ht, hl⟩ := mem_localNames.1 hs
      exact .inl (.inl (mem_localNames.2 ⟨t, List.mem_flatMap.2 ⟨φ, hphis ▸ hφ, ht⟩, hl⟩))
    | body x hx hs =>
      obtain ⟨t, ht, hl⟩ := mem_localNames.1 hs
      exact .inl (.inr (mem_localNames.2 ⟨t, List.mem_flatMap.2 ⟨x, hbody ▸ hx, ht⟩, hl⟩))
    | jump t ht hs =>
      rw [← hjump, ht]
      exact .inr hs
  · rintro ((h | h) | h)
    · obtain ⟨t, ht, hl⟩ := mem_localNames.1 h
      obtain ⟨φ, hφ, ht⟩ := List.mem_flatMap.1 ht
      exact .phi φ (hphis ▸ hφ) (mem_localNames.2 ⟨t, ht, hl⟩)
    · obtain ⟨t, ht, hl⟩ := mem_localNames.1 h
      obtain ⟨x, hx, ht⟩ := List.mem_flatMap.1 ht
      exact .body x (hbody ▸ hx) (mem_localNames.2 ⟨t, ht, hl⟩)
    · cases hj : b.jump with
      | none =>
        rw [hj] at h
        cases h
      | some t =>
        rw [hj] at h
        exact .jump t (hjump.trans hj) h

theorem definitions_eq {f : Func} (hn : (p.ids i).Nodup) (hf : p.funcs[i]? = some f) :
    p.definitions i = localNames f.writes := by
  have hparams : p.params i = localNames f.params := by
    rw [params, bare?, hf]
    rfl
  have hblocks : ∀ bs : List Block, (∀ b ∈ bs, b ∈ f.blocks) →
      ((bs.map (·.id)).flatMap fun j => p.defs ⟨i, j⟩) = localNames (bs.flatMap Block.writes) := by
    intro bs hbs
    induction bs with
    | nil => rfl
    | cons b bs ih =>
      obtain ⟨hb, hbs⟩ := List.forall_mem_cons.1 hbs
      have hdefs : p.defs ⟨i, b.id⟩ = localNames b.writes := by
        rw [defs, phis, body, block?_of_mem hn hf hb, Block.writes, localNames_append]
        rfl
      rw [List.map_cons, List.flatMap_cons, List.flatMap_cons, localNames_append, ih hbs, hdefs]
  rw [definitions, Func.writes, localNames_append, hparams, ids_eq hf]
  exact congrArg _ (hblocks f.blocks fun _ => id)

/-- Nothing is defined twice, seen block by block. -/
structure Apart (p : Program) (i : Nat) : Prop where
  params : (p.params i).Nodup
  nodup : ∀ v : Vertex, v.func = i → (p.defs v).Nodup
  blocks : ∀ u v : Vertex, u.func = i → v.func = i → u ≠ v → (p.defs u).Disjoint (p.defs v)
  outside : ∀ v : Vertex, v.func = i → (p.params i).Disjoint (p.defs v)

theorem nodup_definitions_iff (hn : (p.ids i).Nodup) : (p.definitions i).Nodup ↔ p.Apart i := by
  rw [definitions, List.nodup_append', List.nodup_flatMap]
  constructor
  · rintro ⟨hp, ⟨hd, hb⟩, ho⟩
    have hin : ∀ v : Vertex, v.func = i → ∀ s ∈ p.defs v, v.id ∈ p.ids i := fun v hv s hs => by
      by_contra hid
      rw [defs_eq_nil (hv ▸ hid)] at hs
      cases hs
    refine ⟨hp, ?_, ?_, ?_⟩
    · rintro v rfl
      by_cases hv : v.id ∈ p.ids v.func
      · exact hd v.id hv
      · rw [defs_eq_nil hv]
        exact List.nodup_nil
    · rintro u v rfl hv hne s hs ht
      have hid : u.id ≠ v.id := fun h => hne (Vertex.ext hv.symm h)
      have : Std.Symm (Function.onFun List.Disjoint fun j => p.defs ⟨u.func, j⟩) :=
        ⟨fun _ _ h s hs ht => h ht hs⟩
      have h := hb.forall (hin u rfl s hs) (hin v hv s ht) hid
      have hv' : v = ⟨u.func, v.id⟩ := Vertex.ext hv rfl
      rw [hv'] at ht
      exact h hs ht
    · rintro v rfl s hs ht
      exact ho hs (List.mem_flatMap.2 ⟨v.id, hin v rfl s ht, ht⟩)
  · intro h
    refine ⟨h.params, ⟨fun j _ => h.nodup ⟨i, j⟩ rfl, ?_⟩, ?_⟩
    · refine hn.imp fun {a b} hab => h.blocks ⟨i, a⟩ ⟨i, b⟩ rfl rfl fun heq => ?_
      exact hab (Vertex.mk.inj heq).2
    · intro s hs ht
      obtain ⟨j, _, ht⟩ := List.mem_flatMap.1 ht
      exact h.outside ⟨i, j⟩ rfl hs ht

theorem occurs_of_mem_params (h : s ∈ p.params i) : p.Occurs s := by
  unfold params at h
  cases hf : p.bare? i with
  | none =>
    rw [hf] at h
    cases h
  | some f =>
    rw [hf] at h
    exact .outside (.param i f hf h)

theorem occurs_of_mem_defs (h : s ∈ p.defs v) : p.Occurs s := by
  rcases List.mem_append.1 h with h | h
  · obtain ⟨t, ht, hg, rfl⟩ := mem_localNames.1 h
    obtain ⟨φ, hφ, rfl⟩ := List.mem_map.1 ht
    exact .outside (.phi v φ hφ (mem_localNames.2 ⟨φ.target, List.mem_cons_self, hg, rfl⟩))
  · obtain ⟨t, ht, hg, rfl⟩ := mem_localNames.1 h
    obtain ⟨x, hx, hxt⟩ := List.mem_filterMap.1 ht
    exact .body v x hx (mem_localNames.2
      ⟨t, List.mem_append_left _ (Option.mem_toList.2 hxt), hg, rfl⟩)

/-! ## New definitions -/

/-- `q` defines what `p` does, and in each block names that did not occur. -/
structure Defines (p q : Program) (new : Vertex → List String) : Prop where
  params : q.params = p.params
  defs : ∀ v, (q.defs v).Perm (new v ++ p.defs v)
  nodup : ∀ v, (new v).Nodup
  apart : ∀ u v, u ≠ v → (new u).Disjoint (new v)
  fresh : ∀ v, ∀ s ∈ new v, ¬ p.Occurs s

namespace Defines

variable {new : Vertex → List String} (D : Defines p q new)
include D

theorem mem_defs : s ∈ q.defs v ↔ s ∈ new v ∨ s ∈ p.defs v :=
  (D.defs v).mem_iff.trans List.mem_append

theorem mem_definitions_of (h : s ∈ p.definitions i) : s ∈ q.definitions i := by
  rw [mem_definitions, D.params]
  rcases mem_definitions.1 h with h | ⟨u, hu, hs⟩
  · exact .inl h
  · exact .inr ⟨u, hu, D.mem_defs.2 (.inr hs)⟩

theorem disjoint_old : (new u).Disjoint (p.defs v) := fun s hs ht =>
  D.fresh u s hs (occurs_of_mem_defs ht)

theorem apart_of (A : p.Apart i) : q.Apart i where
  params := D.params ▸ A.params
  nodup v hv := by
    rw [(D.defs v).nodup_iff, List.nodup_append']
    exact ⟨D.nodup v, A.nodup v hv, D.disjoint_old⟩
  blocks u v hu hv hne s hs ht := by
    rcases D.mem_defs.1 hs with hs | hs <;> rcases D.mem_defs.1 ht with ht | ht
    · exact D.apart u v hne hs ht
    · exact D.disjoint_old hs ht
    · exact D.disjoint_old ht hs
    · exact A.blocks u v hu hv hne hs ht
  outside v hv s hs ht := by
    rw [D.params] at hs
    rcases D.mem_defs.1 ht with ht | ht
    · exact D.fresh v s ht (occurs_of_mem_params hs)
    · exact A.outside v hv hs ht

theorem unique (hp : ∀ i, (p.ids i).Nodup) (hq : ∀ i, (q.ids i).Nodup)
    (h : ∀ i, (p.definitions i).Nodup) (i : Nat) : (q.definitions i).Nodup :=
  (nodup_definitions_iff (hq i)).2 (D.apart_of ((nodup_definitions_iff (hp i)).1 (h i)))

end Defines

/-! ## Other bodies -/

theorem dominates_func (hp : p.Proper) (h : Dominates p.Edge (root v.func) u v) :
    u.func = v.func := by
  have hf := hp.reaches_func h.root_reaches
  exact hf

theorem KnownBefore.defined (hp : p.Proper) (h : p.KnownBefore v s) : s ∈ p.definitions v.func := by
  rw [mem_definitions]
  rcases h with h | h | ⟨u, _, hd, hs⟩
  · exact .inl h
  · exact .inr ⟨v, rfl, List.mem_append_left _ h⟩
  · exact .inr ⟨u, dominates_func hp hd, hs⟩

/-- What is read in a body in order has a definition. -/
theorem mem_definitions_of_served (h : Served (· ∈ p.definitions v.func) (p.body v)) {x : Instr}
    (hx : x ∈ p.body v) (hs : s ∈ localNames x.reads) : s ∈ p.definitions v.func := by
  obtain ⟨pre, post, heq⟩ := List.append_of_mem hx
  refine (h pre x post heq s hs).elim id fun h => ?_
  refine mem_definitions.2 (.inr ⟨v, rfl, List.mem_append_right _ ?_⟩)
  rw [heq, writes_append]
  exact List.mem_append_left _ h

theorem defined_of_served (hp : p.Proper) (h : Served (p.KnownBefore v) (p.body v)) {x : Instr}
    (hx : x ∈ p.body v) (hs : s ∈ localNames x.reads) : s ∈ p.definitions v.func :=
  mem_definitions_of_served (h.mono fun _ h => h.defined hp) hx hs

section
variable {new : Vertex → List String} (hr : Rebodied p q) (D : Defines p q new)
include hr D

theorem Known.rebodied (h : p.Known v s) : q.Known v s := by
  rw [Known, hr.edge, D.params]
  exact h.imp_right fun ⟨u, hd, hs⟩ => ⟨u, hd, D.mem_defs.2 (.inr hs)⟩

theorem KnownBefore.rebodied (h : p.KnownBefore v s) : q.KnownBefore v s := by
  rw [KnownBefore, hr.edge, hr.phis, D.params]
  exact h.imp_right fun h => h.imp_right fun ⟨u, hne, hd, hs⟩ =>
    ⟨u, hne, hd, D.mem_defs.2 (.inr hs)⟩

theorem Ssa.rebodied (H : p.Ssa) (hp : p.Proper)
    (hbody : ∀ v, Reaches p.Edge (root v.func) v → Served (q.KnownBefore v) (q.body v))
    (hread : ∀ v, ∀ x ∈ q.body v, ∀ s ∈ localNames x.reads, s ∈ q.definitions v.func) : q.Ssa where
  unique := D.unique hp.nodup (hr.proper hp).nodup H.unique
  defined v s h := by
    cases h with
    | phi φ hφ hs => exact D.mem_definitions_of (H.defined v s (.phi φ (hr.phis ▸ hφ) hs))
    | body x hx hs => exact hread v x hx s hs
    | jump t ht hs => exact D.mem_definitions_of (H.defined v s (.jump t (hr.jump ▸ ht) hs))
  labels := by
    rw [hr.phis, hr.prev]
    exact H.labels
  body := by
    rw [hr.edge]
    exact hbody
  jump v hv t ht s hs := by
    rw [hr.edge] at hv
    rw [hr.jump] at ht
    exact (H.jump v hv t ht s hs).rebodied hr D
  entries v φ hφ x hx u hu hxu hreach s hs := by
    rw [hr.phis] at hφ
    rw [hr.prev] at hu
    rw [hr.edge] at hreach
    exact (H.entries v φ hφ x hx u hu hxu hreach s hs).rebodied hr D

end

end Program

end LoopClock
