import LoopClock.Proofs.Names
import LoopClock.Proofs.Program.Bodies
import LoopClock.Proofs.Program.Cut
import LoopClock.Proofs.Program.Phis

/-! The local names that occur in a program. Instrumentation adds numbered names only, all of them
behind the greatest number in use. -/
namespace LoopClock

def localNames (ts : List Temp) : List String := (ts.filter (!·.isGlobal)).map (·.name)

theorem localNames_append (s t : List Temp) :
    localNames (s ++ t) = localNames s ++ localNames t := by
  simp [localNames]

theorem mem_localNames {ts : List Temp} {s : String} :
    s ∈ localNames ts ↔ ∃ t ∈ ts, t.isGlobal = false ∧ t.name = s := by
  simp [localNames, and_assoc]

theorem Phi.mem_reads {p : Phi} {t : Temp} :
    t ∈ p.reads ↔ ∃ s ∈ p.source, s.1.temp? = some t := by
  simp [Phi.reads, temps]

def Phi.names (p : Phi) : List String := localNames (p.target :: p.reads)

def Instr.names (i : Instr) : List String := localNames (i.target?.toList ++ i.reads)

/-- The temporary that a store goes through. -/
def Instr.stored? : Instr → Option Temp
  | store _ addr => addr.temp?
  | _ => none

theorem Instr.mem_reads_of_stored? {x : Instr} {t : Temp} (h : t ∈ x.stored?) : t ∈ x.reads := by
  cases x with
  | store v addr => exact List.mem_filterMap.2 ⟨addr, by simp, h⟩
  | _ => cases h

def Terminator.names (t : Terminator) : List String := localNames t.reads

/-- Labels are no local names. -/
theorem Terminator.names_retarget (old new : Label) (t : Terminator) :
    (t.retarget old new).names = t.names := by
  cases t <;> rfl

def Block.names (b : Block) : List String :=
  b.phis.flatMap Phi.names ++ b.body.flatMap Instr.names ++ b.jump.toList.flatMap Terminator.names

def Func.names (f : Func) : List String := localNames f.params ++ f.blocks.flatMap Block.names

/-- The local names that occur anywhere in the program. -/
def Program.names (p : Program) : List String := p.funcs.flatMap Func.names

namespace Program

variable {p q r : Program} {v e n : Vertex} {s : String} {preds exits : List Vertex}

/-- A local name that is a parameter, or occurs in a phi or in a terminator. -/
inductive Outside (p : Program) (s : String) : Prop
  | param (i : Nat) (f : Func) (hf : p.bare? i = some f) (hs : s ∈ localNames f.params)
  | phi (v : Vertex) (φ : Phi) (hφ : φ ∈ p.phis v) (hs : s ∈ φ.names)
  | jump (v : Vertex) (t : Terminator) (ht : p.jump v = some t) (hs : s ∈ t.names)

/-- A local name that occurs in the body of a block or outside of all of them. -/
inductive Occurs (p : Program) (s : String) : Prop
  | outside (h : p.Outside s)
  | body (v : Vertex) (x : Instr) (hx : x ∈ p.body v) (hs : s ∈ x.names)

private theorem occurs_of_block {b : Block} (hb : p.block? v = some b) (hs : s ∈ b.names) :
    p.Occurs s := by
  simp only [Block.names, List.mem_append, List.mem_flatMap, Option.mem_toList] at hs
  rcases hs with (⟨φ, hφ, hs⟩ | ⟨x, hx, hs⟩) | ⟨t, ht, hs⟩
  · exact .outside (.phi v φ (by simpa [phis, hb] using hφ) hs)
  · exact .body v x (by simpa [Program.body, hb] using hx) hs
  · exact .outside (.jump v t (by simpa [Program.jump, hb] using ht) hs)

theorem mem_names (hp : ∀ i, (p.ids i).Nodup) : s ∈ p.names ↔ p.Occurs s := by
  have within : ∀ {v : Vertex} {b : Block}, p.block? v = some b → s ∈ b.names → s ∈ p.names := by
    intro v b hb hs
    obtain ⟨f, hf, hbf⟩ := mem_blocks_of_block? hb
    exact List.mem_flatMap.2 ⟨f, List.mem_of_getElem? hf,
      List.mem_append_right _ (List.mem_flatMap.2 ⟨b, hbf, hs⟩)⟩
  constructor
  · intro h
    obtain ⟨f, hf, hs⟩ := List.mem_flatMap.1 h
    obtain ⟨i, hi⟩ := List.mem_iff_getElem?.1 hf
    rcases List.mem_append.1 hs with hs | hs
    · exact .outside (.param i f.bare (by simp [bare?, hi]) hs)
    · obtain ⟨b, hb, hs⟩ := List.mem_flatMap.1 hs
      exact occurs_of_block (block?_of_mem (hp i) hi hb) hs
  · intro h
    rcases h with ⟨⟨i, f, hf, hs⟩ | ⟨v, φ, hφ, hs⟩ | ⟨v, t, ht, hs⟩⟩ | ⟨v, x, hx, hs⟩
    · obtain ⟨g, hg, rfl⟩ := Option.map_eq_some_iff.1 hf
      exact List.mem_flatMap.2 ⟨g, List.mem_of_getElem? hg, List.mem_append_left _ hs⟩
    · cases hb : p.block? v with
      | none => simp [phis, hb] at hφ
      | some b =>
        refine within hb ?_
        simp only [Block.names, List.mem_append, List.mem_flatMap]
        exact .inl (.inl ⟨φ, by simpa [phis, hb] using hφ, hs⟩)
    · cases hb : p.block? v with
      | none => simp [Program.jump, hb] at ht
      | some b =>
        refine within hb ?_
        simp only [Block.names, List.mem_append, List.mem_flatMap, Option.mem_toList]
        exact .inr ⟨t, by simpa [Program.jump, hb] using ht, hs⟩
    · cases hb : p.block? v with
      | none => simp [Program.body, hb] at hx
      | some b =>
        refine within hb ?_
        simp only [Block.names, List.mem_append, List.mem_flatMap]
        exact .inl (.inr ⟨x, by simpa [Program.body, hb] using hx, hs⟩)

/-! ## New names -/

/-- The names of `q` are those of `p` and such that are numbered from the temporaries of `p` on. -/
structure Grows (p q : Program) : Prop where
  le : p.temps ≤ q.temps
  new : ∀ s, q.Occurs s → p.Occurs s ∨ ∃ k, p.temps ≤ k ∧ k < q.temps ∧ s = Numeral.nat (k + 1)

theorem Grows.refl : Grows p p := ⟨Nat.le_refl _, fun _ h => .inl h⟩

theorem Grows.trans (h : Grows p q) (k : Grows q r) : Grows p r := by
  refine ⟨Nat.le_trans h.le k.le, fun s hs => ?_⟩
  have hle := h.le
  have kle := k.le
  rcases k.new s hs with hs | ⟨l, hl, hr, rfl⟩
  · rcases h.new s hs with hs | ⟨l, hl, hq, rfl⟩
    · exact .inl hs
    · exact .inr ⟨l, hl, by omega, rfl⟩
  · exact .inr ⟨l, by omega, hr, rfl⟩

/-- No local name denotes a number greater than that of the last temporary. -/
def Numbered (p : Program) : Prop :=
  ∀ s, p.Occurs s → ((Numeral.word32? s.toList).getD 0) ≤ p.temps

/-- The number of a temporary to come is no name yet, however the names are written. -/
theorem Numbered.fresh {k : Nat} (hp : p.Numbered) (hpq : Grows p q) (hk : q.temps ≤ k)
    (hlt : k + 1 < 0x100000000) : ¬ q.Occurs (Numeral.nat (k + 1)) := by
  intro h
  have hle := hpq.le
  rcases hpq.new _ h with h | ⟨l, hl, hq, heq⟩
  · have hnum := hp _ h
    rw [Numeral.nat, String.toList_ofList, Numeral.word32?_ofNat hlt] at hnum
    simp only [Option.getD_some] at hnum
    omega
  · have := Numeral.nat_injective heq
    omega

private theorem Phi.names_of_source {a b : Phi} (ht : a.target = b.target)
    (hs : ∀ x ∈ a.source, ∃ y ∈ b.source, x.1.temp? = y.1.temp?) : ∀ s ∈ a.names, s ∈ b.names := by
  intro s h
  obtain ⟨t, htm, hl⟩ := mem_localNames.1 h
  refine mem_localNames.2 ⟨t, ?_, hl⟩
  rcases List.mem_cons.1 htm with rfl | htm
  · exact ht ▸ List.mem_cons_self
  · obtain ⟨x, hx, hxt⟩ := Phi.mem_reads.1 htm
    obtain ⟨y, hy, hxy⟩ := hs x hx
    exact List.mem_cons_of_mem _ (Phi.mem_reads.2 ⟨y, hy, hxy ▸ hxt⟩)

private theorem Phi.names_rerouted {moved : List Label} {via : Label} {k m : Nat} {p φ : Phi}
    {o : Option Phi} (h : Phi.Rerouted moved via k p φ o m) :
    ∀ s ∈ φ.names, s ∈ p.names ∨ k < m ∧ s = Numeral.nat (k + 1) := by
  intro s hs
  cases h with
  | untouched => exact .inl hs
  | agreed v l first same =>
    refine .inl (Phi.names_of_source (a := ⟨p.target, p.kept moved ++ [(v, via)]⟩) (b := p) rfl
      (fun x hx => ?_) s hs)
    rcases List.mem_append.1 hx with hx | hx
    · exact ⟨x, List.mem_of_mem_filter hx, rfl⟩
    · obtain rfl := List.mem_singleton.1 hx
      exact ⟨_, List.mem_of_mem_filter first, rfl⟩
  | merged =>
    obtain ⟨t, htm, hl, rfl⟩ := mem_localNames.1 hs
    rcases List.mem_cons.1 htm with rfl | htm
    · exact .inl (mem_localNames.2 ⟨_, List.mem_cons_self, hl, rfl⟩)
    obtain ⟨x, hx, hxt⟩ := Phi.mem_reads.1 htm
    rcases List.mem_append.1 hx with hx | hx
    · exact .inl (mem_localNames.2 ⟨t, List.mem_cons_of_mem _
        (Phi.mem_reads.2 ⟨x, List.mem_of_mem_filter hx, hxt⟩), hl, rfl⟩)
    · obtain rfl := List.mem_singleton.1 hx
      obtain rfl := Option.some.inj hxt
      exact .inr ⟨Nat.lt_succ_self k, rfl⟩

/-- Splitting makes new names of new numbers only. -/
theorem Cut.outside (C : Cut p e n preds) (S : Split p e n preds q) (h : q.Outside s) :
    p.Outside s ∨ ∃ k, p.temps ≤ k ∧ k < q.temps ∧ s = Numeral.nat (k + 1) := by
  have hR := reroutedAll_splitPhis p e n preds
  have ht := S.temps
  cases h with
  | param i f hf hs =>
    rw [S.bare] at hf
    split at hf
    · obtain ⟨g, hg, rfl⟩ := Option.map_eq_some_iff.1 hf
      exact .inl (.param i g hg hs)
    · exact .inl (.param i f hf hs)
  | phi v φ hφ hs =>
    rw [C.phis_eq S] at hφ
    split at hφ
    · obtain ⟨ψ, hψ, k, hk, hl, rfl, _⟩ := hR.exists_of_mem_added hφ
      obtain ⟨t, htm, hg, rfl⟩ := mem_localNames.1 hs
      rcases List.mem_cons.1 htm with rfl | htm
      · exact .inr ⟨k, hk, ht ▸ hl, rfl⟩
      · obtain ⟨x, hx, hxt⟩ := Phi.mem_reads.1 htm
        exact .inl (.phi e ψ hψ (mem_localNames.2 ⟨t, List.mem_cons_of_mem _
          (Phi.mem_reads.2 ⟨x, List.mem_of_mem_filter hx, hxt⟩), hg, rfl⟩))
    split at hφ
    · obtain ⟨ψ, hψ, k, o, l, hk, hl, hr, _⟩ := hR.exists_of_mem_stay hφ
      rcases Phi.names_rerouted hr s hs with hs | ⟨hlt, rfl⟩
      · exact .inl (.phi e ψ hψ hs)
      · refine .inr ⟨k, hk, ?_, rfl⟩
        rw [ht]
        exact Nat.lt_of_lt_of_le hlt hl
    · exact .inl (.phi v φ hφ hs)
  | jump v t ht hs =>
    rw [C.jump_eq S] at ht
    split at ht
    · obtain rfl := Option.some.inj ht
      cases hs
    split at ht
    · obtain ⟨j, hj, rfl⟩ := Option.map_eq_some_iff.1 ht
      rw [Terminator.names_retarget] at hs
      exact .inl (.jump v j hj hs)
    · exact .inl (.jump v t ht hs)

theorem Cut.grows (C : Cut p e n preds) (S : Split p e n preds q) : Grows p q := by
  refine ⟨S.temps ▸ (reroutedAll_splitPhis p e n preds).le, fun s hs => ?_⟩
  cases hs with
  | outside h => exact (C.outside S h).imp_left .outside
  | body v x hx hs => exact .inl (.body v x (C.body_eq S ▸ hx) hs)

theorem Rebodied.outside (h : Rebodied p q) (hs : q.Outside s) : p.Outside s := by
  cases hs with
  | param i f hf hs => exact .param i f (h.bare i ▸ hf) hs
  | phi v φ hφ hs => exact .phi v φ (h.phis ▸ hφ) hs
  | jump v t ht hs => exact .jump v t (h.jump ▸ ht) hs

theorem grows_of_rebodied {k : Nat} (h : Rebodied p q) (hk : q.temps = p.temps + k)
    (hb : ∀ v, ∀ x ∈ q.body v, x ∈ p.body v ∨
      ∀ s ∈ x.names, ∃ l, p.temps ≤ l ∧ l < q.temps ∧ s = Numeral.nat (l + 1)) : Grows p q := by
  refine ⟨by omega, fun s hs => ?_⟩
  cases hs with
  | outside hs => exact .inl (.outside (h.outside hs))
  | body v x hx hs =>
    rcases hb v x hx with hx | hx
    · exact .inl (.body v x hx hs)
    · exact .inr (hx s hs)

end Program

namespace Timer
open Program

variable {p : Program} {i slot : Nat} {s : Instrumentation} {h : Vertex} {exits : List Vertex}

/-- An instruction of a timer with `n` exits: of the allocation, the sample or the records. -/
def Added (p : Program) (s : Instrumentation) (slot n : Nat) (x : Instr) : Prop :=
  x = allocate (stashOf p) ∨ x ∈ putBy s (stashOf p) (clockOf p) ∨
    ∃ k < n, x ∈ record s (stashOf p) slot (p.temps + 2 + 4 * k)

/-- What a timer adds to a block stands behind stack slots or in front of everything. -/
theorem exists_body_place (hp : p.Proper) (hi : i < p.funcs.length)
    (hx : ∀ x ∈ exits, x.id ∈ p.ids x.func) (hn : exits.Nodup) (v : Vertex) :
    ∃ as bs cs, (place p i s slot h exits).body v = topped as (topped bs (cs ++ p.body v)) ∧
      ∀ x ∈ as ++ bs ++ cs, Added p s slot exits.length x := by
  by_cases hv : v.id ∈ p.ids v.func
  · refine ⟨_, _, _, body_place hp hi hv hx hn, fun x hx => ?_⟩
    simp only [List.mem_append] at hx
    rcases hx with (hx | hx) | hx
    · split at hx
      · next hve => exact .inr (.inr ⟨_, List.idxOf_lt_length_of_mem hve, hx⟩)
      · cases hx
    · split at hx
      · exact .inr (.inl hx)
      · cases hx
    · split at hx
      · exact .inl (List.mem_singleton.1 hx)
      · cases hx
  · have hr : Rebodied p (place p i s slot h exits) := rebodied_place hp hi
    refine ⟨[], [], [], ?_, by simp⟩
    rw [body_eq_nil hv, body_eq_nil (by rw [hr.ids]; exact hv)]
    rfl

theorem mem_body_place {v : Vertex} {x : Instr} (hp : p.Proper) (hi : i < p.funcs.length)
    (hx : ∀ x ∈ exits, x.id ∈ p.ids x.func) (hn : exits.Nodup)
    (h' : x ∈ (place p i s slot h exits).body v) :
    x ∈ p.body v ∨ Added p s slot exits.length x := by
  obtain ⟨as, bs, cs, heq, hadd⟩ := exists_body_place hp hi hx hn v
  simp only [List.mem_append] at hadd
  rw [heq, mem_topped, mem_topped, List.mem_append] at h'
  rcases h' with h' | h' | h' | h'
  · exact .inr (hadd x (.inl (.inl h')))
  · exact .inr (hadd x (.inl (.inr h')))
  · exact .inr (hadd x (.inr h'))
  · exact .inl h'

private theorem names_record {k : Nat} {stash : Temp} {x : Instr} {t : String}
    (hs : s.storage.isGlobal = true) (hx : x ∈ record s stash slot k) (ht : t ∈ x.names) :
    t ∈ localNames [stash] ∨ ∃ l, k ≤ l ∧ l < k + 4 ∧ t = Numeral.nat (l + 1) := by
  obtain ⟨u, hu, hg, rfl⟩ := mem_localNames.1 ht
  simp only [record, List.mem_cons, List.not_mem_nil, or_false] at hx
  have fresh : ∀ j < 4, ∀ ty, u = Temp.fresh (k + j) ty → u.name ∈ localNames [stash] ∨
      ∃ l, k ≤ l ∧ l < k + 4 ∧ u.name = Numeral.nat (l + 1) := by
    rintro j hj ty rfl
    exact .inr ⟨k + j, by omega, by omega, rfl⟩
  rcases hx with rfl | rfl | rfl | rfl | rfl <;>
    simp only [sampleClock, Instr.target?, Instr.reads, temps, Option.toList, List.map_nil,
      List.filterMap_nil, List.filterMap_cons, Value.temp?, List.append_nil, List.cons_append,
      List.nil_append, List.mem_cons, List.not_mem_nil, or_false] at hu
  · exact fresh 0 (by omega) _ hu
  · rcases hu with hu | rfl
    · exact fresh 1 (by omega) _ hu
    · exact .inl (mem_localNames.2 ⟨_, List.mem_singleton_self _, hg, rfl⟩)
  · rcases hu with hu | hu | hu
    · exact fresh 2 (by omega) _ hu
    · exact fresh 0 (by omega) _ hu
    · exact fresh 1 (by omega) _ hu
  · rcases hu with hu | rfl
    · exact fresh 3 (by omega) _ hu
    · rw [hs] at hg
      cases hg
  · rcases hu with hu | hu
    · exact fresh 2 (by omega) _ hu
    · exact fresh 3 (by omega) _ hu

/-- The instructions of a timer mention new names only. -/
theorem names_added {n : Nat} {x : Instr} {t : String} (hs : s.storage.isGlobal = true)
    (hx : Added p s slot n x) (ht : t ∈ x.names) :
    ∃ l, p.temps ≤ l ∧ l < p.temps + 2 + 4 * n ∧ t = Numeral.nat (l + 1) := by
  rcases hx with rfl | h | ⟨k, hk, h⟩
  · exact ⟨p.temps, Nat.le_refl _, by omega, List.mem_singleton.1 ht⟩
  · simp only [putBy, List.mem_cons, List.not_mem_nil, or_false] at h
    rcases h with rfl | rfl
    · exact ⟨p.temps + 1, by omega, by omega, List.mem_singleton.1 ht⟩
    · rcases List.mem_cons.1 ht with rfl | ht
      · exact ⟨p.temps + 1, by omega, by omega, rfl⟩
      · exact ⟨p.temps, by omega, by omega, List.mem_singleton.1 ht⟩
  · rcases names_record hs h ht with ht | ⟨l, hl, hlt, rfl⟩
    · exact ⟨p.temps, by omega, by omega, List.mem_singleton.1 ht⟩
    · exact ⟨l, by omega, by omega, rfl⟩

theorem grows_place (hp : p.Proper) (hi : i < p.funcs.length)
    (hx : ∀ x ∈ exits, x.id ∈ p.ids x.func) (hn : exits.Nodup)
    (hs : s.storage.isGlobal = true) : Grows p (place p i s slot h exits) := by
  have ht : (place p i s slot h exits).temps = p.temps + 2 + 4 * exits.length := temps_place
  refine grows_of_rebodied (k := 2 + 4 * exits.length) (rebodied_place hp hi) (by omega)
    fun v x hxv => ?_
  refine (mem_body_place hp hi hx hn hxv).imp_right fun hx s hsx => ?_
  exact ht ▸ names_added hs hx hsx

end Timer

namespace Report
open Program

theorem grows_reported {p q : Program} {s : Instrumentation} {slots : Nat}
    (hs : s.storage.isGlobal = true) (h : Reported (call s slots) p q) : Grows p q := by
  refine grows_of_rebodied (k := 0) h.rebodied h.temps fun v x hx => ?_
  rcases h.body v with hb | ⟨hb, _⟩
  · exact .inl (hb ▸ hx)
  · rw [hb, List.mem_append] at hx
    refine hx.imp_right fun hx t ht => ?_
    obtain rfl := List.mem_singleton.1 hx
    obtain ⟨u, hu, hg, rfl⟩ := mem_localNames.1 ht
    obtain rfl := List.mem_singleton.1 hu
    rw [hs] at hg
    cases hg

end Report
end LoopClock
