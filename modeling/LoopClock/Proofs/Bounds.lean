import LoopClock.Proofs.Run.Outcome

/-! What the timers write and what the storage has room for. The slots are below the length that the storage
is grown to. But the line of a scalar stays what it is when the scalar is grown, and an array is grown by
elements of its own width, so a storage that a program brings along may be too small. -/
namespace LoopClock
open Graph Program

namespace Global

variable {g : Global} {n : Nat}

/-- The number of elements in the line of a global. -/
def declared (g : Global) : Nat := if g.isArray then g.len else 1

/-- The bits that the line of a global sets aside. -/
def room (g : Global) : Nat := g.declared * g.bits

def declaredType (g : Global) : String :=
  let width := "i" ++ Numeral.nat g.bits
  if g.isArray then "[" ++ Numeral.nat g.declared ++ " x " ++ width ++ "]" else width

theorem exists_text (g : Global) :
    ∃ init, g.text = "@" ++ g.name ++ " = global " ++ g.declaredType ++ init := by
  rw [text, declaredType, declared]
  cases g.isArray with
  | false => exact ⟨" " ++ Numeral.nat g.scalarWord.toNat, by simp [String.append_assoc]⟩
  | true =>
    cases g.isZeroed with
    | true => exact ⟨" zeroinitializer", by simp [String.append_assoc]⟩
    | false =>
      exact ⟨_, by simp only [Bool.not_true, Bool.false_eq_true, if_true, if_false,
        String.append_assoc]; rfl⟩

/-- The global has room for `n` measurements, or gets it by being grown to `n` elements. -/
def Admits (g : Global) (n : Nat) : Prop :=
  g.isArray = true ∧ g.bits = slotBits ∨ slotBits * n ≤ g.room

theorem room_growTo (g : Global) (n : Nat) :
    (g.growTo n).2.room = (if g.isArray then max g.len n else 1) * g.bits := by
  rw [room, declared, isArray_growTo, bits_growTo, len_growTo]

theorem le_room_growTo_iff (h : g.bits = 32 ∨ g.bits = 64) :
    slotBits * n ≤ (g.growTo n).2.room ↔ g.Admits n := by
  rw [room_growTo, Admits, room, declared, slotBits]
  cases g.isArray with
  | false => simp
  | true =>
    rcases h with h | h
    · simp only [h, if_true, true_and]
      omega
    · simp only [h, if_true, and_self, true_or, iff_true]
      omega

end Global

/-! ## Addresses and reports -/

/-- An address is that of one of the first `slots` elements of the storage, and what is handed to a routine
is nothing or just these elements. -/
def Instr.Within (c : Config) (slots : Nat) : Instr → Prop
  | .gep _ ty addr offset =>
    ty = .i64 ∧ addr = .temp ⟨c.storage, true, .i64Ptr⟩ ∧ ∃ k < slots, offset = .int (.ofNat k)
  | .call _ _ _ args =>
    args = [] ∨ args = [(.i64Ptr, .temp ⟨c.storage, true, .i64Ptr⟩), (.i32, .int (.ofNat slots))]
  | _ => True

variable {c : Config} {p₀ p q : Program} {ts : List Timing} {slot slots len n : Nat} {x : Instr}

theorem Timer.Added.within (hslot : slot < slots) (h : Timer.Added p (.ofConfig c len) slot n x) :
    x.Within c slots := by
  rcases h with rfl | h | ⟨k, _, h⟩
  · trivial
  · simp only [putBy, List.mem_cons, List.not_mem_nil, or_false] at h
    rcases h with rfl | rfl
    · exact .inl rfl
    · trivial
  · simp only [record, List.mem_cons, List.not_mem_nil, or_false] at h
    rcases h with rfl | rfl | rfl | rfl | rfl
    · exact .inl rfl
    · trivial
    · trivial
    · exact ⟨rfl, rfl, slot, hslot, rfl⟩
    · trivial

/-- Every timer keeps within the slots. -/
theorem Steps.woven (h : Steps c p₀ p ts) (h₀ : p₀.Proper) (hslots : ∀ t ∈ ts, t.slot < slots)
    (v : Vertex) : Woven (Instr.Within c slots) (p₀.body v) (p.body v) := by
  induction h with
  | start => exact .refl _
  | declare _ funcs _ ih =>
    rw [(Revised.of_funcs funcs).body fun _ _ => rfl]
    exact ih hslots
  | split steps site split ih =>
    rw [(site.cut (steps.proper h₀)).body_eq split]
    exact ih hslots
  | @place p ts i l len slot steps func loop own ih =>
    have hp := steps.proper h₀
    obtain ⟨as, bs, cs, heq, hadd⟩ := @Timer.exists_body_place p i slot (.ofConfig c len) l.header
      (p.exitBlocks l) hp func (HasLoop.exit_mem_ids hp loop) (HasLoop.nodup_exitBlocks hp loop) v
    have hnew : ∀ x ∈ as ++ bs ++ cs, x.Within c slots := fun x hx =>
      (hadd x hx).within (hslots _ (List.mem_append_right _ (List.mem_singleton_self _)))
    simp only [List.mem_append] at hnew
    have hold := ih fun t ht => hslots t (List.mem_append_left _ ht)
    rw [heq]
    refine hold.trans ((Woven.prepend (fun x hx => hnew x (.inr hx)) (.refl _)).trans ?_)
    exact (Woven.topped (fun x hx => hnew x (.inl (.inr hx))) _).trans
      (.topped (fun x hx => hnew x (.inl (.inl hx))) _)

theorem Program.Reported.woven (h : Reported (Report.call (.ofConfig c len) slots) p q) (v : Vertex) :
    Woven (Instr.Within c slots) (p.body v) (q.body v) := by
  rcases h.body v with h | ⟨h, _⟩
  · rw [h]
    exact .refl _
  · rw [h]
    exact .append fun x hx => by
      obtain rfl := List.mem_singleton.1 hx
      exact .inr rfl

/-! ## The storage -/

/-- A storage that a run defines itself has room for all slots. -/
theorem admits_storageFor (h : p.global? c.storage = none) (n : Nat) : (p.storageFor c).Admits n := by
  rw [storageFor, h]
  exact .inl ⟨rfl, rfl⟩

/-- The width of an element is one that can be read. -/
theorem bits_storageFor (hg : ∀ g ∈ p.globals, g.IsSpelled) (c : Config) :
    (p.storageFor c).bits = 32 ∨ (p.storageFor c).bits = 64 := by
  rw [storageFor]
  cases h : p.global? c.storage with
  | none => exact .inr rfl
  | some g => exact (hg g (List.mem_of_find?_eq_some h)).bits

/-- Slots are numbers of 32 bits with a sign, which are not negative as long as temporaries fit. -/
theorem toInt_slot {es : List Announced} (I : Instrumented c p q slots es ts) (hp : p.Proper)
    (hfit : q.Fits) {k : Nat} (hk : k < slots) : (Int32.ofNat k).toInt = k := by
  have htwo := I.two_mul_slots_le hp
  have hlt := hfit.2
  exact Int32.toInt_ofNat_of_lt (by omega)

/-- The timers and reports of a run keep to the slots that it hands out. The storage has room for these
exactly if it is an array of words of 64 bits, as any that the run defines is, or had the room before. -/
theorem exists_room (m : Manager) (c : Config) (tally : Nat) {txt : String} {p : Program}
    (h : Source.parse txt = .ok p) :
    ∃ r g, (m.run none p (.ofModule c tally)).val = .ok r ∧
      r.program.global? c.storage = some g ∧
      (∃ init, g.text = "@" ++ c.storage ++ " = global " ++ g.declaredType ++ init) ∧
      (slotBits * r.context.slots ≤ g.room ↔ (p.storageFor c).Admits r.context.slots) ∧
      (p.global? c.storage = none → (p.storageFor c).Admits r.context.slots) ∧
      (∀ v, Woven (Instr.Within c r.context.slots) (p.body v) (r.program.body v)) ∧
      (r.program.Fits → ∀ k < r.context.slots, (Int32.ofNat k).toInt = k) := by
  have hp := (Source.wellformed_of_parse h).proper
  have A := accounted_instrument hp c tally
  obtain ⟨ts, I⟩ := instrumented_instrument hp c tally
  obtain ⟨p', hsteps, hreport⟩ := I.changes
  let r := p.outcome c tally
  have hname : ((p.storageFor c).growTo r.context.slots).2.name = c.storage := by
    have hfind := List.find?_some A.storage
    exact beq_iff_eq.1 hfind
  refine ⟨r, _, m.run_eq hp c tally, A.storage, ?_, ?_, fun hnone => admits_storageFor hnone _,
    fun v => ?_, fun hfit k hk => toInt_slot I hp hfit hk⟩
  · obtain ⟨init, htext⟩ := Global.exists_text ((p.storageFor c).growTo r.context.slots).2
    exact ⟨init, hname ▸ htext⟩
  · exact Global.le_room_growTo_iff (bits_storageFor (Source.readable_of_parse h).globals c)
  · exact (hsteps.woven hp (fun t ht => I.slot_lt ht) v).trans (hreport.woven v)

namespace Source

/-- Two loops one after the other, and a storage that is a single word. -/
def wordStorageText : String :=
  "@__loopprof_elapsed = global i64 0
define i32 @main(i32 %1) \x7b
entry:
br label %B1
B1:
br i32 %1, label %B1, label %B2
B2:
br i32 %1, label %B2, label %B3
B3:
ret i32 0
\x7d
"

def wordStorage : Program where
  globals := [⟨"__loopprof_elapsed", [.word 0], 64, false⟩]
  funcs := [⟨"main", .i32, [⟨"1", false, .i32⟩], 3,
    [{ id := 0, succ := [⟨0, 1⟩], jump := some (.jump "B1") },
     { id := 1, prev := [⟨0, 0⟩, ⟨0, 1⟩], succ := [⟨0, 1⟩, ⟨0, 2⟩],
       jump := some (.branch .i32 (.temp ⟨"1", false, .i32⟩) "B1" "B2") },
     { id := 2, prev := [⟨0, 1⟩, ⟨0, 2⟩], succ := [⟨0, 2⟩, ⟨0, 3⟩],
       jump := some (.branch .i32 (.temp ⟨"1", false, .i32⟩) "B2" "B3") },
     { id := 3, prev := [⟨0, 2⟩], jump := some (.ret (some (.int 0))) }]⟩]
  temps := 1

-- the text is matched with a list of characters one by one
set_option maxRecDepth 4000 in
theorem parse_wordStorage : parse wordStorageText = .ok wordStorage := by
  refine (parse_ofList _).trans ?_
  decide +kernel

end Source

theorem exists_room_wordStorage :
    Source.parse Source.wordStorageText = .ok Source.wordStorage ∧
      ∃ r g, (Manager.pipeline.run none Source.wordStorage (.ofModule {} 0)).val = .ok r ∧
        r.program.global? "__loopprof_elapsed" = some g ∧
        r.context.slots = 2 ∧ ¬ slotBits * r.context.slots ≤ g.room := by
  obtain ⟨r, g, hr, hg, -, hroom, -⟩ := exists_room .pipeline {} 0 Source.parse_wordStorage
  have hslots : r.context.slots = 2 := by
    have hp := (Source.wellformed_of_parse Source.parse_wordStorage).proper
    obtain rfl : r = _ := Except.ok.inj (hr.symm.trans (Manager.run_eq .pipeline hp {} 0))
    exact (accounted_instrument hp {} 0).slots.trans (by decide +kernel)
  refine ⟨Source.parse_wordStorage, r, g, hr, hg, hslots, fun hle => ?_⟩
  rw [hroom, hslots] at hle
  exact absurd hle (by unfold Global.Admits; decide +kernel)

end LoopClock
