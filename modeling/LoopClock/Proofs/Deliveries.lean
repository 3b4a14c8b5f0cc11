import LoopClock.Proofs.Program.Moves
import LoopClock.Proofs.Program.Proper
import LoopClock.Proofs.Run.Standard

/-! What the phis of a block receive after edges into it have been led through a new block. Control that
came by a moved edge brings the value it brought before, either as it is or by a phi of the new block.
Values are compared as numbers for this: of the two zeros the first one then stands for both. -/
namespace LoopClock

/-! ## Equal values -/

namespace Value

/-- A constant that is not a number equals nothing. -/
def IsNumber : Value → Prop
  | float x => x.code ≤ Single.infinityCode
  | _ => True

/-- One of the two zeros of single precision. -/
def IsZero (v : Value) : Prop := ∃ negative, v = .float ⟨negative, 0⟩

variable {v w : Value}

theorem IsZero.isNumber (h : v.IsZero) : v.IsNumber := by
  obtain ⟨b, rfl⟩ := h
  exact Nat.zero_le _

theorem same_iff : v.same w = true ↔ v = w ∧ v.IsNumber ∨ v.IsZero ∧ w.IsZero := by
  cases v with
  | float x =>
    cases w with
    | float y =>
      obtain ⟨s, c⟩ := x
      obtain ⟨t, d⟩ := y
      simp only [same, Single.equal, Bool.and_eq_true, Bool.or_eq_true, decide_eq_true_eq, beq_iff_eq,
        IsNumber, IsZero, Value.float.injEq, Single.mk.injEq, exists_eq_left']
      constructor
      · rintro ⟨⟨hle, rfl⟩, rfl | rfl⟩
        · exact .inl ⟨⟨rfl, rfl⟩, hle⟩
        · exact .inr ⟨rfl, rfl⟩
      · rintro (⟨⟨rfl, rfl⟩, hle⟩ | ⟨rfl, rfl⟩)
        · exact ⟨⟨hle, rfl⟩, .inl rfl⟩
        · exact ⟨⟨Nat.zero_le _, rfl⟩, .inr rfl⟩
    | int | long | temp => simp [same, IsZero]
  | int | long | temp => cases w <;> simp [same, IsNumber, IsZero]

end Value

/-! ## One phi -/

namespace Phi

variable {moved : List Label} {via : Label} {φ : Phi} {m m' n n' : Nat}

/-- The moved edges bring zeros only, and both of them. -/
def MixesZeros (moved : List Label) (φ : Phi) : Prop :=
  (∀ s ∈ φ.incoming moved, s.1.IsZero) ∧
    ∃ s ∈ φ.incoming moved, ∃ t ∈ φ.incoming moved, s.1 ≠ t.1

/-- What has become of the phi `φ` when the edges from `moved` are led through `via`: the phi that stays,
and the phi of the new block if there is one. New temporaries have numbers from `m` up to `n`. -/
structure Delivered (moved : List Label) (via : Label) (m n : Nat) (φ : Phi) (d : Phi × Option Phi) :
    Prop where
  target : d.1.target = φ.target
  /-- The other entries stay as they are. The entry for the new block carries the value of each moved
  entry, or the target of the phi there which has that entry. -/
  entries : ∃ w, d.1.source = φ.kept moved ++ [(w, via)] ∧
    ((∀ s ∈ φ.incoming moved, w = s.1 ∨ ∃ χ ∈ d.2, w = .temp χ.target ∧ s ∈ χ.source) ↔
      ¬ φ.MixesZeros moved)
  added : ∀ χ ∈ d.2, χ.source = φ.incoming moved ∧
    ∃ k, m ≤ k ∧ k < n ∧ χ.target = .fresh k φ.target.ty
  isSome_iff : (∀ s ∈ φ.incoming moved, s.1.IsNumber) → (d.2.isSome ↔
    (∃ s ∈ φ.incoming moved, ∃ t ∈ φ.incoming moved, s.1 ≠ t.1) ∧ ¬ φ.MixesZeros moved)
  isSome : (∃ s ∈ φ.incoming moved, ¬ s.1.IsNumber) → d.2.isSome

theorem Delivered.mono {d : Phi × Option Phi} (h : Delivered moved via m n φ d) (hm : m' ≤ m)
    (hn : n ≤ n') : Delivered moved via m' n' φ d :=
  { h with
    added := fun χ hχ => by
      obtain ⟨hsource, k, hmk, hkn, hk⟩ := h.added χ hχ
      exact ⟨hsource, k, Nat.le_trans hm hmk, Nat.lt_of_lt_of_le hkn hn, hk⟩ }

/-- The moved entries agree with the first one, and no phi is needed. -/
theorem delivered_agreed {v : Value} {l : Label} (hv : (v, l) ∈ φ.incoming moved)
    (hsame : ∀ s ∈ φ.incoming moved, s.1.same v = true) :
    Delivered moved via m n φ ({ φ with source := φ.kept moved ++ [(v, via)] }, none) := by
  have number : ∀ s ∈ φ.incoming moved, s.1.IsNumber := fun s hs => by
    rcases Value.same_iff.1 (hsame s hs) with ⟨_, h⟩ | ⟨h, _⟩
    · exact h
    · exact h.isNumber
  have agree : (∀ s ∈ φ.incoming moved, v = s.1) ↔ ¬ φ.MixesZeros moved := by
    constructor
    · rintro h ⟨_, s, hs, t, ht, hne⟩
      exact hne ((h s hs).symm.trans (h t ht))
    · intro hmix s hs
      by_contra hne
      refine hmix ⟨fun t ht => ?_, s, hs, (v, l), hv, Ne.symm hne⟩
      have hzero : v.IsZero := by
        rcases Value.same_iff.1 (hsame s hs) with ⟨h, _⟩ | ⟨_, h⟩
        · exact absurd h.symm hne
        · exact h
      rcases Value.same_iff.1 (hsame t ht) with ⟨h, _⟩ | ⟨h, _⟩
      · exact h ▸ hzero
      · exact h
  refine ⟨rfl, ⟨v, rfl, ?_⟩, (fun _ hχ => nomatch hχ), fun _ => ?_, ?_⟩
  · simpa using agree
  · simp only [Option.isSome_none, Bool.false_eq_true, false_iff, not_and]
    rintro ⟨s, hs, t, ht, hne⟩ hmix
    exact hne ((agree.2 hmix s hs).symm.trans (agree.2 hmix t ht))
  · rintro ⟨s, hs, hnot⟩
    exact absurd (number s hs) hnot

/-- Two moved entries differ, and a phi of the new block chooses between all of them. -/
theorem delivered_merged {v : Value} {l : Label} (hv : (v, l) ∈ φ.incoming moved)
    (hdiff : ∃ s ∈ φ.incoming moved, s.1.same v = false) :
    Delivered moved via m (m + 1) φ
      ({ φ with source := φ.kept moved ++ [(.temp (.fresh m φ.target.ty), via)] },
        some ⟨.fresh m φ.target.ty, φ.incoming moved⟩) := by
  obtain ⟨s, hs, hsv⟩ := hdiff
  have differ : ¬ (s.1 = v ∧ s.1.IsNumber) ∧ ¬ (s.1.IsZero ∧ v.IsZero) := by
    rw [← not_or, ← Value.same_iff, hsv]
    exact Bool.false_ne_true
  have unmixed : ¬ φ.MixesZeros moved := fun h => differ.2 ⟨h.1 s hs, h.1 (v, l) hv⟩
  refine ⟨rfl, ⟨_, rfl, ?_⟩, fun χ hχ => ?_, fun hnum => ?_, fun _ => rfl⟩
  · exact iff_of_true (fun t ht => .inr ⟨_, rfl, rfl, ht⟩) unmixed
  · obtain rfl := Option.some.inj hχ
    exact ⟨rfl, m, Nat.le_refl m, Nat.lt_succ_self m, rfl⟩
  · refine iff_of_true rfl ⟨⟨s, hs, (v, l), hv, fun h => differ.1 ⟨h, hnum s hs⟩⟩, unmixed⟩

theorem delivered_reroute (hne : φ.incoming moved ≠ []) : Delivered moved via m
    (φ.reroute moved via m).2.2 φ ((φ.reroute moved via m).1, (φ.reroute moved via m).2.1) := by
  unfold reroute
  dsimp only
  split
  · next h => exact absurd h hne
  · next v l rest h =>
    have hv : (v, l) ∈ φ.incoming moved := by
      rw [incoming, h]
      exact List.mem_cons_self
    split
    · next hsame => exact delivered_agreed hv (List.all_eq_true.1 hsame)
    · next hdiff =>
      refine delivered_merged hv ?_
      rw [Bool.not_eq_true, List.all_eq_false] at hdiff
      exact hdiff.imp fun s h => h.imp_right Bool.eq_false_iff.2

/-! ## All phis of a block -/

/-- The phis of a block are dealt with one by one, in order. -/
theorem delivered_rerouteAll {ps : List Phi} (hne : ∀ φ ∈ ps, φ.incoming moved ≠ []) :
    ∃ ds : List (Phi × Option Phi), ds.map (·.1) = (rerouteAll moved via m ps).1 ∧
      ds.filterMap (·.2) = (rerouteAll moved via m ps).2.1 ∧
      List.Forall₂ (Delivered moved via m (rerouteAll moved via m ps).2.2) ps ds := by
  induction ps generalizing m with
  | nil => exact ⟨[], rfl, rfl, .nil⟩
  | cons φ ps ih =>
    obtain ⟨hφ, hps⟩ := List.forall_mem_cons.1 hne
    have hone : Delivered moved via m _ φ _ := delivered_reroute hφ
    have hfirst : m ≤ (φ.reroute moved via m).2.2 := (rerouted_reroute φ).le
    have hrest : (φ.reroute moved via m).2.2 ≤
        (rerouteAll moved via (φ.reroute moved via m).2.2 ps).2.2 :=
      (reroutedAll_rerouteAll _ ps).le
    obtain ⟨ds, hstay, hadded, hall⟩ := ih (m := (φ.reroute moved via m).2.2) hps
    refine ⟨((φ.reroute moved via m).1, (φ.reroute moved via m).2.1) :: ds, ?_, ?_, ?_⟩
    · rw [List.map_cons, hstay]
      rfl
    · simp only [rerouteAll, ← hadded]
      cases (φ.reroute moved via m).2.1 <;> rfl
    · exact .cons (hone.mono (Nat.le_refl m) hrest)
        (hall.imp fun _ _ h => h.mono hfirst (Nat.le_refl _))

end Phi

namespace Program

variable {p q : Program} {e n : Vertex} {preds : List Vertex}

/-- Control that came from a block of `preds` comes by the new block, and each phi of `e` still gets
what that block had for it, except where the moved edges bring both zeros and nothing else. Whether a
phi is put into the new block depends on whether two moved entries differ. All phis of `e` and of the
new block have one entry for each predecessor. -/
theorem phis_splitPredecessors (G : p.Regular e.func) (he : e.id ∈ p.ids e.func)
    (hpreds : preds ⊆ p.prev e) (hnd : preds.Nodup) (hne : preds ≠ [])
    (hphis : ∀ φ ∈ p.phis e, (φ.source.map (·.2)).Perm ((p.prev e).map Vertex.label))
    (hq : p.splitPredecessors e.func e preds = (q, n)) :
    (q.Regular e.func ∧ q.prev n = preds ∧ q.succ n = [e] ∧
      q.prev e = (p.prev e).filter (· ∉ preds) ++ [n]) ∧
    (∃ ds : List (Phi × Option Phi), ds.map (·.1) = q.phis e ∧ ds.filterMap (·.2) = q.phis n ∧
      List.Forall₂ (Phi.Delivered (preds.map Vertex.label) n.label p.temps q.temps) (p.phis e) ds) ∧
    ((q.phis n).map (·.target)).Nodup ∧
    ∀ v ∈ [e, n], ∀ ψ ∈ q.phis v, (ψ.source.map (·.2)).Perm ((q.prev v).map Vertex.label) := by
  have M : Moves p e n preds :=
    ⟨G, he, (congrArg Prod.snd hq).symm, fun a ha => (G.mem_prev a e rfl).1 (hpreds ha), hnd⟩
  have hfst : (p.splitPredecessors e.func e preds).1 = q := congrArg Prod.fst hq
  have S : Split p e n preds q := hfst ▸ M.split
  have hstay := M.phis_eq S (v := e)
  have hadded := M.phis_eq S (v := n)
  rw [if_neg M.target_ne, if_pos rfl] at hstay
  rw [if_pos rfl] at hadded
  refine ⟨⟨M.regular_split S G, ?_, ?_, ?_⟩, ?_, ?_, ?_⟩
  · exact (M.prev_eq S).trans (if_pos rfl)
  · exact (M.succ_eq S).trans (if_pos rfl)
  · exact (M.prev_eq S).trans ((if_neg M.target_ne).trans (if_pos rfl))
  · rw [hstay, hadded, S.temps]
    exact Phi.delivered_rerouteAll fun φ hφ => M.incoming_ne_nil (hphis φ hφ) hne
  · refine List.Nodup.of_map (·.name) ?_
    rw [List.map_map, hadded]
    have hnames := (reroutedAll_splitPhis p e n preds).names_added
    refine hnames ▸ (List.nodup_range').map fun a b hab => ?_
    exact Nat.add_right_cancel (Numeral.nat_injective hab)
  · exact List.forall_mem_cons.2 ⟨M.labels_target S hphis hne,
      List.forall_mem_singleton.2 (M.labels_new S hphis)⟩

/-- The entries for `B1` and `B3` of the phi in `B2` differ, and they move to a phi of the new block. -/
theorem phis_splitPredecessors_sharedExit : ∃ q ψ χ,
    Source.sharedExit.splitPredecessors 0 ⟨0, 2⟩ [⟨0, 1⟩, ⟨0, 3⟩] = (q, ⟨0, 4⟩) ∧
    q.phis ⟨0, 2⟩ = [ψ] ∧ ψ.source = [(.int 0, "entry"), (.temp χ.target, "B4")] ∧
    q.phis ⟨0, 4⟩ = [χ] ∧ χ.source = [(.int 1, "B1"), (.temp ⟨"2", false, .i32⟩, "B3")] := by
  have G := (Source.wellformed_of_parse Source.parse_sharedExit).proper.regular 0
  obtain ⟨q, hq⟩ : ∃ q, Source.sharedExit.splitPredecessors 0 ⟨0, 2⟩ [⟨0, 1⟩, ⟨0, 3⟩] =
      (q, ⟨0, 4⟩) := ⟨_, rfl⟩
  obtain ⟨_, ⟨ds, hstay, hadded, hall⟩, _⟩ := phis_splitPredecessors
    (e := ⟨0, 2⟩) G (by decide) (by decide) (by decide) (by decide) (by decide +kernel) hq
  obtain ⟨φ, hφ, hphis⟩ : ∃ φ : Phi, φ.source =
      [(.int 0, "entry"), (.int 1, "B1"), (.temp ⟨"2", false, .i32⟩, "B3")] ∧
      Source.sharedExit.phis ⟨0, 2⟩ = [φ] := ⟨_, rfl, rfl⟩
  have hlabels : [(⟨0, 1⟩ : Vertex), ⟨0, 3⟩].map Vertex.label = ["B1", "B3"] ∧
      Vertex.label ⟨0, 4⟩ = "B4" := by decide +kernel
  rw [hphis, hlabels.1, hlabels.2] at hall
  cases hall with
  | @cons _ d _ _ hd hnil =>
    cases hnil
    have hin : φ.incoming ["B1", "B3"] =
        [(.int 1, "B1"), (.temp ⟨"2", false, .i32⟩, "B3")] := by
      rw [Phi.incoming, hφ]
      decide +kernel
    have hkept : φ.kept ["B1", "B3"] = [(.int 0, "entry")] := by
      rw [Phi.kept, hφ]
      decide +kernel
    obtain ⟨w, hw, hentries⟩ := hd.entries
    have unmixed : ¬ φ.MixesZeros ["B1", "B3"] := by
      rintro ⟨hzero, _⟩
      rw [hin] at hzero
      obtain ⟨_, h⟩ := hzero (.int 1, "B1") List.mem_cons_self
      cases h
    have hcarried := hentries.2 unmixed
    rw [hin] at hcarried
    have hfirst := hcarried (.int 1, "B1") List.mem_cons_self
    have hsecond := hcarried (.temp ⟨"2", false, .i32⟩, "B3") (by simp)
    -- no value is both of those that the two blocks bring
    obtain ⟨χ, hχ, rfl⟩ : ∃ χ ∈ d.2, w = .temp χ.target := by
      rcases hfirst with rfl | ⟨χ, hχ, h, _⟩
      · rcases hsecond with h | ⟨_, _, h, _⟩ <;> cases h
      · exact ⟨χ, hχ, h⟩
    refine ⟨q, d.1, χ, hq, hstay.symm, ?_, ?_, ?_⟩
    · rw [hw, hkept]
      rfl
    · rw [← hadded, List.filterMap_cons, Option.mem_def.1 hχ]
      rfl
    · rw [(hd.added χ hχ).1, hin]

end Program

end LoopClock
