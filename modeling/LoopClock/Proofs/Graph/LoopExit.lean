import LoopClock.Proofs.Graph.Reroute

/-! Leading the edges by which a loop is left for one of its exits through a new vertex. Every loop
keeps its header and its old members. The new vertex joins the loops that hold both the exit and
the loop that is left. -/
namespace LoopClock.Graph
open Relation

variable {V : Type} {E E' : V → V → Prop} {S : V → Prop} {a b e h k n p r : V}

/-- The edges from the loop at `k` to its exit `e` are led through `n`. -/
abbrev ExitReroute (E E' : V → V → Prop) (r k e n : V) : Prop :=
  Reroute E E' (fun u => InLoop E r k u ∧ E u e) e n

theorem Reroute.header_ne (R : Reroute E E' S e n) (hh : IsHeader E r h) : h ≠ n := by
  obtain ⟨p, hp, _⟩ := hh
  exact fun hn => R.no_pred p (hn ▸ hp)

theorem Reroute.inLoop_ne (R : Reroute E E' S e n) (hh : IsHeader E r h)
    (hb : InLoop E r h b) : b ≠ n := by
  obtain ⟨c, hc, _⟩ := hb.exists_succ hh
  exact fun hn => R.no_succ c (hn ▸ hc)

theorem Reroute.reaches_ne (R : Reroute E E' S e n) (ha : a ≠ n) (h : Reaches E a b) :
    b ≠ n := by
  cases h with
  | refl => exact ha
  | @tail c _ _ he => exact fun hn => R.no_pred c (hn ▸ he)

section
variable (R : ExitReroute E E' r k e n) (hr : r ≠ n) (hk : IsHeader E r k) (hx : IsExit E r k e)

include hx in
include R hx in
theorem ExitReroute.exit_ne : e ≠ n := by
  obtain ⟨s, hs⟩ := hx.2
  exact R.target_ne hs

include hk hx in
theorem ExitReroute.reaches_exit : Reaches E r e := by
  obtain ⟨s, hs, he⟩ := hx.2
  exact (hs.reaches hk).tail he

include R hr hk hx in
theorem ExitReroute.reaches_new : Reaches E' r n := by
  obtain ⟨s, hs, he⟩ := hx.2
  exact (R.reaches_new_iff hr).2 ⟨s, ⟨hs, he⟩, hs.reaches hk⟩

/-! The exit dominates all moved edges or none. -/

include R hr hk hx in
theorem ExitReroute.exit_dominates_new :
    Dominates E' r e n ↔ Dominates E r e k := by
  rw [R.dominates_new_iff hr (ExitReroute.exit_ne R hx)]
  constructor
  · rintro ⟨⟨s, hs, hrs⟩, hd⟩
    exact (hd s hs hrs).header_of_exit hk hx.1 hs.1
  · intro hd
    obtain ⟨s, hs⟩ := hx.2
    exact ⟨⟨s, hs, hs.1.reaches hk⟩, fun t ht _ => hd.trans (ht.1.dominates hk)⟩

include R hr hk hx in
theorem ExitReroute.latch_new : Latch E' r h n ↔ h = e ∧ Dominates E r e k := by
  rw [Latch, R.edge_from_new]
  constructor
  · rintro ⟨rfl, hd⟩
    exact ⟨rfl, (ExitReroute.exit_dominates_new R hr hk hx).1 hd⟩
  · rintro ⟨rfl, hd⟩
    exact ⟨rfl, (ExitReroute.exit_dominates_new R hr hk hx).2 hd⟩

include R hr in
theorem ExitReroute.latch_old (hh : h ≠ n) (hp : p ≠ n) :
    Latch E' r h p ↔ Latch E r h p ∧ ¬ ((InLoop E r k p ∧ E p e) ∧ h = e) := by
  rw [Latch, Latch, R.edge_old hp hh, R.dominates_iff hr hh hp]
  exact ⟨fun h => ⟨⟨h.1.1, h.2⟩, h.1.2⟩, fun h => ⟨⟨h.1.1, h.2⟩, h.1.2⟩⟩

/-- A moved edge from a latch of the exit's loop makes all moved edges come from latches. -/
theorem latch_of_exit (hk : IsHeader E r k) (hx : IsExit E r k e) :
    (∃ s, InLoop E r k s ∧ Latch E r e s) ↔ Dominates E r e k := by
  constructor
  · rintro ⟨s, hs, _, hd⟩
    exact hd.header_of_exit hk hx.1 hs
  · intro hd
    obtain ⟨s, hs, he⟩ := hx.2
    exact ⟨s, hs, he, hd.trans (hs.dominates hk)⟩

/-! ## Headers and members -/

include R hr hk hx in
theorem ExitReroute.isHeader_iff (hh : h ≠ n) : IsHeader E' r h ↔ IsHeader E r h := by
  constructor
  · rintro ⟨p, hp⟩
    by_cases hpn : p = n
    · subst hpn
      obtain ⟨rfl, hd⟩ := (ExitReroute.latch_new R hr hk hx).1 hp
      obtain ⟨s, _, hs⟩ := (latch_of_exit hk hx).2 hd
      exact ⟨s, hs⟩
    · exact ⟨p, ((ExitReroute.latch_old R hr hh hpn).1 hp).1⟩
  · rintro ⟨p, hp⟩
    have hpn : p ≠ n := fun hpn => R.no_succ h (hpn ▸ hp.1)
    by_cases hs : (InLoop E r k p ∧ E p e) ∧ h = e
    · obtain ⟨hs, rfl⟩ := hs
      have hd := (latch_of_exit hk hx).1 ⟨p, hs.1, hp⟩
      exact ⟨n, (ExitReroute.latch_new R hr hk hx).2 ⟨rfl, hd⟩⟩
    · exact ⟨p, (ExitReroute.latch_old R hr hh hpn).2 ⟨hp, hs⟩⟩

include R hr hk hx in
/-- The new vertex heads no loop: a path to the loop it was added for can do without it. -/
theorem ExitReroute.not_isHeader_new : ¬ IsHeader E' r n := by
  rintro ⟨p, hpn, _, hd⟩
  have hp := (R.edge_to_new (ExitReroute.exit_ne R hx)).1 hpn
  have hkn := R.header_ne hk
  have inner : Avoids E' n k p := by
    have hw := R.within_keep (fun u v _ hv hs => hx.1 (hs.2 ▸ hv)) (hp.1.within hk)
    exact hw.mono fun v hv => R.inLoop_ne hk hv
  rcases exists_arrival hk.reaches with rfl | ⟨u, hu, he⟩
  · exact hd inner
  have outside : ∀ v, Avoids E k r v → ¬ InLoop E r k v := fun v hv hin => (hin.dominates hk).2 hv
  have outer : Within (fun v => ¬ InLoop E r k v ∧ v ≠ n) E r u :=
    hu.upgrade_left fun v hv => ⟨outside v hv, R.reaches_ne hr hv.reaches⟩
  have outer' : Avoids E' n r u :=
    (R.within_keep (fun u v hu _ hs => hu.1 hs.1.1) outer).mono fun _ hv => hv.2
  have he' : E' u k := (R.edge u k).2 (.inr (.inr ⟨he, fun hs => outside u hu hs.1.1⟩))
  exact hd (Within.trans (outer'.tail he' hkn) inner)

include R hr hk hx in
theorem ExitReroute.inLoop_iff (hh : IsHeader E r h) (hb : b ≠ n) :
    InLoop E' r h b ↔ InLoop E r h b := by
  have hhn := R.header_ne hh
  constructor
  · rintro (rfl | ⟨hrb, p, hp, hbp⟩)
    · exact inLoop_header
    rw [R.reaches_iff hr hb] at hrb
    by_cases hpn : p = n
    · subst hpn
      obtain ⟨rfl, hd⟩ := (ExitReroute.latch_new R hr hk hx).1 hp
      obtain ⟨s, hs, hbs⟩ := (R.within_new_iff hhn.symm hb).1 hbp
      exact .inr ⟨hrb, s, ⟨hs.2, hd.trans (hs.1.dominates hk)⟩, hbs⟩
    · exact .inr ⟨hrb, p, ((ExitReroute.latch_old R hr hhn hpn).1 hp).1,
        (R.avoids_iff hhn hb hpn).1 hbp⟩
  · rintro (rfl | ⟨hrb, p, hp, hbp⟩)
    · exact inLoop_header
    rw [← R.reaches_iff hr hb] at hrb
    have hpn : p ≠ n := fun hpn => R.no_succ h (hpn ▸ hp.1)
    by_cases hs : (InLoop E r k p ∧ E p e) ∧ h = e
    · obtain ⟨hs, rfl⟩ := hs
      have hd := (latch_of_exit hk hx).1 ⟨p, hs.1, hp⟩
      exact .inr ⟨hrb, n, (ExitReroute.latch_new R hr hk hx).2 ⟨rfl, hd⟩,
        (R.within_new_iff hhn.symm hb).2 ⟨p, hs, hbp⟩⟩
    · exact .inr ⟨hrb, p, (ExitReroute.latch_old R hr hhn hpn).2 ⟨hp, hs⟩,
        (R.avoids_iff hhn hb hpn).2 hbp⟩

include R hr hk hx in
theorem ExitReroute.inLoop_new_iff (hh : IsHeader E r h) :
    InLoop E' r h n ↔ InLoop E r h e ∧ InLoop E r h k := by
  have hhn := R.header_ne hh
  have hen := ExitReroute.exit_ne R hx
  obtain ⟨s, hs, hse⟩ := hx.2
  have hsn := R.moved_ne ⟨hs, hse⟩
  constructor
  · intro hin
    have hin' := hin
    rcases hin with rfl | ⟨_, p, hp, hnp⟩
    · exact absurd rfl hhn
    have he : InLoop E r h e := by
      by_cases heh : h = e
      · exact .inl heh.symm
      have hpn : p ≠ n := fun hpn =>
        heh ((ExitReroute.latch_new R hr hk hx).1 (hpn ▸ hp)).1
      rcases hnp.cases_head with rfl | ⟨c, hc, hcp⟩
      · exact absurd rfl hpn
      obtain rfl := R.edge_from_new.1 hc
      exact .inr ⟨ExitReroute.reaches_exit hk hx, p,
        ((ExitReroute.latch_old R hr hhn hpn).1 hp).1, (R.avoids_iff hhn hen hpn).1 hcp⟩
    have hsin : InLoop E r h s := by
      rw [← ExitReroute.inLoop_iff R hr hk hx hh hsn]
      exact hin'.pred hhn.symm ((R.edge_to_new hen).2 ⟨hs, hse⟩)
        ((R.reaches_iff hr hsn).2 (hs.reaches hk))
    rcases hsin.laminar hh hk hs with hhk | hkh
    · exact ⟨he, hhk⟩
    · exact absurd (hkh.trans hk hh he) hx.1
  · rintro ⟨he, hhk⟩
    refine .inr ⟨ExitReroute.reaches_new R hr hk hx, ?_⟩
    rcases he with rfl | ⟨_, p, hp, hep⟩
    · exact ⟨n, (ExitReroute.latch_new R hr hk hx).2 ⟨rfl, hhk.dominates hh⟩,
        .refl hhn.symm⟩
    · have hpn : p ≠ n := fun hpn => R.no_succ h (hpn ▸ hp.1)
      have hs : ¬ ((InLoop E r k p ∧ E p e) ∧ h = e) := fun hs => hep.left hs.2.symm
      exact ⟨p, (ExitReroute.latch_old R hr hhn hpn).2 ⟨hp, hs⟩,
        .head hhn.symm R.edge_new ((R.avoids_iff hhn hen hpn).2 hep)⟩

/-! ## Exits -/

include R hr hk hx in
theorem ExitReroute.not_inLoop_new : ¬ InLoop E' r k n := fun h =>
  hx.1 ((ExitReroute.inLoop_new_iff R hr hk hx hk).1 h).1

include R hr hk hx in
/-- In the place of `e` the loop has the exit `n` now. -/
theorem ExitReroute.isExit_self_iff {x : V} :
    IsExit E' r k x ↔ x = n ∨ x ≠ e ∧ IsExit E r k x := by
  have hen := ExitReroute.exit_ne R hx
  by_cases hxn : x = n
  · subst hxn
    obtain ⟨s, hs, hse⟩ := hx.2
    have hs' := (ExitReroute.inLoop_iff R hr hk hx hk (R.inLoop_ne hk hs)).2 hs
    exact iff_of_true ⟨ExitReroute.not_inLoop_new R hr hk hx, s, hs',
      (R.edge_to_new hen).2 ⟨hs, hse⟩⟩ (.inl rfl)
  rw [or_iff_right hxn, IsExit, IsExit, ExitReroute.inLoop_iff R hr hk hx hk hxn]
  constructor
  · rintro ⟨hout, u, hu, he⟩
    have hun : u ≠ n := fun hun => ExitReroute.not_inLoop_new R hr hk hx (hun ▸ hu)
    rw [ExitReroute.inLoop_iff R hr hk hx hk hun] at hu
    obtain ⟨he, hs⟩ := (R.edge_old hun hxn).1 he
    exact ⟨fun hxe => hs ⟨⟨hu, hxe ▸ he⟩, hxe⟩, hout, u, hu, he⟩
  · rintro ⟨hxe, hout, u, hu, he⟩
    have hun := R.inLoop_ne hk hu
    exact ⟨hout, u, (ExitReroute.inLoop_iff R hr hk hx hk hun).2 hu,
      (R.edge_old hun hxn).2 ⟨he, fun hs => hxe hs.2⟩⟩

include R hr hk hx in
/-- No loop loses its last exit or gains a first one. -/
theorem ExitReroute.exists_isExit_iff (hh : IsHeader E r h) :
    (∃ x, IsExit E' r h x) ↔ ∃ x, IsExit E r h x := by
  have hen := ExitReroute.exit_ne R hx
  have inLoop_iff : ∀ {b}, b ≠ n → (InLoop E' r h b ↔ InLoop E r h b) :=
    ExitReroute.inLoop_iff R hr hk hx hh
  have inLoop_new := ExitReroute.inLoop_new_iff R hr hk hx hh
  constructor
  · rintro ⟨x, hout, u, hu, he⟩
    rcases (R.edge u x).1 he with ⟨rfl, rfl⟩ | ⟨rfl, hs⟩ | ⟨he, _⟩
    · exact absurd ((inLoop_iff hen).2 (inLoop_new.1 hu).1) hout
    · rw [inLoop_iff (R.moved_ne hs)] at hu
      refine ⟨e, fun hein => hout (inLoop_new.2 ⟨hein, ?_⟩), u, hu, hs.2⟩
      -- the loop is not inside the one that is left, which does not hold `e`
      exact (hu.laminar hh hk hs.1).resolve_right fun hin => hx.1 (hin.trans hk hh hein)
    · have hun : u ≠ n := fun hun => R.no_succ x (hun ▸ he)
      have hxn : x ≠ n := fun hxn => R.no_pred u (hxn ▸ he)
      rw [inLoop_iff hun] at hu
      rw [inLoop_iff hxn] at hout
      exact ⟨x, hout, u, hu, he⟩
  · rintro ⟨x, hout, u, hu, he⟩
    have hun := R.inLoop_ne hh hu
    have hxn : x ≠ n := fun hxn => R.no_pred u (hxn ▸ he)
    by_cases hs : (InLoop E r k u ∧ E u e) ∧ x = e
    · obtain ⟨hs, rfl⟩ := hs
      exact ⟨n, fun hin => hout (inLoop_new.1 hin).1, u, (inLoop_iff hun).2 hu,
        (R.edge_to_new hen).2 hs⟩
    · exact ⟨x, fun hin => hout ((inLoop_iff hxn).1 hin), u, (inLoop_iff hun).2 hu,
        (R.edge_old hun hxn).2 ⟨he, hs⟩⟩

include R hr hk hx in
theorem ExitReroute.dedicated_new : Dedicated E' r k n := by
  refine ⟨hr.symm, fun u hu => ?_⟩
  have hs := (R.edge_to_new (ExitReroute.exit_ne R hx)).1 hu
  exact (ExitReroute.inLoop_iff R hr hk hx hk (R.moved_ne hs)).2 hs.1

include R hr hk hx in
theorem ExitReroute.dedicated_of_ne {x : V} (hh : IsHeader E r h) (hxe : x ≠ e) (hxn : x ≠ n)
    (hd : Dedicated E r h x) : Dedicated E' r h x := by
  refine ⟨hd.1, fun u hu => ?_⟩
  have hun : u ≠ n := fun hun => hxe (R.edge_from_new.1 (hun ▸ hu))
  have he := ((R.edge_old hun hxn).1 hu).1
  exact (ExitReroute.inLoop_iff R hr hk hx hh hun).2 (hd.2 u he)

/-- An exit that is not the loop's own is no exit of a loop with exits of its own, unless that loop
holds the loop. -/
theorem not_isExit_of_dedicated (hk : IsHeader E r k) (hx : IsExit E r k e) (hh : IsHeader E r h)
    (hhk : ¬ InLoop E r h k) (hd : ∀ x, IsExit E r h x → Dedicated E r h x)
    (hshared : ¬ Dedicated E r k e) : ¬ IsExit E r h e := by
  intro hxh
  obtain ⟨s, hs, hse⟩ := hx.2
  obtain ⟨her, hpreds⟩ := hd e hxh
  rcases (hpreds s hse).laminar hh hk hs with hin | hin
  · exact hhk hin
  · exact hshared ⟨her, fun u hu => hin.trans hk hh (hpreds u hu)⟩

section
variable (hh : IsHeader E r h) (hhk : ¬ InLoop E r h k)
  (hd : ∀ x, IsExit E r h x → Dedicated E r h x) (hshared : ¬ Dedicated E r k e)

include hk hx hh hhk hd hshared in
/-- No edge from the other loop is moved. -/
private theorem not_moved {u : V} (hu : InLoop E r h u) : ¬ (InLoop E r k u ∧ E u e) := by
  rintro ⟨hku, hue⟩
  by_cases he : InLoop E r h e
  · rcases hu.laminar hh hk hku with hin | hin
    · exact hhk hin
    · exact hx.1 (hin.trans hk hh he)
  · exact not_isExit_of_dedicated hk hx hh hhk hd hshared ⟨he, u, hu, hue⟩

include R hr hk hx hh hhk hd hshared in
/-- A loop with exits of its own that does not hold the loop at `k` keeps its exits. -/
theorem ExitReroute.isExit_iff {x : V} : IsExit E' r h x ↔ IsExit E r h x := by
  have hen := ExitReroute.exit_ne R hx
  have hnin : ¬ InLoop E' r h n := fun hin =>
    hhk ((ExitReroute.inLoop_new_iff R hr hk hx hh).1 hin).2
  constructor
  · rintro ⟨hout, u, hu, he⟩
    have hun : u ≠ n := fun hun => hnin (hun ▸ hu)
    rw [ExitReroute.inLoop_iff R hr hk hx hh hun] at hu
    have hs := not_moved hk hx hh hhk hd hshared hu
    have hxn : x ≠ n := fun hxn => hs ((R.edge_to_new hen).1 (hxn ▸ he))
    rw [ExitReroute.inLoop_iff R hr hk hx hh hxn] at hout
    exact ⟨hout, u, hu, ((R.edge_old hun hxn).1 he).1⟩
  · rintro ⟨hout, u, hu, he⟩
    have hun := R.inLoop_ne hh hu
    have hxn : x ≠ n := fun hxn => R.no_pred u (hxn ▸ he)
    have hs := not_moved hk hx hh hhk hd hshared hu
    rw [← ExitReroute.inLoop_iff R hr hk hx hh hxn] at hout
    exact ⟨hout, u, (ExitReroute.inLoop_iff R hr hk hx hh hun).2 hu,
      (R.edge_old hun hxn).2 ⟨he, fun h => hs h.1⟩⟩

include R hr hk hx hh hhk hd hshared in
theorem ExitReroute.dedicated_of_isExit {x : V} (hxh : IsExit E' r h x) : Dedicated E' r h x := by
  rw [ExitReroute.isExit_iff R hr hk hx hh hhk hd hshared] at hxh
  have hxe : x ≠ e := fun hxe =>
    not_isExit_of_dedicated hk hx hh hhk hd hshared (hxe ▸ hxh)
  have hxn : x ≠ n := by
    obtain ⟨u, _, he⟩ := hxh.2
    exact fun hxn => R.no_pred u (hxn ▸ he)
  exact ExitReroute.dedicated_of_ne R hr hk hx hh hxe hxn (hd x hxh)

end

end

end LoopClock.Graph
