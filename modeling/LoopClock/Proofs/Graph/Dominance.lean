import Mathlib.Data.List.Chain
import Mathlib.Logic.Relation
import Mathlib.Tactic.ByContra

/-! Paths and dominance. A vertex dominates another one when every path from the root to the other
one passes it. A graph is any relation here; nothing below needs it to be finite. -/
namespace LoopClock.Graph
open Relation

variable {V : Type} {E : V → V → Prop} {P Q : V → Prop} {r a b c x : V}

/-- A path from `a` to `b` on which every vertex satisfies `P`. -/
def Within (P : V → Prop) (E : V → V → Prop) (a b : V) : Prop :=
  P a ∧ ReflTransGen (fun u v => E u v ∧ P v) a b

def Reaches (E : V → V → Prop) (a b : V) : Prop := ReflTransGen E a b

/-- A path from `a` to `b` that does not meet `x`. -/
def Avoids (E : V → V → Prop) (x a b : V) : Prop := Within (· ≠ x) E a b

/-- The vertices of `path`, one after the other, are a path from `a` to `b`. -/
def IsPath (E : V → V → Prop) (a b : V) (path : List V) : Prop :=
  path.IsChain E ∧ path.head? = some a ∧ path.getLast? = some b

/-- Vertices out of reach are dominated by none. -/
def Dominates (E : V → V → Prop) (r a b : V) : Prop := Reaches E r b ∧ ¬ Avoids E a r b

/-! ## Paths through a set -/

theorem Within.refl (h : P a) : Within P E a a := ⟨h, .refl⟩

theorem Within.tail (h : Within P E a b) (he : E b c) (hc : P c) : Within P E a c :=
  ⟨h.1, h.2.tail ⟨he, hc⟩⟩

theorem Within.head (ha : P a) (he : E a b) (h : Within P E b c) : Within P E a c :=
  ⟨ha, ReflTransGen.head ⟨he, h.1⟩ h.2⟩

theorem Within.trans (h : Within P E a b) (k : Within P E b c) : Within P E a c :=
  ⟨h.1, ReflTransGen.trans h.2 k.2⟩

theorem Within.left (h : Within P E a b) : P a := h.1

theorem Within.right (h : Within P E a b) : P b := by
  obtain ⟨ha, hp⟩ := h
  cases hp with
  | refl => exact ha
  | tail _ he => exact he.2

theorem Within.reaches (h : Within P E a b) : Reaches E a b :=
  ReflTransGen.mono (fun _ _ he => he.1) _ _ h.2

theorem Within.mono (hpq : ∀ v, P v → Q v) (h : Within P E a b) : Within Q E a b :=
  ⟨hpq a h.1, ReflTransGen.mono (fun _ _ he => ⟨he.1, hpq _ he.2⟩) _ _ h.2⟩

theorem within_true : Within (fun _ => True) E a b ↔ Reaches E a b :=
  ⟨Within.reaches, fun h => ⟨trivial, ReflTransGen.mono (fun _ _ he => ⟨he, trivial⟩) _ _ h⟩⟩

theorem Within.cases_head (h : Within P E a b) : a = b ∨ ∃ c, E a c ∧ Within P E c b := by
  obtain ⟨_, hp⟩ := h
  rcases ReflTransGen.cases_head hp with rfl | ⟨c, he, hc⟩
  · exact .inl rfl
  · exact .inr ⟨c, he.1, he.2, hc⟩

/-- Induction along a path, from its end. -/
theorem Within.head_induction {motive : V → Prop} (h : Within P E a b) (last : P b → motive b)
    (step : ∀ u v, P u → E u v → Within P E v b → motive v → motive u) : motive a := by
  obtain ⟨ha, hp⟩ := h
  induction hp using ReflTransGen.head_induction_on with
  | refl => exact last ha
  | head he hp ih => exact step _ _ ha he.1 ⟨he.2, hp⟩ (ih he.2)

/-- A path stays within `Q` if `Q` holds wherever the rest of the path leads on to the end. -/
theorem Within.upgrade (hq : ∀ v, Within P E v b → Q v) (h : Within P E a b) :
    Within Q E a b := by
  refine h.head_induction (motive := fun u => Within Q E u b) (fun hb => .refl (hq _ (.refl hb))) ?_
  intro u v hu he hv ih
  exact .head (hq u (.head hu he hv)) he ih

/-- A path stays within `Q` if `Q` holds wherever the path has led from its start. -/
theorem Within.upgrade_left (hq : ∀ v, Within P E a v → Q v) (h : Within P E a b) :
    Within Q E a b := by
  obtain ⟨ha, hp⟩ := h
  induction hp with
  | refl => exact .refl (hq _ (.refl ha))
  | tail hp he ih => exact ih.tail he.1 (hq _ (Within.tail ⟨ha, hp⟩ he.1 he.2))

theorem Within.swap (h : Within P E a b) : Within P (fun u v => E v u) b a := by
  refine h.head_induction (motive := fun u => Within P (fun u v => E v u) b u) .refl ?_
  intro u v hu he _ ih
  exact ih.tail he hu

theorem within_swap : Within P (fun u v => E v u) b a ↔ Within P E a b :=
  ⟨fun h => h.swap, fun h => h.swap⟩

theorem IsPath.cons {path : List V} (h : IsPath E b c path) (he : E a b) :
    IsPath E a c (a :: path) := by
  obtain ⟨hchain, hhead, hlast⟩ := h
  cases path with
  | nil => cases hhead
  | cons v vs =>
    obtain rfl := Option.some.inj hhead
    exact ⟨.cons_cons he hchain, rfl, by rw [List.getLast?_cons_cons, hlast]⟩

/-- The vertices of a path within `P` satisfy `P`. -/
theorem within_iff_exists_path :
    Within P E a b ↔ ∃ path, IsPath E a b path ∧ ∀ v ∈ path, P v := by
  constructor
  · intro h
    refine h.head_induction (motive := fun u => ∃ path, IsPath E u b path ∧ ∀ v ∈ path, P v) ?_ ?_
    · intro hb
      exact ⟨[b], ⟨.singleton b, rfl, rfl⟩, by simpa using hb⟩
    · rintro u v hu he _ ⟨path, hpath, hall⟩
      exact ⟨u :: path, hpath.cons he, List.forall_mem_cons.2 ⟨hu, hall⟩⟩
  · rintro ⟨path, ⟨hchain, hhead, hlast⟩, hall⟩
    induction path generalizing a with
    | nil => cases hhead
    | cons u path ih =>
      obtain rfl := Option.some.inj hhead
      obtain ⟨hu, hall⟩ := List.forall_mem_cons.1 hall
      cases path with
      | nil =>
        obtain rfl := Option.some.inj hlast
        exact .refl hu
      | cons v vs =>
        obtain ⟨he, hchain⟩ := List.isChain_cons_cons.1 hchain
        rw [List.getLast?_cons_cons] at hlast
        exact .head hu he (ih hall hchain rfl hlast)

theorem reaches_iff_exists_path : Reaches E a b ↔ ∃ path, IsPath E a b path := by
  rw [← within_true, within_iff_exists_path]
  simp

/-- A path with a vertex outside `P` has a last one. -/
theorem exists_last (P : V → Prop) (h : Reaches E a b) :
    Within P E a b ∨ ¬ P b ∨
      ∃ u v, ¬ P u ∧ Reaches E a u ∧ E u v ∧ Within P E v b := by
  induction h with
  | refl =>
    by_cases ha : P a
    · exact .inl (.refl ha)
    · exact .inr (.inl ha)
  | @tail b c hab he ih =>
    by_cases hc : P c
    · rcases ih with ih | hb | ⟨u, v, hu, hau, huv, hv⟩
      · exact .inl (ih.tail he hc)
      · exact .inr (.inr ⟨b, c, hb, hab, he, .refl hc⟩)
      · exact .inr (.inr ⟨u, v, hu, hau, huv, hv.tail he hc⟩)
    · exact .inr (.inl hc)

/-- A path that ends outside `P` has a first vertex outside `P`. -/
theorem exists_first (h : Reaches E a b) (hb : ¬ P b) :
    ¬ P a ∨ ∃ u v, Within P E a u ∧ E u v ∧ ¬ P v := by
  by_cases ha : P a
  · right
    induction h using ReflTransGen.head_induction_on with
    | refl => exact absurd ha hb
    | @head u v he _ ih =>
      by_cases hv : P v
      · obtain ⟨w, z, hw, hwz, hz⟩ := ih hv
        exact ⟨w, z, .head ha he hw, hwz, hz⟩
      · exact ⟨u, v, .refl ha, he, hv⟩
  · exact .inl ha

/-- Before its first visit to `b`, a path does not meet `b`. -/
theorem exists_arrival (h : Reaches E a b) : a = b ∨ ∃ u, Avoids E b a u ∧ E u b := by
  rcases exists_first (P := (· ≠ b)) h (by simp) with ha | ⟨u, v, hu, he, hv⟩
  · exact .inl (by simpa using ha)
  · have hv : v = b := by simpa using hv
    exact .inr ⟨u, hu, hv ▸ he⟩

/-! ## Dominance -/

theorem Dominates.reaches (h : Dominates E r a b) : Reaches E r b := h.1

theorem Dominates.refl (h : Reaches E r a) : Dominates E r a a :=
  ⟨h, fun k => k.right rfl⟩

theorem dominates_root (h : Reaches E r a) : Dominates E r r a :=
  ⟨h, fun k => k.left rfl⟩

theorem Dominates.of_avoids (h : Dominates E r a c) (k : Avoids E a b c) (hb : Reaches E r b) :
    Dominates E r a b :=
  ⟨hb, fun hab => h.2 (Within.trans hab k)⟩

/-- A vertex within reach is dominated by the vertices that are on every path to it. -/
theorem dominates_iff_forall_path :
    Dominates E r a b ↔ Reaches E r b ∧ ∀ path, IsPath E r b path → a ∈ path := by
  rw [Dominates, Avoids, within_iff_exists_path]
  refine and_congr_right fun _ => ⟨fun h path hpath => ?_, ?_⟩
  · by_contra ha
    exact h ⟨path, hpath, fun v hv hva => ha (hva ▸ hv)⟩
  · rintro h ⟨path, hpath, hall⟩
    exact hall a (h path hpath) rfl

/-- A dominator is met on every path. -/
theorem Dominates.mem (h : Dominates E r a b) : Reaches E r a ∧ (a = b ∨ ∃ v, E a v ∧
    Avoids E a v b) := by
  rcases exists_last (· ≠ a) h.1 with hp | hb | ⟨u, v, hu, hru, he, hv⟩
  · exact absurd hp h.2
  · have hb : b = a := by simpa using hb
    exact ⟨hb ▸ h.1, .inl hb.symm⟩
  · have hu : u = a := by simpa using hu
    exact ⟨hu ▸ hru, .inr ⟨v, hu ▸ he, hv⟩⟩

theorem Dominates.root_reaches (h : Dominates E r a b) : Reaches E r a := h.mem.1

theorem Dominates.trans (h : Dominates E r a b) (k : Dominates E r b c) : Dominates E r a c := by
  refine ⟨k.1, fun hp => k.2 (Within.upgrade_left (P := (· ≠ a)) (fun v hv hvb => ?_) hp)⟩
  exact h.2 (hvb ▸ hv)

theorem Dominates.antisymm (h : Dominates E r a b) (k : Dominates E r b a) : a = b := by
  -- the first of the two on a path to `b` is reached without the other one
  rcases exists_first (P := fun v => v ≠ a ∧ v ≠ b) h.1 (by simp) with hr | ⟨u, v, hu, he, hv⟩
  · by_cases hra : r = a
    · subst hra
      by_contra hne
      exact k.2 (.refl hne)
    · have hrb : r = b := by
        by_contra hrb
        exact hr ⟨hra, hrb⟩
      subst hrb
      by_contra hne
      exact h.2 (.refl (Ne.symm hne))
  · by_contra hne
    by_cases hva : v = a
    · subst hva
      exact k.2 ((hu.mono fun _ hw => hw.2).tail he hne)
    · have hvb : v = b := by
        by_contra hvb
        exact hv ⟨hva, hvb⟩
      subst hvb
      exact h.2 ((hu.mono fun _ hw => hw.1).tail he (Ne.symm hne))

/-- The dominators of a vertex form a chain. -/
theorem Dominates.total (h : Dominates E r a c) (k : Dominates E r b c) :
    Dominates E r a b ∨ Dominates E r b a := by
  by_contra hne
  rw [not_or] at hne
  have hab : Avoids E a r b := by
    by_contra hab
    exact hne.1 ⟨k.root_reaches, hab⟩
  have hba : Avoids E b r a := by
    by_contra hba
    exact hne.2 ⟨h.root_reaches, hba⟩
  -- behind the last of the two on a path to `c`, neither is met again
  rcases exists_last (fun v => v ≠ a ∧ v ≠ b) h.1 with hp | hc | ⟨u, v, hu, _, he, hv⟩
  · exact h.2 (hp.mono fun _ hw => hw.1)
  · by_cases hca : c = a
    · exact k.2 (hca ▸ hba)
    · have hcb : c = b := by
        by_contra hcb
        exact hc ⟨hca, hcb⟩
      exact h.2 (hcb ▸ hab)
  · by_cases hua : u = a
    · subst hua
      exact k.2 (Within.trans (hba.tail he hv.left.2) (hv.mono fun _ hw => hw.2))
    · have hub : u = b := by
        by_contra hub
        exact hu ⟨hua, hub⟩
      subst hub
      exact h.2 (Within.trans (hab.tail he hv.left.1) (hv.mono fun _ hw => hw.1))

end LoopClock.Graph
