import Mathlib.Data.List.Forall2

/-! Computations that may fail: what is known when they do not. -/
namespace LoopClock

variable {α β σ ε : Type}

theorem bind_eq_ok {x : Except ε α} {f : α → Except ε β} {b : β} :
    (x >>= f) = .ok b ↔ ∃ a, x = .ok a ∧ f a = .ok b := by
  cases x with
  | error e => exact ⟨fun h => (nomatch h), fun ⟨_, h, _⟩ => (nomatch h)⟩
  | ok a => exact ⟨fun h => ⟨a, rfl, h⟩, fun ⟨_, h, hf⟩ => Except.ok.inj h ▸ hf⟩

theorem pure_eq_ok {a b : α} : (pure a : Except ε α) = .ok b ↔ a = b :=
  ⟨fun h => Except.ok.inj h, fun h => congrArg Except.ok h⟩

theorem map_eq_ok {x : Except ε α} {f : α → β} {b : β} :
    f <$> x = .ok b ↔ ∃ a, x = .ok a ∧ f a = b := by
  cases x with
  | error e => exact ⟨fun h => (nomatch h), fun ⟨_, h, _⟩ => (nomatch h)⟩
  | ok a => exact ⟨fun h => ⟨a, rfl, Except.ok.inj h⟩, fun ⟨_, h, hf⟩ => Except.ok.inj h ▸ hf ▸ rfl⟩

/-- What can be decided of an outcome is found by computing it. -/
theorem of_toOption_all (P : α → Prop) [DecidablePred P] {x : Except ε α} {a : α} (hx : x = .ok a)
    (h : x.toOption.all (fun a => decide (P a)) = true) : P a := by
  rw [hx] at h
  exact of_decide_eq_true h

/-- What each step keeps, all steps keep. -/
theorem foldlM_ok_of_mem {f : σ → α → Except ε σ} {I : σ → Prop} {as : List α} {s t : σ}
    (step : ∀ a ∈ as, ∀ s t, I s → f s a = .ok t → I t) (hs : I s)
    (h : as.foldlM f s = .ok t) : I t := by
  induction as generalizing s with
  | nil => exact pure_eq_ok.1 h ▸ hs
  | cons a as ih =>
    obtain ⟨ha, hrest⟩ := List.forall_mem_cons.1 step
    obtain ⟨u, hu, h⟩ := bind_eq_ok.1 h
    exact ih hrest (ha s u hs hu) h

theorem foldlM_ok {f : σ → α → Except ε σ} {I : σ → Prop}
    (step : ∀ s a t, I s → f s a = .ok t → I t) {as : List α} {s t : σ} (hs : I s)
    (h : as.foldlM f s = .ok t) : I t :=
  foldlM_ok_of_mem (fun a _ s t => step s a t) hs h

theorem mapM_ok {f : α → Except ε β} {as : List α} {bs : List β} (h : as.mapM f = .ok bs) :
    List.Forall₂ (fun a b => f a = .ok b) as bs := by
  induction as generalizing bs with
  | nil =>
    rw [List.mapM_nil, pure_eq_ok] at h
    exact h ▸ .nil
  | cons a as ih =>
    rw [List.mapM_cons] at h
    obtain ⟨b, hb, h⟩ := bind_eq_ok.1 h
    obtain ⟨bs', hbs, h⟩ := bind_eq_ok.1 h
    exact pure_eq_ok.1 h ▸ .cons hb (ih hbs)

/-- What succeeds for each member succeeds for the list. -/
theorem mapM_map_ok {γ : Type} {f : α → Except ε β} {g : γ → α} {k : γ → β} {cs : List γ}
    (h : ∀ c ∈ cs, f (g c) = .ok (k c)) : (cs.map g).mapM f = .ok (cs.map k) := by
  induction cs with
  | nil => rfl
  | cons c cs ih =>
    obtain ⟨hc, hrest⟩ := List.forall_mem_cons.1 h
    rw [List.map_cons, List.mapM_cons, hc, ih hrest]
    rfl

theorem mapError_eq_ok {δ : Type} {x : Except ε α} {f : ε → δ} {a : α} :
    x.mapError f = .ok a ↔ x = .ok a := by
  cases x <;> simp [Except.mapError]

end LoopClock
