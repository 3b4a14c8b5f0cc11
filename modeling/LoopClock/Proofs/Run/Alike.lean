import LoopClock.Trace.Traced

/-! Computations that do the same apart from events nobody asks for. -/
namespace LoopClock.Traced

variable {α β γ δ ω : Type}

instance : LawfulMonad Traced := .mk' Traced
  (fun x => congrArg (Traced.mk x.val) (List.append_nil x.events))
  (fun _ _ => rfl)
  (fun x f g => congrArg (Traced.mk _) (List.append_assoc x.events _ _))

@[simp] theorem val_map (g : α → β) (x : Traced α) : (g <$> x).val = g x.val := rfl

@[simp] theorem events_map (g : α → β) (x : Traced α) : (g <$> x).events = x.events :=
  List.append_nil x.events

/-- `x` does what `y` does, seen through `f`, and `view` finds the same in the events of both. -/
structure Like (view : Event → Option ω) (f : α → β) (x : Traced α) (y : Traced β) : Prop where
  val : f x.val = y.val
  seen : x.events.filterMap view = y.events.filterMap view

namespace Like

variable {view : Event → Option ω} {f : α → β} {g : γ → δ}

theorem bind {x : Traced α} {y : Traced β} {k : α → Traced γ} {m : β → Traced δ}
    (h : Like view f x y) (hk : Like view g (k x.val) (m y.val)) :
    Like view g (x >>= k) (y >>= m) :=
  ⟨hk.val, by rw [events_bind, events_bind, List.filterMap_append, List.filterMap_append, h.seen,
    hk.seen]⟩

/-- What nobody sees may be left out. -/
theorem silent {x : Traced α} {k : α → Traced γ} {y : Traced δ}
    (hx : x.events.filterMap view = []) (hk : Like view g (k x.val) y) :
    Like view g (x >>= k) y :=
  ⟨hk.val, by rw [events_bind, List.filterMap_append, hx, List.nil_append, hk.seen]⟩

theorem unheard {x : Traced γ} {y : Traced β} {m : β → Traced δ}
    (hy : y.events.filterMap view = []) (hm : Like view g x (m y.val)) :
    Like view g x (y >>= m) :=
  ⟨hm.val, by rw [events_bind, List.filterMap_append, hy, List.nil_append, hm.seen]⟩

/-- A result may be put in another form in the end. -/
theorem mapped {x : Traced α} {y : Traced δ} {f : α → δ} {g : γ → δ} {k : α → γ}
    (h : Like view f x y) (hk : g (k x.val) = f x.val) :
    Like view g (x >>= fun a => pure (k a)) y :=
  ⟨hk.trans h.val, by rw [events_bind, events_pure, List.append_nil, h.seen]⟩

theorem foldlM {ι : Type} {I : α → Prop} {k : α → ι → Traced α} {m : β → ι → Traced β}
    (is : List ι)
    (step : ∀ a i, I a → Like view f (k a i) (m (f a) i) ∧ I (k a i).val) (a : α) (ha : I a) :
    Like view f (is.foldlM k a) (is.foldlM m (f a)) := by
  induction is generalizing a with
  | nil => exact ⟨rfl, rfl⟩
  | cons i is ih =>
    obtain ⟨h, hi⟩ := step a i ha
    rw [List.foldlM_cons, List.foldlM_cons]
    refine h.bind ?_
    rw [← h.val]
    exact ih _ hi

end Like
end LoopClock.Traced
