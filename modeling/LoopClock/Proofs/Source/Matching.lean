import LoopClock.Source.Match
import Mathlib.Data.List.TakeWhile

/-! What a matcher makes of a text, apart from where a failure is blamed: it takes a value off the
front and leaves the rest, or it refuses. Repetition is unrolled into runs of single matches. -/
namespace LoopClock.Source.Matcher

variable {α β : Type} {m p q : Matcher α} {f : α → Matcher β} {s r t : List Char} {a : α} {b : β}

/-- `m` takes `a` off the front of `s` and leaves `r`. -/
def Reads (m : Matcher α) (s : List Char) (a : α) (r : List Char) : Prop :=
  (m s).result = some (a, r)

def Refuses (m : Matcher α) (s : List Char) : Prop := (m s).result = none

/-- Whatever `m` takes off the front of `s`, the rest is one of `P`. -/
def Leaves (m : Matcher α) (s : List Char) (P : List Char → Prop) : Prop :=
  ∀ a r, Reads m s a r → P r

/-- Whatever `m` takes off the front of a text is one of `P`. -/
def Gives (m : Matcher α) (P : α → Prop) : Prop := ∀ s a r, Reads m s a r → P a

/-! ## Single matches -/

theorem result_bind (m : Matcher α) (f : α → Matcher β) (s : List Char) :
    ((m >>= f) s).result = (m s).result.bind fun x => (f x.1 x.2).result := by
  simp only [bind]
  split
  · next h => rw [h]; rfl
  · next h => rw [h]; rfl

theorem result_or (p q : Matcher α) (s : List Char) :
    ((p.or q) s).result = (p s).result.or (q s).result := by
  unfold Matcher.or
  split
  · next h => rw [h]; rfl
  · next h =>
    cases hr : (p s).result with
    | none =>
      have hp : p s = ⟨none, (p s).deepest⟩ := by rw [← hr]
      exact absurd hp (h _)
    | some x => rfl

theorem result_rule (p : Matcher α) (s : List Char) : ((rule p) s).result = (p s).result := by
  unfold rule
  split
  · next h => rw [h]
  · rfl

theorem reads_bind_iff :
    Reads (m >>= f) s b t ↔ ∃ a r, Reads m s a r ∧ Reads (f a) r b t := by
  simp only [Reads, result_bind, Option.bind_eq_some_iff, Prod.exists]

theorem reads_pure_iff {a' : α} : Reads (pure a : Matcher α) s a' r ↔ a = a' ∧ s = r := by
  show some (a, s) = some (a', r) ↔ _
  simp

theorem reads_or_iff :
    Reads (p.or q) s a r ↔ Reads p s a r ∨ (Refuses p s ∧ Reads q s a r) := by
  simp only [Reads, Refuses, result_or, Option.or_eq_some_iff]

theorem Reads.pure (a : α) (s : List Char) : Reads (pure a : Matcher α) s a s := rfl

theorem Reads.bind (h : Reads m s a r) (hf : Reads (f a) r b t) : Reads (m >>= f) s b t :=
  reads_bind_iff.2 ⟨a, r, h, hf⟩

theorem Reads.map {g : α → β} (h : Reads m s a r) : Reads (g <$> m) s (g a) r :=
  Reads.bind h (.pure (g a) r)

theorem Reads.left (h : Reads p s a r) : Reads (p.or q) s a r := by
  rw [Reads, result_or, show (p s).result = _ from h]
  rfl

theorem Reads.right (hp : Refuses p s) (h : Reads q s a r) : Reads (p.or q) s a r := by
  rw [Reads, result_or, show (p s).result = _ from hp, Option.none_or]
  exact h

theorem Reads.rule (h : Reads p s a r) : Reads (rule p) s a r := (result_rule p s).trans h

theorem Reads.optional (h : Reads p s a r) : Reads (optional p) s (some a) r :=
  .left (.map h)

theorem Reads.unique (h : Reads m s a r) {a' : α} {r' : List Char} (h' : Reads m s a' r') :
    a = a' ∧ r = r' := by
  have h := h.symm.trans h'
  simpa using h

theorem Refuses.not_reads (h : Refuses m s) : ¬Reads m s a r := fun hr => nomatch hr.symm.trans h

theorem refuses_or_reads (m : Matcher α) (s : List Char) :
    Refuses m s ∨ ∃ a r, Reads m s a r := by
  cases h : (m s).result with
  | none => exact .inl h
  | some x => exact .inr ⟨x.1, x.2, h⟩

theorem Refuses.bind (h : Refuses m s) : Refuses (m >>= f) s := by
  rw [Refuses, result_bind, show (m s).result = _ from h]
  rfl

theorem Refuses.map {g : α → β} (h : Refuses m s) : Refuses (g <$> m) s := Refuses.bind h

theorem Refuses.or (hp : Refuses p s) (hq : Refuses q s) : Refuses (p.or q) s := by
  rw [Refuses, result_or, show (p s).result = _ from hp]
  exact hq

theorem Refuses.choice {ms : List (Matcher α)} (h : ∀ m ∈ ms, Refuses m s) :
    Refuses (choice ms) s := by
  induction ms with
  | nil => rfl
  | cons m ms ih =>
    exact (h m List.mem_cons_self).or (ih fun n hn => h n (List.mem_cons_of_mem m hn))

/-- Where all other alternatives refuse, one decides. -/
theorem result_choice (ms ns : List (Matcher α)) (h : ∀ n ∈ ms ++ ns, Refuses n s) :
    (choice (ms ++ m :: ns) s).result = (m s).result := by
  have hns : Refuses (Matcher.choice ns) s :=
    .choice fun n hn => h n (List.mem_append_right ms hn)
  induction ms with
  | nil =>
    show ((m.or (Matcher.choice ns)) s).result = _
    rw [result_or, show (Matcher.choice ns s).result = _ from hns, Option.or_none]
  | cons n ms ih =>
    show ((n.or (Matcher.choice (ms ++ m :: ns))) s).result = _
    rw [result_or, show (n s).result = _ from h n List.mem_cons_self, Option.none_or]
    exact ih fun n' hn' => h n' (List.mem_cons_of_mem n hn')

theorem Refuses.rule (h : Refuses p s) : Refuses (rule p) s := (result_rule p s).trans h

theorem Refuses.optional (h : Refuses p s) : Reads (optional p) s none s :=
  .right (.map h) (.pure none s)

/-- After a part that is read, the others decide. -/
theorem Reads.refuses (h : Reads m s a r) (hf : Refuses (f a) r) : Refuses (m >>= f) s := by
  rw [Refuses, result_bind, show (m s).result = _ from h]
  exact hf

/-! ## What is left over -/

variable {P Q : List Char → Prop}

theorem Refuses.leaves (h : Refuses m s) : Leaves m s P := fun _ _ hr => absurd hr h.not_reads

theorem Leaves.refuses (h : Leaves m s P) (hP : ∀ r, ¬P r) : Refuses m s :=
  (refuses_or_reads m s).resolve_right fun ⟨a, r, hr⟩ => hP r (h a r hr)

theorem Reads.leaves (h : Reads m s a r) (hr : P r) : Leaves m s P :=
  fun _ _ h' => (h.unique h').2 ▸ hr

theorem Reads.leaves_bind (h : Reads m s a r) (hf : Leaves (f a) r P) : Leaves (m >>= f) s P := by
  intro b t hb
  obtain ⟨a', r', ha, hb⟩ := reads_bind_iff.1 hb
  obtain ⟨rfl, rfl⟩ := h.unique ha
  exact hf b t hb

theorem Leaves.bind (h : Leaves m s P) (hf : ∀ a r, P r → Leaves (f a) r Q) :
    Leaves (m >>= f) s Q := by
  intro b t hb
  obtain ⟨a, r, ha, hb⟩ := reads_bind_iff.1 hb
  exact hf a r (h a r ha) b t hb

/-- A rest at which the next part refuses ends the match. -/
theorem Leaves.blocks (h : Leaves m s P) (hf : ∀ a r, P r → Refuses (f a) r) :
    Refuses (m >>= f) s :=
  Leaves.refuses (P := fun _ => False) (h.bind fun a r hr => (hf a r hr).leaves) fun _ => id

theorem Leaves.map {g : α → β} (h : Leaves m s P) : Leaves (g <$> m) s P :=
  h.bind fun _ _ hr => (Reads.pure _ _).leaves hr

theorem Leaves.or (hp : Leaves p s P) (hq : Leaves q s P) : Leaves (p.or q) s P := by
  intro a r h
  obtain hr | ⟨a', r', hr⟩ := refuses_or_reads p s
  · obtain hr' | ⟨a', r', hr'⟩ := refuses_or_reads q s
    · exact absurd h (hr.or hr').not_reads
    · obtain ⟨rfl, rfl⟩ := (Reads.right hr hr').unique h
      exact hq _ _ hr'
  · obtain ⟨rfl, rfl⟩ := (hr.left (q := q)).unique h
    exact hp _ _ hr

theorem Leaves.rule (h : Leaves p s P) : Leaves (Matcher.rule p) s P :=
  fun a r hr => h a r ((result_rule p s).symm.trans hr)

/-! ## What is given -/

section
variable {A : α → Prop} {B : β → Prop}

omit A B in
theorem gives_true (m : Matcher α) : Gives m fun _ => True := fun _ _ _ _ => trivial

theorem Gives.pure (h : A a) : Gives (pure a : Matcher α) A :=
  fun _ _ _ hr => (reads_pure_iff.1 hr).1 ▸ h

theorem Gives.bind (h : Gives m A) (hf : ∀ a, A a → Gives (f a) B) : Gives (m >>= f) B := by
  intro s b t hb
  obtain ⟨a, r, ha, hb⟩ := reads_bind_iff.1 hb
  exact hf a (h s a r ha) r b t hb

theorem Gives.map {g : α → β} (h : Gives m A) (hg : ∀ a, A a → B (g a)) : Gives (g <$> m) B :=
  h.bind fun a ha => .pure (hg a ha)

theorem Gives.or (hp : Gives p A) (hq : Gives q A) : Gives (p.or q) A :=
  fun s a r h => (reads_or_iff.1 h).elim (hp s a r) fun h => hq s a r h.2

theorem Gives.choice {ms : List (Matcher α)} (h : ∀ m ∈ ms, Gives m A) : Gives (choice ms) A := by
  induction ms with
  | nil => exact fun _ _ _ hr => nomatch hr
  | cons m ms ih =>
    exact (h m List.mem_cons_self).or (ih fun n hn => h n (List.mem_cons_of_mem m hn))

theorem Gives.rule (h : Gives p A) : Gives (rule p) A :=
  fun s a r hr => h s a r ((result_rule p s).symm.trans hr)

theorem Gives.gap (h : Gives p A) : Gives (gap p) A := fun s a r hr => h (dropGap s) a r hr

theorem Gives.optional (h : Gives p A) : Gives (optional p) fun o => ∀ a ∈ o, A a :=
  (h.map fun _ ha _ hb => Option.some.inj hb ▸ ha).or (.pure fun _ ha => nomatch ha)

theorem Gives.many (h : Gives p A) : Gives (many p) fun as => ∀ a ∈ as, A a := by
  intro s
  induction s using many.induct p with
  | case1 s d hp =>
    intro as r hr
    have hr : (Matcher.many p s).result = some (as, r) := hr
    rw [Matcher.many, hp] at hr
    obtain ⟨rfl, -⟩ := Prod.mk.inj (Option.some.inj hr)
    exact fun _ ha => nomatch ha
  | case2 s a r d hp hlt ih =>
    intro as t hr
    have ha : A a := h s a r (congrArg Match.result hp)
    have hr : (Matcher.many p s).result = some (as, t) := hr
    rw [Matcher.many, hp] at hr
    simp only [if_pos hlt] at hr
    obtain ⟨⟨as', t'⟩, hmany, heq⟩ := Option.map_eq_some_iff.1 hr
    obtain ⟨rfl, rfl⟩ := Prod.mk.inj heq
    rw [List.forall_mem_cons]
    exact ⟨ha, ih as' t' hmany⟩
  | case3 s a r d hp hlt =>
    intro as t hr
    have ha : A a := h s a r (congrArg Match.result hp)
    have hr : (Matcher.many p s).result = some (as, t) := hr
    rw [Matcher.many, hp] at hr
    simp only [if_neg hlt] at hr
    obtain ⟨rfl, -⟩ := Prod.mk.inj (Option.some.inj hr)
    simpa using ha

theorem Gives.spaced (h : Gives p A) : Gives (spaced p) fun as => ∀ a ∈ as, A a := by
  refine h.optional.bind fun o ho => ?_
  cases o with
  | none => exact .pure fun _ ha => nomatch ha
  | some a => exact h.gap.many.bind fun as has => .pure (List.forall_mem_cons.2 ⟨ho a rfl, has⟩)

/-- A list that is not empty. -/
def Some (A : α → Prop) (as : List α) : Prop := as ≠ [] ∧ ∀ a ∈ as, A a

theorem Gives.spaced₁ (h : Gives p A) : Gives (spaced₁ p) (Some A) :=
  h.bind fun a ha => h.spaced.gap.bind fun as has =>
    .pure ⟨List.cons_ne_nil a as, List.forall_mem_cons.2 ⟨ha, has⟩⟩

theorem Gives.listed₁ (h : Gives p A) : Gives (listed₁ p) (Some A) :=
  h.bind fun a ha => ((gives_true _).bind fun _ _ => h.gap).spaced.gap.bind fun as has =>
    .pure ⟨List.cons_ne_nil a as, List.forall_mem_cons.2 ⟨ha, has⟩⟩

theorem Gives.parenthesized (h : Gives p A) : Gives (parenthesized p) fun as => ∀ a ∈ as, A a := by
  refine (gives_true _).bind fun _ _ => h.listed₁.optional.gap.bind fun o ho => ?_
  refine (gives_true _).bind fun _ _ => .pure ?_
  cases o with
  | none => exact fun _ ha => nomatch ha
  | some as => exact (ho as rfl).2

end

/-! ## Words, gaps and runs of characters -/

theorem dropWord_append (w s : List Char) : dropWord w (w ++ s) = some s := by
  induction w with
  | nil => rfl
  | cons c w ih => simpa [dropWord] using ih

theorem reads_word (w : String) (s : List Char) : Reads (word w) (w.toList ++ s) () s := by
  simp [Reads, word, dropWord_append]

theorem refuses_word {w : String} (h : dropWord w.toList s = none) : Refuses (word w) s := by
  simp [Refuses, word, h]

/-- No gap stands in front of the text. -/
def Visible (s : List Char) : Prop := dropGap s = s

theorem visible_cons {c : Char} (h : isSpace c = false) (hc : c ≠ ';') : Visible (c :: s) := by
  rw [Visible, dropGap, List.dropWhile_cons, h]
  simp [hc]

theorem dropGap_space (s : List Char) : dropGap (' ' :: s) = dropGap s := rfl

theorem length_dropGap_le (s : List Char) : (dropGap s).length ≤ s.length := by
  have h := (List.dropWhile_sublist isSpace (l := s)).length_le
  unfold dropGap
  split
  · next r hr =>
    rw [hr, List.length_cons] at h
    have hr' := (List.dropWhile_sublist (fun c => !isNewline c) (l := r)).length_le
    omega
  · exact h

theorem Reads.gap (hs : Visible s) (h : Reads p s a r) : Reads (gap p) s a r := by
  rw [Reads, Matcher.gap, hs]
  exact h

theorem Reads.space (hs : Visible s) (h : Reads p s a r) : Reads (Matcher.gap p) (' ' :: s) a r := by
  rw [Reads, Matcher.gap, dropGap_space, hs]
  exact h

theorem Refuses.gap (hs : Visible s) (h : Refuses p s) : Refuses (gap p) s := by
  rw [Refuses, Matcher.gap, hs]
  exact h

theorem Refuses.space (hs : Visible s) (h : Refuses p s) : Refuses (Matcher.gap p) (' ' :: s) := by
  rw [Refuses, Matcher.gap, dropGap_space, hs]
  exact h

theorem Leaves.gap (hs : Visible s) (h : Leaves p s P) : Leaves (Matcher.gap p) s P := by
  intro a r hr
  rw [Reads, Matcher.gap, hs] at hr
  exact h a r hr

theorem Leaves.space (hs : Visible s) (h : Leaves p s P) : Leaves (Matcher.gap p) (' ' :: s) P := by
  intro a r hr
  rw [Reads, Matcher.gap, dropGap_space, hs] at hr
  exact h a r hr

/-- The text does not go on with a character of the class. -/
def Ends (c : Char → Bool) (s : List Char) : Prop := ∀ d ∈ s.head?, c d = false

theorem reads_run {c : Char → Bool} {cs : List Char} (hne : cs ≠ []) (hc : ∀ d ∈ cs, c d = true)
    (hs : Ends c s) : Reads (run c) (cs ++ s) cs s := by
  have htake : (cs ++ s).takeWhile c = cs := by
    rw [List.takeWhile_append_of_pos hc]
    cases s with
    | nil => simp
    | cons d s => simp [hs d rfl]
  have hdrop : (cs ++ s).dropWhile c = s := by
    rw [List.dropWhile_append_of_pos hc]
    cases s with
    | nil => rfl
    | cons d s => simp [hs d rfl]
  rw [Reads, run, htake, hdrop]
  cases cs with
  | nil => exact absurd rfl hne
  | cons d cs => rfl

theorem gives_run (c : Char → Bool) : Gives (run c) fun cs => cs ≠ [] ∧ ∀ d ∈ cs, c d = true := by
  intro s cs r h
  rw [Reads, run] at h
  split at h
  · cases h
  · next hne =>
    obtain ⟨rfl, -⟩ := Prod.mk.inj (Option.some.inj h)
    exact ⟨hne, fun d hd => by simpa using List.mem_takeWhile_imp hd⟩

/-! ## Matches that depend -/

/-- `m` takes `a` off the front of `s` and leaves `r`, provided that `P` holds. Otherwise it gets
stuck at a rest of `E`. -/
structure ReadsIf (P : Prop) (m : Matcher α) (s : List Char) (a : α) (r : List Char)
    (E : List Char → Prop) : Prop where
  reads : P → Reads m s a r
  stuck : ¬P → Leaves m s E

section
variable {A B : Prop} {E F : List Char → Prop}

theorem Reads.readsIf (h : Reads m s a r) : ReadsIf True m s a r E := ⟨fun _ => h, (absurd trivial ·)⟩

theorem ReadsIf.congr (hAB : A ↔ B) (h : ReadsIf A m s a r E) : ReadsIf B m s a r E :=
  ⟨fun hb => h.reads (hAB.2 hb), fun hb => h.stuck fun ha => hb (hAB.1 ha)⟩

theorem ReadsIf.mono (h : ReadsIf A m s a r E) (hEF : ∀ t, E t → F t) : ReadsIf A m s a r F :=
  ⟨h.reads, fun ha b t hb => hEF t (h.stuck ha b t hb)⟩

theorem ReadsIf.of_result (heq : (p s).result = (q s).result) (h : ReadsIf A q s a r E) :
    ReadsIf A p s a r E :=
  ⟨fun ha => heq.trans (h.reads ha), fun ha b t hb => h.stuck ha b t (heq.symm.trans hb)⟩

/-- A part that is read whatever the condition. -/
theorem Reads.bindIf (h : Reads m s a r) (hf : ReadsIf B (f a) r b t F) :
    ReadsIf B (m >>= f) s b t F :=
  ⟨fun hb => h.bind (hf.reads hb), fun hb => h.leaves_bind (hf.stuck hb)⟩

/-- Where the first part gets stuck, the second does not get out. -/
theorem ReadsIf.bind (h : ReadsIf A m s a r E) (hE : ∀ a t, E t → Leaves (f a) t F)
    (hf : ReadsIf B (f a) r b t F) : ReadsIf (A ∧ B) (m >>= f) s b t F := by
  refine ⟨fun hab => (h.reads hab.1).bind (hf.reads hab.2), fun hab => ?_⟩
  by_cases ha : A
  · exact (h.reads ha).leaves_bind (hf.stuck fun hb => hab ⟨ha, hb⟩)
  · exact (h.stuck ha).bind hE

/-- The last part, after which a value is made of all parts. -/
theorem ReadsIf.last {g : α → β} (h : ReadsIf A m s a r E) :
    ReadsIf A (m >>= fun x => Pure.pure (g x)) s (g a) r E :=
  ⟨fun ha => (h.reads ha).bind (.pure _ _),
    fun ha => (h.stuck ha).bind fun _ _ ht => (Reads.pure _ _).leaves ht⟩

theorem ReadsIf.rule (h : ReadsIf A m s a r E) : ReadsIf A (Matcher.rule m) s a r E :=
  ⟨fun ha => (h.reads ha).rule, fun ha => (h.stuck ha).rule⟩

theorem ReadsIf.gap (hs : Visible s) (h : ReadsIf A m s a r E) :
    ReadsIf A (Matcher.gap m) s a r E :=
  ⟨fun ha => (h.reads ha).gap hs, fun ha => (h.stuck ha).gap hs⟩

theorem ReadsIf.space (hs : Visible s) (h : ReadsIf A m s a r E) :
    ReadsIf A (Matcher.gap m) (' ' :: s) a r E :=
  ⟨fun ha => (h.reads ha).space hs, fun ha => (h.stuck ha).space hs⟩

end

/-! ## Repetition -/

/-- One match after the other, each of which takes something or gets stuck. -/
inductive RunIf {γ : Type} (A : γ → Prop) (g : γ → α) (p : Matcher α) (E F : List Char → Prop) :
    List Char → List γ → List Char → Prop where
  | nil (s : List Char) : RunIf A g p E F s [] s
  | cons {s r t : List Char} {c : γ} {cs : List γ} :
    ReadsIf (A c) p s (g c) r E → F s → r.length < s.length → RunIf A g p E F r cs t →
      RunIf A g p E F s (c :: cs) t

section
variable {γ : Type} {A : γ → Prop} {g : γ → α} {E F : List Char → Prop} {cs : List γ}

theorem many_of_refuses (h : Refuses p s) : Reads (many p) s [] s := by
  have hp : p s = ⟨none, (p s).deepest⟩ := by rw [← show (p s).result = _ from h]
  show (many p s).result = _
  rw [many, hp]

theorem many_of_reads (h : Reads p s a r) :
    (many p s).result = if r.length < s.length then
      (many p r).result.map fun x => (a :: x.1, x.2) else some ([a], r) := by
  have hp : p s = ⟨some (a, r), (p s).deepest⟩ := by rw [← show (p s).result = _ from h]
  rw [many, hp]
  simp only
  split <;> rfl

/-- A stuck match ends the repetition, before or after it. -/
private theorem leaves_many (h : Leaves p s E) (hE : ∀ r, E r → Refuses p r ∧ F r) (hs : F s) :
    Leaves (many p) s F := by
  intro as t hr
  obtain hp | ⟨a, r, hp⟩ := refuses_or_reads p s
  · obtain ⟨-, rfl⟩ := (many_of_refuses hp).unique hr
    exact hs
  · obtain ⟨hrefuse, hF⟩ := hE r (h a r hp)
    have hmany : (many p s).result = some (as, t) := hr
    rw [many_of_reads hp] at hmany
    split at hmany
    · rw [show (many p r).result = _ from many_of_refuses hrefuse] at hmany
      obtain ⟨-, rfl⟩ := Prod.mk.inj (Option.some.inj hmany)
      exact hF
    · obtain ⟨-, rfl⟩ := Prod.mk.inj (Option.some.inj hmany)
      exact hF

theorem RunIf.many (h : RunIf A g p E F s cs t) (hE : ∀ r, E r → Refuses p r ∧ F r)
    (ht : Refuses p t) : ReadsIf (∀ c ∈ cs, A c) (many p) s (cs.map g) t F := by
  induction h with
  | nil s => exact (many_of_refuses ht).readsIf.congr (by simp)
  | @cons s r t c cs hc hs hlt _ ih =>
    have ih := ih ht
    have step (h : A c) := many_of_reads (hc.reads h)
    simp only [if_pos hlt] at step
    refine ⟨fun hall => ?_, fun hall => ?_⟩
    · obtain ⟨h, hall⟩ := List.forall_mem_cons.1 hall
      refine (step h).trans ?_
      rw [show (Matcher.many p r).result = _ from ih.reads hall]
      rfl
    · by_cases h : A c
      · have hrest := ih.stuck fun hall' => hall (List.forall_mem_cons.2 ⟨h, hall'⟩)
        intro bs u hr
        obtain ⟨x, hx, heq⟩ := Option.map_eq_some_iff.1 ((step h).symm.trans hr)
        obtain ⟨-, rfl⟩ := Prod.mk.inj heq
        exact hrest x.1 x.2 hx
      · exact leaves_many (hc.stuck h) hE hs

/-- With gaps between them, up to a place where none follows. -/
theorem RunIf.spaced (h : RunIf A g (gap p) E F s cs t) (hE : ∀ r, E r → Refuses (gap p) r ∧ F r)
    (hs : Visible s) (ht : Refuses p t) (hv : Visible t) :
    ReadsIf (∀ c ∈ cs, A c) (gap (spaced p)) s (cs.map g) t F := by
  refine .gap hs ?_
  have ht' : Refuses (gap p) t := ht.gap hv
  cases h with
  | nil => exact Reads.readsIf (.bind ht.optional (.pure [] _)) |>.congr (by simp)
  | @cons _ r _ c cs hc hF hlt h =>
    have hc : ReadsIf (A c) p s (g c) r E := by
      refine ⟨fun h => ?_, fun h b u hb => hc.stuck h b u (hb.gap hs)⟩
      have := hc.reads h
      rwa [Reads, Matcher.gap, hs] at this
    have hmany := h.many hE ht'
    refine ⟨fun hall => ?_, fun hall => ?_⟩
    · obtain ⟨h, hall⟩ := List.forall_mem_cons.1 hall
      exact .bind (.optional (hc.reads h)) (.bind (hmany.reads hall) (.pure _ _))
    · by_cases h : A c
      · have hrest := hmany.stuck fun hall' => hall (List.forall_mem_cons.2 ⟨h, hall'⟩)
        exact (hc.reads h).optional.leaves_bind (hrest.bind fun _ _ hr => (Reads.pure _ _).leaves hr)
      · obtain hp | ⟨b, u, hp⟩ := refuses_or_reads p s
        · exact (Reads.bind hp.optional (.pure [] s)).leaves hF
        · obtain ⟨hu, hFu⟩ := hE u (hc.stuck h b u hp)
          exact (Reads.bind hp.optional (.bind (many_of_refuses hu) (.pure [b] u))).leaves hFu

end

end LoopClock.Source.Matcher
