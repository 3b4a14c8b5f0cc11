import LoopClock.Proofs.Source.Bare

/-! What a text is read as does not depend on its comments and on how its newlines are spelled.
Matchers are related on a text and on what is bare of it; one lemma for each way to put matchers
together carries that through the grammar. -/
namespace LoopClock.Source

namespace Matcher

variable {α β : Type} {m p q : Matcher α} {f : α → Matcher β} {s r t u : List Char} {c : Char} {a : α}
  {j k : Nat}

/-- Whatever `m` reads is `k` characters long at least. -/
def Takes (k : Nat) (m : Matcher α) : Prop := ∀ ⦃s a r⦄, Reads m s a r → r.length + k ≤ s.length

namespace Takes

theorem free (h : Takes k m) : Takes 0 m := fun _ _ _ hr => Nat.le_trans (Nat.le_add_right _ k) (h hr)

theorem pure (a : α) : Takes 0 (pure a : Matcher α) := by
  intro s b r h
  obtain ⟨-, rfl⟩ := reads_pure_iff.1 h
  omega

theorem bind (h : Takes j m) (hf : ∀ a, Takes k (f a)) : Takes (j + k) (m >>= f) := by
  intro s b t hb
  obtain ⟨a, r, ha, hr⟩ := reads_bind_iff.1 hb
  have hfirst := h ha
  have hrest := hf a hr
  omega

theorem or (hp : Takes k p) (hq : Takes k q) : Takes k (p.or q) := by
  intro s a r h
  rcases reads_or_iff.1 h with h | ⟨-, h⟩
  · exact hp h
  · exact hq h

theorem optional (h : Takes k m) : Takes 0 (optional m) := (h.free.bind fun a => pure (some a)).or (pure none)

theorem gap (h : Takes k m) : Takes k (gap m) := fun _ _ _ hr => Nat.le_trans (h hr) (length_dropGap_le _)

private theorem reads_many_of_reads (h : Takes 1 m) (hm : Reads m s a r) {as : List α} :
    Reads (Matcher.many m) s as t ↔ ∃ bs, Reads (Matcher.many m) r bs t ∧ as = a :: bs := by
  have hlt := h hm
  have hturn := many_of_reads hm
  rw [if_pos (by omega)] at hturn
  unfold Reads
  rw [hturn, Option.map_eq_some_iff]
  constructor
  · rintro ⟨⟨bs, u⟩, hr, heq⟩
    obtain ⟨rfl, rfl⟩ := Prod.mk.inj heq
    exact ⟨bs, hr, rfl⟩
  · rintro ⟨bs, hr, rfl⟩
    exact ⟨(bs, t), hr, rfl⟩

/-- Each turn takes something, so a repetition ends only where the part refuses. -/
theorem reads_many_iff (h : Takes 1 m) {as : List α} :
    Reads (Matcher.many m) s as t ↔ (Refuses m s ∧ as = [] ∧ t = s) ∨
      ∃ a r bs, Reads m s a r ∧ Reads (Matcher.many m) r bs t ∧ as = a :: bs := by
  constructor
  · intro hr
    rcases refuses_or_reads m s with hm | ⟨a, r, hm⟩
    · obtain ⟨rfl, rfl⟩ := (many_of_refuses hm).unique hr
      exact .inl ⟨hm, rfl, rfl⟩
    · obtain ⟨bs, hrest, has⟩ := (h.reads_many_of_reads hm).1 hr
      exact .inr ⟨a, r, bs, hm, hrest, has⟩
  · rintro (⟨hm, rfl, rfl⟩ | ⟨a, r, bs, hm, hr, has⟩)
    · exact many_of_refuses hm
    · exact (h.reads_many_of_reads hm).2 ⟨bs, hr, has⟩

/-- What holds where nothing more is read, and is kept by each turn backwards, holds of a repetition. -/
theorem many_induction (h : Takes 1 m) {C : List Char → List α → List Char → Prop}
    (stop : ∀ s, Refuses m s → C s [] s)
    (turn : ∀ s a r as t, Reads m s a r → Reads (Matcher.many m) r as t → C r as t → C s (a :: as) t)
    {as : List α} (hr : Reads (Matcher.many m) s as t) : C s as t := by
  induction hn : s.length using Nat.strong_induction_on generalizing s as with
  | _ n ih =>
    rcases h.reads_many_iff.1 hr with ⟨hm, rfl, rfl⟩ | ⟨a, r, bs, hm, hrest, rfl⟩
    · exact stop _ hm
    · have hlt := h hm
      exact turn _ _ _ _ _ hm hrest (ih _ (by omega) hrest rfl)

theorem not_refuses_many (h : Takes 1 m) (s : List Char) : ¬ Refuses (Matcher.many m) s := by
  induction hn : s.length using Nat.strong_induction_on generalizing s with
  | _ n ih =>
    intro hno
    rcases refuses_or_reads m s with hm | ⟨a, r, hm⟩
    · exact hno.not_reads (many_of_refuses hm)
    · have hlt := h hm
      rcases refuses_or_reads (Matcher.many m) r with hr | ⟨as, t, hr⟩
      · exact ih _ (by omega) r rfl hr
      · exact hno.not_reads (h.reads_many_iff.2 (.inr ⟨a, r, as, hm, hr, rfl⟩))

theorem not_refuses_spaced (h : Takes 1 m) (s : List Char) : ¬ Refuses (Matcher.spaced m) s := by
  intro hno
  rcases refuses_or_reads m s with hm | ⟨a, r, hm⟩
  · exact hno.not_reads (.bind hm.optional (.pure [] s))
  · rcases refuses_or_reads (Matcher.many (Matcher.gap m)) r with hr | ⟨as, t, hr⟩
    · exact h.gap.not_refuses_many r hr
    · exact hno.not_reads (.bind hm.optional (.bind hr (.pure _ t)))

theorem many (h : Takes 1 m) : Takes 0 (many m) := by
  intro s as t hr
  apply h.many_induction (C := fun s _ t => t.length + 0 ≤ s.length) _ _ hr
  · intro s _
    omega
  · intro s a r as t ha _ ih
    have hlt := h ha
    omega

theorem spaced (h : Takes 1 m) : Takes 0 (spaced m) :=
  h.optional.bind (k := 0) fun o => by
    cases o with
    | none => exact pure []
    | some a => exact h.gap.many.bind fun as => pure (a :: as)

end Takes

/-! ## Newlines -/

/-- What follows the gaps and newlines in front. -/
def skip (s : List Char) : List Char :=
  match _hs : dropGap s with
  | [] => []
  | c :: r => if isNewline c then skip r else c :: r
termination_by s.length
decreasing_by
  have hle := length_dropGap_le s
  rw [_hs, List.length_cons] at hle
  omega

theorem skip_eq (s : List Char) : skip s = match dropGap s with
    | [] => []
    | c :: r => if isNewline c then skip r else c :: r := by
  rw [skip]
  split <;> next h => rw [h]

theorem skip_of_newline (hs : dropGap s = c :: r) (hc : isNewline c = true) : skip s = skip r := by
  rw [skip_eq, hs]
  exact if_pos hc

theorem skip_of_head (hs : ∀ c ∈ (dropGap s).head?, isNewline c = false) : skip s = dropGap s := by
  rw [skip_eq]
  split
  · next h => exact h.symm
  · next c r h =>
    rw [h] at hs ⊢
    simp [hs c rfl]

theorem dropGap_dropGap (s : List Char) : dropGap (dropGap s) = dropGap s := dropGap_of_head (head_dropGap s)

theorem skip_dropGap (s : List Char) : skip (dropGap s) = skip s := by
  rw [skip_eq, dropGap_dropGap, ← skip_eq]

theorem skip_cons (hc : isNewline c = true) (s : List Char) : skip (c :: s) = skip s := by
  obtain ⟨hspace, hcomment⟩ := not_space_of_newline hc
  exact skip_of_newline (visible_cons hspace hcomment) hc

theorem skip_dropWhile (s : List Char) : skip (s.dropWhile isNewline) = skip s := by
  induction s with
  | nil => rfl
  | cons c s ih =>
    cases hc : isNewline c with
    | true => rw [List.dropWhile_cons_of_pos hc, ih, skip_cons hc]
    | false => rw [List.dropWhile_cons_of_neg (by simp [hc])]

theorem skip_bare (s : List Char) : skip (bare s) = bare (skip s) := by
  induction hn : s.length using Nat.strong_induction_on generalizing s with
  | _ n ih =>
    have hle := length_dropGap_le s
    cases hs : dropGap s with
    | nil =>
      have hb : dropGap (bare s) = [] := by rw [dropGap_bare, hs]; rfl
      rw [skip_of_head (s := bare s) (by simp [hb]), skip_of_head (by simp [hs]), dropGap_bare]
    | cons c r =>
      rw [hs, List.length_cons] at hle
      cases hc : isNewline c with
      | true =>
        have hb : dropGap (bare s) = '\n' :: (bare r).dropWhile isNewline := by
          rw [dropGap_bare, hs, bare_newline hc]
        rw [skip_of_newline hs hc, skip_of_newline hb rfl, skip_dropWhile, ih _ (by omega) r rfl]
      | false =>
        have hcomment := (head_dropGap s c (by rw [hs]; rfl)).2
        have hb : dropGap (bare s) = c :: bare r := by rw [dropGap_bare, hs, bare_cons hc hcomment]
        rw [skip_of_head (s := bare s) (by simp [hb, hc]), skip_of_head (by simp [hs, hc]), dropGap_bare]

/-- Whichever way the first newline is spelled, the same follows the newlines. -/
theorem reads_newline (hc : isNewline c = true) (s : List Char) :
    ∃ r, Reads newline (c :: s) () r ∧ r.length ≤ s.length ∧ skip r = skip s := by
  simp [isNewline] at hc
  rcases hc with rfl | rfl
  · exact ⟨s, rfl, Nat.le_refl _, rfl⟩
  · by_cases hs : ∃ t, s = '\n' :: t
    · obtain ⟨t, rfl⟩ := hs
      exact ⟨t, rfl, by simp, (skip_cons rfl t).symm⟩
    · have hfeed : dropWord "\r\n".toList ('\r' :: s) = none := by
        cases s with
        | nil => rfl
        | cons d t =>
          have hd : '\n' ≠ d := by
            rintro rfl
            exact hs ⟨t, rfl⟩
          simp [dropWord, hd]
      exact ⟨s, .right rfl (.right (refuses_word hfeed) (.left rfl)), Nat.le_refl _, rfl⟩

theorem refuses_newline_iff : Refuses newline s ↔ ∀ c ∈ s.head?, isNewline c = false := by
  cases s with
  | nil => exact iff_of_true rfl (by simp)
  | cons c s =>
    cases hc : isNewline c with
    | true =>
      obtain ⟨r, hr, -⟩ := reads_newline hc s
      simpa [hc] using fun hno => hno.not_reads hr
    | false =>
      have hne := hc
      simp [isNewline] at hne
      have hno : ∀ w, (w = "\n" ∨ w = "\r\n" ∨ w = "\r") → Refuses (word w) (c :: s) := by
        rintro w (rfl | rfl | rfl) <;> apply refuses_word <;> simp [dropWord, Ne.symm hne.1, Ne.symm hne.2]
      simp [hc, newline, Refuses.choice, hno]

theorem reads_newline_cases {a : Unit} (hr : Reads newline s a r) :
    r.length + 1 ≤ s.length ∧ skip r = skip s := by
  cases s with
  | nil => cases hr
  | cons c s =>
    cases hc : isNewline c with
    | false => exact absurd hr (refuses_newline_iff.2 (by simpa using hc)).not_reads
    | true =>
      obtain ⟨u, hu, hle, hskip⟩ := reads_newline hc s
      rw [(hr.unique hu).2, hskip, skip_cons hc]
      exact ⟨Nat.succ_le_succ hle, rfl⟩

theorem takes_newline : Takes 1 newline := fun _ _ _ hr => (reads_newline_cases hr).1

theorem skip_of_reads_newline {a : Unit} (hr : Reads newline s a r) : skip r = skip s :=
  (reads_newline_cases hr).2

theorem skip_of_refuses_newline (hno : Refuses newline (dropGap s)) : skip s = dropGap s :=
  skip_of_head (refuses_newline_iff.1 hno)

/-- Newlines and the gaps between them are taken to the end. -/
theorem dropGap_of_reads_many {as : List Unit} (hr : Reads (many (gap newline)) s as t) :
    dropGap t = skip s := by
  apply takes_newline.gap.many_induction (C := fun s _ t => dropGap t = skip s) _ _ hr
  · intro s hno
    exact (skip_of_refuses_newline hno).symm
  · intro s _ r _ t ha _ ih
    rw [ih, skip_of_reads_newline ha, skip_dropGap]

theorem dropGap_of_reads_newlines (hr : Reads newlines s () t) : dropGap t = skip s := by
  obtain ⟨_, t', hall, hend⟩ := reads_bind_iff.1 hr
  obtain ⟨-, rfl⟩ := reads_pure_iff.1 hend
  obtain ⟨_, r, hone, hall⟩ := reads_bind_iff.1 hall
  obtain ⟨_, v, hrest, hend⟩ := reads_bind_iff.1 hall
  obtain ⟨-, rfl⟩ := reads_pure_iff.1 hend
  rw [← skip_of_reads_newline hone]
  obtain ⟨o, w, ho, hmore⟩ := reads_bind_iff.1 hrest
  rcases reads_or_iff.1 ho with ho | ⟨hno, ho⟩
  · obtain ⟨_, x, htwo, hend⟩ := reads_bind_iff.1 ho
    obtain ⟨rfl, rfl⟩ := reads_pure_iff.1 hend
    obtain ⟨_, y, hmany, hend⟩ := reads_bind_iff.1 hmore
    obtain ⟨-, rfl⟩ := reads_pure_iff.1 hend
    rw [dropGap_of_reads_many hmany, skip_of_reads_newline htwo, skip_dropGap]
  · obtain ⟨rfl, rfl⟩ := reads_pure_iff.1 ho
    obtain ⟨-, rfl⟩ := reads_pure_iff.1 hmore
    have hno : Refuses newline (dropGap r) := by
      rcases refuses_or_reads newline (dropGap r) with hone | ⟨_, w, hw⟩
      · exact hone
      · exact absurd (Reads.map hw) hno.not_reads
    rw [dropGap_dropGap, skip_of_refuses_newline hno]

/-- After the first newline nothing can fail. -/
theorem refuses_newlines_iff : Refuses newlines s ↔ Refuses newline s := by
  constructor
  · intro hno
    rcases refuses_or_reads newline s with hone | ⟨_, r, hone⟩
    · exact hone
    · rcases refuses_or_reads (gap (spaced newline)) r with hrest | ⟨_, u, hrest⟩
      · exact absurd hrest (takes_newline.not_refuses_spaced _)
      · have hread : Reads newlines s () u := .map (.bind hone (.bind hrest (.pure _ u)))
        exact absurd hread hno.not_reads
  · intro hno
    exact hno.bind.bind

theorem takes_newlines : Takes 1 newlines :=
  (takes_newline.bind fun _ => takes_newline.spaced.gap.bind fun _ => .pure _).bind fun _ => .pure _

/-! ## Related texts -/

/-- Inside a token. -/
def Exact (s t : List Char) : Prop := t = bare s

/-- In front of a construct, where no comment is left. -/
def Start (s t : List Char) : Prop := t = bare s ∧ ∀ d ∈ s.head?, d ≠ ';'

/-- Between the parts of a construct. -/
def Loose (s t : List Char) : Prop := dropGap t = bare (dropGap s)

theorem Exact.loose (h : Exact s t) : Loose s t := by
  rw [Exact] at h
  rw [Loose, h, dropGap_bare]

theorem Start.loose (h : Start s t) : Loose s t := Exact.loose h.1

theorem Loose.start (h : Loose s t) : Start (dropGap s) (dropGap t) :=
  ⟨h, fun d hd => (head_dropGap s d hd).2⟩

/-- On texts that `Q` relates the matcher does the same, and what it leaves of them is related by `R`. It
takes `k` characters at least. -/
structure Blind (k : Nat) (Q R : List Char → List Char → Prop) (m : Matcher α) : Prop where
  reads : ∀ {s t a r}, Q s t → Reads m s a r → ∃ u, Reads m t a u ∧ R r u
  refuses : ∀ {s t}, Q s t → Refuses m s → Refuses m t
  takes : Takes k m

variable {Q R S : List Char → List Char → Prop}

namespace Blind

theorem mono {Q' R' : List Char → List Char → Prop} (h : Blind k Q R m) (hQ : ∀ {s t}, Q' s t → Q s t)
    (hR : ∀ {s t}, R s t → R' s t) : Blind k Q' R' m where
  reads hst hr := by
    obtain ⟨u, hu, hru⟩ := h.reads (hQ hst) hr
    exact ⟨u, hu, hR hru⟩
  refuses hst := h.refuses (hQ hst)
  takes := h.takes

/-- A token at the front of a construct. -/
theorem part (h : Blind k Exact Exact m) : Blind k Start Loose m := h.mono And.left Exact.loose

theorem free (h : Blind k Q R m) : Blind 0 Q R m := ⟨h.reads, h.refuses, h.takes.free⟩

theorem pure (a : α) : Blind 0 Q Q (pure a : Matcher α) where
  reads hst hr := by
    obtain ⟨rfl, rfl⟩ := reads_pure_iff.1 hr
    exact ⟨_, .pure _ _, hst⟩
  refuses _ h := nomatch h
  takes := .pure a

private theorem seq (h : Blind j Q R m) (hf : ∀ a, Blind k R S (f a)) : Blind (j + k) Q S (m >>= f) where
  reads hst hb := by
    obtain ⟨a, r, ha, hb⟩ := reads_bind_iff.1 hb
    obtain ⟨u, hu, hru⟩ := h.reads hst ha
    obtain ⟨v, hv, hbv⟩ := (hf a).reads hru hb
    exact ⟨v, hu.bind hv, hbv⟩
  refuses {s t} hst hno := by
    rcases refuses_or_reads m s with hm | ⟨a, r, hm⟩
    · exact (h.refuses hst hm).bind
    · obtain ⟨u, hu, hru⟩ := h.reads hst hm
      apply hu.refuses
      apply (hf a).refuses hru
      rwa [Refuses, result_bind, show (m s).result = _ from hm] at hno
  takes := h.takes.bind fun a => (hf a).takes

/-- The first part takes something. -/
theorem bind (h : Blind k Q R m) (hf : ∀ a, Blind 0 R S (f a)) : Blind k Q S (m >>= f) := h.seq hf

/-- The rest takes something. -/
theorem after (h : Blind 0 Q R m) (hf : ∀ a, Blind k R S (f a)) : Blind k Q S (m >>= f) := by
  have hs := h.seq hf
  rwa [Nat.zero_add] at hs

theorem map {g : α → β} (h : Blind k Q R m) : Blind k Q R (g <$> m) := h.bind fun a => pure (g a)

theorem or (hp : Blind k Q R p) (hq : Blind k Q R q) : Blind k Q R (p.or q) where
  reads hst hr := by
    rcases reads_or_iff.1 hr with hr | ⟨hno, hr⟩
    · obtain ⟨u, hu, hru⟩ := hp.reads hst hr
      exact ⟨u, hu.left, hru⟩
    · obtain ⟨u, hu, hru⟩ := hq.reads hst hr
      exact ⟨u, .right (hp.refuses hst hno) hu, hru⟩
  refuses hst hno := by
    rw [Refuses, result_or, Option.or_eq_none_iff] at hno
    exact (hp.refuses hst hno.1).or (hq.refuses hst hno.2)
  takes := hp.takes.or hq.takes

theorem choice {ms : List (Matcher α)} (h : ∀ m ∈ ms, Blind k Q R m) : Blind k Q R (choice ms) := by
  induction ms with
  | nil => exact ⟨fun _ hr => (nomatch hr), fun _ _ => rfl, fun _ _ _ hr => (nomatch hr)⟩
  | cons m ms ih =>
    obtain ⟨hm, hms⟩ := List.forall_mem_cons.1 h
    exact hm.or (ih hms)

theorem optional (h : Blind k Q R m) (hQR : ∀ {s t}, Q s t → R s t) : Blind 0 Q R (optional m) :=
  h.free.map.or ((pure none).mono id hQR)

theorem rule (h : Blind k Q R m) : Blind k Q R (rule m) where
  reads {s t a r} hst hr := by
    obtain ⟨u, hu, hru⟩ := h.reads hst ((result_rule m s).symm.trans hr)
    exact ⟨u, hu.rule, hru⟩
  refuses {s t} hst hno := (h.refuses hst ((result_rule m s).symm.trans hno)).rule
  takes {s a r} hr := h.takes ((result_rule m s).symm.trans hr)

theorem behind (h : Blind k Start R m) : Blind k Loose R (gap m) where
  reads hst hr := h.reads hst.start hr
  refuses hst hno := h.refuses hst.start hno
  takes := h.takes.gap

/-- A construct behind a gap, whatever it takes. -/
theorem gap (h : Blind k Start R m) : Blind 0 Loose R (gap m) := h.behind.free

theorem many (h : Blind 1 Q Q m) : Blind 0 Q Q (many m) where
  reads {s t as r} hst hr := by
    apply h.takes.many_induction
      (C := fun s as r => ∀ t, Q s t → ∃ u, Reads (Matcher.many m) t as u ∧ Q r u) _ _ hr t hst
    · intro s hno t hst
      exact ⟨t, many_of_refuses (h.refuses hst hno), hst⟩
    · intro s a r as w ha _ ih t hst
      obtain ⟨u, hu, hru⟩ := h.reads hst ha
      obtain ⟨v, hv, hwv⟩ := ih u hru
      exact ⟨v, h.takes.reads_many_iff.2 (.inr ⟨a, u, as, hu, hv, rfl⟩), hwv⟩
  refuses {s t} _ hno := absurd hno (h.takes.not_refuses_many s)
  takes := h.takes.many

theorem spaced (h : Blind 1 Start Loose m) : Blind 0 Start Loose (spaced m) :=
  (h.optional Start.loose).bind fun o => by
    cases o with
    | none => exact pure []
    | some a => exact h.behind.many.bind fun as => pure (a :: as)

theorem spaced₁ (h : Blind 1 Start Loose m) : Blind 1 Start Loose (spaced₁ m) :=
  h.bind fun a => h.spaced.gap.bind fun as => pure (a :: as)

end Blind

/-! ## Tokens -/

theorem takes_run (p : Char → Bool) : Takes 1 (run p) := by
  intro s cs r hr
  have hcs := (gives_run p _ _ _ hr).1
  rw [Reads, run] at hr
  split at hr
  · cases hr
  · obtain ⟨rfl, rfl⟩ := Prod.mk.inj (Option.some.inj hr)
    have hlen := congrArg List.length (List.takeWhile_append_dropWhile (p := p) (l := s))
    have hpos := List.length_pos_of_ne_nil hcs
    rw [List.length_append] at hlen
    omega

theorem length_dropWord {w : List Char} (h : dropWord w s = some r) : r.length + w.length = s.length := by
  induction w generalizing s with
  | nil =>
    obtain rfl := Option.some.inj h
    rfl
  | cons d w ih =>
    cases s with
    | nil => cases h
    | cons c s =>
      by_cases hd : d = c
      · simp [dropWord, hd] at h
        have hlen := ih h
        simp
        omega
      · simp [dropWord, hd] at h

theorem takes_word {w : String} (hw : w.toList ≠ []) : Takes 1 (word w) := by
  intro s a r hr
  obtain ⟨u, hu, heq⟩ := Option.map_eq_some_iff.1 hr
  obtain ⟨-, rfl⟩ := Prod.mk.inj heq
  have hlen := length_dropWord hu
  have hpos := List.length_pos_of_ne_nil hw
  omega

/-- A word without comments and newlines. -/
def Plain (w : String) : Prop := w.toList ≠ [] ∧ ∀ c ∈ w.toList, c ≠ ';' ∧ isNewline c = false

-- Goes through the characters of the word, where the instance found first goes through all there are.
instance (w : String) : Decidable (Plain w) :=
  @instDecidableAnd _ _ inferInstance (List.decidableBAll _ _)

namespace Blind

theorem of_result (h : ∀ s, (m (bare s)).result = (m s).result.map fun x => (x.1, bare x.2))
    (ht : Takes k m) : Blind k Exact Exact m where
  reads {s t a r} hst hr := by
    obtain rfl : t = bare s := hst
    exact ⟨bare r, by rw [Reads, h, show (m s).result = _ from hr]; rfl, rfl⟩
  refuses {s t} hst hno := by
    obtain rfl : t = bare s := hst
    rw [Refuses, h, show (m s).result = _ from hno]
    rfl
  takes := ht

theorem run {p : Char → Bool} (hp : Solid p) : Blind 1 Exact Exact (run p) := by
  apply of_result _ (takes_run p)
  intro s
  obtain ⟨htake, hdrop⟩ := span_bare hp s
  rw [Matcher.run, Matcher.run, htake, hdrop]
  cases s.takeWhile p <;> rfl

theorem word {w : String} (hw : Plain w) : Blind 1 Exact Exact (word w) := by
  apply of_result _ (takes_word hw.1)
  intro s
  simp [Matcher.word, dropWord_bare hw.2, Function.comp_def]

theorem listed₁ (h : Blind 1 Start Loose m) : Blind 1 Start Loose (listed₁ m) :=
  h.bind fun a => ((word (by decide)).part.bind fun _ => h.gap).spaced.gap.bind fun as => pure (a :: as)

theorem parenthesized (h : Blind 1 Start Loose m) : Blind 1 Start Loose (parenthesized m) :=
  (word (by decide)).part.bind fun _ => (h.listed₁.optional Start.loose).gap.bind fun as =>
    (word (by decide)).part.gap.bind fun _ => pure (as.getD [])

/-! ## Ends -/

theorem newlines : Blind 1 Start Loose newlines where
  reads {s t a r} hst hr := by
    obtain ⟨rfl, hs⟩ := hst
    rcases refuses_or_reads Matcher.newlines (bare s) with hno | ⟨_, u, hu⟩
    · rw [refuses_newlines_iff, refuses_newline_iff, head_bare hs, ← refuses_newline_iff,
        ← refuses_newlines_iff] at hno
      exact absurd hr hno.not_reads
    · refine ⟨u, hu, ?_⟩
      rw [Loose, dropGap_of_reads_newlines hu, dropGap_of_reads_newlines hr, skip_bare]
  refuses {s t} hst hno := by
    obtain ⟨rfl, hs⟩ := hst
    rw [refuses_newlines_iff, refuses_newline_iff, head_bare hs, ← refuses_newline_iff,
      ← refuses_newlines_iff]
    exact hno
  takes := takes_newlines

theorem endOfText : Blind 0 Start Loose endOfText where
  reads {s t a r} hst hr := by
    obtain ⟨rfl, -⟩ := hst
    have hr := (result_rule _ s).symm.trans hr
    by_cases hs : s = []
    · subst hs
      exact ⟨r, hr, by cases hr; rfl⟩
    · simp [hs] at hr
  refuses {s t} hst hno := by
    obtain ⟨rfl, hs⟩ := hst
    have hno := (result_rule _ s).symm.trans hno
    cases s with
    | nil => cases hno
    | cons c s =>
      have hne : bare (c :: s) ≠ [] := by
        rcases cases_char c with rfl | h | ⟨h, hc⟩
        · exact absurd rfl (hs ';' rfl)
        · simp [bare_newline h]
        · simp [bare_cons h hc]
      apply Refuses.rule
      simp [Refuses, hne]
  takes {s a r} hr := by
    have hr := (result_rule _ s).symm.trans hr
    by_cases hs : s = []
    · obtain rfl : r = [] := by simpa [hs] using hr
      simp
    · simp [hs] at hr

end Blind

end Matcher

end LoopClock.Source
