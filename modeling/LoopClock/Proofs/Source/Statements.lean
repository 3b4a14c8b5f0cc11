import LoopClock.Proofs.Program.Targets
import LoopClock.Proofs.Source.Forms
import LoopClock.Proofs.Source.Written

/-! A statement that is printed is read back by the one form that it has, and by no other. -/
namespace LoopClock.Source.Grammar
open Matcher

variable {s : List Char}

private theorem refuses_defining {n : String} (hn : IsName n) {f : String → Matcher Statement}
    (h : Refuses (f n) (' ' :: s)) : Refuses (rule (target >>= f)) (defining n s) :=
  .rule ((reads_target hn s).refuses h)

private theorem refuses_call {n : String} (hn : IsName n)
    (h : Refuses (gap (Matcher.word "call")) (' ' :: s)) : Refuses call (defining n s) :=
  .rule ((reads_target hn s).optional.refuses h.bind)

/-- Of all forms of statements, only one takes the text. -/
private theorem readsIf_form {A : Prop} {m : Matcher Statement} {a : Statement} {x y r : List Char}
    (ms ns : List (Matcher Statement)) (h : ReadsIf A m x a r Stuck) (hxy : y = x)
    (hrefuse : ∀ n ∈ ms ++ ns, Refuses n x) :
    ReadsIf A (choice (ms ++ m :: ns)) y a r Stuck :=
  .of_result (hxy ▸ result_choice ms ns hrefuse) (hxy ▸ h)

private def refuses {α : Type} (m : Matcher α) (s : List Char) : Bool := (m s).result.isNone

/-- The forms of statements that may start with a name, and whether they refuse what stands behind it. -/
private def named : List (Matcher Statement × (List Char → Bool)) :=
  [(arith, refuses (gap arithOp)), (comp, refuses (gap (Matcher.word "icmp"))),
    (phi, refuses (gap (Matcher.word "phi"))), (alloca, refuses (gap (Matcher.word "alloca"))),
    (load, refuses (gap (Matcher.word "load"))), (gep, refuses (gap (Matcher.word "getelementptr"))),
    (call, refuses (gap (Matcher.word "call")))]

private theorem refuses_named {n : String} (hn : IsName n) : ∀ f ∈ named, f.2 (' ' :: s) = true →
    Refuses f.1 (defining n s) := by
  have hd {α : Type} {m : Matcher α} {k : α → Matcher Statement} {f : String → Matcher Statement}
      (hf : f n = m >>= k) (h : refuses m (' ' :: s) = true) :
      Refuses (rule (target >>= f)) (defining n s) := by
    refine refuses_defining hn ?_
    rw [hf]
    exact Refuses.bind (Option.isNone_iff_eq_none.1 h)
  simp only [named, List.forall_mem_cons]
  exact ⟨hd rfl, hd rfl, hd rfl, hd rfl, hd rfl, hd rfl,
    fun h => refuses_call hn (Option.isNone_iff_eq_none.1 h), by simp⟩

/-- A text that starts with a name is taken by the form at a place of the list, if all other forms that may
start so refuse what comes behind the name. -/
private theorem readsIf_named {A : Prop} {n : String} {a : Statement} {x r y : List Char}
    {f : Matcher Statement × (List Char → Bool)} (hn : IsName n) (i : Nat) (hi : named[i]? = some f)
    (h : ReadsIf A f.1 (defining n x) a r Stuck) (hxy : y = defining n x)
    (hrefuse : (named.eraseIdx i).all (·.2 (' ' :: x)) = true) : ReadsIf A statement y a r Stuck := by
  obtain ⟨hlt, rfl⟩ := List.getElem?_eq_some_iff.1 hi
  have hsplit : statement = choice ((named.take i).map (·.1) ++
      named[i].1 :: ((named.drop (i + 1)).map (·.1) ++ [store, jump, branch, ret])) := by
    rw [← List.cons_append, ← List.append_assoc, ← List.map_cons, ← List.map_append,
      List.getElem_cons_drop, List.take_append_drop]
    rfl
  rw [List.eraseIdx_eq_take_drop_succ, List.all_eq_true] at hrefuse
  rw [hsplit]
  refine readsIf_form _ _ h hxy fun k hk => ?_
  rw [← List.append_assoc, ← List.map_append, List.mem_append] at hk
  rcases hk with hk | hk
  · obtain ⟨g, hg, rfl⟩ := List.mem_map.1 hk
    have hmem : g ∈ named := (List.mem_append.1 hg).elim List.mem_of_mem_take List.mem_of_mem_drop
    exact refuses_named hn g hmem (hrefuse g hg)
  · simp only [List.mem_cons, List.not_mem_nil, or_false] at hk
    rcases hk with rfl | rfl | rfl | rfl <;> rfl

theorem readsIf_phiStatement {φ : Phi} (hφ : φ.IsSpelled) (s : List Char) :
    ReadsIf (∀ v ∈ φ.values, v.IsPlain) statement (φ.text.toList ++ '\n' :: s) φ.statement
      ('\n' :: s) Stuck := by
  obtain ⟨ht, hne, hlabelled, hlabels⟩ := hφ
  have hs : Stops ('\n' :: s) := stops_cons rfl
  have hform := readsIf_phi ht.named hs φ.target.ty hne
    (fun x hx => hlabelled x.1 (List.mem_map_of_mem hx)) hlabels rfl rfl
  have hsource : (φ.source.map fun s => "[" ++ s.1.text ++ ", %" ++ s.2 ++ "]").map String.toList =
      φ.source.map sourceText := by
    simp [sourceText]
  refine .congr (by simp [Phi.values]) (readsIf_named ht.named 2 rfl hform ?_ rfl)
  simp [Phi.text, Temp.text, ht.notGlobal, defining, toList_joined, hsource]

theorem readsIf_instr {i : Instr} (hi : i.IsSpelled) (s : List Char) :
    ReadsIf (∀ v ∈ i.values, v.IsPlain) statement (i.text.toList ++ '\n' :: s) i.statement
      ('\n' :: s) Stuck := by
  have hs : Stops ('\n' :: s) := stops_cons rfl
  obtain ⟨htarget, hcallee, hnamed⟩ := hi
  cases i with
  | arith t op ty lhs rhs =>
    have ht := htarget t rfl
    have hform := readsIf_arith ht.named (hnamed lhs (by simp [Instr.values]))
      (hnamed rhs (by simp [Instr.values])) hs op ty
    refine .congr (by simp [Instr.values]) (readsIf_named ht.named 0 rfl hform ?_ (by cases op <;> rfl))
    simp [Instr.text, Temp.text, ht.notGlobal, defining]
  | comp t op ty lhs rhs =>
    have ht := htarget t rfl
    have hform := readsIf_comp ht.named (hnamed lhs (by simp [Instr.values]))
      (hnamed rhs (by simp [Instr.values])) hs op ty
    refine .congr (by simp [Instr.values]) (readsIf_named ht.named 1 rfl hform ?_ rfl)
    simp [Instr.text, Temp.text, ht.notGlobal, defining]
  | alloca t ty length =>
    have ht := htarget t rfl
    have hform := readsIf_alloca ht.named (hnamed length (by simp [Instr.values])) hs ty
    refine .congr (by simp [Instr.values]) (readsIf_named ht.named 3 rfl hform ?_ rfl)
    simp [Instr.text, Temp.text, ht.notGlobal, defining, typed]
  | store value addr =>
    have hform := readsIf_store (hnamed value (by simp [Instr.values]))
      (hnamed addr (by simp [Instr.values])) hs
    refine .congr (by simp [Instr.values]) (readsIf_form [arith, comp, phi, alloca, load, gep, call]
      [jump, branch, ret] hform ?_ ?_)
    · simp [Instr.text, typed]
    · simp only [List.cons_append, List.nil_append, List.forall_mem_cons]
      exact ⟨rfl, rfl, rfl, rfl, rfl, rfl, rfl, rfl, rfl, rfl, by simp⟩
  | load t ty addr =>
    have ht := htarget t rfl
    have hform := readsIf_load ht.named (hnamed addr (by simp [Instr.values])) hs ty
    refine .congr (by simp [Instr.values]) (readsIf_named ht.named 4 rfl hform ?_ rfl)
    simp [Instr.text, Temp.text, ht.notGlobal, defining, typed]
  | gep t ty addr offset =>
    have ht := htarget t rfl
    have hform := readsIf_gep ht.named (hnamed addr (by simp [Instr.values]))
      (hnamed offset (by simp [Instr.values])) hs ty
    refine .congr (by simp [Instr.values]) (readsIf_named ht.named 5 rfl hform ?_ rfl)
    simp [Instr.text, Temp.text, ht.notGlobal, defining, typed]
  | call t ty callee args =>
    have hargs : ∀ a ∈ args, a.2.IsNamed := fun a ha => hnamed a.2 (List.mem_map_of_mem ha)
    have htexts : (args.map fun a => a.1.text ++ " " ++ a.2.text).map String.toList =
        args.map argumentText := by
      simp [argumentText]
    have hnames : ∀ n ∈ t.map (·.name), IsName n := by
      intro n hn
      obtain ⟨u, hu, rfl⟩ := Option.map_eq_some_iff.1 hn
      exact (htarget u hu).named
    have hform := readsIf_call hnames ty (hcallee callee rfl) hargs ('\n' :: s)
    have hplain : (∀ a ∈ args, a.2.IsPlain) ↔
        ∀ v ∈ (Instr.call t ty callee args).values, v.IsPlain := by
      simp only [Instr.values, List.forall_mem_map]
    refine .congr hplain ?_
    cases t with
    | none =>
      refine readsIf_form [arith, comp, phi, alloca, load, gep] [store, jump, branch, ret] hform ?_ ?_
      · simp [Instr.text, callText, toList_joined, htexts]
      · simp only [List.cons_append, List.nil_append, List.forall_mem_cons]
        exact ⟨rfl, rfl, rfl, rfl, rfl, rfl, rfl, rfl, rfl, rfl, by simp⟩
    | some t =>
      have ht := htarget t rfl
      refine readsIf_named ht.named 6 rfl hform ?_ rfl
      simp [Instr.text, Temp.text, ht.notGlobal, defining, callText, toList_joined, htexts]

theorem readsIf_terminator {t : Terminator} (ht : t.IsSpelled) (s : List Char) :
    ReadsIf (∀ v ∈ t.values, v.IsPlain) statement (t.text.toList ++ '\n' :: s) t.statement
      ('\n' :: s) Stuck := by
  have hs : Stops ('\n' :: s) := stops_cons rfl
  obtain ⟨hlabels, hnamed, hreturns⟩ := ht
  match t with
  | .jump l =>
    have hform := reads_jump (hlabels l (by simp [Terminator.targets])) hs
    refine .congr (by simp [Terminator.values]) (readsIf_form [arith, comp, phi, alloca, load, gep,
      call, store] [branch, ret] (hform.readsIf) ?_ ?_)
    · simp [Terminator.text]
    · simp only [List.cons_append, List.nil_append, List.forall_mem_cons]
      exact ⟨rfl, rfl, rfl, rfl, rfl, rfl, rfl, rfl, refuses_branch _, rfl, by simp⟩
  | .branch ty cond l m =>
    have hl : l.IsSpelled := hlabels l (Terminator.mem_targets_branch.2 (.inl rfl))
    have hm : m.IsSpelled := hlabels m (Terminator.mem_targets_branch.2 (.inr rfl))
    have hform := readsIf_branch ty (hnamed cond (by simp [Terminator.values])) hl hm hs
    refine .congr (by simp [Terminator.values]) (readsIf_form [arith, comp, phi, alloca, load, gep,
      call, store, jump] [ret] hform ?_ ?_)
    · simp [Terminator.text]
    · simp only [List.cons_append, List.nil_append, List.forall_mem_cons]
      cases ty <;> exact ⟨rfl, rfl, rfl, rfl, rfl, rfl, rfl, rfl, rfl, rfl, by simp⟩
  | .ret none =>
    refine .congr (by simp [Terminator.values]) (readsIf_form [arith, comp, phi, alloca, load, gep,
      call, store, jump, branch] [] (reads_retVoid _).readsIf ?_ ?_)
    · simp [Terminator.text]
    · simp only [List.append_nil, List.forall_mem_cons]
      exact ⟨rfl, rfl, rfl, rfl, rfl, rfl, rfl, rfl, rfl, rfl, by simp⟩
  | .ret (some v) =>
    have hform := readsIf_ret (hnamed v (by simp [Terminator.values])) (hreturns v rfl) hs
    refine .congr (by simp [Terminator.values]) (readsIf_form [arith, comp, phi, alloca, load, gep,
      call, store, jump, branch] [] hform ?_ ?_)
    · simp [Terminator.text, typed]
    · simp only [List.append_nil, List.forall_mem_cons]
      exact ⟨rfl, rfl, rfl, rfl, rfl, rfl, rfl, rfl, rfl, rfl, by simp⟩

theorem readsIf_placed {x : Placed} (hx : x.IsSpelled) (s : List Char) :
    ReadsIf (∀ v ∈ x.values, v.IsPlain) statement (x.text.toList ++ '\n' :: s) x.statement
      ('\n' :: s) Stuck := by
  cases x with
  | phi φ => exact readsIf_phiStatement hx s
  | body i => exact readsIf_instr hx s
  | last t => exact readsIf_terminator hx s

end LoopClock.Source.Grammar
