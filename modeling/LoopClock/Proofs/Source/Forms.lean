import LoopClock.Proofs.Source.Tokens

/-! How each form of statement reads its own text. Where a float needs an exponent it gets stuck: in
front of the exponent, or of the comma in front of a member of a list. -/
namespace LoopClock.Source
open Matcher Grammar

variable {s : List Char}

/-! ## Statements -/

/-- Where a statement that was not read as a whole has been left. -/
def Stuck (s : List Char) : Prop := AtExponent s ∨ ∃ t, s = ',' :: t

theorem readsIf_operand {v : Value} (hv : v.IsNamed) (hs : Stops s) :
    ReadsIf v.IsPlain operand (v.text.toList ++ s) v.operand s AtExponent :=
  ⟨fun hp => reads_operand hv hp hs, fun hp => leaves_operand hp s⟩

theorem readsIf_typedOperand (ty : Ty) {v : Value} (hv : v.IsNamed) (hs : Stops s) :
    ReadsIf v.IsPlain typedOperand (ty.text.toList ++ ' ' :: (v.text.toList ++ s)) (ty, v.operand) s
      AtExponent :=
  ⟨fun hp => reads_typedOperand ty hv hp hs, fun hp => leaves_typedOperand ty hp s⟩

theorem reads_comma (s : List Char) : Reads comma (',' :: s) () s := rfl

theorem refuses_comma (h : AtExponent s) : Refuses comma s := by
  obtain ⟨t, rfl⟩ := h
  rfl

theorem reads_arithOp (op : ArithOp) (s : List Char) :
    Reads arithOp (op.text.toList ++ s) op s := by
  cases op <;> rfl

theorem reads_compOp (op : CompOp) (s : List Char) : Reads compOp (op.text.toList ++ s) op s := by
  cases op <;> rfl

theorem visible_arithOp (op : ArithOp) (s : List Char) : Visible (op.text.toList ++ s) := by
  cases op <;> rfl

theorem visible_compOp (op : CompOp) (s : List Char) : Visible (op.text.toList ++ s) := by
  cases op <;> rfl

/-- The left side of a statement in front of the rest of it. -/
def defining (n : String) (s : List Char) : List Char :=
  '%' :: (n.toList ++ ' ' :: '=' :: ' ' :: s)

theorem reads_target {n : String} (hn : IsName n) (s : List Char) :
    Reads target (defining n s) n (' ' :: s) := by
  have hstop : Stops (' ' :: '=' :: ' ' :: s) := stops_cons rfl
  have heq : Reads (gap (word "=")) (' ' :: '=' :: ' ' :: s) () (' ' :: s) := rfl
  exact .bind (reads_localName hn hstop) (.bind heq (.pure n _))

theorem stops_comma (s : List Char) : Stops (',' :: s) := stops_cons rfl

/-! ### Lists -/

/-- Texts with commas between them. -/
def commaList : List (List Char) → List Char
  | [] => []
  | t :: ts => t ++ ts.flatMap (',' :: ' ' :: ·)

private theorem toList_foldl (separator : String) (texts : List String) (t : String) :
    (texts.foldl (fun text u => text ++ separator ++ u) t).toList =
      t.toList ++ texts.flatMap fun u => separator.toList ++ u.toList := by
  induction texts generalizing t with
  | nil => simp
  | cons u texts ih => simp [ih]

theorem toList_joined (texts : List String) :
    (joined ", " texts).toList = commaList (texts.map String.toList) := by
  cases texts with
  | nil => rfl
  | cons t texts => simp [joined, toList_foldl, commaList, List.flatMap_map]

section
variable {α γ : Type} {A : γ → Prop} {g : γ → α} {p : Matcher α} {text : γ → List Char} {cs : List γ}

/-- What the members of a list have to be like for the list to be read with them. -/
structure Listed (A : γ → Prop) (g : γ → α) (p : Matcher α) (text : γ → List Char) (cs : List γ) :
    Prop where
  reads : ∀ c ∈ cs, ∀ t, Stops t → ReadsIf (A c) p (text c ++ t) (g c) t AtExponent
  visible : ∀ c ∈ cs, ∀ t, Visible (text c ++ t)

theorem Listed.head {c : γ} (h : Listed A g p text (c :: cs)) {t : List Char} (ht : Stops t) :
    ReadsIf (A c) p (text c ++ t) (g c) t AtExponent ∧ Visible (text c ++ t) :=
  ⟨h.reads c List.mem_cons_self t ht, h.visible c List.mem_cons_self t⟩

theorem Listed.tail {c : γ} (h : Listed A g p text (c :: cs)) : Listed A g p text cs :=
  ⟨fun d hd => h.reads d (List.mem_cons_of_mem c hd),
    fun d hd => h.visible d (List.mem_cons_of_mem c hd)⟩

private theorem stops_members (text : γ → List Char) (cs : List γ) (hs : Stops s) :
    Stops (cs.flatMap (fun c => ',' :: ' ' :: text c) ++ s) := by
  cases cs with
  | nil => exact hs
  | cons c cs => exact stops_comma _

private theorem readsIf_member {c : γ} {t : List Char} (hv : Visible (text c ++ t))
    (hc : ReadsIf (A c) p (text c ++ t) (g c) t AtExponent) :
    ReadsIf (A c) (gap do word ","; gap p) (',' :: ' ' :: (text c ++ t)) (g c) t AtExponent := by
  refine .gap rfl ?_
  exact (reads_word "," (' ' :: (text c ++ t))).bindIf (hc.space hv)

/-- The members behind the first one, each with its comma. -/
private theorem runIf_members (h : Listed A g p text cs) (hs : Stops s) :
    RunIf A g (gap do word ","; gap p) AtExponent Stuck
      (cs.flatMap (fun c => ',' :: ' ' :: text c) ++ s) cs s := by
  induction cs with
  | nil => exact .nil s
  | cons c cs ih =>
    obtain ⟨hc, hv⟩ := h.head (stops_members text cs hs)
    rw [List.flatMap_cons, List.append_assoc]
    refine .cons (readsIf_member hv hc) (.inr ⟨_, rfl⟩) ?_ (ih h.tail)
    simp only [List.cons_append, List.length_cons, List.length_append]
    omega

theorem readsIf_listed (h : Listed A g p text cs) (hne : cs ≠ []) (hs : Stops s) (hv : Visible s)
    (hc : Refuses (word ",") s) :
    ReadsIf (∀ c ∈ cs, A c) (listed₁ p) (commaList (cs.map text) ++ s) (cs.map g) s Stuck := by
  match cs with
  | [] => exact absurd rfl hne
  | c :: cs =>
    have hblock : ∀ r, AtExponent r → Refuses (gap (do word ","; gap p)) r ∧ Stuck r := by
      intro r hr
      obtain ⟨t, rfl⟩ := id hr
      exact ⟨Refuses.bind rfl, .inl hr⟩
    have hvisible : Visible (cs.flatMap (fun c => ',' :: ' ' :: text c) ++ s) := by
      cases cs with
      | nil => exact hv
      | cons b cs => rfl
    have hmembers := (runIf_members h.tail hs).spaced hblock hvisible hc.bind hv
    obtain ⟨hfirst, -⟩ := h.head (stops_members text cs hs)
    rw [List.map_cons, commaList, List.flatMap_map, List.append_assoc]
    refine (hfirst.bind (fun b r hr => ?_) hmembers.last).congr List.forall_mem_cons.symm
    obtain ⟨t, rfl⟩ := id hr
    have hv : Visible ('e' :: t) := rfl
    have hnone : Refuses (do word ","; gap p) ('e' :: t) := Refuses.bind rfl
    exact (Reads.gap hv (.bind hnone.optional (.pure [] _))).leaves_bind
      ((Reads.pure _ _).leaves (.inl hr))

theorem readsIf_parenthesized (h : Listed A g p text cs) (hclose : ∀ t, Refuses p (')' :: t))
    (hopen : ∀ c ∈ cs, ∀ t, Refuses (word ")") (text c ++ t)) (s : List Char) :
    ReadsIf (∀ c ∈ cs, A c) (parenthesized p) ('(' :: (commaList (cs.map text) ++ ')' :: s))
      (cs.map g) s fun _ => False := by
  have hstop : Stops (')' :: s) := stops_cons rfl
  have hr : Reads (gap (word ")")) (')' :: s) () s := rfl
  refine (reads_word "(" _).bindIf ?_
  by_cases hne : cs = []
  · subst hne
    have hnone : Refuses (listed₁ p) (')' :: s) := (hclose s).bind
    have hv : Visible (')' :: s) := rfl
    exact Reads.readsIf (.bind (.gap hv hnone.optional) (.bind hr (.pure [] s))) |>.congr (by simp)
  · have hlist := readsIf_listed h hne hstop rfl rfl
    have hstart : Refuses (word ")") (commaList (cs.map text) ++ ')' :: s) ∧
        Visible (commaList (cs.map text) ++ ')' :: s) := by
      match cs with
      | [] => exact absurd rfl hne
      | c :: cs =>
        rw [List.map_cons, commaList, List.append_assoc]
        exact ⟨hopen c List.mem_cons_self _, h.visible c List.mem_cons_self _⟩
    obtain ⟨hopen', hvis⟩ := hstart
    have hstuck : ∀ r, Stuck r → Refuses (gap (word ")")) r := by
      rintro r (⟨t, rfl⟩ | ⟨t, rfl⟩) <;> rfl
    refine ⟨fun hall => ?_, fun hall => ?_⟩
    · exact .bind (.gap hvis (hlist.reads hall).optional) (.bind hr (.pure _ s))
    · refine Refuses.leaves (Leaves.blocks (P := fun r => Refuses (gap (word ")")) r)
        (Leaves.gap hvis (.or ?_ ?_)) fun _ _ hr => hr.bind)
      · exact Leaves.map fun b r hb => hstuck r (hlist.stuck hall b r hb)
      · exact (Reads.pure _ _).leaves (hopen'.gap hvis)

end

/-! ### The forms of statements -/

section
variable {n : String} {lhs rhs : Value} (hn : IsName n) (hl : lhs.IsNamed) (hr : rhs.IsNamed)
  (hs : Stops s)

section
include hl hr hs

/-- Two operands with a comma between them, of which the first has its type in front. -/
private theorem readsIf_operands {β : Type} {ty : Ty} {f : TypedOperand → Operand → β} :
    ReadsIf (lhs.IsPlain ∧ rhs.IsPlain)
      (gap typedOperand >>= fun l => comma >>= fun _ => gap operand >>= fun r => pure (f l r))
      (' ' :: (ty.text.toList ++ ' ' :: (lhs.text.toList ++ ',' :: ' ' :: (rhs.text.toList ++ s))))
      (f (ty, lhs.operand) rhs.operand) s Stuck := by
  have first := readsIf_typedOperand ty hl (stops_comma (' ' :: (rhs.text.toList ++ s)))
  have second := (readsIf_operand hr hs).space (visible_value rhs s)
  refine (first.space (visible_type ty _)).bind (fun _ _ h => (refuses_comma h).bind.leaves) ?_
  exact (reads_comma _).bindIf (second.last.mono fun _ => .inl)

/-- Two operands with a comma between them, each with its type in front. -/
private theorem readsIf_typedOperands {β : Type} {f : TypedOperand → TypedOperand → β} :
    ReadsIf (lhs.IsPlain ∧ rhs.IsPlain)
      (gap typedOperand >>= fun l => comma >>= fun _ => gap typedOperand >>= fun r => pure (f l r))
      (' ' :: (lhs.ty.text.toList ++ ' ' :: (lhs.text.toList ++ ',' :: ' ' ::
        (rhs.ty.text.toList ++ ' ' :: (rhs.text.toList ++ s)))))
      (f lhs.typedOperand rhs.typedOperand) s Stuck := by
  have first := readsIf_typedOperand lhs.ty hl
    (stops_comma (' ' :: (rhs.ty.text.toList ++ ' ' :: (rhs.text.toList ++ s))))
  have second := (readsIf_typedOperand rhs.ty hr hs).space (visible_type rhs.ty _)
  refine (first.space (visible_type lhs.ty _)).bind (fun _ _ h => (refuses_comma h).bind.leaves) ?_
  exact (reads_comma _).bindIf (second.last.mono fun _ => .inl)

theorem readsIf_store :
    ReadsIf (lhs.IsPlain ∧ rhs.IsPlain) store
      ("store ".toList ++ (lhs.ty.text.toList ++ ' ' :: (lhs.text.toList ++ ',' :: ' ' ::
        (rhs.ty.text.toList ++ ' ' :: (rhs.text.toList ++ s)))))
      (.store lhs.typedOperand rhs.typedOperand) s Stuck :=
  .rule ((reads_word "store" _).bindIf (readsIf_typedOperands hl hr hs))

end

section
include hn hl hr hs

theorem readsIf_arith (op : ArithOp) (ty : Ty) :
    ReadsIf (lhs.IsPlain ∧ rhs.IsPlain) arith
      (defining n (op.text.toList ++ ' ' :: (ty.text.toList ++ ' ' :: (lhs.text.toList ++
        ',' :: ' ' :: (rhs.text.toList ++ s)))))
      (.arith n op ty lhs.operand rhs.operand) s Stuck := by
  refine .rule ((reads_target hn _).bindIf ?_)
  refine Reads.bindIf (.space (visible_arithOp op _) (reads_arithOp op _)) ?_
  exact readsIf_operands hl hr hs (f := fun l r => Statement.arith n op l.1 l.2 r)

theorem readsIf_comp (op : CompOp) (ty : Ty) :
    ReadsIf (lhs.IsPlain ∧ rhs.IsPlain) comp
      (defining n ("icmp ".toList ++ (op.text.toList ++ ' ' :: (ty.text.toList ++ ' ' ::
        (lhs.text.toList ++ ',' :: ' ' :: (rhs.text.toList ++ s))))))
      (.comp n op ty lhs.operand rhs.operand) s Stuck := by
  refine .rule ((reads_target hn _).bindIf ?_)
  refine Reads.bindIf (.space rfl (reads_word "icmp" _)) ?_
  refine Reads.bindIf (.space (visible_compOp op _) (reads_compOp op _)) ?_
  exact readsIf_operands hl hr hs (f := fun l r => Statement.comp n op l.1 l.2 r)

theorem readsIf_gep (ty : Ty) :
    ReadsIf (lhs.IsPlain ∧ rhs.IsPlain) gep
      (defining n ("getelementptr ".toList ++ (ty.text.toList ++ ',' :: ' ' ::
        (lhs.ty.text.toList ++ ' ' :: (lhs.text.toList ++ ',' :: ' ' ::
          (rhs.ty.text.toList ++ ' ' :: (rhs.text.toList ++ s)))))))
      (.gep n ty lhs.typedOperand rhs.typedOperand) s Stuck := by
  refine .rule ((reads_target hn _).bindIf ?_)
  refine Reads.bindIf (.space rfl (reads_word "getelementptr" _)) ?_
  refine Reads.bindIf (.space (visible_type ty _) (reads_type ty (by simp))) ?_
  exact (reads_comma _).bindIf (readsIf_typedOperands hl hr hs)

end

section
include hn hl hs

theorem readsIf_alloca (ty : Ty) :
    ReadsIf lhs.IsPlain alloca
      (defining n ("alloca ".toList ++ (ty.text.toList ++ ',' :: ' ' ::
        (lhs.ty.text.toList ++ ' ' :: (lhs.text.toList ++ s)))))
      (.alloca n ty lhs.typedOperand) s Stuck := by
  have hlength := (readsIf_typedOperand lhs.ty hl hs).space (visible_type lhs.ty _)
  refine .rule ((reads_target hn _).bindIf ?_)
  refine Reads.bindIf (.space rfl (reads_word "alloca" _)) ?_
  refine Reads.bindIf (.space (visible_type ty _) (reads_type ty (by simp))) ?_
  exact (reads_comma _).bindIf (hlength.last.mono fun _ => .inl)

theorem readsIf_load (ty : Ty) :
    ReadsIf lhs.IsPlain load
      (defining n ("load ".toList ++ (ty.text.toList ++ ',' :: ' ' ::
        (lhs.ty.text.toList ++ ' ' :: (lhs.text.toList ++ s)))))
      (.load n ty lhs.typedOperand) s Stuck := by
  have haddr := (readsIf_typedOperand lhs.ty hl hs).space (visible_type lhs.ty _)
  refine .rule ((reads_target hn _).bindIf ?_)
  refine Reads.bindIf (.space rfl (reads_word "load" _)) ?_
  refine Reads.bindIf (.space (visible_type ty _) (reads_type ty (by simp))) ?_
  exact (reads_comma _).bindIf (haddr.last.mono fun _ => .inl)

end

/-! ### Phis and calls -/

/-- The text of a value for a predecessor. -/
def sourceText (x : Value × Label) : List Char :=
  '[' :: (x.1.text.toList ++ ',' :: ' ' :: '%' :: (x.2.toList ++ [']']))

theorem readsIf_phiSource {x : Value × Label} (hv : x.1.IsNamed) (hl : x.2.IsSpelled)
    (s : List Char) :
    ReadsIf x.1.IsPlain phiSource (sourceText x ++ s) (x.1.operand, x.2) s AtExponent := by
  have hend : Ends Char.isDigit (']' :: s) := fun _ hd => Option.some.inj hd ▸ rfl
  have hvalue := readsIf_operand hv (stops_comma (' ' :: '%' :: (x.2.toList ++ ']' :: s)))
  have hlabel := reads_labelRef hl hend
  have hclose : Reads (gap (word "]")) (']' :: s) () s := rfl
  have hrest : Reads (do comma; let l ← gap labelRef; gap (word "]"); return (x.1.operand, l))
      (',' :: ' ' :: '%' :: (x.2.toList ++ ']' :: s)) (x.1.operand, x.2) s :=
    .bind (reads_comma _) (.bind (.space rfl hlabel) (.bind hclose (.pure _ s)))
  have htext : sourceText x ++ s =
      '[' :: (x.1.text.toList ++ ',' :: ' ' :: '%' :: (x.2.toList ++ ']' :: s)) := by
    simp [sourceText]
  rw [htext]
  refine .rule ((reads_word "[" _).bindIf (.congr (and_iff_left trivial) ?_))
  refine (hvalue.gap (visible_value x.1 _)).bind (fun _ _ h => (refuses_comma h).bind.leaves) ?_
  exact hrest.readsIf

include hn hs in
theorem readsIf_phi (ty : Ty) {source : List (Value × Label)} (hne : source ≠ [])
    (hv : ∀ x ∈ source, x.1.IsNamed) (hl : ∀ x ∈ source, x.2.IsSpelled) (hvis : Visible s)
    (hc : Refuses (word ",") s) :
    ReadsIf (∀ x ∈ source, x.1.IsPlain) phi
      (defining n ("phi ".toList ++ (ty.text.toList ++ ' ' ::
        (commaList (source.map sourceText) ++ s))))
      (.phi n ty (source.map fun x => (x.1.operand, x.2))) s Stuck := by
  have hlist : Listed (fun x : Value × Label => x.1.IsPlain) (fun x => (x.1.operand, x.2)) phiSource
      sourceText source :=
    ⟨fun x hx t _ => readsIf_phiSource (hv x hx) (hl x hx) t, fun _ _ _ => rfl⟩
  have hstart : Visible (commaList (source.map sourceText) ++ s) := by
    match source with
    | [] => exact absurd rfl hne
    | x :: source => rfl
  refine .rule ((reads_target hn _).bindIf ?_)
  refine Reads.bindIf (.space rfl (reads_word "phi" _)) ?_
  refine Reads.bindIf (.space (visible_type ty _) (reads_type ty (by simp))) ?_
  exact ((readsIf_listed hlist hne hs hvis hc).space hstart).last

/-- The text of an argument with its type. -/
def argumentText (a : Ty × Value) : List Char := a.1.text.toList ++ ' ' :: a.2.text.toList

theorem readsIf_arguments {args : List (Ty × Value)} (hv : ∀ a ∈ args, a.2.IsNamed)
    (s : List Char) :
    ReadsIf (∀ a ∈ args, a.2.IsPlain) (parenthesized (rule typedOperand))
      ('(' :: (commaList (args.map argumentText) ++ ')' :: s))
      (args.map fun a => (a.1, a.2.operand)) s fun _ => False := by
  have htext : ∀ (a : Ty × Value) t,
      argumentText a ++ t = a.1.text.toList ++ ' ' :: (a.2.text.toList ++ t) := by
    simp [argumentText]
  have hclose : ∀ t, Refuses (rule typedOperand) (')' :: t) := fun _ => rfl
  refine readsIf_parenthesized ⟨fun a ha t ht => ?_, fun a _ t => ?_⟩ hclose (fun a _ t => ?_) s
  · rw [htext]
    exact .rule (readsIf_typedOperand a.1 (hv a ha) ht)
  · rw [htext]
    exact visible_type a.1 _
  · rw [htext]
    cases a.1 <;> rfl

/-- The text of a call behind its left side. -/
def callText (ty : Ty) (f : String) (args : List (Ty × Value)) (s : List Char) : List Char :=
  "call ".toList ++ (ty.text.toList ++ ' ' :: '@' :: (f.toList ++
    '(' :: (commaList (args.map argumentText) ++ ')' :: s)))

theorem readsIf_call {target : Option String} (ht : ∀ n ∈ target, IsName n) (ty : Ty) {f : String}
    (hf : IsName f) {args : List (Ty × Value)} (hv : ∀ a ∈ args, a.2.IsNamed) (s : List Char) :
    ReadsIf (∀ a ∈ args, a.2.IsPlain) call
      ((target.elim id defining) (callText ty f args s))
      (.call target ty f (args.map fun a => (a.1, a.2.operand))) s Stuck := by
  have hstop : Stops ('(' :: (commaList (args.map argumentText) ++ ')' :: s)) := stops_cons rfl
  have hopen : Visible ('(' :: (commaList (args.map argumentText) ++ ')' :: s)) := rfl
  have hrest : ReadsIf (∀ a ∈ args, a.2.IsPlain)
      (do
        let ty ← gap type
        let callee ← gap globalName
        return Statement.call target ty callee (← gap (parenthesized (rule typedOperand))))
      (' ' :: (ty.text.toList ++ ' ' :: '@' :: (f.toList ++
        '(' :: (commaList (args.map argumentText) ++ ')' :: s))))
      (.call target ty f (args.map fun a => (a.1, a.2.operand))) s Stuck := by
    refine Reads.bindIf (.space (visible_type ty _) (reads_type ty (by simp))) ?_
    refine Reads.bindIf (.space rfl (reads_globalName hf hstop)) ?_
    exact ((readsIf_arguments hv s).gap hopen).last.mono fun _ => False.elim
  refine .rule ?_
  cases target with
  | none =>
    have hnone : Refuses Grammar.target (callText ty f args s) := rfl
    exact hnone.optional.bindIf (Reads.bindIf (.gap rfl (reads_word "call" _)) hrest)
  | some n =>
    exact (reads_target (ht n rfl) _).optional.bindIf
      (Reads.bindIf (.space rfl (reads_word "call" _)) hrest)

/-! ### Terminators -/

theorem reads_jump {l : Label} (hl : l.IsSpelled) (hs : Stops s) :
    Reads jump ("br label %".toList ++ (l.toList ++ s)) (.jump l) s := by
  refine .rule (.bind (reads_word "br" _) (.bind (.space rfl (reads_word "label" _)) ?_))
  exact .bind (.space rfl (reads_labelRef hl hs.digits)) (.pure _ s)

/-- What stands behind a jump is no operand. -/
theorem refuses_branch (s : List Char) : Refuses branch ("br label %".toList ++ s) := by
  have htype : Refuses typedOperand ("label %".toList ++ s) :=
    (refuses_type (by decide) _).bind
  have hv : Visible ("label %".toList ++ s) := rfl
  exact .rule ((reads_word "br" _).refuses (htype.space hv).bind)

theorem readsIf_branch (ty : Ty) {v : Value} (hv : v.IsNamed) {l m : Label} (hl : l.IsSpelled)
    (hm : m.IsSpelled) (hs : Stops s) :
    ReadsIf v.IsPlain branch
      ("br ".toList ++ (ty.text.toList ++ ' ' :: (v.text.toList ++ (", label %".toList ++
        (l.toList ++ (", label %".toList ++ (m.toList ++ s)))))))
      (.branch (ty, v.operand) l m) s Stuck := by
  have hrest : Reads
      (do
        comma
        gap (word "label")
        let l ← gap labelRef
        comma
        gap (word "label")
        return Statement.branch (ty, v.operand) l (← gap labelRef))
      (", label %".toList ++ (l.toList ++ (", label %".toList ++ (m.toList ++ s))))
      (.branch (ty, v.operand) l m) s :=
    .bind (reads_comma _) (.bind (.space rfl (reads_word "label" _))
      (.bind (.space rfl (reads_labelRef hl (stops_comma _).digits))
        (.bind (reads_comma _) (.bind (.space rfl (reads_word "label" _))
          (.bind (.space rfl (reads_labelRef hm hs.digits)) (.pure _ s))))))
  have hcond := readsIf_typedOperand ty hv
    (stops_comma (" label %".toList ++ (l.toList ++ (", label %".toList ++ (m.toList ++ s)))))
  refine .rule ((reads_word "br" _).bindIf (.congr (and_iff_left trivial) ?_))
  refine (hcond.space (visible_type ty _)).bind (fun _ _ h => (refuses_comma h).bind.leaves) ?_
  exact hrest.readsIf

theorem readsIf_ret {v : Value} (hv : v.IsNamed) (hty : v.ty ≠ .void) (hs : Stops s) :
    ReadsIf v.IsPlain ret ("ret ".toList ++ (v.ty.text.toList ++ ' ' :: (v.text.toList ++ s)))
      (.ret v.typedOperand) s Stuck := by
  have hvoid : Refuses (rule do word "void"; return Statement.retVoid)
      (v.ty.text.toList ++ ' ' :: (v.text.toList ++ s)) := by
    generalize v.ty = ty at hty
    cases ty with
    | void => exact absurd rfl hty
    | _ => rfl
  have hvalue := readsIf_typedOperand v.ty hv hs
  have hchoice : ReadsIf v.IsPlain
      (choice [rule do word "void"; return .retVoid, Statement.ret <$> typedOperand])
      (v.ty.text.toList ++ ' ' :: (v.text.toList ++ s)) (.ret v.typedOperand) s Stuck := by
    refine ⟨fun hp => .right hvoid (.left (hvalue.reads hp).map), fun hp => ?_⟩
    refine .or hvoid.leaves (.or ?_ fun _ _ h => nomatch h)
    exact Leaves.map fun a r hr => .inl (hvalue.stuck hp a r hr)
  exact .rule ((reads_word "ret" _).bindIf (hchoice.space (visible_type v.ty _)))

theorem reads_retVoid (s : List Char) : Reads ret ("ret void".toList ++ s) .retVoid s := by
  have hr : Reads (choice [rule do word "void"; return .retVoid, Statement.ret <$> typedOperand])
      ("void".toList ++ s) .retVoid s :=
    .left (.rule (.bind (reads_word "void" s) (.pure _ s)))
  exact .rule (.bind (reads_word "ret" _) (.space rfl hr))

end

end LoopClock.Source
