import Galley.Proofs.FormulaPasses
/-!
# How many formulas are taken out

A formula in brackets that ends with a row break is not closed for its reader: the reader goes on to the closing bracket of
a later formula of its kind, and takes what lies between for one formula (`read_formula`), or finds none and leaves it. So
a pass takes out at most as many formulas as are closed (`Swept`), and all are taken out just when all are closed
(`extract_exact`).
-/

namespace Galley.Extract.Formula

/-! ## Reading on -/

/-- What stands behind the closing bracket that is found. -/
def past (closer : Char) (before : Option Char) (s : Text) : Option Text := (untilCloser closer before s).map Prod.snd

/-- No closing bracket is found in the text `t` in front of `s`. -/
def GoesOn (closer : Char) (t s : Text) : Prop := ∀ before, ∃ b, past closer before (t ++ s) = past closer b s

section Past

variable {closer c : Char} {s t : Text}

theorem past_cons (h : c ≠ '\\' ∨ s.head? ≠ some closer) (before : Option Char) :
    past closer before (c :: s) = past closer (some c) s := by
  have hno : ¬ ((c = '\\' && s.head? = some closer && before ≠ none && before ≠ some '\\') = true) := by
    rcases h with h | h <;> simp [h]
  rw [past, untilCloser, if_neg hno, Option.map_map]
  rfl

theorem past_behind : past closer (some '\\') (c :: s) = past closer (some c) s := by
  rw [past, untilCloser, if_neg (by simp), Option.map_map]
  rfl

theorem goesOn_chars (ht : '\\' ∉ t) : GoesOn closer t s := by
  intro before
  induction t generalizing before with
  | nil => exact ⟨before, rfl⟩
  | cons c t ih =>
    simp only [List.mem_cons, not_or] at ht
    obtain ⟨b, hb⟩ := ih ht.2 (some c)
    exact ⟨b, (past_cons (.inl (Ne.symm ht.1)) before).trans hb⟩

theorem goesOn_slash (hc : c ≠ closer) : GoesOn closer ['\\', c] s := fun before =>
  ⟨some c, (past_cons (.inr (head?_cons_ne hc s)) before).trans past_behind⟩

theorem GoesOn.append {x y : Text} (hx : GoesOn closer x (y ++ s)) (hy : GoesOn closer y s) : GoesOn closer (x ++ y) s := by
  intro before
  obtain ⟨b₁, h₁⟩ := hx before
  obtain ⟨b₂, h₂⟩ := hy b₁
  exact ⟨b₂, by rw [List.append_assoc, h₁, h₂]⟩

theorem goesOn_written (hcloser : closer ∈ ['\n', '[', ']', '(', ')']) (u : List Atom) : GoesOn closer (written u) s := by
  induction u with
  | nil => exact fun before => ⟨before, rfl⟩
  | cons a u ih =>
    have hatom : GoesOn closer a.source (written u ++ s) := by
      cases a with
      | char c hc => exact goesOn_chars (by simpa [Atom.source] using Ne.symm hc.1)
      | escaped c hc => exact goesOn_slash fun he => hc (he ▸ hcloser)
    exact hatom.append ih

end Past

/-! ## Formulas in brackets -/

structure Bracket (k : Fence) (opener closer : Char) : Prop where
  opening : k.opening = ['\\', opener]
  closing : k.closing = ['\\', closer]
  reader : k.reader = slashDelimited opener closer
  opener_ne : opener ≠ '\\'
  closer_mem : closer ∈ ['\n', '[', ']', '(', ')']
  /-- Its closing bracket is no other delimiter. -/
  goesOn : ∀ (k' : Fence) (s : Text), GoesOn closer k'.opening s ∧ (k' ≠ k → GoesOn closer k'.closing s)

theorem exists_bracket {k : Fence} (hk : k.isBracket = true) : ∃ opener closer, Bracket k opener closer := by
  have hdollars (k' : Fence) (h : k'.isBracket = false) (closer : Char) (s : Text) :
      GoesOn closer k'.opening s ∧ GoesOn closer k'.closing s := by
    cases k' with
    | square | round => cases h
    | double | single => exact ⟨goesOn_chars (by decide), goesOn_chars (by decide)⟩
  cases k with
  | square =>
    refine ⟨'[', ']', rfl, rfl, rfl, by decide, by decide, fun k' s => ?_⟩
    cases k' with
    | square => exact ⟨goesOn_slash (by decide), fun h => absurd rfl h⟩
    | round => exact ⟨goesOn_slash (by decide), fun _ => goesOn_slash (by decide)⟩
    | double | single => exact ⟨(hdollars _ rfl _ s).1, fun _ => (hdollars _ rfl _ s).2⟩
  | round =>
    refine ⟨'(', ')', rfl, rfl, rfl, by decide, by decide, fun k' s => ?_⟩
    cases k' with
    | square => exact ⟨goesOn_slash (by decide), fun _ => goesOn_slash (by decide)⟩
    | round => exact ⟨goesOn_slash (by decide), fun h => absurd rfl h⟩
    | double | single => exact ⟨(hdollars _ rfl _ s).1, fun _ => (hdollars _ rfl _ s).2⟩
  | double | single => cases hk

namespace Bracket

variable {k : Fence} {opener closer : Char} {s : Text}

theorem isBracket (hk : Bracket k opener closer) : k.isBracket = true := by
  have hopening := hk.opening
  cases k with
  | square | round => rfl
  | double | single => simp [Fence.opening] at hopening

/-- Behind a row break there is no closing bracket. -/
theorem goesOn_unclosed (hk : Bracket k opener closer) {u : Body} (h : (Segment.formula k u).isClosed = false) (s : Text) :
    GoesOn closer (written u.1 ++ k.closing) s := by
  have hlast : u.1.getLast?.any Atom.isRowBreak = true := by
    simp only [Segment.isClosed, Bool.not_eq_false', Bool.and_eq_true] at h
    exact h.2
  obtain ⟨a, ha, hbreak⟩ := (Option.any_eq_true _ _).1 hlast
  have hbody : u.1 = u.1.dropLast ++ [a] := (List.dropLast_append_getLast? a ha).symm
  have hwritten : written u.1 = written u.1.dropLast ++ ['\\', '\\'] := by
    have hsource : a.source = ['\\', '\\'] := by
      cases a with
      | char c hc => cases hbreak
      | escaped c hc => rw [Atom.source, of_decide_eq_true hbreak]
    rw [hbody, written, List.flatMap_append, List.dropLast_concat, List.flatMap_singleton, hsource, written]
  have hbehind : GoesOn closer (['\\', '\\'] ++ k.closing) s := by
    have hne : '\\' ≠ closer := fun he => absurd hk.closer_mem (he ▸ by decide)
    intro before
    rw [hk.closing]
    exact ⟨some closer, (past_cons (.inr (head?_cons_ne hne _)) before).trans (past_behind.trans (past_behind.trans past_behind))⟩
  rw [hwritten, List.append_assoc]
  exact (goesOn_written hk.closer_mem _).append hbehind

/-- Only the end of a closed formula of the kind holds the closing bracket. -/
theorem goesOn_segment (hk : Bracket k opener closer) {seg : Segment} (h : ∀ u, seg = .formula k u → seg.isClosed = false) (s : Text) :
    GoesOn closer seg.source s := by
  cases seg with
  | plain t => exact goesOn_chars t.2.2.1
  | formula k' u =>
    refine (hk.goesOn k' _).1.append ?_
    by_cases hkind : k' = k
    · subst hkind
      exact hk.goesOn_unclosed (h u rfl) s
    · exact (goesOn_written hk.closer_mem u.1).append ((hk.goesOn k' s).2 hkind)

theorem past_closed (hk : Bracket k opener closer) {u : Body} (h : (Segment.formula k u).isClosed = true) (before : Option Char) :
    past closer before (written u.1 ++ (k.closing ++ s)) = some s := by
  have hlast : u.1.getLast?.any Atom.isRowBreak = false := by simpa [Segment.isClosed, hk.isBracket] using h
  have huntil : untilCloser closer before (written u.1 ++ '\\' :: closer :: s) = some (written u.1, s) :=
    untilCloser_written hk.closer_mem u.1 (fun he => absurd he u.2.1) hlast
  rw [hk.closing, List.cons_append, List.singleton_append, past, huntil]
  rfl

/-- What is found stands at the end of a closed formula of the kind. -/
theorem past_source (hk : Bracket k opener closer) (ss : List Segment) (before : Option Char) :
    past closer before (source ss) = none ∨ ∃ mid u rest, ss = mid ++ .formula k u :: rest ∧
      (Segment.formula k u).isClosed = true ∧ past closer before (source ss) = some (source rest) := by
  induction ss generalizing before with
  | nil => exact .inl rfl
  | cons seg ss ih =>
    have hsource : source (seg :: ss) = seg.source ++ source ss := List.flatMap_cons
    by_cases hseg : ∀ u, seg = .formula k u → seg.isClosed = false
    · obtain ⟨b, hb⟩ := hk.goesOn_segment hseg (source ss) before
      rw [hsource, hb]
      rcases ih b with hnone | ⟨mid, u, rest, rfl, hclosed, hpast⟩
      · exact .inl hnone
      · exact .inr ⟨seg :: mid, u, rest, rfl, hclosed, hpast⟩
    · push Not at hseg
      obtain ⟨u, rfl, hclosed⟩ := hseg
      have hclosed := Bool.of_not_eq_false hclosed
      obtain ⟨b, hb⟩ := (hk.goesOn k (written u.1 ++ (k.closing ++ source ss))).1 before
      refine .inr ⟨[], u, ss, rfl, hclosed, ?_⟩
      rw [hsource, Segment.source, List.append_assoc, List.append_assoc, hb, hk.past_closed hclosed]

/-- A reader that begins at a formula reads up to the end of a closed one, or not at all. -/
theorem read_formula (hk : Bracket k opener closer) {before : Option Char} (hb : before ≠ some '\\') (s : Text) :
    k.reader before (k.opening ++ s) = (untilCloser closer none s).map fun (f, rest) => (([], f), rest) := by
  have hslashes : slashes ('\\' :: opener :: s) = ['\\'] := slashes_run 1 (head?_cons_ne hk.opener_ne s)
  rw [hk.reader, hk.opening, List.cons_append, List.singleton_append, slashDelimited, if_neg hb, hslashes]
  simp

end Bracket

/-- A pass that begins to read at a formula of its kind reads to the end of a closed one, or leaves a bracket as it is. -/
theorem read_formula {k : Fence} {u : Body} {ss : List Segment} {before : Option Char} (hb : Open before) :
    (k.isBracket = true ∧ k.reader before (source (.formula k u :: ss)) = none) ∨
      ∃ mid u' rest f, .formula k u :: ss = mid ++ .formula k u' :: rest ∧ (Segment.formula k u').isClosed = true ∧
        k.reader before (source (.formula k u :: ss)) = some (([], f), source rest) := by
  have hsource : source (.formula k u :: ss) = (Segment.formula k u).source ++ source ss := List.flatMap_cons
  rw [hsource]
  by_cases hclosed : (Segment.formula k u).isClosed = true
  · exact .inr ⟨[], u, ss, _, rfl, hclosed, read_own hclosed hb.1 hb.2 _⟩
  have hunclosed := Bool.eq_false_iff.2 hclosed
  have hbracket : k.isBracket = true := by
    simp only [Segment.isClosed, Bool.not_eq_false', Bool.and_eq_true] at hunclosed
    exact hunclosed.1
  obtain ⟨opener, closer, hk⟩ := exists_bracket hbracket
  obtain ⟨b, hpast⟩ := hk.goesOn_unclosed hunclosed (source ss) none
  -- the closing bracket behind the row break is passed, and a later one found or not
  rw [Segment.source, List.append_assoc, hk.read_formula hb.1]
  rcases hk.past_source ss b with hnone | ⟨mid, u', rest, rfl, hclosed', hrest⟩
  · rw [hnone] at hpast
    exact .inl ⟨hbracket, by rw [Option.map_eq_none_iff.1 hpast]; rfl⟩
  · rw [hrest] at hpast
    obtain ⟨⟨f, r⟩, huntil, rfl⟩ := Option.map_eq_some_iff.1 hpast
    exact .inr ⟨.formula k u :: mid, u', rest, f, rfl, hclosed', by rw [huntil]; rfl⟩

/-- A bracket that is not read stays. -/
theorem cut_unread {k : Fence} (hk : k.isBracket = true) (u : Body) {before : Option Char} {s : Text}
    (hnone : k.reader before ((Segment.formula k u).source ++ s) = none) :
    ∃ b, Text.cutFrom k.reader 0 before ((Segment.formula k u).source ++ s) =
      (Segment.formula k u).source.map .char ++ Text.cutFrom k.reader 0 b s := by
  obtain ⟨opener, closer, hbracket⟩ := exists_bracket hk
  have hclosing : PassesOver k.reader k.closing s := passesOver_closing k hk
  obtain ⟨b₁, h₁⟩ := k.fair.cut_written hclosing.1 u.1 (some opener)
  obtain ⟨b₂, h₂⟩ := hclosing.2 b₁
  simp only [Segment.source, List.append_assoc, List.map_append, hbracket.opening] at hnone ⊢
  have hopening : Text.cutFrom k.reader 0 before ('\\' :: opener :: (written u.1 ++ (k.closing ++ s))) =
      .char '\\' :: .char opener :: Text.cutFrom k.reader 0 (some opener) (written u.1 ++ (k.closing ++ s)) :=
    (Text.cutFrom_char hnone).trans (congrArg _ (Text.cutFrom_char (k.fair.behind _)))
  exact ⟨b₂, by rw [List.cons_append, List.singleton_append, hopening, h₁, h₂]; rfl⟩

/-! ## Counting -/

def closedFormulas (ss : List Segment) : Nat := ss.countP fun s => s.isFormula && s.isClosed

/-- What a pass has made of a text: it has taken out at most as many formulas as there are closed ones fewer. -/
structure Swept (k : Fence) (ss : List Segment) (b : BenchState) (ss' : List Segment) (b' : BenchState) : Prop where
  alternating : alternating ss' = true
  head : ss'.head?.any Segment.isFormula = true → ss.head?.any Segment.isFormula = true
  left : ∀ k' u, .formula k' u ∈ ss' → .formula k' u ∈ ss ∧ (k' = k → k'.isBracket = true)
  count : b'.extracted + closedFormulas ss' ≤ b.extracted + closedFormulas ss

namespace Swept

variable {k : Fence} {ss ss' : List Segment} {b b₁ b' : BenchState}

theorem cons (h : Swept k ss b ss' b') {s : Segment} (halt : Formula.alternating (s :: ss) = true)
    (hs : ∀ u, s = .formula k u → k.isBracket = true) : Swept k (s :: ss) b (s :: ss') b' where
  alternating := by
    have hnext : s.isFormula = false ∨ ss.head?.any Segment.isFormula = false := by simpa using (Bool.and_eq_true_iff.1 halt).1
    have hnext' : (s.isFormula && ss'.head?.any Segment.isFormula) = false :=
      Bool.and_eq_false_iff.2 (hnext.imp_right fun hf => Bool.eq_false_iff.2 fun hf' => by rw [h.head hf'] at hf; cases hf)
    simp only [Formula.alternating, hnext', h.alternating, Bool.not_false, Bool.and_self]
  head := id
  left := by
    intro k' u hm
    rcases List.mem_cons.1 hm with rfl | hm
    · exact ⟨List.mem_cons_self, fun hk => by subst hk; exact hs u rfl⟩
    · exact ⟨List.mem_cons_of_mem _ (h.left k' u hm).1, (h.left k' u hm).2⟩
  count := by
    have hcount := h.count
    simp only [closedFormulas, List.countP_cons] at hcount ⊢
    omega

theorem hit {rest mid : List Segment} (h : Swept k rest b₁ ss' b') (hb : b₁.extracted = b.extracted + 1) {u : Body}
    (hclosed : (Segment.formula k u).isClosed = true) (t : Plain) :
    Swept k (mid ++ .formula k u :: rest) b (.plain t :: ss') b' where
  alternating := h.alternating
  head := fun hf => by cases hf
  left := by
    intro k' u' hm
    have hm := h.left k' u' ((List.mem_cons.1 hm).resolve_left (by simp))
    exact ⟨List.mem_append_right mid (List.mem_cons_of_mem _ hm.1), hm.2⟩
  count := by
    have hcount := h.count
    have hone : ((Segment.formula k u).isFormula && (Segment.formula k u).isClosed) = true := hclosed
    have hplain : ((Segment.plain t).isFormula && (Segment.plain t).isClosed) = false := rfl
    simp only [closedFormulas, List.countP_append, List.countP_cons, hone, hplain, if_true, Bool.false_eq_true, if_false] at hcount ⊢
    omega

end Swept

theorem Left.append_right {k : Fence} {mid ss : List Segment} (h : Left k (mid ++ ss)) : Left k ss := by
  induction mid with
  | nil => exact h
  | cons s mid ih => exact ih h.tail

/-- The rest of a pass that has come to these segments. -/
def Sweeps (kit : Kit) (k : Fence) (before : Option Char) (ss : List Segment) (b : BenchState) : Prop :=
  ∃ ss' b', (fill (fun (breaks, f) => do pure (breaks ++ (← k.render kit f))) (Text.cutFrom k.reader 0 before (source ss))).run.run b =
    (.ok (source ss'), b') ∧ Swept k ss b ss' b'

section Sweeps

variable {kit : Kit} {k : Fence} {before b₁ : Option Char} {ss : List Segment} {b : BenchState}

theorem Sweeps.over {s : Segment} (h : Sweeps kit k b₁ ss b) (halt : alternating (s :: ss) = true)
    (hs : ∀ u, s = .formula k u → k.isBracket = true)
    (hcut : Text.cutFrom k.reader 0 before (s.source ++ source ss) = s.source.map .char ++ Text.cutFrom k.reader 0 b₁ (source ss)) :
    Sweeps kit k before (s :: ss) b := by
  obtain ⟨ss', b', hrun, hswept⟩ := h
  have hsource (ss : List Segment) : source (s :: ss) = s.source ++ source ss := List.flatMap_cons
  refine ⟨s :: ss', b', ?_, hswept.cons halt hs⟩
  rw [hsource, hsource, hcut]
  exact run_fill_chars hrun s.source

theorem Sweeps.hit {mid rest : List Segment} {u : Body} {f : Text} (h : ∀ b₁ b, Sweeps kit k b₁ rest b)
    (hclosed : (Segment.formula k u).isClosed = true)
    (hread : k.reader before (source (mid ++ .formula k u :: rest)) = some (([], f), source rest)) :
    Sweeps kit k before (mid ++ .formula k u :: rest) b := by
  obtain ⟨c, t, hsource⟩ : ∃ c t, source (mid ++ .formula k u :: rest) = c :: (t ++ source rest) := by
    have happend : source (mid ++ .formula k u :: rest) = (source mid ++ (Segment.formula k u).source) ++ source rest := by
      simp only [source, List.flatMap_append, List.flatMap_cons, List.append_assoc]
    have hne : source mid ++ (Segment.formula k u).source ≠ [] := by
      obtain ⟨c, t, hc⟩ := exists_opening k
      simp [Segment.source, hc]
    obtain ⟨c, t, hct⟩ := List.exists_cons_of_ne_nil hne
    exact ⟨c, t, by rw [happend, hct, List.cons_append]⟩
  rw [hsource] at hread
  obtain ⟨b₁, hcut⟩ := Text.cutFrom_hit hread
  have hrender : (do pure ([] ++ (← k.render kit f)) : Bench Text).run.run b = (.ok (k.place (b.table.issued + 1)), stored kit k b f) := by
    rw [Bench.run_bind_of_ok (run_render kit k f b)]
    rfl
  obtain ⟨ss', b', hrun, hswept⟩ := h b₁ (stored kit k b f)
  refine ⟨.plain ⟨k.place (b.table.issued + 1), k.place_plain _⟩ :: ss', b', ?_, hswept.hit rfl hclosed _⟩
  rw [hsource, hcut]
  exact run_fill_hit hrender hrun

theorem sweeps (kit : Kit) (h : Left k ss) (hb : ss.head?.any Segment.isFormula = true → Open before) (b : BenchState) :
    Sweeps kit k before ss b := by
  -- a formula that is read may end behind later segments, so the induction is on how many are left
  induction hn : ss.length using Nat.strong_induction_on generalizing ss before b with
  | _ n ih =>
    subst hn
    cases ss with
    | nil => exact ⟨[], b, rfl, rfl, id, by simp, Nat.le_refl _⟩
    | cons s ss =>
      cases s with
      | plain t =>
        obtain ⟨b₁, hopen, hcut⟩ := cut_plain k t (source ss) before
        exact (ih ss.length (by simp) h.tail (fun _ => hopen) b rfl).over h.alternating (by simp) hcut
      | formula k' u =>
        have hnext {ss : List Segment} {k' : Fence} {u : Body} (h : Left k (.formula k' u :: ss)) (b₁ : Option Char)
            (hf : ss.head?.any Segment.isFormula = true) : Open b₁ := by
          rw [h.next] at hf
          cases hf
        by_cases hk : k' = k
        · subst hk
          rcases read_formula (hb rfl) with ⟨hbracket, hnone⟩ | ⟨mid, u', rest, f, hss, hclosed, hread⟩
          · obtain ⟨b₁, hcut⟩ := cut_unread hbracket u hnone
            exact (ih ss.length (by simp) h.tail (hnext h b₁) b rfl).over h.alternating (fun _ _ => hbracket) hcut
          · rw [hss] at h ih hread ⊢
            have hrest := h.append_right
            exact .hit (fun b₁ b => ih rest.length (by simp; omega) hrest.tail (hnext hrest b₁) b rfl) hclosed hread
        · obtain ⟨b₁, hcut⟩ := cut_other hk (h.others k' u List.mem_cons_self) u (head_source h.next) before
          exact (ih ss.length (by simp) h.tail (hnext h b₁) b rfl).over h.alternating
            (fun _ he => absurd (Segment.formula.inj he).1 hk) hcut

end Sweeps

theorem Swept.next {k k₁ : Fence} {ss ss' : List Segment} {b b' : BenchState} (hleft : Left k ss) (h : Swept k ss b ss' b')
    (hk : k₁.pass = k.pass + 1) : Left k₁ ss' where
  alternating := h.alternating
  others := by
    intro k' u hm
    obtain ⟨hm, hbracket⟩ := h.left k' u hm
    by_cases he : k' = k
    · exact .inl (hbracket he)
    · have hpass : k'.pass ≠ k.pass := fun hp => he (by cases k <;> cases k' <;> first | rfl | cases hp)
      exact (hleft.others k' u hm).imp_right fun hle => by omega

theorem run_delimited_swept (kit : Kit) {k : Fence} {ss : List Segment} (h : Left k ss) (b : BenchState) :
    ∃ ss' b', (delimited k.reader (k.render kit) (source ss)).run.run b = (.ok (source ss'), b') ∧ Swept k ss b ss' b' := by
  rw [delimited_eq_fill]
  exact sweeps kit h (fun _ => ⟨by simp, by simp⟩) b

/-- At most as many formulas are taken out as there are closed ones. -/
theorem extracted_le (kit : Kit) {ss : List Segment} (halt : alternating ss = true) (b : BenchState) :
    ∃ s b', (extract kit (source ss)).run.run b = (.ok s, b') ∧ b'.extracted ≤ b.extracted + closedFormulas ss := by
  have left₀ : Left .square ss := ⟨halt, fun _ _ _ => .inr (Nat.zero_le _)⟩
  obtain ⟨b₀, run₀, -, extracted₀, -⟩ := run_environments kit (fun name _ => occurs_begins (not_begin_source ss) name) b
  obtain ⟨s₁, b₁, run₁, swept₁⟩ := run_delimited_swept kit left₀ b₀
  have left₁ : Left .round s₁ := swept₁.next left₀ rfl
  obtain ⟨s₂, b₂, run₂, swept₂⟩ := run_delimited_swept kit left₁ b₁
  have left₂ : Left .double s₂ := swept₂.next left₁ rfl
  obtain ⟨s₃, b₃, run₃, swept₃⟩ := run_delimited_swept kit left₂ b₂
  have left₃ : Left .single s₃ := swept₃.next left₂ rfl
  obtain ⟨s₄, b₄, run₄, swept₄⟩ := run_delimited_swept kit left₃ b₃
  refine ⟨source s₄, b₄, ?_, ?_⟩
  · exact (Bench.run_bind_of_ok run₀).trans ((Bench.run_bind_of_ok run₁).trans ((Bench.run_bind_of_ok run₂).trans ((Bench.run_bind_of_ok run₃).trans run₄)))
  -- the closed formulas are used up, pass by pass
  · have h₁ := swept₁.count
    have h₂ := swept₂.count
    have h₃ := swept₃.count
    have h₄ := swept₄.count
    omega

theorem closedFormulas_le (ss : List Segment) : closedFormulas ss ≤ ss.countP Segment.isFormula :=
  List.countP_mono_left fun _ _ h => (Bool.and_eq_true_iff.1 h).1

theorem closedFormulas_lt {ss : List Segment} {s : Segment} (hs : s ∈ ss) (hopen : s.isClosed = false) :
    closedFormulas ss < ss.countP Segment.isFormula := by
  obtain ⟨front, back, rfl⟩ := List.append_of_mem hs
  have hformula : s.isFormula = true := by
    cases s with
    | plain t => cases hopen
    | formula k u => rfl
  have hfront := closedFormulas_le front
  have hback := closedFormulas_le back
  simp only [closedFormulas, List.countP_append, List.countP_cons, hopen, hformula, Bool.and_false, Bool.false_eq_true, if_false,
    if_true] at hfront hback ⊢
  omega

theorem length_fragments (kit : Kit) (ss : List Segment) : (fragments kit ss).length = ss.countP Segment.isFormula := by
  have main : (formulas .square ss).length + ((formulas .round ss).length + ((formulas .double ss).length + (formulas .single ss).length)) =
      ss.countP Segment.isFormula := by
    induction ss with
    | nil => rfl
    | cons s ss ih =>
      cases s with
      | plain t => exact ih
      | formula k u =>
        have hone : List.countP Segment.isFormula (.formula k u :: ss) = List.countP Segment.isFormula ss + 1 := List.countP_cons_of_pos rfl
        rw [hone]
        cases k <;> simp [formulas] at ih ⊢ <;> omega
  simpa [fragments] using main

/-- All formulas of a text are taken out just when all are closed: then each gives its place to one token, and its rendering
    is stored. In a text in which nothing opens a formula, nothing is taken out. -/
theorem extract_exact (kit : Kit) :
    (∀ (ss : List Segment) (b : BenchState), alternating ss = true → ∃ s b', (extract kit (source ss)).run.run b = (.ok s, b') ∧
      (b'.extracted = b.extracted + ss.countP Segment.isFormula ↔ ∀ seg ∈ ss, seg.isClosed = true) ∧
      ((∀ seg ∈ ss, seg.isClosed = true) → s = placed (fun k => b.table.issued + earlier k ss) ss ∧
        b'.table = (fragments kit ss).foldl (fun t h => (t.register .math h).2) b.table ∧
        ((∀ h ∈ fragments kit ss, Block.Token.all h = []) → b'.table.entries = b.table.entries ++
          ((fragments kit ss).zipIdx (b.table.issued + 1)).map fun (h, n) => (Block.Token.ofNumber .math n, h)))) ∧
    ∀ (s : Text) (b : BenchState), Escaped s → (∀ name ∈ environmentNames, s.occurs (Marker.begins name) = false) →
      ∃ b', (extract kit s).run.run b = (.ok s, b') ∧ Bench.Kept b b' := by
  refine ⟨fun ss b halt => ?_, fun s b h hbegin => extract_escaped kit h hbegin b⟩
  by_cases hclosed : ∀ seg ∈ ss, seg.isClosed = true
  · obtain ⟨b', hrun, htable, hcount⟩ := extract_source kit halt hclosed b
    rw [length_fragments] at hcount
    exact ⟨_, b', hrun, ⟨fun _ => hclosed, fun _ => hcount⟩, fun _ => ⟨rfl, htable, fun hplain => by rw [htable, foldl_register hplain]⟩⟩
  · obtain ⟨s, b', hrun, hle⟩ := extracted_le kit halt b
    refine ⟨s, b', hrun, ⟨fun heq => ?_, fun h => absurd h hclosed⟩, fun h => absurd h hclosed⟩
    push Not at hclosed
    obtain ⟨seg, hseg, hopen⟩ := hclosed
    have hlt := closedFormulas_lt hseg (Bool.eq_false_iff.2 hopen)
    omega

/-- A sentence with formulas of all kinds, two of which end with a row break or hold an escaped dollar. -/
def sentence : List Segment :=
  [.plain ⟨"a ", by decide⟩, .formula .round ⟨[.char 'x' (by decide)], by decide⟩, .plain ⟨" b ", by decide⟩,
    .formula .double ⟨[.char 'y' (by decide), .escaped '\\' (by decide)], by decide⟩, .plain ⟨" c ", by decide⟩,
    .formula .single ⟨[.escaped '$' (by decide)], by decide⟩, .plain ⟨" d ", by decide⟩,
    .formula .square ⟨[.escaped '\\' (by decide), .char 'z' (by decide)], by decide⟩]

theorem extract_sentence :
    (source sentence = "a \\(x\\) b $$y\\\\$$ c $\\$$ d \\[\\\\z\\]".toList ∧
      ∃ b', (extract {} (source sentence)).run.run {} = (.ok ("a LATEXPREVIEWMATH000002 b \n\nLATEXPREVIEWMATH000003\n\n c " ++
          "LATEXPREVIEWMATH000004 d \n\nLATEXPREVIEWMATH000001\n\n").toList, b') ∧
        b'.extracted = 4 ∧
        b'.table.entries = [("LATEXPREVIEWMATH000001".toList, fragment {} .square "\\\\z"),
          ("LATEXPREVIEWMATH000002".toList, fragment {} .round "x"), ("LATEXPREVIEWMATH000003".toList, fragment {} .double "y\\\\"),
          ("LATEXPREVIEWMATH000004".toList, fragment {} .single "\\$")]) ∧
    ∃ b', (extract {} "Costs \\$5 and \\$6.".toList).run.run {} = (.ok "Costs \\$5 and \\$6.".toList, b') ∧ Bench.Kept {} b' := by
  obtain ⟨hformulas, hescaped⟩ := extract_exact {}
  obtain ⟨s, b', hrun, hcount, hplaced⟩ := hformulas sentence {} (by decide)
  have hclosed : ∀ seg ∈ sentence, seg.isClosed = true := by decide
  have hplain : ∀ h ∈ fragments {} sentence, Block.Token.all h = [] := by decide +kernel
  obtain ⟨hs, -, hentries⟩ := hplaced hclosed
  have htext : placed (fun k => 0 + earlier k sentence) sentence = ("a LATEXPREVIEWMATH000002 b \n\nLATEXPREVIEWMATH000003\n\n c " ++
      "LATEXPREVIEWMATH000004 d \n\nLATEXPREVIEWMATH000001\n\n").toList := by decide
  exact ⟨⟨by decide, b', htext ▸ hs ▸ hrun, hcount.2 hclosed, hentries hplain⟩, hescaped _ {} (by decide) (by decide)⟩

/-- The formula is not taken out. -/
theorem rowBreak_closing_unread :
    ∃ u : Body, source [.formula .square u] = "\\[a\\\\\\]".toList ∧ alternating [.formula .square u] = true ∧
      ∃ b', (extract {} (source [.formula .square u])).run.run {} = (.ok "\\[a\\\\\\]".toList, b') ∧ b'.extracted = 0 := by
  refine ⟨⟨[.char 'a' (by decide), .escaped '\\' (by decide)], by decide⟩, by decide, rfl, _, rfl, rfl⟩

end Galley.Extract.Formula
