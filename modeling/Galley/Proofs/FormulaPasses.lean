import Galley.Proofs.Carrying
import Galley.Proofs.Delimiters
import Galley.Proofs.Quiet
import Galley.Proofs.Substitution
/-!
# Formulas are taken out one by one

The passes over a text with formulas put a token in the place of each formula, and store its rendering, one kind of delimiter
after another (`extract_source`). In a text whose dollars are escaped, and in which nothing else opens a formula, they
find nothing (`extract_escaped`).
-/

namespace Galley.Extract.Formula

open Block (Table)

/-! ## Taking out a formula -/

namespace Fence

def style : Fence → Formula.Display
  | square | double => .block
  | round | single => .inline

/-- What puts a token in the place of a formula. -/
def render (kit : Kit) : Fence → Text → Bench Text
  | square | double => Formula.display kit
  | round | single => Formula.inline kit

/-- The token with a number, between blank lines where the formula is displayed. -/
def place (k : Fence) (n : Nat) : Text :=
  match k.style with
  | .block => "\n\n" ++ Block.Token.ofNumber .math n ++ "\n\n"
  | .inline => Block.Token.ofNumber .math n

theorem place_plain (k : Fence) (n : Nat) : k.place n ≠ [] ∧ '\\' ∉ k.place n ∧ '$' ∉ k.place n := by
  have htoken {c : Char} (hc : Block.isTokenChar c = false) : c ∉ Block.Token.ofNumber .math n := fun hm => by
    rw [Block.isTokenChar_of_mem hm] at hc
    cases hc
  have hword : Block.Token.ofNumber .math n ≠ [] :=
    List.append_ne_nil_of_left_ne_nil (List.append_ne_nil_of_left_ne_nil (by decide) _) _
  have hslash := htoken (c := '\\') (by decide)
  have hdollar := htoken (c := '$') (by decide)
  unfold place
  split
  · simp [hslash, hdollar]
  · exact ⟨hword, hslash, hdollar⟩

end Fence

/-- The rendering of a formula. -/
def fragment (kit : Kit) (k : Fence) (f : Text) : Text := (Galley.Formula.render kit.settings kit.engine f k.style).html

/-- The bench when the rendering of a formula has been stored. -/
def stored (kit : Kit) (k : Fence) (b : BenchState) (f : Text) : BenchState :=
  { b with
    table := (b.table.register .math (fragment kit k f)).2
    extracted := b.extracted + 1
    notices := b.notices ++ (Galley.Formula.render kit.settings kit.engine f k.style).notice.toList }

theorem run_render (kit : Kit) (k : Fence) (f : Text) (b : BenchState) :
    (k.render kit f).run.run b = (.ok (k.place (b.table.issued + 1)), stored kit k b f) := by
  cases k <;> rfl

/-! ### A pass -/

/-- The formulas of one kind. -/
def formulas (k : Fence) (ss : List Segment) : List Text := ss.filterMap fun
  | .plain _ => none
  | .formula k' u => if k' = k then some (written u.1) else none

/-- The text with tokens in the places of one kind of formulas, when `issued` tokens have been handed out before. -/
def replaced (k : Fence) : (issued : Nat) → List Segment → List Segment
  | _, [] => []
  | n, .plain t :: ss => .plain t :: replaced k n ss
  | n, .formula k' u :: ss =>
    if k' = k then .plain ⟨k.place (n + 1), k.place_plain (n + 1)⟩ :: replaced k (n + 1) ss else .formula k' u :: replaced k n ss

/-- Puts together what comes in the places of the pieces. -/
def fill {α : Type} (render : α → Bench Text) (ps : List (Piece α)) : Bench Text := do
  let parts ← ps.mapM fun
    | .char c => pure [c]
    | .hit a _ => render a
  pure parts.flatten

theorem delimited_eq_fill (read : Reader (Text × Text)) (render : Text → Bench Text) (s : Text) :
    delimited read render s = fill (fun (breaks, f) => do pure (breaks ++ (← render f))) (Text.cut read s) := rfl

section Fill

variable {α : Type} {render : α → Bench Text} {ps : List (Piece α)} {y : Text}

theorem fill_char (c : Char) (ps : List (Piece α)) : fill render (.char c :: ps) = fill render ps >>= fun y => pure (c :: y) := by
  simp only [fill, List.mapM_cons, pure_bind, bind_assoc, List.flatten_cons, List.singleton_append]

theorem fill_hit (a : α) (source : Text) (ps : List (Piece α)) :
    fill render (.hit a source :: ps) = render a >>= fun x => fill render ps >>= fun y => pure (x ++ y) := by
  simp only [fill, List.mapM_cons, pure_bind, bind_assoc, List.flatten_cons]

theorem run_fill_chars {b b' : BenchState} (h : (fill render ps).run.run b = (.ok y, b')) (t : Text) :
    (fill render (t.map .char ++ ps)).run.run b = (.ok (t ++ y), b') := by
  induction t with
  | nil => exact h
  | cons c t ih =>
    rw [List.map_cons, List.cons_append, fill_char, Bench.run_bind_of_ok ih]
    rfl

theorem run_fill_hit {a : α} {source x : Text} {b b₁ b₂ : BenchState} (ha : (render a).run.run b = (.ok x, b₁))
    (h : (fill render ps).run.run b₁ = (.ok y, b₂)) : (fill render (.hit a source :: ps)).run.run b = (.ok (x ++ y), b₂) := by
  rw [fill_hit, Bench.run_bind_of_ok ha, Bench.run_bind_of_ok h]
  rfl

end Fill

theorem run_pass (kit : Kit) (k : Fence) (ss : List Segment) (b : BenchState) :
    (fill (fun (breaks, f) => do pure (breaks ++ (← k.render kit f))) (ss.flatMap (pieces k))).run.run b =
      (.ok (source (replaced k b.table.issued ss)), (formulas k ss).foldl (stored kit k) b) := by
  -- the bench at the end of one segment is the one that the next begins with
  induction ss generalizing b with
  | nil => rfl
  | cons s ss ih =>
    cases s with
    | plain t => exact run_fill_chars (ih b) t.1
    | formula k' u =>
      by_cases hk : k' = k
      · subst hk
        have hrun : (do pure ([] ++ (← k'.render kit (written u.1))) : Bench Text).run.run b =
            (.ok (k'.place (b.table.issued + 1)), stored kit k' b (written u.1)) := by
          rw [Bench.run_bind_of_ok (run_render kit k' _ b)]
          rfl
        have hrest := ih (stored kit k' b (written u.1))
        have hissued : (stored kit k' b (written u.1)).table.issued = b.table.issued + 1 := Table.issued_register _ _ _
        rw [hissued] at hrest
        simp only [List.flatMap_cons, pieces, if_true, List.singleton_append, replaced, formulas, List.filterMap_cons, List.foldl_cons]
        exact run_fill_hit hrun hrest
      · simp only [List.flatMap_cons, pieces, if_neg hk, replaced, formulas, List.filterMap_cons]
        exact run_fill_chars (ih b) _

/-! ### What is left for the passes behind -/

section Left

variable {k k' : Fence} {n : Nat} {ss : List Segment}

theorem mem_replaced {u : Body} (h : .formula k' u ∈ replaced k n ss) : .formula k' u ∈ ss ∧ k' ≠ k := by
  induction ss generalizing n with
  | nil => cases h
  | cons s ss ih =>
    cases s with
    | plain t =>
      rcases List.mem_cons.1 h with h | h
      · cases h
      · exact ⟨List.mem_cons_of_mem _ (ih h).1, (ih h).2⟩
    | formula k₁ u₁ =>
      rw [replaced] at h
      split at h
      · rcases List.mem_cons.1 h with h | h
        · cases h
        · exact ⟨List.mem_cons_of_mem _ (ih h).1, (ih h).2⟩
      · rename_i hk
        rcases List.mem_cons.1 h with h | h
        · obtain ⟨rfl, rfl⟩ := Segment.formula.inj h
          exact ⟨List.mem_cons_self, hk⟩
        · exact ⟨List.mem_cons_of_mem _ (ih h).1, (ih h).2⟩

theorem closed_replaced (h : ∀ s ∈ ss, s.isClosed = true) : ∀ s ∈ replaced k n ss, s.isClosed = true := by
  intro s hs
  cases s with
  | plain t => rfl
  | formula k' u => exact h _ (mem_replaced hs).1

theorem alternating_replaced (h : alternating ss = true) : alternating (replaced k n ss) = true := by
  have hhead (n : Nat) (ss : List Segment) (h : ss.head?.any Segment.isFormula = false) :
      (replaced k n ss).head?.any Segment.isFormula = false := by
    cases ss with
    | nil => rfl
    | cons s ss =>
      cases s with
      | plain t => rfl
      | formula k u => cases h
  induction ss generalizing n with
  | nil => rfl
  | cons s ss ih =>
    simp only [alternating, Bool.and_eq_true, Bool.not_eq_true', Bool.and_eq_false_iff] at h
    cases s with
    | plain t => simpa [replaced, alternating, Segment.isFormula] using ih h.2
    | formula k' u =>
      have hnext := h.1.resolve_left (by simp [Segment.isFormula])
      rw [replaced]
      split
      · simpa [alternating, Segment.isFormula] using ih h.2
      · simp only [alternating, hhead n ss hnext, Bool.and_false, Bool.not_false, Bool.true_and, ih h.2]

theorem formulas_replaced (hk : k' ≠ k) : formulas k' (replaced k n ss) = formulas k' ss := by
  induction ss generalizing n with
  | nil => rfl
  | cons s ss ih =>
    cases s with
    | plain t => exact ih
    | formula k₁ u =>
      rw [replaced]
      split
      · rename_i he
        subst he
        have hskip : formulas k' (.formula k₁ u :: ss) = formulas k' ss := List.filterMap_cons_none (if_neg (Ne.symm hk))
        exact ih.trans hskip.symm
      · simp only [formulas, List.filterMap_cons] at ih ⊢
        rw [ih]

end Left

/-! ## Environments -/

theorem run_environments (kit : Kit) {s : Text} (h : ∀ name ∈ environmentNames, s.occurs (Marker.begins name) = false) (b : BenchState) :
    ∃ b', (environmentNames.foldlM (fun s name => environments kit name s) s).run.run b = (.ok s, b') ∧ Bench.Kept b b' := by
  have hone {name : Text} (hname : name ∈ environmentNames) (b : BenchState) :
      ∃ b', (environments kit name s).run.run b = (.ok s, b') ∧ Bench.Kept b b' := by
    have hfind : Environment.find name s = .ok none := by
      have hnone : s.find? (Marker.begins name) = none := by
        simpa [Text.occurs, Option.isSome_eq_false_iff, Option.isNone_iff_eq_none] using h name hname
      rw [Environment.find, hnone]
    rw [environments, Bench.rounds]
    cases hcap : Int.toNat kit.settings.environmentIterationCap with
    | zero => exact ⟨_, rfl, rfl, rfl, rfl⟩
    | succ n =>
      rw [Bench.rounds.go, hfind]
      exact ⟨b, rfl, .refl b⟩
  generalize environmentNames = names at hone
  induction names generalizing b with
  | nil => exact ⟨b, rfl, .refl b⟩
  | cons name names ih =>
    obtain ⟨b₁, hrun, hkept⟩ := hone List.mem_cons_self b
    obtain ⟨b₂, hrest, hkept'⟩ := ih b₁ fun hname => hone (List.mem_cons_of_mem _ hname)
    exact ⟨b₂, by rw [List.foldlM_cons, Bench.run_bind_of_ok hrun, hrest], hkept.trans hkept'⟩

/-- The word that begin markers begin with. -/
def beginWord : Text := "\\begin"

theorem occurs_begins {s : Text} (h : ¬ beginWord <:+: s) (name : Text) : s.occurs (Marker.begins name) = false := by
  have hmisses : Text.Misses (Marker.begins name) s := by
    intro before t ht
    rw [Option.eq_none_iff_forall_ne_some]
    intro r hr
    obtain ⟨rest, hafter, -⟩ := Option.map_eq_some_iff.1 hr
    simp only [Marker.after?, Option.bind_eq_bind, Option.bind_eq_some_iff] at hafter
    obtain ⟨s₁, h₁, -⟩ := hafter
    exact h (List.IsInfix.trans ⟨[], s₁, by simpa [beginWord] using (Text.after?_eq_some_iff.1 h₁).symm⟩ ht.isInfix)
  exact hmisses.occurs_eq

section BeginWord

variable {s : Text}

theorem not_begin_cons {c : Char} (hc : c ≠ '\\' ∨ s.head? ≠ some 'b') (h : ¬ beginWord <:+: s) : ¬ beginWord <:+: c :: s := by
  intro hin
  rcases List.infix_cons_iff.1 hin with hp | hin
  · obtain ⟨hslash, hp⟩ := List.cons_prefix_cons.1 (hp : '\\' :: "begin".toList <+: c :: s)
    rcases hc with hc | hc
    · exact hc hslash.symm
    · obtain ⟨t, rfl⟩ := hp
      exact hc rfl
  · exact h hin

/-- A text that begins with no letter of the word does not complete it. -/
theorem not_begin_append {x : Text} (hx : ¬ beginWord <:+: x) (hs : ∀ c, s.head? = some c → c ∉ "begin".toList) (h : ¬ beginWord <:+: s) :
    ¬ beginWord <:+: x ++ s := by
  induction x with
  | nil => exact h
  | cons c x ih =>
    intro hin
    rcases List.infix_cons_iff.1 hin with hp | hin
    · rcases List.prefix_or_prefix_of_prefix hp (List.prefix_append (c :: x) s) with hp' | ⟨w, hw⟩
      · exact hx hp'.isInfix
      · -- a letter of the word stands behind the text
        cases w with
        | nil =>
          rw [List.append_nil] at hw
          exact hx (hw ▸ List.infix_refl _)
        | cons d w =>
          rw [← hw] at hp
          obtain ⟨t, ht⟩ := (List.prefix_append_right_inj (c :: x)).1 hp
          have htail : x ++ d :: w = "begin".toList := (List.cons.inj hw).2
          exact hs d (by rw [← ht]; rfl) (by rw [← htail]; simp)
    · exact ih (fun hin => hx (List.infix_cons_iff.2 (.inr hin))) hin

theorem not_begin_source (ss : List Segment) : ¬ beginWord <:+: source ss := by
  induction ss with
  | nil => simp [source, beginWord]
  | cons s ss ih =>
    have hchars {t : Text} (ht : '\\' ∉ t) {y : Text} (hy : ¬ beginWord <:+: y) : ¬ beginWord <:+: t ++ y := by
      induction t with
      | nil => exact hy
      | cons c t iht =>
        simp only [List.mem_cons, not_or] at ht
        exact not_begin_cons (.inl (Ne.symm ht.1)) (iht ht.2)
    have hsource : source (s :: ss) = s.source ++ source ss := List.flatMap_cons
    rw [hsource]
    cases s with
    | plain t => exact hchars t.2.2.1 ih
    | formula k u =>
      -- the word can begin neither in a delimiter nor in the body and go on behind it
      have hclosing : ¬ beginWord <:+: k.closing ++ source ss := by
        cases k with
        | square | round => exact not_begin_cons (.inr (by simp)) (not_begin_cons (.inl (by decide)) ih)
        | double | single => exact hchars (by decide) ih
      have hhead (c : Char) (hc : (k.closing ++ source ss).head? = some c) : c ∉ "begin".toList := by
        cases k <;> (simp only [Fence.closing, List.cons_append, List.head?_cons, Option.some.injEq] at hc; subst hc; decide)
      have hbody := not_begin_append u.2.2 hhead hclosing
      simp only [Segment.source, List.append_assoc]
      cases k with
      | square | round => exact not_begin_cons (.inr (by simp)) (not_begin_cons (.inl (by decide)) hbody)
      | double | single => exact hchars (by decide) hbody

end BeginWord

/-! ## All passes -/

/-- How many formulas the passes before have taken out. -/
def earlier (k : Fence) (ss : List Segment) : Nat := ss.countP fun
  | .plain _ => false
  | .formula k' _ => k'.pass < k.pass

/-- The text with tokens in the places of its formulas; `next` tells how many tokens have been handed out before the next
    formula of each kind. -/
def placed (next : Fence → Nat) : List Segment → Text
  | [] => []
  | .plain t :: ss => t.1 ++ placed next ss
  | .formula k _ :: ss => k.place (next k + 1) ++ placed (fun k' => if k' = k then next k + 1 else next k') ss

/-- The renderings of the formulas, in the order of the passes. -/
def fragments (kit : Kit) (ss : List Segment) : List Text :=
  [Fence.square, .round, .double, .single].flatMap fun k => (formulas k ss).map (fragment kit k)

theorem source_replaced (next : Fence → Nat) (ss : List Segment) :
    source (replaced .single (next .single) (replaced .double (next .double) (replaced .round (next .round)
      (replaced .square (next .square) ss)))) = placed next ss := by
  induction ss generalizing next with
  | nil => rfl
  | cons s ss ih =>
    cases s with
    | plain t => exact congrArg (t.1 ++ ·) (ih next)
    | formula k _ =>
      have hrest := ih fun k' => if k' = k then next k + 1 else next k'
      rw [placed, ← hrest]
      cases k <;> simp [replaced, source, Segment.source]

section Stored

variable (kit : Kit)

theorem foldl_stored (k : Fence) (fs : List Text) (b : BenchState) :
    (fs.foldl (stored kit k) b).table = (fs.map (fragment kit k)).foldl (fun t h => (t.register .math h).2) b.table ∧
      (fs.foldl (stored kit k) b).extracted = b.extracted + fs.length := by
  induction fs generalizing b with
  | nil => exact ⟨rfl, rfl⟩
  | cons f fs ih =>
    obtain ⟨htable, hextracted⟩ := ih (stored kit k b f)
    refine ⟨htable, hextracted.trans ?_⟩
    rw [List.length_cons, Nat.add_comm fs.length, ← Nat.add_assoc]
    rfl

theorem absorb_plain {h : Text} (hplain : Block.Token.all h = []) (t : Table) : t.absorb h = (h, t) := by
  have main (ps : List (Piece Text)) (hps : ps.filterMap Piece.value? = []) : t.absorbPieces ps = (Piece.sources ps, t) := by
    induction ps with
    | nil => rfl
    | cons p ps ih =>
      cases p with
      | char c => simp only [Table.absorbPieces, ih hps, Piece.sources, List.flatMap_cons, Piece.source, List.singleton_append]
      | hit a source => cases hps
  rw [Table.absorb, main _ hplain, Text.sources_cut]

/-- Renderings without tokens are stored as they are. -/
theorem foldl_register {hs : List Text} (hplain : ∀ h ∈ hs, Block.Token.all h = []) (t : Table) :
    (hs.foldl (fun t h => (t.register .math h).2) t).entries =
      t.entries ++ (hs.zipIdx (t.issued + 1)).map fun (h, n) => (Block.Token.ofNumber .math n, h) := by
  induction hs generalizing t with
  | nil => simp
  | cons h hs ih =>
    obtain ⟨hh, hrest⟩ := List.forall_mem_cons.1 hplain
    rw [List.foldl_cons, ih hrest, Table.issued_register, Table.register_eq, absorb_plain hh]
    simp [List.zipIdx_cons]

end Stored

/-- The number of the first token of each kind, but for one. -/
theorem earlier_eq (k : Fence) (ss : List Segment) : earlier k ss = match k with
    | .square => 0
    | .round => (formulas .square ss).length
    | .double => (formulas .square ss).length + (formulas .round ss).length
    | .single => (formulas .square ss).length + (formulas .round ss).length + (formulas .double ss).length := by
  induction ss with
  | nil => cases k <;> rfl
  | cons s ss ih =>
    cases s with
    | plain t => cases k <;> exact ih
    | formula k' u => cases k <;> cases k' <;> simp [earlier, formulas, Fence.pass] at ih ⊢ <;> omega

theorem Left.replaced {k k₁ : Fence} {ss : List Segment} (h : Left k ss) (hk : k₁.pass = k.pass + 1) (n : Nat) :
    Left k₁ (replaced k n ss) where
  alternating := alternating_replaced h.alternating
  others := by
    intro k' u hm
    obtain ⟨hm, hne⟩ := mem_replaced hm
    have hpass : k'.pass ≠ k.pass := fun he => hne (by cases k <;> cases k' <;> first | rfl | cases he)
    rcases h.others k' u hm with hbracket | hle
    · exact .inl hbracket
    · exact .inr (by omega)

/-- One pass: tokens take the places of its formulas, and their renderings are stored. -/
theorem run_delimited (kit : Kit) {k : Fence} {ss : List Segment} (h : Left k ss) (hclosed : ∀ s ∈ ss, s.isClosed = true)
    (b : BenchState) :
    ∃ b', (delimited k.reader (k.render kit) (source ss)).run.run b = (.ok (source (replaced k b.table.issued ss)), b') ∧
      b'.table = ((formulas k ss).map (fragment kit k)).foldl (fun t h => (t.register .math h).2) b.table ∧
      b'.table.issued = b.table.issued + (formulas k ss).length ∧ b'.extracted = b.extracted + (formulas k ss).length := by
  have hcut : Text.cut k.reader (source ss) = ss.flatMap (pieces k) := cut_source h hclosed ⟨by simp, by simp⟩
  obtain ⟨htable, hextracted⟩ := foldl_stored kit k (formulas k ss) b
  refine ⟨_, by rw [delimited_eq_fill, hcut, run_pass], htable, ?_, hextracted⟩
  rw [htable, Table.issued_foldl_register, List.length_map]

/-- The tokens and the renderings when all passes are done. -/
theorem extract_source (kit : Kit) {ss : List Segment} (halt : alternating ss = true) (hclosed : ∀ s ∈ ss, s.isClosed = true)
    (b : BenchState) :
    ∃ b', (extract kit (source ss)).run.run b = (.ok (placed (fun k => b.table.issued + earlier k ss) ss), b') ∧
      b'.table = (fragments kit ss).foldl (fun t h => (t.register .math h).2) b.table ∧
      b'.extracted = b.extracted + (fragments kit ss).length := by
  have left₀ : Left .square ss := ⟨halt, fun _ _ _ => .inr (Nat.zero_le _)⟩
  obtain ⟨b₀, run₀, table₀, extracted₀, -⟩ := run_environments kit (fun name _ => occurs_begins (not_begin_source ss) name) b
  obtain ⟨b₁, run₁, table₁, issued₁, extracted₁⟩ := run_delimited kit left₀ hclosed b₀
  generalize hs₁ : replaced .square b₀.table.issued ss = s₁ at run₁
  have left₁ : Left .round s₁ := hs₁ ▸ left₀.replaced rfl _
  have hclosed₁ : ∀ s ∈ s₁, s.isClosed = true := hs₁ ▸ closed_replaced hclosed
  obtain ⟨b₂, run₂, table₂, issued₂, extracted₂⟩ := run_delimited kit left₁ hclosed₁ b₁
  generalize hs₂ : replaced .round b₁.table.issued s₁ = s₂ at run₂
  have left₂ : Left .double s₂ := hs₂ ▸ left₁.replaced rfl _
  have hclosed₂ : ∀ s ∈ s₂, s.isClosed = true := hs₂ ▸ closed_replaced hclosed₁
  obtain ⟨b₃, run₃, table₃, issued₃, extracted₃⟩ := run_delimited kit left₂ hclosed₂ b₂
  generalize hs₃ : replaced .double b₂.table.issued s₂ = s₃ at run₃
  have left₃ : Left .single s₃ := hs₃ ▸ left₂.replaced rfl _
  have hclosed₃ : ∀ s ∈ s₃, s.isClosed = true := hs₃ ▸ closed_replaced hclosed₂
  obtain ⟨b₄, run₄, table₄, -, extracted₄⟩ := run_delimited kit left₃ hclosed₃ b₃
  -- a pass leaves the formulas of the passes behind it
  have hround : formulas .round s₁ = formulas .round ss := hs₁ ▸ formulas_replaced (by decide)
  have hdouble : formulas .double s₂ = formulas .double ss := by
    rw [← hs₂, formulas_replaced (by decide), ← hs₁, formulas_replaced (by decide)]
  have hsingle : formulas .single s₃ = formulas .single ss := by
    rw [← hs₃, formulas_replaced (by decide), ← hs₂, formulas_replaced (by decide), ← hs₁, formulas_replaced (by decide)]
  rw [hround] at table₂ issued₂ extracted₂
  rw [hdouble] at table₃ issued₃ extracted₃
  rw [hsingle] at table₄ extracted₄
  refine ⟨b₄, ?_, ?_, ?_⟩
  · have hplaced : source (replaced .single b₃.table.issued s₃) = placed (fun k => b.table.issued + earlier k ss) ss := by
      rw [← source_replaced, ← hs₃, ← hs₂, ← hs₁, issued₃, issued₂, issued₁, table₀]
      simp only [earlier_eq, Nat.add_zero, Nat.add_assoc]
    rw [← hplaced]
    exact (Bench.run_bind_of_ok run₀).trans ((Bench.run_bind_of_ok run₁).trans ((Bench.run_bind_of_ok run₂).trans ((Bench.run_bind_of_ok run₃).trans run₄)))
  · rw [table₄, table₃, table₂, table₁, table₀]
    simp only [fragments, List.flatMap_cons, List.flatMap_nil, List.append_nil, List.foldl_append]
  · rw [extracted₄, extracted₃, extracted₂, extracted₁, extracted₀]
    simp only [fragments, List.flatMap_cons, List.flatMap_nil, List.append_nil, List.length_append, List.length_map]
    omega

/-! ## Nothing to take out -/

theorem run_delimited_escaped {s : Text} (h : Escaped s) (k : Fence) (render : Text → Bench Text) (b : BenchState) :
    (delimited k.reader render s).run.run b = (.ok s, b) := by
  have hnone : (fill (fun (breaks, f) => do pure (breaks ++ (← render f))) []).run.run b = (.ok [], b) := rfl
  rw [delimited_eq_fill, cut_escaped h k]
  simpa using run_fill_chars hnone s

theorem extract_escaped (kit : Kit) {s : Text} (h : Escaped s)
    (hbegin : ∀ name ∈ environmentNames, s.occurs (Marker.begins name) = false) (b : BenchState) :
    ∃ b', (extract kit s).run.run b = (.ok s, b') ∧ Bench.Kept b b' := by
  obtain ⟨b₀, run₀, hkept⟩ := run_environments kit hbegin b
  have hpass (k : Fence) := run_delimited_escaped h k (k.render kit) b₀
  exact ⟨b₀, (Bench.run_bind_of_ok run₀).trans ((Bench.run_bind_of_ok (hpass .square)).trans ((Bench.run_bind_of_ok (hpass .round)).trans
    ((Bench.run_bind_of_ok (hpass .double)).trans (hpass .single)))), hkept⟩

end Galley.Extract.Formula
