import Galley.Formula.Render
import Galley.Proofs.Markers
import Galley.Proofs.Parts
import Mathlib.Data.List.Infix
/-!
# Cleaning formulas

A formula is cleaned in passes that each take out one kind of command or put another in its place. No pass reads a begin marker
(`tidy_begin`). An argument is read up to the next closing brace, and so not over the end of a text whose braces are closed:
what is cleaned inside `aligned` is the text, and braces stay closed from pass to pass (`clean_aligned`).
-/

namespace Galley

/-! ## Reading over a seam -/

namespace Text

variable {α : Type} {read : Reader α} {put : α → Text}

/-- What is closed is closed in a longer text. -/
theorem closedBy_append_right {c : Char} {s : Text} (h : c ∈ s) (u : Text) :
    closedBy c (s ++ u) = (closedBy c s).map fun r => (r.1, r.2 ++ u) := by
  obtain ⟨t, r, hs, ht⟩ := List.eq_append_cons_of_mem h
  have hshort : closedBy c s = some (t, r) := closedBy_eq_some_iff.2 ⟨ht, hs⟩
  have hlong : closedBy c (s ++ u) = some (t, r ++ u) := closedBy_eq_some_iff.2 ⟨ht, by rw [hs, List.append_assoc, List.cons_append]⟩
  rw [hshort, hlong]
  rfl

/-- White space is stripped behind a character that is none. -/
theorem dropWhileRight_append_cons {p : Char → Bool} {d : Char} (hd : p d = false) (x s : Text) :
    dropWhileRight p (x ++ d :: s) = x ++ d :: dropWhileRight p s := by
  have hreverse : (x ++ d :: s).reverse = s.reverse ++ d :: x.reverse := by simp
  have hkeep : (d :: x.reverse).dropWhile p = d :: x.reverse := List.dropWhile_cons_of_neg (by simp [hd])
  rw [dropWhileRight, hreverse, List.dropWhile_append, hkeep, dropWhileRight]
  split
  · rename_i hempty
    rw [List.isEmpty_iff.1 hempty]
    simp
  · simp

/-- Behind what is read the last character of it is the one before. -/
theorem cutFrom_hit_last {b : Option Char} {x rest : Text} {a : α} (hne : x ≠ []) (hr : read b (x ++ rest) = some (a, rest)) :
    cutFrom read 0 b (x ++ rest) = .hit a x :: cutFrom read 0 x.getLast? rest := by
  have hdrop (t : Text) (b : Option Char) : cutFrom read t.length b (t ++ rest) = cutFrom read 0 (t.getLast?.or b) rest := by
    induction t generalizing b with
    | nil => rfl
    | cons c t ih =>
      refine (ih (some c)).trans (congrArg (cutFrom read 0 · rest) ?_)
      rw [List.getLast?_cons]
      cases t.getLast? <;> rfl
  obtain ⟨c, t, rfl⟩ := List.exists_cons_of_ne_nil hne
  have hsource : upTo (c :: (t ++ rest)) rest = c :: t := upTo_append_rest (c :: t) rest
  have hlast : (c :: t).getLast? = t.getLast?.or (some c) := by
    rw [List.getLast?_cons]
    cases t.getLast? <;> rfl
  rw [List.cons_append] at hr ⊢
  simp only [cutFrom, hr, List.length_append, Nat.le_add_left, if_true, Nat.add_sub_cancel, hdrop, hsource, hlast]

end Text

namespace Formula

open Text (after? closedBy cutFrom replaceAll)

/-! ## Braces -/

/-- How many more braces are opened in a text than closed. -/
def excess (s : Text) : Int := (s.count '\x7b' : Int) - s.count '\x7d'

theorem excess_append (s t : Text) : excess (s ++ t) = excess s + excess t := by
  simp only [excess, List.count_append]
  omega

theorem excess_cons (c : Char) (s : Text) : excess (c :: s) = excess [c] + excess s := excess_append [c] s

/-- Every brace that is opened is closed. -/
def Closed (s : Text) : Prop := ∀ u, u <:+ s → excess u ≤ 0

theorem Closed.of_suffix {s t : Text} (h : Closed s) (ht : t <:+ s) : Closed t := fun u hu => h u (hu.trans ht)

/-- Behind an open brace one is closed. -/
theorem Closed.brace_mem {s : Text} (h : Closed ('\x7b' :: s)) : '\x7d' ∈ s := by
  have hle := h _ (List.suffix_refl _)
  rw [excess, List.count_cons_self, List.count_cons_of_ne (by decide)] at hle
  exact List.count_pos_iff.1 (by omega)

/-! ## Passes -/

/-- An end marker of `aligned`. -/
def alignedEnd : Text := "\\end\x7baligned\x7d"

/-- A pass over a formula. -/
structure Pass {α : Type} (read : Reader α) (put : α → Text) : Prop where
  /-- What is read begins with a backslash or a dollar. -/
  head : ∀ b {c s}, c ≠ '\\' → c ≠ '$' → read b (c :: s) = none
  /-- No begin marker is read. -/
  passes_begin : ∀ b s, read b ('\\' :: 'b' :: s) = none
  /-- No end marker of `aligned` is read. -/
  passes_end : ∀ b, read b alignedEnd = none
  /-- A brace in front is as good as nothing. -/
  behind_brace : ∀ s, read (some '\x7d') s = read none s
  /-- Nothing is read over the end of a text whose braces are closed. -/
  seam : ∀ b {s}, s ≠ [] → Closed s → read b (s ++ alignedEnd) = (read b s).map fun r => (r.1, r.2 ++ alignedEnd)
  /-- What is put opens no brace that was not open. -/
  settled : ∀ b {s a rest}, read b s = some (a, rest) → ∃ x, x ≠ [] ∧ s = x ++ rest ∧ excess (put a) ≤ excess x ∧
    ∀ v, v <:+ put a → ∃ w, w <:+ x ∧ excess v ≤ excess w

namespace Pass

variable {α : Type} {read : Reader α} {put : α → Text} (h : Pass read put)

/-- What comes in the places of the pieces. -/
def filled (put : α → Text) (ps : List (Piece α)) : Text := ps.flatMap fun
  | .char c => [c]
  | .hit a _ => put a

theorem filled_append (ps qs : List (Piece α)) : filled put (ps ++ qs) = filled put ps ++ filled put qs := List.flatMap_append

theorem filled_map_char (t : Text) : filled put (t.map .char) = t := by
  simp [filled, List.flatMap_map]

theorem replaceAll_eq_filled (s : Text) : replaceAll read put s = filled put (cutFrom read 0 none s) := rfl

include h

/-- A text is read from left to right. -/
theorem induct {motive : Option Char → Text → Prop} (nil : ∀ b, motive b [])
    (char : ∀ b c s, cutFrom read 0 b (c :: s) = .char c :: cutFrom read 0 (some c) s → read b (c :: s) = none →
      motive (some c) s → motive b (c :: s))
    (hit : ∀ b x a rest, x ≠ [] → read b (x ++ rest) = some (a, rest) → motive x.getLast? rest → motive b (x ++ rest))
    (b : Option Char) (s : Text) : motive b s := by
  generalize hn : s.length = n
  induction n using Nat.strongRecOn generalizing b s with
  | _ n ih =>
    cases s with
    | nil => exact nil b
    | cons c s =>
      rw [List.length_cons] at hn
      cases hr : read b (c :: s) with
      | none => exact char b c s (Text.cutFrom_char hr) hr (ih s.length (by omega) _ s rfl)
      | some r =>
        obtain ⟨a, rest⟩ := r
        obtain ⟨x, hne, hx, -⟩ := h.settled b hr
        have hpos := List.length_pos_iff.2 hne
        have hlength := congrArg List.length hx
        rw [List.length_append, List.length_cons] at hlength
        rw [hx] at hr ⊢
        exact hit b x a rest hne hr (ih rest.length (by omega) _ rest rfl)

/-- Characters that begin nothing are passed over, up to a closing brace. -/
theorem cutFrom_plain {t : Text} (ht : ∀ c ∈ t, c ≠ '\\' ∧ c ≠ '$') (b : Option Char) (s : Text) :
    cutFrom read 0 b (t ++ '\x7d' :: s) = (t ++ ['\x7d']).map .char ++ cutFrom read 0 none s := by
  induction t generalizing b with
  | nil =>
    have hbrace : cutFrom read 0 (some '\x7d') s = cutFrom read 0 none s := by
      cases s with
      | nil => rfl
      | cons c s => simp only [cutFrom, h.behind_brace]
    exact (Text.cutFrom_char (h.head b (by decide) (by decide))).trans (congrArg (Piece.char '\x7d' :: ·) hbrace)
  | cons c t ih =>
    obtain ⟨⟨hslash, hdollar⟩, ht⟩ := List.forall_mem_cons.1 ht
    exact (Text.cutFrom_char (h.head b hslash hdollar)).trans (congrArg (Piece.char c :: ·) (ih ht (some c)))

/-- A begin marker is passed over. -/
theorem replaceAll_begin {gap name : Text} (hgap : ∀ c ∈ gap, isBlank c = true) (hname : '\\' ∉ name ∧ '$' ∉ name) (s : Text) :
    replaceAll read put (Marker.source "begin" gap name ++ s) = Marker.source "begin" gap name ++ replaceAll read put s := by
  have hplain : ∀ c ∈ "begin".toList ++ (gap ++ '\x7b' :: name), c ≠ '\\' ∧ c ≠ '$' := by
    intro c hc
    simp only [List.mem_append, List.mem_cons] at hc
    rcases hc with hc | hc | rfl | hc
    · revert c
      decide
    · refine ⟨?_, ?_⟩ <;> rintro rfl <;> exact absurd (hgap _ hc) (by decide)
    · decide
    · exact ⟨fun he => hname.1 (he ▸ hc), fun he => hname.2 (he ▸ hc)⟩
  have hsource : Marker.source "begin" gap name = '\\' :: (("begin".toList ++ (gap ++ '\x7b' :: name)) ++ ['\x7d']) := by
    simp [Marker.source]
  have hcut : cutFrom read 0 none (Marker.source "begin" gap name ++ s) =
      (Marker.source "begin" gap name).map .char ++ cutFrom read 0 none s := by
    rw [hsource, List.cons_append, List.append_assoc]
    refine (Text.cutFrom_char (h.passes_begin none _)).trans ?_
    exact congrArg (Piece.char '\\' :: ·) (h.cutFrom_plain hplain (some '\\') s)
  rw [replaceAll_eq_filled, hcut, filled_append, filled_map_char, replaceAll_eq_filled]

/-- An end marker of `aligned` is passed over behind closed braces. -/
theorem replaceAll_end {s : Text} (hs : Closed s) : replaceAll read put (s ++ alignedEnd) = replaceAll read put s ++ alignedEnd := by
  have hend (b : Option Char) : cutFrom read 0 b alignedEnd = alignedEnd.map .char := by
    have hplain : ∀ c ∈ "end\x7baligned".toList, c ≠ '\\' ∧ c ≠ '$' := by decide
    have hrest := h.cutFrom_plain hplain (some '\\') []
    exact (Text.cutFrom_char (h.passes_end b)).trans (congrArg (Piece.char '\\' :: ·) hrest)
  have main (b : Option Char) (s : Text) : Closed s →
      filled put (cutFrom read 0 b (s ++ alignedEnd)) = filled put (cutFrom read 0 b s) ++ alignedEnd := by
    induction b, s using h.induct with
    | nil b =>
      intro _
      rw [List.nil_append, hend, filled_map_char]
      rfl
    | char b c s hcut hr ih =>
      intro hs
      have hseam := h.seam b (List.cons_ne_nil c s) hs
      rw [hr] at hseam
      have hlong : cutFrom read 0 b (c :: s ++ alignedEnd) = .char c :: cutFrom read 0 (some c) (s ++ alignedEnd) :=
        Text.cutFrom_char hseam
      rw [hlong, hcut]
      exact congrArg (c :: ·) (ih (hs.of_suffix (List.suffix_cons c s)))
    | hit b x a rest hne hr ih =>
      intro hs
      have hseam := h.seam b (List.append_ne_nil_of_left_ne_nil hne rest) hs
      rw [hr, List.append_assoc] at hseam
      rw [List.append_assoc, Text.cutFrom_hit_last hne hseam, Text.cutFrom_hit_last hne hr]
      have hrest := ih (hs.of_suffix (List.suffix_append x rest))
      exact (congrArg (put a ++ ·) hrest).trans (List.append_assoc _ _ _).symm
  exact main none s hs

/-- Braces stay closed. -/
theorem closed {s : Text} (hs : Closed s) : Closed (replaceAll read put s) := by
  have main (b : Option Char) (s : Text) : Closed s → Closed (filled put (cutFrom read 0 b s)) ∧
      excess (filled put (cutFrom read 0 b s)) ≤ excess s := by
    induction b, s using h.induct with
    | nil b =>
      intro hs
      exact ⟨hs, Int.le_refl _⟩
    | char b c s hcut hr ih =>
      intro hs
      obtain ⟨hclosed, hle⟩ := ih (hs.of_suffix (List.suffix_cons c s))
      have hcons : filled put (cutFrom read 0 b (c :: s)) = c :: filled put (cutFrom read 0 (some c) s) := by
        rw [hcut]
        rfl
      have hwhole : excess (c :: filled put (cutFrom read 0 (some c) s)) ≤ excess (c :: s) := by
        rw [excess_cons c, excess_cons c s]
        omega
      rw [hcons]
      refine ⟨fun u hu => ?_, hwhole⟩
      rcases List.suffix_cons_iff.1 hu with rfl | hu
      · exact Int.le_trans hwhole (hs _ (List.suffix_refl _))
      · exact hclosed u hu
    | hit b x a rest hne hr ih =>
      intro hs
      obtain ⟨hclosed, hle⟩ := ih (hs.of_suffix (List.suffix_append x rest))
      have hfilled : filled put (cutFrom read 0 b (x ++ rest)) = put a ++ filled put (cutFrom read 0 x.getLast? rest) := by
        rw [Text.cutFrom_hit_last hne hr]
        rfl
      obtain ⟨y, -, hy, hput, hends⟩ := h.settled b hr
      obtain rfl := List.append_cancel_right hy
      rw [hfilled]
      refine ⟨fun u hu => ?_, ?_⟩
      · rcases Text.suffix_append_cases hu with hu | ⟨v, -, hv, rfl⟩
        · exact hclosed u hu
        · obtain ⟨w, hw, hvw⟩ := hends v hv
          obtain ⟨z, rfl⟩ := hw
          have hold := hs (w ++ rest) ⟨z, (List.append_assoc _ _ _).symm⟩
          rw [excess_append] at hold ⊢
          omega
      · rw [excess_append, excess_append]
        omega
  exact (main none s hs).1

end Pass

/-! ### The passes -/

/-- A word without a backslash is not read over the seam. -/
theorem after?_append_alignedEnd {p : Text} (hp : '\\' ∉ p) (s : Text) :
    after? p (s ++ alignedEnd) = (after? p s).map (· ++ alignedEnd) := by
  refine Text.after?_append_of_head (fun c hc => ?_) s
  cases hc
  exact hp

/-- Behind a backslash the word of a command is found where it is found in front of another backslash. -/
theorem after?_slash_append {p s : Text} (hp : '\\' ∉ p) (hs : s ≠ []) :
    after? ('\\' :: p) (s ++ alignedEnd) = (after? ('\\' :: p) s).map (· ++ alignedEnd) := by
  obtain ⟨c, s, rfl⟩ := List.exists_cons_of_ne_nil hs
  by_cases he : '\\' = c
  · subst he
    exact after?_append_alignedEnd hp s
  · simp only [List.cons_append, after?, he, if_false, Option.map_none]

theorem after?_slash_of_ne {p s : Text} {c : Char} (hc : c ≠ '\\') : after? ('\\' :: p) (c :: s) = none := if_neg (Ne.symm hc)

/-- An argument without closing braces opens no fewer braces than it closes. -/
theorem excess_nonneg {t : Text} (ht : '\x7d' ∉ t) : 0 ≤ excess t := by
  rw [excess, List.count_eq_zero_of_not_mem ht]
  omega

/-- A command with its argument, where what is put opens no brace that the argument does not open. -/
theorem pass_tightCommand (name : Text) {put : Text → Text} (hname : '\\' ∉ name ∧ excess name = 0 ∧ name.head? ≠ some 'b' ∧ name ≠ [])
    (hend : after? ('\\' :: (name ++ ['\x7b'])) alignedEnd = none)
    (hput : ∀ t, '\x7d' ∉ t → excess (put t) ≤ excess t ∧
      ∀ v, v <:+ put t → ∃ w, w <:+ '\x7b' :: (t ++ ['\x7d']) ∧ excess v ≤ excess w) :
    Pass (tightCommand ('\\' :: (name ++ ['\x7b']))) put where
  head b c s hc _ := by
    rw [tightCommand, after?_slash_of_ne hc]
    rfl
  passes_begin b s := by
    obtain ⟨d, name, rfl⟩ := List.exists_cons_of_ne_nil hname.2.2.2
    have hd : d ≠ 'b' := fun he => hname.2.2.1 (he ▸ rfl)
    have hnone : after? ('\\' :: (d :: name ++ ['\x7b'])) ('\\' :: 'b' :: s) = none := by
      simp only [List.cons_append, after?, hd, if_true, if_false]
    rw [tightCommand, hnone]
    rfl
  passes_end b := by
    rw [tightCommand, hend]
    rfl
  behind_brace s := rfl
  seam b s hs hclosed := by
    have hslash : '\\' ∉ name ++ ['\x7b'] := by
      simp only [List.mem_append, List.mem_singleton, not_or]
      exact ⟨hname.1, by decide⟩
    rw [tightCommand, tightCommand, after?_slash_append hslash hs]
    cases hafter : after? ('\\' :: (name ++ ['\x7b'])) s with
    | none => rfl
    | some r =>
      have hbrace : '\x7d' ∈ r := by
        refine (hclosed.of_suffix ⟨'\\' :: name, ?_⟩).brace_mem
        rw [Text.after?_eq_some_iff.1 hafter]
        simp
      exact Text.closedBy_append_right hbrace alignedEnd
  settled b s a rest hr := by
    obtain ⟨r, hafter, hclose⟩ := Option.bind_eq_some_iff.1 hr
    obtain ⟨ha, rfl⟩ := Text.closedBy_eq_some_iff.1 hclose
    obtain ⟨hle, hends⟩ := hput a ha
    have hwhole : '\\' :: (name ++ ['\x7b']) ++ (a ++ ['\x7d']) = ('\\' :: name) ++ '\x7b' :: (a ++ ['\x7d']) := by simp
    refine ⟨'\\' :: (name ++ ['\x7b']) ++ (a ++ ['\x7d']), by simp, ?_, ?_, fun v hv => ?_⟩
    · rw [Text.after?_eq_some_iff.1 hafter]
      simp
    · have hbrace : excess ['\x7b'] = 1 ∧ excess ['\x7d'] = -1 ∧ excess ['\\'] = 0 := by decide
      rw [hwhole, excess_append, excess_cons, excess_cons '\x7b', excess_append, hname.2.1]
      omega
    · obtain ⟨w, hw, hvw⟩ := hends v hv
      exact ⟨w, hwhole ▸ hw.trans (List.suffix_append _ _), hvw⟩

/-- Nothing is put. -/
theorem settled_nil {x : Text} (hx : 0 ≤ excess x) (u : Text) : excess [] ≤ excess x ∧
    ∀ v : Text, v <:+ [] → ∃ w, w <:+ u ∧ excess v ≤ excess w := by
  refine ⟨hx, fun v hv => ⟨[], List.nil_suffix, ?_⟩⟩
  obtain rfl := List.suffix_nil.1 hv
  exact Int.le_refl _

/-- The argument is put as text, between brackets. -/
theorem settled_text {l r : Char} (hl : excess [l] = 0) (hr : excess [r] = 0) (t : Text) :
    excess ("\\text\x7b".toList ++ [l] ++ (t ++ [r, '\x7d'])) ≤ excess t ∧
      ∀ v, v <:+ "\\text\x7b".toList ++ [l] ++ (t ++ [r, '\x7d']) →
        ∃ w, w <:+ '\x7b' :: (t ++ ['\x7d']) ∧ excess v ≤ excess w := by
  have hfront : excess "\\text\x7b".toList = 1 := by decide
  have hback : excess [r, '\x7d'] = -1 := by rw [excess_cons, hr]; rfl
  have hclosing : excess ['\x7d'] = -1 := rfl
  have hopening : excess ['\x7b'] = 1 := rfl
  refine ⟨by simp only [excess_append, hfront, hl, hback]; omega, fun v hv => ?_⟩
  rcases Text.suffix_append_cases hv with hv | ⟨y, -, hy, rfl⟩
  · rcases Text.suffix_append_cases hv with hv | ⟨y, -, hy, rfl⟩
    · -- at most the brackets behind the argument
      refine ⟨[], List.nil_suffix, ?_⟩
      rcases List.suffix_cons_iff.1 hv with rfl | hv
      · rw [hback]
        decide
      · rcases List.suffix_cons_iff.1 hv with rfl | hv
        · decide
        · obtain rfl := List.suffix_nil.1 hv
          exact Int.le_refl _
    · refine ⟨y ++ ['\x7d'], ?_, Int.le_of_eq (by rw [excess_append, excess_append, hback, hclosing])⟩
      obtain ⟨z, rfl⟩ := hy
      exact ⟨'\x7b' :: z, by simp⟩
  · -- the whole argument, and part of what stands in front
    have hpart : excess y ≤ 1 := by
      rcases Text.suffix_append_cases hy with hy | ⟨z, -, hz, rfl⟩
      · rcases List.suffix_cons_iff.1 hy with rfl | hy
        · rw [hl]
          decide
        · rw [List.suffix_nil.1 hy]
          decide
      · have hall : ∀ z ∈ "\\text\x7b".toList.tails, excess z ≤ 1 := by decide
        have := hall z ((List.mem_tails _ _).2 hz)
        rw [excess_append, hl]
        omega
    refine ⟨'\x7b' :: (t ++ ['\x7d']), List.suffix_refl _, ?_⟩
    rw [excess_cons, excess_append, excess_append, excess_append, hback, hclosing, hopening]
    omega

/-- A dollar is read behind everything but a backslash. -/
theorem unescapedDollar_cons (b : Option Char) (c : Char) (s : Text) :
    unescapedDollar b (c :: s) = if c = '$' ∧ b ≠ some '\\' then some ((), s) else none := by
  unfold unescapedDollar
  split
  · simp
  · rename_i heq
    obtain ⟨rfl, rfl⟩ := List.cons.inj heq
    simp_all
  · rename_i hb hc
    exact (if_neg fun h => hc s (congrArg (· :: s) h.1)).symm

theorem pass_dollars : Pass unescapedDollar fun _ => [] where
  head b c s _ hc := by rw [unescapedDollar_cons, if_neg fun h => hc h.1]
  passes_begin b s := by rw [unescapedDollar_cons, if_neg fun h => absurd h.1 (by decide)]
  passes_end b := (unescapedDollar_cons b '\\' _).trans (if_neg fun h => absurd h.1 (by decide))
  behind_brace s := by
    cases s with
    | nil => rfl
    | cons c s => simp [unescapedDollar_cons]
  seam b s hs _ := by
    obtain ⟨c, s, rfl⟩ := List.exists_cons_of_ne_nil hs
    rw [List.cons_append, unescapedDollar_cons, unescapedDollar_cons]
    split <;> rfl
  settled b s a rest hr := by
    cases s with
    | nil =>
      unfold unescapedDollar at hr
      split at hr
      · cases hr
      · rename_i heq
        cases heq
      · cases hr
    | cons c s =>
      rw [unescapedDollar_cons] at hr
      split at hr
      · rename_i hc
        cases hr
        exact ⟨['$'], by simp, by rw [hc.1]; rfl, settled_nil (by decide) _⟩
      · cases hr

/-- A star may stand in front. -/
theorem optionalStar (t : Text) : ∃ star, t = star ++ (after? "*" t).getD t ∧ excess star = 0 := by
  cases h : after? "*" t with
  | none => exact ⟨[], rfl, rfl⟩
  | some r => exact ⟨"*", Text.after?_eq_some_iff.1 h, by decide⟩

theorem pass_tagCommand : Pass tagCommand fun _ => [] where
  head b c s hc _ := by
    rw [tagCommand, show after? "\\tag" (c :: s) = none from after?_slash_of_ne hc]
    rfl
  passes_begin b s := rfl
  passes_end b := rfl
  behind_brace s := rfl
  seam b s hs hclosed := by
    have htag := after?_slash_append (p := "tag") (by decide) hs
    have hstar := after?_append_alignedEnd (p := "*") (by decide)
    have hopening := after?_append_alignedEnd (p := "\x7b") (by decide)
    have hrest (t : Text) : (after? "*" (t ++ alignedEnd)).getD (t ++ alignedEnd) = (after? "*" t).getD t ++ alignedEnd := by
      rw [hstar]
      cases after? "*" t <;> rfl
    rw [tagCommand, tagCommand, show after? "\\tag" (s ++ alignedEnd) = _ from htag]
    cases hafter : after? "\\tag" s with
    | none =>
      rw [show after? ('\\' :: "tag".toList) s = none from hafter]
      rfl
    | some t =>
      rw [show after? ('\\' :: "tag".toList) s = some t from hafter]
      simp only [Option.map_some, Option.bind_eq_bind, Option.bind_some, hrest, hopening]
      cases hbrace : after? "\x7b" ((after? "*" t).getD t) with
      | none => rfl
      | some r =>
        obtain ⟨star, ht, -⟩ := optionalStar t
        have hsuffix : '\x7b' :: r <:+ s := by
          rw [Text.after?_eq_some_iff.1 hafter, ht, Text.after?_eq_some_iff.1 hbrace]
          exact ⟨"\\tag".toList ++ star, by simp⟩
        have hmem : '\x7d' ∈ r := (hclosed.of_suffix hsuffix).brace_mem
        simp only [Option.map_some, Option.bind_some, Text.closedBy_append_right hmem]
        cases closedBy '\x7d' r <;> rfl
  settled b s a rest hr := by
    simp only [tagCommand, Option.bind_eq_bind, Option.bind_eq_some_iff] at hr
    obtain ⟨t, htag, r, hopening, ⟨arg, rest'⟩, hclose, he⟩ := hr
    cases he
    obtain ⟨harg, rfl⟩ := Text.closedBy_eq_some_iff.1 hclose
    obtain ⟨star, ht, hstar⟩ := optionalStar t
    have hword : excess "\\tag".toList = 0 ∧ excess "\x7b".toList = 1 ∧ excess "\x7d".toList = -1 := by decide
    refine ⟨"\\tag".toList ++ (star ++ ("\x7b".toList ++ (arg ++ "\x7d".toList))), by simp, ?_, settled_nil ?_ _⟩
    · rw [Text.after?_eq_some_iff.1 htag, ht, Text.after?_eq_some_iff.1 hopening]
      simp
    · have harg := excess_nonneg harg
      simp only [excess_append, hstar]
      omega

/-- A word that has been read is whole. -/
def whole? (rest : Text) : Option (Unit × Text) :=
  match rest with
  | c :: _ => if isWordChar c then none else some ((), rest)
  | [] => some ((), rest)

theorem wholeWord_eq (words : List Text) (b : Option Char) (s : Text) :
    wholeWord words b s = words.findSome? fun w => (after? ('\\' :: w) s).bind whole? := rfl

theorem whole?_append (r : Text) : whole? (r ++ alignedEnd) = (whole? r).map fun p => (p.1, p.2 ++ alignedEnd) := by
  cases r with
  | nil => rfl
  | cons c r =>
    simp only [List.cons_append, whole?]
    split <;> rfl

theorem whole?_eq_some {r rest : Text} {a : Unit} (h : whole? r = some (a, rest)) : rest = r := by
  unfold whole? at h
  split at h
  · split at h <;> cases h
    rfl
  · cases h
    rfl

theorem wholeWord_append {words : List Text} (hwords : ∀ w ∈ words, '\\' ∉ w) (b : Option Char) {s : Text} (hs : s ≠ []) :
    wholeWord words b (s ++ alignedEnd) = (wholeWord words b s).map fun r => (r.1, r.2 ++ alignedEnd) := by
  induction words with
  | nil => rfl
  | cons w words ih =>
    obtain ⟨hw, hwords⟩ := List.forall_mem_cons.1 hwords
    have ih := ih hwords
    rw [wholeWord_eq, wholeWord_eq] at ih ⊢
    rw [List.findSome?_cons, List.findSome?_cons, ih, after?_slash_append hw hs]
    cases after? ('\\' :: w) s with
    | none => rfl
    | some r =>
      simp only [Option.map_some, Option.bind_some, whole?_append]
      cases whole? r <;> rfl

theorem pass_wholeWord : Pass (wholeWord ["nonumber", "notag"]) fun _ => [] where
  head b c s hc _ := by
    refine List.findSome?_eq_none_iff.2 fun w _ => ?_
    rw [after?_slash_of_ne hc]
    rfl
  passes_begin b s := rfl
  passes_end b := rfl
  behind_brace s := rfl
  seam b s hs _ := wholeWord_append (by decide) b hs
  settled b s a rest hr := by
    rw [wholeWord_eq] at hr
    obtain ⟨w, hw, hread⟩ := List.exists_of_findSome?_eq_some hr
    obtain ⟨r, hafter, hrest⟩ := Option.bind_eq_some_iff.1 hread
    obtain rfl := whole?_eq_some hrest
    have hword : ∀ w ∈ texts ["nonumber", "notag"], 0 ≤ excess ('\\' :: w) := by decide
    exact ⟨'\\' :: w, by simp, Text.after?_eq_some_iff.1 hafter, settled_nil (hword w hw) _⟩

/-! ## All passes -/

/-- A formula after all passes, with the white space around it. -/
def tidy (formula : Text) : Text :=
  let s := formula.removeAll unescapedDollar
  let s := s.removeAll (tightCommand "\\label\x7b")
  let s := s.removeAll tagCommand
  let s := s.removeAll (wholeWord ["nonumber", "notag"])
  let s := s.replaceAll (tightCommand "\\eqref\x7b") fun a => "\\text\x7b(" ++ a ++ ")\x7d"
  s.replaceAll (tightCommand "\\ref\x7b") fun a => "\\text\x7b[" ++ a ++ "]\x7d"

theorem clean_eq (s : Text) : clean s = Text.strip (tidy s) := rfl

theorem pass_label : Pass (tightCommand "\\label\x7b") fun _ => [] :=
  pass_tightCommand "label" (by decide) rfl fun _ ht => settled_nil (excess_nonneg ht) _

theorem pass_eqref : Pass (tightCommand "\\eqref\x7b") fun a => "\\text\x7b(" ++ a ++ ")\x7d" :=
  pass_tightCommand "eqref" (by decide) rfl fun t _ => by
    simpa using settled_text (l := '(') (r := ')') (by decide) (by decide) t

theorem pass_ref : Pass (tightCommand "\\ref\x7b") fun a => "\\text\x7b[" ++ a ++ "]\x7d" :=
  pass_tightCommand "ref" (by decide) rfl fun t _ => by
    simpa using settled_text (l := '[') (r := ']') (by decide) (by decide) t

/-- A begin marker is kept in front of what is cleaned. -/
theorem tidy_begin {gap name : Text} (hgap : ∀ c ∈ gap, isBlank c = true) (hname : '\\' ∉ name ∧ '$' ∉ name) (s : Text) :
    tidy (Marker.source "begin" gap name ++ s) = Marker.source "begin" gap name ++ tidy s := by
  simp only [tidy, Text.removeAll, pass_dollars.replaceAll_begin hgap hname, pass_label.replaceAll_begin hgap hname,
    pass_tagCommand.replaceAll_begin hgap hname, pass_wholeWord.replaceAll_begin hgap hname,
    pass_eqref.replaceAll_begin hgap hname, pass_ref.replaceAll_begin hgap hname]

/-- An end marker of `aligned` is kept behind a text whose braces are closed. -/
theorem tidy_end {s : Text} (hs : Closed s) : tidy (s ++ alignedEnd) = tidy s ++ alignedEnd := by
  have h₁ := pass_dollars.closed hs
  have h₂ := pass_label.closed h₁
  have h₃ := pass_tagCommand.closed h₂
  have h₄ := pass_wholeWord.closed h₃
  have h₅ := pass_eqref.closed h₄
  simp only [tidy, Text.removeAll, pass_dollars.replaceAll_end hs, pass_label.replaceAll_end h₁,
    pass_tagCommand.replaceAll_end h₂, pass_wholeWord.replaceAll_end h₃, pass_eqref.replaceAll_end h₄,
    pass_ref.replaceAll_end h₅]

/-- No white space is stripped from a begin marker. -/
theorem strip_begin (gap name s : Text) :
    Text.strip (Marker.source "begin" gap name ++ s) = Marker.source "begin" gap name ++ Text.stripRight s := by
  have hsource (t : Text) : Marker.source "begin" gap name ++ t =
      ('\\' :: ("begin".toList ++ (gap ++ '\x7b' :: name))) ++ '\x7d' :: t := by simp [Marker.source]
  have hhead : (Marker.source "begin" gap name ++ s).dropWhile isBlank = Marker.source "begin" gap name ++ s :=
    List.dropWhile_cons_of_neg (by decide)
  rw [Text.strip, hhead, hsource, Text.dropWhileRight_append_cons (by decide), hsource, Text.stripRight]

/-- A formula that begins with a begin marker is cleaned behind it. -/
theorem clean_begin {gap name : Text} (hgap : ∀ c ∈ gap, isBlank c = true) (hname : '\\' ∉ name ∧ '$' ∉ name) (s : Text) :
    clean (Marker.source "begin" gap name ++ s) = Marker.source "begin" gap name ++ Text.stripRight (tidy s) := by
  rw [clean_eq, tidy_begin hgap hname, strip_begin]

/-- The aligned text. -/
def aligned (body : Text) : Text := "\\begin\x7baligned\x7d" ++ body ++ "\\end\x7baligned\x7d"

/-- A text whose braces are closed is cleaned inside `aligned`. -/
theorem clean_aligned {body : Text} (h : Closed body) : clean (aligned body) = aligned (tidy body) := by
  have hbegin : "\\begin\x7baligned\x7d".toList = Marker.source "begin" [] "aligned" := by decide
  have hsource (t : Text) : aligned t = Marker.source "begin" [] "aligned" ++ (t ++ alignedEnd) := by
    unfold aligned
    rw [hbegin, List.append_assoc]
    rfl
  have hlast : alignedEnd = "\\end\x7baligned".toList ++ ['\x7d'] := by decide
  have hend (t : Text) : Text.stripRight (t ++ alignedEnd) = t ++ alignedEnd := by
    rw [hlast, ← List.append_assoc]
    exact Text.dropWhileRight_append_cons (by decide) _ []
  rw [hsource, clean_begin (by simp) (by decide), tidy_end h, hend, hsource]

end Formula

end Galley
