import Galley.Inline.Format
import Galley.Proofs.Characters
import Mathlib.Algebra.Order.Group.Multiset
/-!
# Marks of pieces set aside

A marked text is made of accepted characters and of whole marks, and the numbers of its marks are a resource: there
is at most one mark for each time a number is in the multiset, and texts that stand side by side share what there is
(`Marked.append`, `Marked.split`). Such a text may be cut at any character that is none of a mark's, and what takes
the place of a construct in it may be marked itself (`Laid`).
-/

namespace Galley.Inline.Stash

/-- A character of a mark behind its first one. -/
def isInner (c : Char) : Bool := c.isDigit || c = closing

def isMarkChar (c : Char) : Bool := c = opening || isInner c

variable {ok : Char → Bool}

/-- Accepted characters and whole marks, no number more often than it is in the multiset. -/
inductive Marked (ok : Char → Bool) : Multiset Nat → Text → Prop
  | nil {u : Multiset Nat} : Marked ok u []
  | char {u : Multiset Nat} {c : Char} {s : Text} (hc : ok c = true) (hs : Marked ok u s) : Marked ok u (c :: s)
  | mark {u v : Multiset Nat} {k : Nat} {s : Text} (hk : k ::ₘ u ≤ v) (hs : Marked ok u s) :
      Marked ok v (Stash.mark k ++ s)

theorem mark_eq (k : Nat) : mark k = opening :: (Text.ofNat k ++ [closing]) := rfl

theorem isInner_of_mem {k : Nat} {c : Char} (h : c ∈ Text.ofNat k ++ [closing]) : isInner c = true := by
  rcases List.mem_append.1 h with h | h
  · simp [isInner, Text.isDigit_of_mem_ofNat h]
  · simp [isInner, List.mem_singleton.1 h]

theorem isMarkChar_of_mem {k : Nat} {c : Char} (h : c ∈ Stash.mark k) : isMarkChar c = true := by
  rcases List.mem_cons.1 h with rfl | h
  · rfl
  · simp [isMarkChar, isInner_of_mem h]

theorem not_isMarkChar_of_isBlank {c : Char} (h : isBlank c = true) : isMarkChar c = false := by
  have hne {x : Char} (hx : isBlank x = false) : c ≠ x := by
    rintro rfl
    rw [h] at hx
    cases hx
  have hdigit : c.isDigit = false := by
    refine Bool.eq_false_iff.2 fun hc => ?_
    simp only [Char.isDigit, Bool.and_eq_true, decide_eq_true_eq] at hc
    simp only [isBlank, inRanges, blankRanges, List.any_cons, List.any_nil, Bool.or_eq_true, Bool.and_eq_true,
      decide_eq_true_eq, Bool.or_false] at h
    have hlow : 48 ≤ c.toNat := hc.1
    have hhigh : c.toNat ≤ 57 := hc.2
    omega
  simp [isMarkChar, isInner, hdigit, hne (x := opening) (by decide), hne (x := closing) (by decide)]

theorem ne_of_isMarkChar {c x : Char} (h : isMarkChar c = true) (hx : isMarkChar x = false) : x ≠ c := by
  rintro rfl
  rw [h] at hx
  cases hx

namespace Marked

variable {u v : Multiset Nat} {s t a b : Text}

theorem mono (h : Marked ok u s) (hle : u ≤ v) : Marked ok v s := by
  induction h generalizing v with
  | nil => exact .nil
  | char hc _ ih => exact .char hc (ih hle)
  | mark hk hs _ => exact .mark (hk.trans hle) hs

theorem of_within (h : Within ok s) : Marked ok u s := by
  induction s with
  | nil => exact .nil
  | cons c s ih =>
    obtain ⟨hc, hs⟩ := List.forall_mem_cons.1 h
    exact .char hc (ih hs)

/-- Where there is no number there is no mark. -/
theorem within (h : Marked ok 0 s) : Within ok s := by
  generalize hu : (0 : Multiset Nat) = u at h
  induction h with
  | nil => exact Within.nil
  | char hc _ ih => exact List.forall_mem_cons.2 ⟨hc, ih hu⟩
  | mark hk _ _ =>
    rw [← hu] at hk
    exact absurd (Multiset.mem_of_le hk (Multiset.mem_cons_self _ _)) (Multiset.notMem_zero _)

theorem imp {ok' : Char → Bool} (hsub : ∀ c, ok c = true → ok' c = true) (h : Marked ok u s) : Marked ok' u s := by
  induction h with
  | nil => exact .nil
  | char hc _ ih => exact .char (hsub _ hc) ih
  | mark hk _ ih => exact .mark hk ih

theorem mem (h : Marked ok u s) {c : Char} (hc : c ∈ s) : ok c = true ∨ isMarkChar c = true := by
  induction h with
  | nil => cases hc
  | char hx _ ih =>
    rcases List.mem_cons.1 hc with rfl | hc
    · exact .inl hx
    · exact ih hc
  | mark _ _ ih =>
    rcases List.mem_append.1 hc with hc | hc
    · exact .inr (isMarkChar_of_mem hc)
    · exact ih hc

theorem append (ha : Marked ok u a) (hb : Marked ok v b) : Marked ok (u + v) (a ++ b) := by
  induction ha with
  | nil => exact hb.mono (Multiset.le_add_left _ _)
  | char hc _ ih => exact .char hc ih
  | mark hk _ ih =>
    rw [List.append_assoc]
    refine .mark ?_ ih
    rw [← Multiset.cons_add]
    exact add_le_add_left hk v

/-- Only a mark begins with the character that opens marks. -/
theorem inv (hopen : ok opening = false) (h : Marked ok u (opening :: s)) :
    ∃ k v t, k ::ₘ v ≤ u ∧ opening :: s = Stash.mark k ++ t ∧ Marked ok v t := by
  generalize hs : opening :: s = r at h
  cases h with
  | nil => cases hs
  | char hc _ =>
    rw [← (List.cons.inj hs).1, hopen] at hc
    cases hc
  | @mark v _ k t hk ht => exact ⟨k, v, t, hk, rfl, ht⟩

theorem tail {c : Char} (hc : c ≠ opening) (h : Marked ok u (c :: s)) : ok c = true ∧ Marked ok u s := by
  generalize hs : c :: s = r at h
  cases h with
  | nil => cases hs
  | char hx hr =>
    obtain ⟨rfl, rfl⟩ := List.cons.inj hs
    exact ⟨hx, hr⟩
  | mark hk _ => exact absurd (List.cons.inj hs).1 hc

/-- At a character that is none of a mark's a text falls into two, which share its marks. -/
theorem split {c : Char} (hc : isMarkChar c = false) (h : Marked ok u (a ++ c :: b)) :
    ∃ v w, v + w ≤ u ∧ Marked ok v a ∧ ok c = true ∧ Marked ok w b := by
  generalize hs : a ++ c :: b = s at h
  induction h generalizing a with
  | nil => simp at hs
  | @char u x s hx h ih =>
    cases a with
    | nil =>
      obtain ⟨rfl, rfl⟩ := List.cons.inj hs
      exact ⟨0, u, by simp, .nil, hx, h⟩
    | cons y a =>
      obtain ⟨rfl, hrest⟩ := List.cons.inj hs
      obtain ⟨v, w, hle, ha, hok, hb⟩ := ih hrest
      exact ⟨v, w, hle, .char hx ha, hok, hb⟩
  | @mark u u' k s hk h ih =>
    -- the character is in no mark, so the mark stands before it or behind it
    have hinner (hm : c ∈ Stash.mark k) : False := by
      rw [isMarkChar_of_mem hm] at hc
      cases hc
    rcases List.append_eq_append_iff.1 hs with ⟨t, ht, hrest⟩ | ⟨t, ht, hrest⟩
    · cases t with
      | nil =>
        rw [List.append_nil] at ht
        obtain ⟨v, w, hle, -, hok, hb⟩ := ih (a := []) (by simpa using hrest)
        refine ⟨{k}, w, ?_, ?_, hok, hb⟩
        · exact (Multiset.cons_le_cons k ((Multiset.le_add_left w v).trans hle)).trans hk
        · rw [← ht, ← List.append_nil (Stash.mark k)]
          exact .mark (u := 0) (Multiset.singleton_le.2 (Multiset.mem_singleton_self k)) .nil
      | cons z t =>
        -- the mark would reach over the character
        obtain ⟨rfl, -⟩ := List.cons.inj hrest
        exact (hinner (by rw [ht]; simp)).elim
    · obtain ⟨v, w, hle, ha, hok, hb⟩ := ih hrest.symm
      refine ⟨k ::ₘ v, w, ?_, ?_, hok, hb⟩
      · rw [Multiset.cons_add]
        exact (Multiset.cons_le_cons k hle).trans hk
      · rw [ht]
        exact .mark le_rfl ha

theorem strip (h : Marked ok u s) : Marked ok u (Text.strip s) := by
  have hleft : Marked ok u (s.dropWhile isBlank) := by
    induction s with
    | nil => exact h
    | cons c s ih =>
      rw [List.dropWhile_cons]
      split
      · rename_i hc
        have hne : c ≠ opening := by
          rintro rfl
          revert hc
          decide
        exact ih (h.tail hne).2
      · exact h
  obtain ⟨t, ht, hblank⟩ := Text.dropWhileRight_eq isBlank (s.dropWhile isBlank)
  cases t with
  | nil =>
    rw [List.append_nil] at ht
    rwa [Text.strip, ← ht]
  | cons c t =>
    rw [ht] at hleft
    obtain ⟨v, w, hle, hv, -, -⟩ := hleft.split (not_isMarkChar_of_isBlank (hblank c List.mem_cons_self))
    exact hv.mono ((Multiset.le_add_right v w).trans hle)

/-- A rewriting character by character that leaves the marks. -/
theorem flatMap {ok' : Char → Bool} {f : Char → Text} (hmark : ∀ c, isMarkChar c = true → f c = [c])
    (hother : ∀ c, ok c = true → Within ok' (f c)) (h : Marked ok u s) : Marked ok' u (s.flatMap f) := by
  induction h with
  | nil => exact .nil
  | @char u c s hc _ ih =>
    rw [List.flatMap_cons, ← Multiset.zero_add u]
    exact (of_within (hother c hc)).append ih
  | @mark u v k s hk _ ih =>
    have hkeep : (Stash.mark k).flatMap f = Stash.mark k := by
      have hall (t : Text) (ht : ∀ c ∈ t, isMarkChar c = true) : t.flatMap f = t := by
        induction t with
        | nil => rfl
        | cons c t iht =>
          obtain ⟨hc, ht⟩ := List.forall_mem_cons.1 ht
          rw [List.flatMap_cons, hmark c hc, iht ht]
          rfl
      exact hall _ fun c hc => isMarkChar_of_mem hc
    rw [List.flatMap_append, hkeep]
    exact .mark hk ih

/-- Text without marks around a marked text. -/
theorem wrap (ha : Within ok a) (hb : Within ok b) (h : Marked ok u s) : Marked ok u (a ++ s ++ b) := by
  have hleft := (of_within (u := 0) ha).append h
  rw [Multiset.zero_add] at hleft
  have hboth := hleft.append (of_within (u := 0) hb)
  rwa [Multiset.add_zero] at hboth

end Marked

/-! ## Pieces of marked texts -/

section Pieces

variable {α : Type} {ok' : Char → Bool} {H : Multiset Nat → α → Text → Prop} {u : Multiset Nat} {ps : List (Piece α)}
  {read : Reader α}

/-- The pieces of a marked text: no construct begins inside a mark, and `H` holds of every construct with its share of
    the marks. -/
inductive Laid (ok : Char → Bool) (H : Multiset Nat → α → Text → Prop) : Multiset Nat → List (Piece α) → Prop
  | nil {u : Multiset Nat} : Laid ok H u []
  | char {u : Multiset Nat} {c : Char} {ps : List (Piece α)} (hc : ok c = true) (hps : Laid ok H u ps) :
      Laid ok H u (.char c :: ps)
  | mark {u v : Multiset Nat} {k : Nat} {ps : List (Piece α)} (hk : k ::ₘ u ≤ v) (hps : Laid ok H u ps) :
      Laid ok H v ((Stash.mark k).map .char ++ ps)
  | hit {u v w : Multiset Nat} {a : α} {source : Text} {ps : List (Piece α)} (ha : H v a source) (hle : v + u ≤ w)
      (hps : Laid ok H u ps) : Laid ok H w (.hit a source :: ps)

/-- A reader that finds nothing at a character of a mark. -/
def Heeds (read : Reader α) : Prop := ∀ before c s, isMarkChar c = true → read before (c :: s) = none

theorem laid_cut (hopen : ok opening = false) (hheed : Heeds read)
    (hread : ∀ x ≤ u, ∀ before s a rest, Marked ok x s → read before s = some (a, rest) →
      rest <:+ s ∧ ∃ v w, v + w ≤ x ∧ H v a (Text.upTo s rest) ∧ Marked ok w rest)
    {s : Text} (hs : Marked ok u s) : Laid ok H u (Text.cut read s) := by
  have main (len : Nat) : ∀ x ≤ u, ∀ (s : Text) (before : Option Char), s.length ≤ len → Marked ok x s →
      Laid ok H x (Text.cutFrom read 0 before s) := by
    induction len with
    | zero =>
      intro x _ s before hlen _
      rw [List.length_eq_zero_iff.1 (Nat.le_zero.1 hlen)]
      exact .nil
    | succ len ih =>
      intro x hx s before hlen hs
      cases s with
      | nil => exact .nil
      | cons c s =>
        simp only [List.length_cons] at hlen
        by_cases hc : c = opening
        · -- a mark is taken character by character
          subst hc
          obtain ⟨k, v, t, hk, ht, hmarked⟩ := hs.inv hopen
          obtain ⟨b, hb⟩ := Text.cutFrom_append
            (fun c hc before s => hheed before c s (isMarkChar_of_mem (k := k) hc)) t before
          rw [ht, hb]
          refine .mark hk (ih v ((Multiset.le_cons_self v k).trans (hk.trans hx)) t b ?_ hmarked)
          have hlength := congrArg List.length ht
          rw [mark_eq] at hlength
          simp only [List.length_append, List.length_cons] at hlength
          omega
        · rcases Text.cutFrom_cons read before c s with hcut | ⟨a, rest, hr, hle, hcut⟩
          · obtain ⟨hok, htail⟩ := hs.tail hc
            rw [hcut]
            exact .char hok (ih x hx s _ (by omega) htail)
          · obtain ⟨hsuffix, v, w, hsum, ha, hrest⟩ := hread x hx before _ a rest hs hr
            obtain ⟨b, hb⟩ := hcut hsuffix
            rw [hb]
            exact .hit ha hsum (ih w ((Multiset.le_add_left w v).trans (hsum.trans hx)) rest b (by omega) hrest)
  exact main s.length u le_rfl s none (Nat.le_refl _) hs

theorem Laid.flatMap {f : Piece α → Text} (h : Laid ok H u ps) (hsub : ∀ c, ok c = true → ok' c = true)
    (hchar : ∀ c, f (.char c) = [c]) (hhit : ∀ v a source, H v a source → Marked ok' v (f (.hit a source))) :
    Marked ok' u (ps.flatMap f) := by
  induction h with
  | nil => exact .nil
  | char hc _ ih =>
    rw [List.flatMap_cons, hchar]
    exact .char (hsub _ hc) ih
  | mark hk _ ih =>
    rw [List.flatMap_append, List.flatMap_map]
    simp only [hchar]
    rw [List.flatMap_singleton']
    exact .mark hk ih
  | hit ha hle _ ih =>
    rw [List.flatMap_cons]
    exact ((hhit _ _ _ ha).append ih).mono hle

end Pieces

end Galley.Inline.Stash
