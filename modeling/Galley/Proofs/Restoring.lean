import Galley.Proofs.Marks
import Mathlib.Data.List.Chain
/-!
# Rounds of restoring

Restoring goes in rounds. The marks met in the next round are those in the pieces of the marks of this one
(`marks_replaceAll`), as a piece begins and ends with characters that are in no mark; so a mark is met in some round
just where a way of marks, each in the piece of the one before, leads to it (`mem_marksAfter_iff`).
-/

namespace Galley.Inline.Stash

/-! ## Marks of a text -/

theorem reader_eq_some {b : Option Char} {s digits rest : Text} (h : reader b s = some (digits, rest)) :
    s = opening :: (digits ++ closing :: rest) ∧ digits ≠ [] ∧ ∀ c ∈ digits, isDecimalDigit c = true := by
  unfold reader at h
  split at h
  · rename_i c s
    split at h
    · rename_i hc
      rw [List.span_eq_takeWhile_dropWhile] at h
      dsimp only at h
      split at h
      · rename_i d r hd
        split at h
        · rename_i hclose
          simp only [Bool.and_eq_true, decide_eq_true_eq, Bool.not_eq_true', List.isEmpty_eq_false_iff] at hclose
          cases h
          refine ⟨?_, hclose.2, fun c hc => List.all_eq_true.1 List.all_takeWhile c hc⟩
          rw [hc, ← hclose.1, ← hd, List.takeWhile_append_dropWhile]
        · cases h
      · cases h
    · cases h
  · cases h

theorem reader_written {digits : Text} (hne : digits ≠ []) (hdigits : ∀ c ∈ digits, isDecimalDigit c = true)
    (b : Option Char) (rest : Text) : reader b (opening :: (digits ++ closing :: rest)) = some (digits, rest) := by
  have hclosing : isDecimalDigit closing = false := by decide
  have hempty : digits.isEmpty = false := List.isEmpty_eq_false_iff.2 hne
  simp only [reader, if_true, List.span_eq_takeWhile_dropWhile, List.takeWhile_append_of_pos hdigits,
    List.dropWhile_append_of_pos hdigits, List.takeWhile_cons_of_neg (by simp [hclosing] : ¬ isDecimalDigit closing = true),
    List.dropWhile_cons_of_neg (by simp [hclosing] : ¬ isDecimalDigit closing = true), List.append_nil, hempty,
    decide_true, Bool.not_false, Bool.and_self]

theorem reader_char {c : Char} (hc : c ≠ opening) (b : Option Char) (s : Text) : reader b (c :: s) = none := by
  simp only [reader, if_neg hc]

theorem reader_mark (k : Nat) (b : Option Char) (s : Text) : reader b (mark k ++ s) = some (Text.ofNat k, s) := by
  rw [mark_eq, List.cons_append, List.append_assoc, List.singleton_append]
  refine reader_written (fun he => ?_) (fun c hc => isDecimalDigit_of_isDigit (Text.isDigit_of_mem_ofNat hc)) b s
  have hempty := Text.isEmpty_ofNat k
  rw [he] at hempty
  cases hempty

theorem firm_reader : Text.Firm reader := by
  intro b s digits rest h
  obtain ⟨rfl, hne, hdigits⟩ := reader_eq_some h
  refine ⟨opening :: (digits ++ [closing]), by simp, by simp, fun b u => ?_⟩
  simpa using reader_written hne hdigits b u

/-- The numbers of the marks in a text, as they are written. -/
def marks (s : Text) : List Text := s.readAll reader

@[simp] theorem marks_nil : marks [] = [] := rfl

theorem occurs_reader (s : Text) : s.occurs reader = !(marks s).isEmpty := firm_reader.occurs_eq s

/-- A character that is in no mark. -/
def Apart (c : Char) : Prop := c ≠ opening ∧ c ≠ closing ∧ isDecimalDigit c = false

instance (c : Char) : Decidable (Apart c) := inferInstanceAs (Decidable (_ ∧ _ ∧ _))

theorem Apart.not_mem {c : Char} (hc : Apart c) {digits : Text} (hdigits : ∀ c ∈ digits, isDecimalDigit c = true) :
    c ∉ digits := by
  intro hm
  have hdigit := hdigits c hm
  rw [hc.2.2] at hdigit
  cases hdigit

/-- No mark reaches over a character that is in none. -/
theorem marks_append_cons {c : Char} (hc : Apart c) (a b : Text) : marks (a ++ c :: b) = marks a ++ marks b := by
  induction a using firm_reader.induct with
  | nil => exact firm_reader.forward.readAll_cons (reader_char hc.1 none b)
  | char x a hr ih =>
    have hread : reader none (x :: (a ++ c :: b)) = none := by
      refine Option.eq_none_iff_forall_ne_some.2 fun r hr' => ?_
      obtain ⟨digits, rest⟩ := r
      obtain ⟨heq, hne, hdigits⟩ := reader_eq_some hr'
      obtain ⟨rfl, htail⟩ := List.cons.inj heq
      have htail : a ++ c :: b = (digits ++ [closing]) ++ rest := by simpa using htail
      rcases List.append_eq_append_iff.1 htail with ⟨t, ht, hrest⟩ | ⟨t, rfl, -⟩
      · -- the mark would go on behind the text before
        cases t with
        | nil =>
          rw [List.append_nil] at ht
          have := reader_written hne hdigits none []
          rw [← List.append_nil a, ← ht, List.append_assoc, List.singleton_append, this] at hr
          cases hr
        | cons y t =>
          obtain ⟨rfl, -⟩ := List.cons.inj hrest
          have hmem : c ∈ digits ++ [closing] := by rw [ht]; simp
          rcases List.mem_append.1 hmem with hm | hm
          · exact hc.not_mem hdigits hm
          · exact hc.2.1 (List.mem_singleton.1 hm)
      · have := reader_written hne hdigits none t
        rw [List.append_assoc, List.singleton_append, this] at hr
        cases hr
    calc marks (x :: (a ++ c :: b)) = marks (a ++ c :: b) := firm_reader.forward.readAll_cons hread
      _ = marks a ++ marks b := ih
      _ = marks (x :: a) ++ marks b := by rw [marks, marks, marks, firm_reader.forward.readAll_cons hr]
  | hit s digits rest hr ih =>
    obtain ⟨rfl, hne, hdigits⟩ := reader_eq_some hr
    have hread : reader none (opening :: (digits ++ closing :: rest) ++ c :: b) = some (digits, rest ++ c :: b) := by
      simpa using reader_written hne hdigits none (rest ++ c :: b)
    calc marks (opening :: (digits ++ closing :: rest) ++ c :: b) = digits :: marks (rest ++ c :: b) :=
        firm_reader.readAll_hit hread
      _ = (digits :: marks rest) ++ marks b := by rw [ih, List.cons_append]
      _ = marks (opening :: (digits ++ closing :: rest)) ++ marks b := by rw [marks, marks, marks, firm_reader.readAll_hit hr]

theorem marks_cons {c : Char} (hc : c ≠ opening) (s : Text) : marks (c :: s) = marks s :=
  firm_reader.forward.readAll_cons (reader_char hc none s)

/-! ## Pieces in the places of marks -/

/-- A piece that no mark can reach into: it begins and ends like an element. -/
def Sealed (piece : Text) : Prop := ∃ t, piece = '<' :: (t ++ ['>'])

theorem Sealed.marks_append {piece : Text} (h : Sealed piece) (s : Text) : marks (piece ++ s) = marks piece ++ marks s := by
  obtain ⟨t, rfl⟩ := h
  have hend (b : Text) : marks ('<' :: (t ++ '>' :: b)) = marks ('<' :: t) ++ marks b :=
    marks_append_cons (c := '>') (by decide) ('<' :: t) b
  rw [List.cons_append, List.append_assoc, List.singleton_append, hend, hend, marks_nil, List.append_nil]

section Rewriting

variable {f : Text → Text}

/-- What stands at the head of a text in which pieces were put stood there before, if it can be in no piece. -/
theorem prefix_of_replaceAll {s p : Text} (hf : ∀ d ∈ marks s, Sealed (f d)) (hp : '<' ∉ p)
    (h : p <+: s.replaceAll reader f) : p <+: s := by
  induction s using firm_reader.induct generalizing p with
  | nil => exact h
  | char c s hr ih =>
    cases p with
    | nil => exact List.nil_prefix
    | cons x p =>
      rw [marks, firm_reader.forward.readAll_cons hr] at hf
      rw [firm_reader.forward.replaceAll_cons hr] at h
      obtain ⟨rfl, htail⟩ := List.cons_prefix_cons.1 h
      exact List.cons_prefix_cons.2 ⟨rfl, ih hf (fun hm => hp (List.mem_cons_of_mem x hm)) htail⟩
  | hit s digits rest hr _ =>
    cases p with
    | nil => exact List.nil_prefix
    | cons x p =>
      rw [marks, firm_reader.readAll_hit hr] at hf
      obtain ⟨t, ht⟩ := hf digits List.mem_cons_self
      rw [firm_reader.replaceAll_hit hr, ht, List.cons_append] at h
      obtain ⟨rfl, -⟩ := List.cons_prefix_cons.1 h
      exact absurd List.mem_cons_self hp

/-- The marks of a text after a round are those of the pieces put in. -/
theorem marks_replaceAll {s : Text} (hf : ∀ d ∈ marks s, Sealed (f d)) :
    marks (s.replaceAll reader f) = (marks s).flatMap fun d => marks (f d) := by
  induction s using firm_reader.induct with
  | nil => rfl
  | char c s hr ih =>
    rw [marks, firm_reader.forward.readAll_cons hr] at hf
    -- a mark that is read now would end before any piece, as a piece begins with `<`, so it would have been read before
    have hread : reader none (c :: Text.replaceAll reader f s) = none := by
      refine Option.eq_none_iff_forall_ne_some.2 fun r hr' => ?_
      obtain ⟨digits, rest⟩ := r
      obtain ⟨heq, hne, hdigits⟩ := reader_eq_some hr'
      obtain ⟨rfl, htail⟩ := List.cons.inj heq
      have hp : '<' ∉ digits ++ [closing] := by
        have hdigit := Apart.not_mem (c := '<') (by decide) hdigits
        simpa [hdigit] using (by decide : '<' ≠ closing)
      obtain ⟨u, rfl⟩ := prefix_of_replaceAll hf hp ⟨rest, by simp [htail]⟩
      have := reader_written hne hdigits none u
      rw [List.append_assoc, List.singleton_append, this] at hr
      cases hr
    have hkeep : marks (c :: s) = marks s := firm_reader.forward.readAll_cons hr
    rw [firm_reader.forward.replaceAll_cons hr, hkeep]
    exact (firm_reader.forward.readAll_cons hread).trans (ih hf)
  | hit s digits rest hr ih =>
    have hmarks : marks s = digits :: marks rest := firm_reader.readAll_hit hr
    rw [hmarks] at hf ⊢
    rw [firm_reader.replaceAll_hit hr, (hf digits List.mem_cons_self).marks_append,
      ih fun d hd => hf d (List.mem_cons_of_mem digits hd), List.flatMap_cons]

/-- A character that is in no mark stands in a text after a round if it stood there or is in a piece put in. -/
theorem mem_replaceAll_iff {s : Text} {c : Char} (hc : Apart c) :
    c ∈ s.replaceAll reader f ↔ c ∈ s ∨ ∃ d ∈ marks s, c ∈ f d := by
  induction s using firm_reader.induct with
  | nil => simp [Text.replaceAll, Text.cut, Text.cutFrom]
  | char x s hr ih =>
    have hkeep : marks (x :: s) = marks s := firm_reader.forward.readAll_cons hr
    rw [firm_reader.forward.replaceAll_cons hr, hkeep, List.mem_cons, List.mem_cons, ih, or_assoc]
  | hit s digits rest hr ih =>
    have hmarks : marks s = digits :: marks rest := firm_reader.readAll_hit hr
    obtain ⟨rfl, -, hdigits⟩ := reader_eq_some hr
    have hnot := hc.not_mem hdigits
    rw [firm_reader.replaceAll_hit hr, hmarks, List.mem_append, ih]
    simp only [List.mem_cons, List.mem_append, hc.1, hc.2.1, hnot, false_or, exists_eq_or_imp]
    exact or_left_comm

/-- Marked pieces make a marked text, and where no mark is left there are accepted characters only. -/
theorem Marked.replaceAll {ok : Char → Bool} (hopen : ok opening = false) {u : Multiset Nat} {s : Text} (h : Marked ok u s)
    (hf : ∀ d ∈ marks s, ∃ v, Marked ok v (f d)) : ∃ v, Marked ok v (s.replaceAll reader f) := by
  induction h with
  | nil => exact ⟨0, .nil⟩
  | @char u c s hc _ ih =>
    have hne : c ≠ opening := by
      rintro rfl
      rw [hopen] at hc
      cases hc
    rw [marks_cons hne] at hf
    obtain ⟨v, hv⟩ := ih hf
    rw [firm_reader.forward.replaceAll_cons (reader_char hne none s)]
    exact ⟨v, .char hc hv⟩
  | @mark u v k s _ _ ih =>
    have hread := reader_mark k none s
    have hmarks : marks (Stash.mark k ++ s) = Text.ofNat k :: marks s := firm_reader.readAll_hit hread
    rw [hmarks] at hf
    obtain ⟨w, hw⟩ := hf _ List.mem_cons_self
    obtain ⟨x, hx⟩ := ih fun d hd => hf d (List.mem_cons_of_mem _ hd)
    rw [firm_reader.replaceAll_hit hread]
    exact ⟨w + x, hw.append hx⟩

theorem Marked.within_of_marks {ok : Char → Bool} (hopen : ok opening = false) {u : Multiset Nat} {s : Text}
    (h : Marked ok u s) (hs : marks s = []) : Within ok s := by
  induction h with
  | nil => exact Within.nil
  | @char u c s hc _ ih =>
    have hne : c ≠ opening := by
      rintro rfl
      rw [hopen] at hc
      cases hc
    rw [marks_cons hne] at hs
    exact List.forall_mem_cons.2 ⟨hc, ih hs⟩
  | @mark u v k s _ _ _ =>
    have hmarks : marks (Stash.mark k ++ s) = Text.ofNat k :: marks s := firm_reader.readAll_hit (reader_mark k none s)
    rw [hmarks] at hs
    cases hs

end Rewriting

/-! ## One round -/

section Rounds

variable {pieces : Stash} {s t d e : Text}

/-- The mark can be read and names a piece. -/
def Readable (pieces : Stash) (d : Text) : Prop := ∃ piece, named pieces d = .ok piece

/-- The piece that a mark names, if it names one. -/
def content (pieces : Stash) (d : Text) : Text := (pieces[Text.digitsValue d]?).getD []

theorem named_eq_ok {piece : Text} (h : named pieces d = .ok piece) : pieces[Text.digitsValue d]? = some piece := by
  unfold named at h
  split at h
  · cases h
  · split at h
    · rename_i hpiece
      cases h
      exact hpiece
    · cases h

theorem Readable.named_eq (h : Readable pieces d) : named pieces d = .ok (content pieces d) := by
  obtain ⟨piece, hpiece⟩ := h
  rw [hpiece, content, named_eq_ok hpiece, Option.getD_some]

theorem Readable.lt_length (h : Readable pieces d) : Text.digitsValue d < pieces.length :=
  (List.getElem?_eq_some_iff.1 (named_eq_ok h.named_eq)).1

theorem Readable.mem (h : Readable pieces d) : content pieces d ∈ pieces := List.mem_of_getElem? (named_eq_ok h.named_eq)

/-- Why a mark cannot be restored. -/
theorem fault_of_named {fault : Fault} (h : named pieces d = .error fault) :
    fault = .pieceMissing ∨ ∃ n, fault = .longNumber n := by
  unfold named at h
  split at h
  · cases h
    exact .inr ⟨_, rfl⟩
  · split at h
    · cases h
    · cases h
      exact .inl rfl

theorem restoreOnce_ok (h : ∀ d ∈ marks s, Readable pieces d) :
    restoreOnce pieces s = .ok (s.replaceAll reader (content pieces)) := by
  rw [restoreOnce]
  induction s using firm_reader.induct with
  | nil => rfl
  | char c s hr ih =>
    rw [marks, firm_reader.forward.readAll_cons hr] at h
    rw [firm_reader.forward.replaceAllM_cons hr, firm_reader.forward.replaceAll_cons hr, ih h]
    rfl
  | hit s digits rest hr ih =>
    rw [marks, firm_reader.readAll_hit hr] at h
    rw [firm_reader.replaceAllM_hit hr, firm_reader.replaceAll_hit hr, (h digits List.mem_cons_self).named_eq,
      ih fun d hd => h d (List.mem_cons_of_mem digits hd)]
    rfl

/-- A round stops at the first mark that cannot be read. -/
theorem restoreOnce_error (h : ¬ ∀ d ∈ marks s, Readable pieces d) :
    ∃ d ∈ marks s, ∃ fault, named pieces d = .error fault ∧ restoreOnce pieces s = .error fault := by
  rw [restoreOnce]
  induction s using firm_reader.induct with
  | nil => exact absurd (fun d hd => absurd hd List.not_mem_nil) h
  | char c s hr ih =>
    have hmarks : marks (c :: s) = marks s := firm_reader.forward.readAll_cons hr
    rw [hmarks] at h ⊢
    obtain ⟨d, hd, fault, hfault, hround⟩ := ih h
    exact ⟨d, hd, fault, hfault, by rw [firm_reader.forward.replaceAllM_cons hr, hround]; rfl⟩
  | hit s digits rest hr ih =>
    have hmarks : marks s = digits :: marks rest := firm_reader.readAll_hit hr
    rw [hmarks] at h ⊢
    rw [firm_reader.replaceAllM_hit hr]
    cases hn : named pieces digits with
    | error fault => exact ⟨digits, List.mem_cons_self, fault, hn, rfl⟩
    | ok piece =>
      have hrest : ¬ ∀ d ∈ marks rest, Readable pieces d := fun hall =>
        h (List.forall_mem_cons.2 ⟨⟨piece, hn⟩, hall⟩)
      obtain ⟨d, hd, fault, hfault, hround⟩ := ih hrest
      exact ⟨d, List.mem_cons_of_mem digits hd, fault, hfault, by rw [hround]; rfl⟩

/-! ## Marks round by round -/

/-- The marks met after some rounds, from those of the text. -/
def marksAfter (pieces : Stash) : (rounds : Nat) → List Text → List Text
  | 0, ds => ds
  | n + 1, ds => marksAfter pieces n (ds.flatMap fun d => marks (content pieces d))

/-- The mark is met in some round. -/
def Reached (pieces : Stash) (s d : Text) : Prop := ∃ n, d ∈ marksAfter pieces n (marks s)

/-- The piece of this number holds a mark of that one. -/
def Names (pieces : Stash) (i j : Nat) : Prop := ∃ piece, pieces[i]? = some piece ∧ j ∈ (marks piece).map Text.digitsValue

/-- The next round meets the mark `e` in the piece of the mark `d`. -/
def Leads (pieces : Stash) (d e : Text) : Prop := e ∈ marks (content pieces d)

theorem Leads.names (h : Leads pieces d e) : Names pieces (Text.digitsValue d) (Text.digitsValue e) := by
  unfold Leads content at h
  cases hpiece : pieces[Text.digitsValue d]? with
  | none =>
    rw [hpiece] at h
    cases h
  | some piece =>
    rw [hpiece] at h
    exact ⟨piece, hpiece, List.mem_map_of_mem h⟩

/-- A mark met after some rounds stands at the end of a way as long. -/
theorem mem_marksAfter_iff {n : Nat} {ds : List Text} :
    e ∈ marksAfter pieces n ds ↔ ∃ way : List Text, way.length = n ∧ (way ++ [e]).IsChain (Leads pieces) ∧
      ∀ d ∈ (way ++ [e]).head?, d ∈ ds := by
  induction n generalizing ds with
  | zero =>
    refine ⟨fun h => ⟨[], rfl, .singleton e, fun d hd => ?_⟩, fun ⟨way, hlen, _, hhead⟩ => ?_⟩
    · cases hd
      exact h
    · obtain rfl := List.length_eq_zero_iff.1 hlen
      exact hhead e rfl
  | succ n ih =>
    rw [marksAfter, ih]
    constructor
    · rintro ⟨way, hlen, hchain, hhead⟩
      obtain ⟨x, hx⟩ : ∃ x, (way ++ [e]).head? = some x := by cases way <;> exact ⟨_, rfl⟩
      obtain ⟨d, hd, hlead⟩ := List.mem_flatMap.1 (hhead x hx)
      refine ⟨d :: way, by rw [List.length_cons, hlen], ?_, by simpa using hd⟩
      rw [List.cons_append, List.isChain_cons]
      refine ⟨fun y hy => ?_, hchain⟩
      rw [hx] at hy
      cases hy
      exact hlead
    · rintro ⟨way, hlen, hchain, hhead⟩
      cases way with
      | nil => cases hlen
      | cons d way =>
        rw [List.cons_append, List.isChain_cons] at hchain
        refine ⟨way, by simpa using hlen, hchain.2, fun x hx => List.mem_flatMap.2 ⟨d, hhead d rfl, hchain.1 x hx⟩⟩

theorem marksAfter_nil (n : Nat) : marksAfter pieces n [] = [] := by
  induction n with
  | zero => rfl
  | succ n ih => exact ih

theorem marksAfter_succ (n : Nat) (ds : List Text) :
    marksAfter pieces (n + 1) ds = (marksAfter pieces n ds).flatMap fun d => marks (content pieces d) := by
  induction n generalizing ds with
  | zero => rfl
  | succ n ih => exact ih _

theorem marksAfter_add (m n : Nat) (ds : List Text) :
    marksAfter pieces (m + n) ds = marksAfter pieces n (marksAfter pieces m ds) := by
  induction m generalizing ds with
  | zero => rw [Nat.zero_add, marksAfter]
  | succ m ih => rw [Nat.succ_add, marksAfter, ih, marksAfter]

theorem marksAfter_subset {ds es : List Text} (h : ds ⊆ es) (n : Nat) : marksAfter pieces n ds ⊆ marksAfter pieces n es := by
  induction n generalizing ds es with
  | zero => exact h
  | succ n ih =>
    refine ih fun e he => ?_
    obtain ⟨d, hd, he⟩ := List.mem_flatMap.1 he
    exact List.mem_flatMap.2 ⟨d, h hd, he⟩

end Rounds

end Galley.Inline.Stash
