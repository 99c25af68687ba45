import Galley.Proofs.Balance
import Galley.Proofs.Calm
/-!
# Rows of markers and plain characters

A row is a text of environment markers and of characters that no stage takes for markup. A reader of
markers finds them exactly where the row has them (`Finds.cut_source`), so searching a row, and
closing an environment in it, is searching its marks.
-/

namespace Galley

/-! ## Rows -/

/-- Neither backslash, dollar and brace nor a character for private use. -/
def isPlainChar (c : Char) : Bool :=
  !(c = '\\' || c = '$' || c = '{' || c = '}' || (0xE000 ≤ c.toNat && c.toNat ≤ 0xF8FF))

/-- Lower-case letters, and neither the name of the document's body nor of literal code. -/
def isPlainName (n : Text) : Bool :=
  !n.isEmpty && n.all (fun c => 'a' ≤ c && c ≤ 'z') &&
    !(texts ["document", "verbatim", "lstlisting", "minted"]).contains n

def Mark.source : Mark → Text
  | .opening n => "\\begin\x7b" ++ n ++ "\x7d"
  | .closing n => "\\end\x7b" ++ n ++ "\x7d"

inductive Item where
  | char (c : Char) (plain : isPlainChar c = true)
  | mark (m : Mark) (plain : isPlainName m.name = true)

namespace Item

def source : Item → Text
  | char c _ => [c]
  | mark m _ => m.source

def mark? : Item → Option Mark
  | char _ _ => none
  | mark m _ => some m

end Item

abbrev Row := List Item

namespace Row

def source (d : Row) : Text := d.flatMap Item.source

def marks (d : Row) : List Mark := d.filterMap Item.mark?

@[simp] theorem source_nil : source [] = [] := rfl

@[simp] theorem source_cons (i : Item) (d : Row) : source (i :: d) = i.source ++ source d := rfl

@[simp] theorem source_append (a b : Row) : source (a ++ b) = source a ++ source b := List.flatMap_append

@[simp] theorem marks_nil : marks [] = [] := rfl

@[simp] theorem marks_char (c : Char) (h : isPlainChar c = true) (d : Row) : marks (.char c h :: d) = marks d := rfl

@[simp] theorem marks_mark (m : Mark) (h : isPlainName m.name = true) (d : Row) :
    marks (.mark m h :: d) = m :: marks d := rfl

@[simp] theorem marks_append (a b : Row) : marks (a ++ b) = marks a ++ marks b := List.filterMap_append

/-- A row of plain characters. -/
def ofText : (t : Text) → (∀ c ∈ t, isPlainChar c = true) → Row
  | [], _ => []
  | c :: t, h => Item.char c (h c List.mem_cons_self) :: ofText t fun x hx => h x (List.mem_cons_of_mem c hx)

@[simp] theorem source_ofText (t : Text) (h : ∀ c ∈ t, isPlainChar c = true) : source (ofText t h) = t := by
  induction t with
  | nil => rfl
  | cons c t ih => exact congrArg (c :: ·) (ih _)

@[simp] theorem marks_ofText (t : Text) (h : ∀ c ∈ t, isPlainChar c = true) : marks (ofText t h) = [] := by
  induction t with
  | nil => rfl
  | cons c t ih => exact ih _

end Row

/-! ## Names -/

theorem isPlainName_letter {n : Text} (h : isPlainName n = true) {c : Char} (hc : c ∈ n) : 'a' ≤ c ∧ c ≤ 'z' := by
  simp only [isPlainName, Bool.and_eq_true, List.all_eq_true] at h
  simpa using h.1.2 c hc

theorem not_mem_of_isPlainName {n : Text} (h : isPlainName n = true) {c : Char} (hc : ¬('a' ≤ c ∧ c ≤ 'z')) :
    c ∉ n := fun hm => hc (isPlainName_letter h hm)

/-! ## Sources of marks -/

namespace Mark

/-- The word of a mark and the brace behind it. -/
def head : Mark → Text
  | opening _ => "begin\x7b"
  | closing _ => "end\x7b"

theorem source_opening (n : Text) : (opening n).source = "\\begin\x7b" ++ n ++ "\x7d" := rfl

theorem source_closing (n : Text) : (closing n).source = "\\end\x7b" ++ n ++ "\x7d" := rfl

theorem source_eq (m : Mark) : m.source = '\\' :: (m.head ++ m.name ++ ['}']) := by
  cases m <;> rfl

/-- What is in no word, no name and no brace is not in a mark behind its backslash. -/
theorem not_mem_tail {m : Mark} (h : isPlainName m.name = true) {c : Char} (hc : ¬('a' ≤ c ∧ c ≤ 'z'))
    (hb : c ≠ '{') (he : c ≠ '}') : c ∉ m.head ++ m.name ++ ['}'] := by
  intro hm
  simp only [List.append_assoc, List.mem_append, List.mem_singleton] at hm
  rcases hm with hm | hm | hm
  · have letters (w : Text) (hw : w.all (fun x => ('a' ≤ x ∧ x ≤ 'z') ∨ x = '{') = true) : c ∉ w := fun hcw =>
      (of_decide_eq_true (List.all_eq_true.1 hw c hcw)).elim hc hb
    cases m
    · exact letters "begin\x7b" (by decide) hm
    · exact letters "end\x7b" (by decide) hm
  · exact not_mem_of_isPlainName h hc hm
  · exact he hm

end Mark

namespace Row

theorem calm (d : Row) : Calm (source d) := by
  induction d with
  | nil => exact .nil
  | cons i d ih =>
    cases i with
    | char c h =>
      simp only [isPlainChar, Bool.not_eq_true', Bool.or_eq_false_iff, decide_eq_false_iff_not] at h
      obtain ⟨⟨⟨⟨hs, hd⟩, -⟩, -⟩, hp⟩ := h
      refine ⟨?_, ?_, fun t ht => ?_⟩
      · simpa [Item.source, Ne.symm hd] using ih.no_dollar
      · have : Inline.Stash.opening ≠ c := fun he => by rw [← he] at hp; revert hp; decide
        simpa [Item.source, this] using ih.no_piece
      · exact ih.marker t (suffix_of_backslash (by simpa [Item.source] using Ne.symm hs) ht)
    | mark m h =>
      simp only [source_cons, Item.source, m.source_eq, List.cons_append]
      have keep {c : Char} (hs : c ≠ '\\') (hm : c ∉ m.head ++ m.name ++ ['}']) (hd : c ∉ source d) :
          c ∉ '\\' :: (m.head ++ m.name ++ ['}'] ++ source d) := by
        rw [List.mem_cons, List.mem_append]
        exact not_or.2 ⟨hs, not_or.2 ⟨hm, hd⟩⟩
      refine ⟨keep (by decide) (Mark.not_mem_tail h (by decide) (by decide) (by decide)) ih.no_dollar,
        keep (by decide) (Mark.not_mem_tail h (by decide) (by decide) (by decide)) ih.no_piece, fun t ht => ?_⟩
      rcases List.suffix_cons_iff.1 ht with he | hs
      · rw [(List.cons.inj he).2]
        cases m <;> rfl
      · exact ih.marker t (suffix_of_backslash (Mark.not_mem_tail h (by decide) (by decide) (by decide)) hs)

end Row

end Galley
