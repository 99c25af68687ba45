import Galley.Markup.Rows
import Galley.Proofs.Dashes
import Galley.Proofs.PlainFormatting
import Galley.Proofs.Styles
/-!
# Reading back a written table

A matrix of cells is written with ampersands between the cells of a row and row breaks between the rows. Splitting what
is written into rows and these into cells gives the matrix back (`cellsOf_ofBody_write`), whatever stands in braces or
behind backslashes in the cells.
-/

namespace Galley

namespace Text

theorem replace_of_not_infix {old s : Text} (h : ¬ old <:+: s) (new : Text) : s.replace old new = s := by
  have hold : old ≠ [] := fun he => h (he ▸ List.nil_infix)
  induction s with
  | nil => rfl
  | cons c s ih => rw [replace_skip hold (fun hp => h hp.isInfix), ih fun hi => h (List.infix_cons hi)]

end Text

namespace Rows

/-! ## Written tables -/

/-- A text of whole characters and escapes that closes the braces open in front of it, as many as `depth`, with no
    ampersand and no row break outside braces. -/
inductive Closes : (depth : Nat) → Text → Prop where
  | nil : Closes 0 []
  | escape {n : Nat} {c : Char} {s : Text} (h : c = '\\' → n ≠ 0) : Closes n s → Closes n ('\\' :: c :: s)
  | opening {n : Nat} {s : Text} : Closes (n + 1) s → Closes n ('{' :: s)
  | closing {n : Nat} {s : Text} : Closes n s → Closes (n + 1) ('}' :: s)
  | char {n : Nat} {c : Char} {s : Text} (hc : c ≠ '\\' ∧ c ≠ '{' ∧ c ≠ '}') (h : c = '&' → n ≠ 0) :
      Closes n s → Closes n (c :: s)

/-- A text that is one cell as it is written. -/
structure IsCell (s : Text) : Prop where
  stripped : Text.Stripped s
  closes : Closes 0 s
  single : ∀ c ∈ ['&', '%', '#', '_'], ¬ ['\\', '\\', c] <:+: s

/-- The cells of a row, one at least. -/
structure IsRow (r : List Text) : Prop where
  ne_nil : r ≠ []
  cell : ∀ s ∈ r, IsCell s

/-- A row as it is written. -/
def writeRow (r : List Text) : Text := Text.joinWith " & " r

/-- A table body as it is written. -/
def write (m : List (List Text)) : Text := Text.joinWith " \\\\ " (m.map writeRow)

theorem writeRow_cons (s s' : Text) (r : List Text) (t : Text) :
    writeRow (s :: s' :: r) ++ t = s ++ ' ' :: '&' :: ' ' :: (writeRow (s' :: r) ++ t) := by
  simp [writeRow, Text.joinWith]

theorem write_cons (r r' : List Text) (m : List (List Text)) :
    write (r :: r' :: m) = writeRow r ++ ' ' :: '\\' :: '\\' :: ' ' :: write (r' :: m) := by
  simp [write, Text.joinWith]

/-! ## Parts kept together -/

theorem keep_keep (a b : Text) (parts : List Text) : keep a (keep b parts) = keep (a ++ b) parts := by
  cases parts with
  | nil => rfl
  | cons part parts => rw [keep, keep, keep, List.append_assoc]

theorem keep_ne_nil (a : Text) (parts : List Text) : keep a parts ≠ [] := by
  cases parts with
  | nil => exact List.cons_ne_nil a []
  | cons part parts => exact List.cons_ne_nil _ _

theorem keep_nil {parts : List Text} (h : parts ≠ []) : keep [] parts = parts := by
  cases parts with
  | nil => contradiction
  | cons part parts => rfl

/-- What reads a part alike with or without a space in front reads the parts alike. -/
theorem map_keep {α : Type} {f : Text → α} {a : Text} (hf : ∀ s, f (a ++ s) = f s) {parts : List Text} (h : parts ≠ []) :
    (keep a parts).map f = parts.map f := by
  cases parts with
  | nil => contradiction
  | cons part parts => rw [keep, List.map_cons, hf, List.map_cons]

/-! ## Cells -/

section Cells

variable {d : Int} {c : Char} {s t : Text}

theorem cellsFrom_ne_nil (d : Int) (s : Text) : cellsFrom d s ≠ [] := by
  fun_cases cellsFrom d s with
  | case1 => exact List.cons_ne_nil _ _
  | case2 => exact keep_ne_nil _ _
  | case3 => exact List.cons_ne_nil _ _
  | case4 => exact keep_ne_nil _ _

theorem cellsFrom_cons (hc : c ≠ '\\') (h : c = '&' → d ≠ 0) :
    cellsFrom d (c :: s) = keep [c] (cellsFrom (if c = '{' then d + 1 else if c = '}' then d - 1 else d) s) := by
  rw [cellsFrom]
  · rw [if_neg (by simpa using h)]
  · exact fun _ _ he _ => hc he

theorem cellsFrom_char (hc : c ≠ '\\' ∧ c ≠ '{' ∧ c ≠ '}') (h : c = '&' → d ≠ 0) :
    cellsFrom d (c :: s) = keep [c] (cellsFrom d s) := by
  rw [cellsFrom_cons hc.1 h, if_neg hc.2.1, if_neg hc.2.2]

/-- Characters that close the open braces go into the cell that is being read. -/
theorem Closes.cellsFrom_append {n : Nat} (h : Closes n s) (t : Text) : cellsFrom n (s ++ t) = keep s (cellsFrom 0 t) := by
  induction h with
  | nil => exact (keep_nil (cellsFrom_ne_nil 0 t)).symm
  | escape h hs ih =>
    rw [List.cons_append, List.cons_append, cellsFrom, ih, keep_keep, List.cons_append, List.singleton_append]
  | @opening n s hs ih =>
    rw [List.cons_append, cellsFrom_cons (by decide) (by simp), if_pos rfl, ← Int.natCast_succ, ih, keep_keep,
      List.singleton_append]
  | @closing n s hs ih =>
    rw [List.cons_append, cellsFrom_cons (by decide) (by simp), if_neg (by decide), if_pos rfl, Int.natCast_succ,
      Int.add_sub_cancel, ih, keep_keep, List.singleton_append]
  | char hc h hs ih =>
    rw [List.cons_append, cellsFrom_char hc (by simpa using h), ih, keep_keep, List.singleton_append]

theorem IsCell.cellsFrom_append (h : IsCell s) (t : Text) : cellsFrom 0 (s ++ t) = keep s (cellsFrom 0 t) :=
  h.closes.cellsFrom_append t

theorem IsCell.strip_append (h : IsCell s) : Text.strip (s ++ [' ']) = s := by
  rw [Text.strip_append_of_isBlank (by decide), h.stripped.strip_eq]

theorem map_strip_keep {parts : List Text} (h : parts ≠ []) : (keep [' '] parts).map Text.strip = parts.map Text.strip :=
  map_keep (fun _ => Text.strip_cons_of_isBlank (by decide) _) h

/-- The cells of a row are what is between its ampersands. -/
theorem IsRow.strip_cellsFrom {r : List Text} (h : IsRow r) {gap : Text} (hgap : gap = [] ∨ gap = [' ']) :
    (cellsFrom 0 (writeRow r ++ gap)).map Text.strip = r := by
  obtain ⟨hne, hr⟩ := h
  induction r with
  | nil => contradiction
  | cons s r ih =>
    obtain ⟨hs, hr⟩ := List.forall_mem_cons.1 hr
    cases r with
    | nil =>
      rw [writeRow, Text.joinWith, hs.cellsFrom_append]
      rcases hgap with rfl | rfl
      · simp [cellsFrom, keep, hs.stripped.strip_eq]
      · simp [cellsFrom, keep, hs.strip_append]
    | cons s' r =>
      have hsplit (t : Text) : cellsFrom 0 (' ' :: '&' :: ' ' :: t) = [' '] :: keep [' '] (cellsFrom 0 t) := by
        rw [cellsFrom_char (by decide) (by decide), cellsFrom, if_pos (by decide), cellsFrom_char (by decide) (by decide)]
        · rfl
        · exact fun _ _ he _ => absurd he (by decide)
      rw [writeRow_cons, hs.cellsFrom_append, hsplit, keep, List.map_cons, hs.strip_append, map_strip_keep (cellsFrom_ne_nil 0 _),
        ih (List.cons_ne_nil _ _) hr]

theorem IsCell.replace_eq (h : IsCell s) : s.replace "\\\\&" "\\&" = s :=
  Text.replace_of_not_infix (h.single '&' List.mem_cons_self) _

/-- There is no escape made twice in a row, so none is made single. -/
theorem IsRow.replace_writeRow {r : List Text} (h : IsRow r) {gap : Text} (hgap : gap = [] ∨ gap = [' ']) :
    (writeRow r ++ gap).replace "\\\\&" "\\&" = writeRow r ++ gap := by
  obtain ⟨hne, hr⟩ := h
  have hcons {s : Text} (hs : IsCell s) (t : Text) :
      (s ++ ' ' :: t).replace "\\\\&" "\\&" = s ++ ' ' :: t.replace "\\\\&" "\\&" := by
    rw [Text.replace_append_cons (by decide) (by decide), hs.replace_eq]
  induction r with
  | nil => contradiction
  | cons s r ih =>
    obtain ⟨hs, hr⟩ := List.forall_mem_cons.1 hr
    cases r with
    | nil =>
      rw [writeRow, Text.joinWith]
      rcases hgap with rfl | rfl
      · rw [List.append_nil, hs.replace_eq]
      · rw [hcons hs]
        rfl
    | cons s' r =>
      have hmark (t : Text) : Text.replace ('&' :: ' ' :: t) "\\\\&" "\\&" = '&' :: ' ' :: t.replace "\\\\&" "\\&" :=
        Text.replace_append_cons (by decide) (by decide) _ ['&'] t
      rw [writeRow_cons, hcons hs, hmark, ih (List.cons_ne_nil _ _) hr]

theorem IsRow.cellsOf_writeRow {r : List Text} (h : IsRow r) {gap : Text} (hgap : gap = [] ∨ gap = [' ']) :
    cellsOf (writeRow r ++ gap) = r := by
  rw [cellsOf, h.replace_writeRow hgap, h.strip_cellsFrom hgap]

theorem cellsOf_cons_blank (s : Text) : cellsOf (' ' :: s) = cellsOf s := by
  have hreplace : Text.replace (' ' :: s) "\\\\&" "\\&" = ' ' :: s.replace "\\\\&" "\\&" :=
    Text.replace_skip (by decide) (fun h => absurd (List.cons_prefix_cons.1 h).1 (by decide)) _
  rw [cellsOf, hreplace, cellsFrom_char (by decide) (by decide), map_strip_keep (cellsFrom_ne_nil 0 _), cellsOf]

end Cells

/-! ## Rows -/

section Rows

variable {d : Int} {c : Char} {s t : Text}

theorem rowsFrom_ne_nil (d : Int) (s : Text) : rowsFrom d s ≠ [] := by
  fun_cases rowsFrom d s with
  | case1 => exact List.cons_ne_nil _ _
  | case2 => exact keep_ne_nil _ _
  | case3 => exact List.cons_ne_nil _ _
  | case4 => exact keep_ne_nil _ _
  | case5 => exact keep_ne_nil _ _
  | case6 => exact keep_ne_nil _ _

theorem rowsFrom_cons (hc : c ≠ '\\') :
    rowsFrom d (c :: s) = keep [c] (rowsFrom (if c = '{' then d + 1 else if c = '}' then d - 1 else d) s) := by
  rw [rowsFrom]
  · exact fun _ he _ => hc he
  · exact fun _ _ he _ => hc he

theorem rowsFrom_char (hc : c ≠ '\\' ∧ c ≠ '{' ∧ c ≠ '}') : rowsFrom d (c :: s) = keep [c] (rowsFrom d s) := by
  rw [rowsFrom_cons hc.1, if_neg hc.2.1, if_neg hc.2.2]

theorem rowsFrom_escape (hc : c ≠ '\\') : rowsFrom d ('\\' :: c :: s) = keep ['\\', c] (rowsFrom d s) := by
  rw [rowsFrom]
  exact hc

/-- Two backslashes inside braces are no row break. -/
theorem rowsFrom_inner (hd : d ≠ 0) (hs : ∀ c ∈ s.head?, isDoubleEscaped c = false) :
    rowsFrom d ('\\' :: '\\' :: s) = keep ['\\', '\\'] (rowsFrom d s) := by
  rw [rowsFrom, if_neg, if_neg hd]
  cases s with
  | nil => exact Bool.false_ne_true
  | cons c s => simp [hs c rfl]

theorem not_isDoubleEscaped_of_single (h : ∀ c ∈ ['&', '%', '#', '_'], ¬ ['\\', '\\', c] <:+: '\\' :: '\\' :: s) :
    ∀ c ∈ s.head?, isDoubleEscaped c = false := by
  rintro c hc
  obtain ⟨s, rfl⟩ := List.head?_eq_some_iff.1 hc
  refine Bool.eq_false_iff.2 fun hd => h c ?_ ⟨[], s, rfl⟩
  simpa [isDoubleEscaped, or_assoc] using hd

/-- Characters that close the open braces go into the row that is being read. -/
theorem Closes.rowsFrom_append {n : Nat} (h : Closes n s) (hs : ∀ c ∈ ['&', '%', '#', '_'], ¬ ['\\', '\\', c] <:+: s)
    (t : Text) : rowsFrom n (s ++ t) = keep s (rowsFrom 0 t) := by
  have htail {c : Char} {s : Text} (h : ∀ d ∈ ['&', '%', '#', '_'], ¬ ['\\', '\\', d] <:+: c :: s) :
      ∀ d ∈ ['&', '%', '#', '_'], ¬ ['\\', '\\', d] <:+: s := fun d hd hi => h d hd (List.infix_cons hi)
  induction h with
  | nil => exact (keep_nil (rowsFrom_ne_nil 0 t)).symm
  | @escape n c s h hclose ih =>
    have hrest := ih (htail (htail hs))
    by_cases hc : c = '\\'
    · subst hc
      -- The braces are closed behind the two backslashes, so they are not at the end of the text.
      have hne : s ≠ [] := by
        rintro rfl
        cases hclose
        exact h rfl rfl
      obtain ⟨e, s, rfl⟩ := List.exists_cons_of_ne_nil hne
      have hhead : ∀ c ∈ (e :: (s ++ t)).head?, isDoubleEscaped c = false := not_isDoubleEscaped_of_single (s := e :: s) hs
      rw [List.cons_append, List.cons_append, List.cons_append, rowsFrom_inner (by simpa using h) hhead, ← List.cons_append,
        hrest, keep_keep, List.cons_append, List.singleton_append]
    · rw [List.cons_append, List.cons_append, rowsFrom_escape hc, hrest, keep_keep, List.cons_append, List.singleton_append]
  | @opening n s hclose ih =>
    rw [List.cons_append, rowsFrom_cons (by decide), if_pos rfl, ← Int.natCast_succ, ih (htail hs), keep_keep,
      List.singleton_append]
  | @closing n s hclose ih =>
    rw [List.cons_append, rowsFrom_cons (by decide), if_neg (by decide), if_pos rfl, Int.natCast_succ, Int.add_sub_cancel,
      ih (htail hs), keep_keep, List.singleton_append]
  | char hc h hclose ih =>
    rw [List.cons_append, rowsFrom_char hc, ih (htail hs), keep_keep, List.singleton_append]

theorem IsCell.rowsFrom_append (h : IsCell s) (t : Text) : rowsFrom 0 (s ++ t) = keep s (rowsFrom 0 t) :=
  h.closes.rowsFrom_append h.single t

theorem IsRow.rowsFrom_append {r : List Text} (h : IsRow r) (t : Text) :
    rowsFrom 0 (writeRow r ++ t) = keep (writeRow r) (rowsFrom 0 t) := by
  obtain ⟨hne, hr⟩ := h
  induction r with
  | nil => contradiction
  | cons s r ih =>
    obtain ⟨hs, hr⟩ := List.forall_mem_cons.1 hr
    cases r with
    | nil => exact hs.rowsFrom_append t
    | cons s' r =>
      have hgap (t : Text) : rowsFrom 0 (' ' :: '&' :: ' ' :: t) = keep [' ', '&', ' '] (rowsFrom 0 t) := by
        rw [rowsFrom_char (by decide), rowsFrom_char (by decide), rowsFrom_char (by decide), keep_keep, keep_keep]
        rfl
      rw [writeRow_cons, hs.rowsFrom_append, hgap, ih (List.cons_ne_nil _ _) hr, keep_keep, keep_keep]
      simp [writeRow, Text.joinWith]

theorem dropSpacing_eq_self (h : (s.dropWhile isBlank).head? ≠ some '[') : dropSpacing s = s := by
  unfold dropSpacing
  split
  · rename_i hs
    rw [hs] at h
    exact absurd rfl h
  · rfl

/-- Behind the first cell stands nothing, or a space and what sets the next cell or row apart. -/
theorem IsRow.exists_write_eq {r : List Text} (h : IsRow r) (m : List (List Text)) :
    ∃ s w, IsCell s ∧ s <+: writeRow r ∧ write (r :: m) = s ++ w ∧ (w = [] ∨ ∃ c ∈ ['&', '\\'], ∃ u, w = ' ' :: c :: u) := by
  obtain ⟨hne, hr⟩ := h
  obtain ⟨s, r, rfl⟩ := List.exists_cons_of_ne_nil hne
  obtain ⟨hs, -⟩ := List.forall_mem_cons.1 hr
  have hrow : ∃ w, writeRow (s :: r) = s ++ w ∧ (w = [] ∨ ∃ u, w = ' ' :: '&' :: u) := by
    cases r with
    | nil => exact ⟨[], (List.append_nil s).symm, .inl rfl⟩
    | cons s' r => exact ⟨" & ".toList ++ writeRow (s' :: r), List.append_assoc _ _ _, .inr ⟨_, rfl⟩⟩
  obtain ⟨w, hw, hcase⟩ := hrow
  have hbody : ∃ v, write ((s :: r) :: m) = s ++ (w ++ v) ∧ (v = [] ∨ ∃ u, v = ' ' :: '\\' :: u) := by
    cases m with
    | nil => exact ⟨[], by rw [List.append_nil, ← hw]; rfl, .inl rfl⟩
    | cons r' m =>
      refine ⟨" \\\\ ".toList ++ write (r' :: m), ?_, .inr ⟨_, rfl⟩⟩
      rw [← List.append_assoc, ← hw]
      exact List.append_assoc _ _ _
  obtain ⟨v, hv, hbehind⟩ := hbody
  refine ⟨s, w ++ v, hs, ⟨w, hw.symm⟩, hv, ?_⟩
  rcases hcase with rfl | ⟨u, rfl⟩
  · rcases hbehind with rfl | ⟨u, rfl⟩
    · exact .inl rfl
    · exact .inr ⟨'\\', by simp, u, rfl⟩
  · exact .inr ⟨'&', by simp, u ++ v, rfl⟩

/-- No spacing is read in front of a row that does not begin with a bracket. -/
theorem IsRow.dropSpacing_write {r : List Text} (h : IsRow r) (hopen : ¬ ['['] <+: writeRow r) (m : List (List Text)) :
    dropSpacing (' ' :: write (r :: m)) = ' ' :: write (r :: m) := by
  obtain ⟨s, w, hs, hfirst, hwrite, hw⟩ := h.exists_write_eq m
  refine dropSpacing_eq_self ?_
  rw [hwrite, List.dropWhile_cons_of_pos (by decide)]
  cases s with
  | nil =>
    rcases hw with rfl | ⟨c, hc, u, rfl⟩
    · simp
    · have hdark : ∀ c ∈ ['&', '\\'], isBlank c = false ∧ c ≠ '[' := by decide
      simp [hdark c hc, show isBlank ' ' = true by decide]
  | cons c s =>
    have hc : isBlank c = false := hs.stripped.first c rfl
    simp only [List.cons_append, List.dropWhile_cons, hc, Bool.false_eq_true, if_false, List.head?_cons, ne_eq,
      Option.some.injEq]
    rintro rfl
    exact hopen (List.IsPrefix.trans ⟨s, rfl⟩ hfirst)

/-- A row break ends a row. -/
theorem rowsFrom_break (h : dropSpacing (' ' :: t) = ' ' :: t) :
    rowsFrom 0 (' ' :: '\\' :: '\\' :: ' ' :: t) = [' '] :: keep [' '] (rowsFrom 0 t) := by
  have hhead : ¬ ((' ' :: t).head?.map isDoubleEscaped).getD false = true := by
    simp only [List.head?_cons, Option.map_some, Option.getD_some]
    decide
  rw [rowsFrom_char (by decide), rowsFrom, if_neg hhead, if_pos rfl, h, rowsFrom_char (by decide)]
  rfl

/-- Splitting a written table into rows and these into cells gives back the matrix. -/
theorem cellsOf_ofBody_write {m : List (List Text)} (hne : m ≠ []) (hrow : ∀ r ∈ m, IsRow r)
    (hopen : ∀ r ∈ m.tail, ¬ ['['] <+: writeRow r) : (ofBody (write m)).map cellsOf = m := by
  rw [ofBody]
  induction m with
  | nil => contradiction
  | cons r m ih =>
    obtain ⟨hr, hrow⟩ := List.forall_mem_cons.1 hrow
    cases m with
    | nil =>
      have hcells := hr.cellsOf_writeRow (.inl rfl)
      rw [List.append_nil] at hcells
      have hrows := hr.rowsFrom_append []
      rw [List.append_nil] at hrows
      rw [write, List.map_singleton, Text.joinWith, hrows]
      simp [rowsFrom, keep, hcells]
    | cons r' m =>
      have hdrop := (hrow r' List.mem_cons_self).dropSpacing_write (hopen r' List.mem_cons_self) m
      rw [write_cons, hr.rowsFrom_append, rowsFrom_break hdrop, keep, List.map_cons, hr.cellsOf_writeRow (.inr rfl),
        map_keep (a := [' ']) cellsOf_cons_blank (rowsFrom_ne_nil 0 _),
        ih (List.cons_ne_nil _ _) hrow fun r hr => hopen r (List.mem_cons_of_mem _ hr)]

/-- Cells with an escaped ampersand, with an ampersand and a row break in braces, and with nothing in them. -/
theorem cellsOf_ofBody_write_escapes :
    (ofBody (write [texts ["a\\&b", "\x7bx&y\\\\z\x7d"], texts ["", "\\\x7bc"]])).map cellsOf =
      [texts ["a\\&b", "\x7bx&y\\\\z\x7d"], texts ["", "\\\x7bc"]] := by
  have hescaped : IsCell "a\\&b" :=
    ⟨.of_ends rfl rfl (by decide), .char (by decide) (by decide) (.escape (by decide) (.char (by decide) (by decide) .nil)),
      by decide⟩
  have hbraces : IsCell "\x7bx&y\\\\z\x7d" := by
    refine ⟨.of_ends rfl rfl (by decide), .opening (.char (by decide) (by decide) (.char (by decide) (by decide) ?_)), by decide⟩
    exact .char (by decide) (by decide) (.escape (by decide) (.char (by decide) (by decide) (.closing .nil)))
  have hempty : IsCell "" := ⟨.of_forall (by decide), .nil, by decide⟩
  have hbrace : IsCell "\\\x7bc" :=
    ⟨.of_ends rfl rfl (by decide), .escape (by decide) (.char (by decide) (by decide) .nil), by decide⟩
  have hfirst : IsRow (texts ["a\\&b", "\x7bx&y\\\\z\x7d"]) :=
    ⟨by decide, List.forall_mem_cons.2 ⟨hescaped, List.forall_mem_singleton.2 hbraces⟩⟩
  have hsecond : IsRow (texts ["", "\\\x7bc"]) := ⟨by decide, List.forall_mem_cons.2 ⟨hempty, List.forall_mem_singleton.2 hbrace⟩⟩
  exact cellsOf_ofBody_write (by decide) (List.forall_mem_cons.2 ⟨hfirst, List.forall_mem_singleton.2 hsecond⟩) (by decide)

end Rows

end Rows

end Galley
