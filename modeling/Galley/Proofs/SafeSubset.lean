import Galley.Diagram.Layout
import Galley.Proofs.Backslashes
import Galley.Proofs.Dashes
import Galley.Proofs.Edges
import Galley.Proofs.Styles
/-!
# What the safe subset keeps

A body in the safe subset is ASCII on one line, and every ampersand in it is escaped: none is left behind two
backslashes before the bare ones get theirs, and what is drawn for a brace keeps its label and its node options as they
are. A percent sign has a backslash directly in front of it. It is escaped only if it was in the body without its
comments, which looks at one backslash, and if no switch or list marker that is taken out stood behind an escaping
backslash (`safeSubset_escapes`).
-/

namespace Galley

open Extract.Formula (slashesBefore)

/-- Every `x` of the text stands behind an odd number of backslashes. -/
def Escaped (x : Char) (s : Text) : Prop := ∀ before after, s = before ++ x :: after → slashesBefore before % 2 = 1

theorem escaped_iff {x : Char} {s : Text} : Escaped x s ↔ Guards not x false s :=
  forall₃_congr fun before _ _ => slashesBefore_odd_iff before

instance (x : Char) (s : Text) : Decidable (Escaped x s) := decidable_of_iff _ escaped_iff.symm

/-! ## Numbers -/

namespace Decimal

/-- A digit, or another character with which numbers are written. -/
def isNumberChar (c : Char) : Bool := c.isDigit || c ∈ ['-', '.', '+', 'e', 'n', 'a', 'i', 'f']

variable {c : Char}

theorem isNumberChar_of_isDigit (h : c.isDigit = true) : isNumberChar c = true := by rw [isNumberChar, h, Bool.true_or]

theorem isNumberChar_of_mem {t : Text} (ht : t.all isNumberChar = true) (h : c ∈ t) : isNumberChar c = true :=
  List.all_eq_true.1 ht c h

theorem isNumberChar_ofNat {n : Nat} (h : c ∈ Text.ofNat n) : isNumberChar c = true :=
  isNumberChar_of_isDigit (Text.isDigit_of_mem_ofNat h)

theorem isNumberChar_padded {width n : Nat} (h : c ∈ Text.ofNatPadded width n) : isNumberChar c = true :=
  isNumberChar_of_isDigit (Block.Token.isDigit_of_mem_padded h)

theorem isNumberChar_sign {b : Bool} (h : c ∈ sign b) : isNumberChar c = true := by
  cases b with
  | false => cases h
  | true => exact isNumberChar_of_mem (by decide) h

theorem isNumberChar_positional {d : Digits} (h : c ∈ positional d) : isNumberChar c = true := by
  unfold positional at h
  split at h
  · exact isNumberChar_ofNat h
  · unfold withPoint at h
    split at h
    · exact isNumberChar_ofNat h
    · simp only [List.mem_append] at h
      rcases h with (h | h) | h
      · exact isNumberChar_padded (List.mem_of_mem_take h)
      · exact isNumberChar_of_mem (by decide) h
      · exact isNumberChar_padded (List.mem_of_mem_drop h)

theorem isNumberChar_scientific {d : Digits} (h : c ∈ scientific d) : isNumberChar c = true := by
  unfold scientific at h
  simp only [List.mem_append] at h
  rcases h with ((h | h) | h) | h
  · exact isNumberChar_ofNat (List.mem_of_mem_take h)
  · split at h
    · cases h
    · rcases List.mem_cons.1 h with rfl | h
      · rfl
      · exact isNumberChar_ofNat (List.mem_of_mem_drop h)
  · exact isNumberChar_of_mem (by decide) h
  · rcases List.mem_append.1 h with h | h
    · split at h <;> exact isNumberChar_of_mem (by decide) h
    · exact isNumberChar_padded h

theorem isNumberChar_general {x : Float} (h : c ∈ general x) : isNumberChar c = true := by
  unfold general at h
  split at h
  · exact isNumberChar_of_mem (by decide) h
  · exact (List.mem_append.1 h).elim isNumberChar_sign (isNumberChar_of_mem (by decide))
  · split at h
    · exact (List.mem_append.1 h).elim isNumberChar_sign (isNumberChar_of_mem (by decide))
    · refine (List.mem_append.1 h).elim isNumberChar_sign fun h => ?_
      split at h
      · exact isNumberChar_positional h
      · exact isNumberChar_scientific h

theorem isNumberChar_fixed {places : Nat} {x : Float} (h : c ∈ fixed places x) : isNumberChar c = true := by
  rcases mem_fixed h with h | h
  · exact isNumberChar_of_isDigit h
  · exact isNumberChar_of_mem (by decide) h

end Decimal

namespace Diagram

/-! ## The steps of the reduction -/

/-- The begin marker of a list. -/
def listBegin : Text := "\\begin\x7bitemize\x7d"

def listEnd : Text := "\\end\x7bitemize\x7d"

/-- The body in ASCII without its comments. -/
def commentFree (body : Text) : Text := Comment.strip (body.filter (·.toNat < 128))

/-- Font commands made switches. -/
def withSwitches (s : Text) : Text :=
  (s.replaceAll (opened "\\textbf") fun _ => "\x7b\\bfseries ").replaceAll (opened "\\textit") fun _ => "\x7b\\itshape "

/-- Without the commands for font families, on one line. -/
def onOneLine (s : Text) : Text :=
  ((s.removeAll (Command.readerOf familyNames)).replaceAll (Command.reader ['n']) fun _ => [' ']).map
    fun c => if c = '\r' || c = '\n' then ' ' else c

/-- Lists without their options. -/
def bareLists (s : Text) : Text := s.replaceAll listOptions fun _ => listBegin

def escapeAmpersands (s : Text) : Text := (s.replace "\\\\&" "\\\\ \\&").replaceAll bareAmpersand fun _ => "\\&"

def drawBraces (c : Calibration) (s : Text) : Text := guardClosing (s.replaceAll braceReader (Brace.curves · c))

theorem safeSubset_eq (c : Calibration) (body : Text) : safeSubset c body =
    drawBraces c (escapeAmpersands (flattenLists (onOneLine (withSwitches (commentFree body))))) := rfl

theorem flattenLists_eq (s : Text) : flattenLists s =
    if (bareLists s).includes listBegin then
      (((bareLists s).removeAll (literal listBegin)).removeAll (literal listEnd)).replaceAll listItem
        fun _ => "\\par $\\bullet$ "
    else bareLists s := by
  have hreplace : flattenLists s =
      if (bareLists s).includes listBegin then
        (((bareLists s).replace listBegin []).replace listEnd []).replaceAll listItem fun _ => "\\par $\\bullet$ "
      else bareLists s := rfl
  rw [hreplace, Inline.replace_eq_replaceAll (by decide), Inline.replace_eq_replaceAll (by decide)]
  rfl

/-! ## What the readers of the steps take -/

/-- The text behind a character that is no backslash. -/
def Ends (rest s : Text) : Prop := ∃ u c, s = u ++ c :: rest ∧ c ≠ '\\'

theorem Ends.of_suffix {rest s t : Text} (h : Ends rest s) (hs : s <:+ t) : Ends rest t := by
  obtain ⟨u, c, rfl, hc⟩ := h
  obtain ⟨v, rfl⟩ := hs
  exact ⟨v ++ u, c, by rw [List.append_assoc], hc⟩

theorem Ends.after? {p rest s : Text} (hp : EndsPlain p) (h : Text.after? p s = some rest) : Ends rest s := by
  obtain ⟨u, c, rfl, hc⟩ := hp
  exact ⟨u, c, by rw [Text.after?_eq_some_iff.1 h, List.append_assoc, List.singleton_append], hc⟩

theorem Ends.closedBy {c : Char} {rest s t : Text} (hc : c ≠ '\\') (h : Text.closedBy c s = some (t, rest)) : Ends rest s :=
  ⟨t, c, Text.closedBy_eq h, hc⟩

theorem takes_of_ends {α : Type} {read : Reader α}
    (h : ∀ before s a rest, read before s = some (a, rest) → Ends rest s) : Takes EndsPlain read := by
  intro before s a rest hr
  obtain ⟨u, c, rfl, hc⟩ := h before s a rest hr
  exact ⟨u ++ [c], by rw [List.append_assoc, List.singleton_append], u, c, rfl, hc⟩

theorem takes_opened {command : Text} : Takes EndsPlain (opened command) := by
  refine takes_of_ends fun before s a rest h => ?_
  simp only [opened, Option.bind_eq_bind, Option.bind_eq_some_iff] at h
  obtain ⟨s₁, h₁, s₂, h₂, he⟩ := h
  cases he
  exact (Ends.after? (.of_getLast? (by decide)) h₂).of_suffix ((List.dropWhile_suffix _).trans (Text.suffix_after? h₁))

theorem takes_reader {name : Text} (hname : EndsPlain ('\\' :: name)) : Takes EndsPlain (Command.reader name) := by
  refine takes_of_ends fun before s a rest h => ?_
  obtain ⟨r, hr, he⟩ := Option.map_eq_some_iff.1 h
  cases he
  obtain ⟨u, c, hu, hc⟩ := hname
  exact ⟨u, c, by rw [Command.after?_eq hr, ← List.cons_append, hu, List.append_assoc, List.singleton_append], hc⟩

theorem takes_listOptions : Takes EndsPlain listOptions := by
  refine takes_of_ends fun before s a rest h => ?_
  simp only [listOptions, Option.bind_eq_bind, Option.bind_eq_some_iff] at h
  obtain ⟨s₁, h₁, ⟨t, s₂⟩, h₂, he⟩ := h
  cases he
  exact (Ends.closedBy (by decide) h₂).of_suffix (Text.suffix_after? h₁)

theorem takes_listItem : Takes EndsPlain listItem := by
  refine takes_of_ends fun before s a rest h => ?_
  simp only [listItem, Option.bind_eq_bind, Option.bind_eq_some_iff] at h
  obtain ⟨s₁, h₁, h⟩ := h
  split at h
  · rename_i c s₂
    split at h
    · rename_i hblank
      cases h
      -- the white space ends with a blank, its first character or a later one
      obtain ⟨gap, hgap, hall⟩ := Text.dropWhile_eq isBlank s₂
      have hne (d : Char) (hd : isBlank d = true) : d ≠ '\\' := fun he => by
        rw [he] at hd
        cases hd
      refine Ends.of_suffix ?_ (Text.suffix_after? h₁)
      rcases List.eq_nil_or_concat gap with rfl | ⟨g, d, rfl⟩
      · exact ⟨[], c, by rw [List.nil_append] at hgap; rw [← hgap]; rfl, hne c hblank⟩
      · refine ⟨c :: g, d, ?_, hne d (hall d (by simp))⟩
        rw [List.cons_append]
        refine congrArg (c :: ·) (hgap.trans ?_)
        simp
    · cases h
  · cases h

theorem takes_bareAmpersand : Takes EndsPlain bareAmpersand := by
  refine takes_of_ends fun before s a rest h => ?_
  unfold bareAmpersand at h
  split at h
  · cases h
  · cases h
    exact ⟨[], '&', rfl, by decide⟩
  · cases h

theorem takes_literal {t : Text} (ht : EndsPlain t) : Takes EndsPlain (literal t) := by
  refine takes_of_ends fun before s a rest h => ?_
  obtain ⟨r, hr, he⟩ := Option.map_eq_some_iff.1 h
  cases he
  exact .after? ht hr

/-- A literal text that is taken out. -/
theorem slashed_literal {t : Text} (ht : IsSlashed t) : Takes IsSlashed (literal t) := by
  intro before s a rest h
  obtain ⟨r, hr, he⟩ := Option.map_eq_some_iff.1 h
  cases he
  exact ⟨t, Text.after?_eq_some_iff.1 hr, ht⟩

theorem slashed_readerOf {names : List Text} (hnames : ∀ name ∈ names, EndsPlain ('\\' :: name)) :
    Takes IsSlashed (Command.readerOf names) := by
  intro before s a rest h
  obtain ⟨name, hname, h⟩ := List.exists_of_findSome?_eq_some h
  obtain ⟨r, hr, he⟩ := Option.map_eq_some_iff.1 h
  cases he
  exact ⟨'\\' :: a, Command.after?_eq hr, rfl, hnames a hname⟩

/-! ## What is drawn for a brace -/

theorem spaced_suffix {words : List Text} {s rest : Text} (h : spaced words s = some rest) : rest <:+ s := by
  induction words generalizing s with
  | nil =>
    cases h
    exact List.suffix_refl _
  | cons w words ih =>
    simp only [spaced, List.foldlM_cons, Option.bind_eq_bind, Option.bind_eq_some_iff] at h
    obtain ⟨t, ht, h⟩ := h
    exact (ih h).trans ((Text.suffix_after? ht).trans (List.dropWhile_suffix _))

theorem spaced_eq {w s rest : Text} (h : spaced [w] s = some rest) : ∃ gap, s = gap ++ (w ++ rest) := by
  simp only [spaced, List.foldlM_cons, List.foldlM_nil, Option.bind_eq_bind, Option.bind_eq_some_iff] at h
  obtain ⟨t, ht, he⟩ := h
  cases he
  obtain ⟨gap, hgap, -⟩ := Text.dropWhile_eq isBlank s
  exact ⟨gap, by rw [← Text.after?_eq_some_iff.1 ht]; exact hgap⟩

theorem parenthesised?_suffix {s inside rest : Text} (h : parenthesised? s = some (inside, rest)) : rest <:+ s := by
  simp only [parenthesised?, Option.bind_eq_bind, Option.bind_eq_some_iff] at h
  obtain ⟨s₁, h₁, ⟨t, s₂⟩, h₂, h⟩ := h
  split at h
  · cases h
  · cases h
    exact (Text.suffix_closedBy h₂).trans (spaced_suffix h₁)

/-- A brace that is read ends with its node options and its label, as they are written. -/
theorem braceReader_eq {before : Option Char} {s rest : Text} {b : Brace} (h : braceReader before s = some (b, rest)) :
    ∃ l m, s = l ++ '[' :: (b.nodeOptions ++ ']' :: (m ++ '\x7b' :: (b.label ++ "\x7d;".toList))) ++ rest := by
  simp only [braceReader, Option.bind_eq_bind, Option.bind_eq_some_iff] at h
  obtain ⟨s₁, h₁, s₂, h₂, ⟨o, s₃⟩, h₃, s₄, h₄, ⟨p, s₅⟩, h₅, s₆, h₆, ⟨q, s₇⟩, h₇, s₈, h₈, ⟨n, s₉⟩, h₉, s₁₀, h₁₀,
    ⟨t, s₁₁⟩, h₁₁, s₁₂, h₁₂, he⟩ := h
  cases he
  have hsuffix : s₇ <:+ s := (parenthesised?_suffix h₇).trans ((spaced_suffix h₆).trans ((parenthesised?_suffix h₅).trans
    ((Text.suffix_after? h₄).trans ((Text.suffix_closedBy h₃).trans ((spaced_suffix h₂).trans (Text.suffix_after? h₁))))))
  obtain ⟨u, rfl⟩ := hsuffix
  obtain ⟨gap, rfl⟩ := spaced_eq h₈
  obtain ⟨m, rfl⟩ := spaced_eq h₁₀
  have hlast : s₁₁ = ";".toList ++ rest := Text.after?_eq_some_iff.1 h₁₂
  rw [Text.closedBy_eq h₉, Text.closedBy_eq h₁₁, hlast]
  exact ⟨u ++ (gap ++ "node".toList), m, by simp⟩

/-- The characters that are drawn around node options and label. -/
def isDrawnChar (c : Char) : Bool :=
  Decimal.isNumberChar c || c ∈ "\\draw[thick] (,) .. controls and ; \\node[] at \x7b\x7d;".toList

theorem drawn_text {t : Text} (ht : t.all isDrawnChar = true) : Within isDrawnChar t := List.all_eq_true.1 ht

theorem drawn_short (x : Float) : Within isDrawnChar (short x) := fun c hc => by
  rw [isDrawnChar, Decimal.isNumberChar_general hc, Bool.true_or]

theorem drawn_point (p : Point) : Within isDrawnChar p.text :=
  ((((drawn_text (by decide)).append (drawn_short p.x)).append (drawn_text (by decide))).append (drawn_short p.y)).append
    (drawn_text (by decide))

theorem curves_eq (b : Brace) (c : Calibration) : ∃ l m,
    b.curves c = l ++ '[' :: (b.nodeOptions ++ (m ++ '\x7b' :: (b.label ++ "\x7d;".toList))) ∧
      Within isDrawnChar l ∧ Within isDrawnChar m := by
  have hparts (p first second tip third q label : Point) : ∃ l m,
      "\\draw[thick] ".toList ++ p.text ++ " .. controls ".toList ++ first.text ++ " and ".toList ++ second.text ++
          " .. ".toList ++ tip.text ++ " .. controls ".toList ++ second.text ++ " and ".toList ++ third.text ++
          " .. ".toList ++ q.text ++ "; \\node[".toList ++ b.nodeOptions ++ "] at ".toList ++ label.text ++
          " \x7b".toList ++ b.label ++ "\x7d;".toList =
        l ++ '[' :: (b.nodeOptions ++ (m ++ '\x7b' :: (b.label ++ "\x7d;".toList))) ∧
        Within isDrawnChar l ∧ Within isDrawnChar m := by
    refine ⟨"\\draw[thick] ".toList ++ p.text ++ " .. controls ".toList ++ first.text ++ " and ".toList ++ second.text ++
      " .. ".toList ++ tip.text ++ " .. controls ".toList ++ second.text ++ " and ".toList ++ third.text ++
      " .. ".toList ++ q.text ++ "; \\node".toList, "] at ".toList ++ label.text ++ " ".toList, by simp, ?_, ?_⟩
    · simp only [Within, List.forall_mem_append]
      simp only [← Within.eq_1]
      refine ⟨⟨⟨⟨⟨⟨⟨⟨⟨⟨⟨⟨⟨⟨?_, drawn_point _⟩, ?_⟩, drawn_point _⟩, ?_⟩, drawn_point _⟩, ?_⟩, drawn_point _⟩, ?_⟩,
        drawn_point _⟩, ?_⟩, drawn_point _⟩, ?_⟩, drawn_point _⟩, ?_⟩ <;> exact drawn_text (by decide)
    · exact ((drawn_text (by decide)).append (drawn_point _)).append (drawn_text (by decide))
  exact hparts _ _ _ _ _ _ _

/-! ## ASCII on one line -/

def isAscii (c : Char) : Bool := c.toNat < 128

def isLineChar (c : Char) : Bool := c.toNat < 128 && c ≠ '\n' && c ≠ '\r'

theorem isLineChar_of_isDrawnChar {c : Char} (h : isDrawnChar c = true) : isLineChar c = true := by
  rcases Bool.or_eq_true_iff.1 h with h | h
  · rcases Bool.or_eq_true_iff.1 h with h | h
    · have hne (d : Char) (hd : d.isDigit = false) : c ≠ d := fun he => by
        rw [he, hd] at h
        cases h
      have hlt : c.toNat < 128 := by
        simp only [Char.isDigit, Bool.and_eq_true, decide_eq_true_eq] at h
        have hhigh : c.toNat ≤ 57 := h.2
        omega
      simp [isLineChar, hlt, hne '\n' (by decide), hne '\r' (by decide)]
    · exact (by decide : ∀ c ∈ ['-', '.', '+', 'e', 'n', 'a', 'i', 'f'], isLineChar c = true) c (by simpa using h)
  · exact (by decide : ∀ c ∈ "\\draw[thick] (,) .. controls and ; \\node[] at \x7b\x7d;".toList, isLineChar c = true) c
      (by simpa using h)

theorem ascii_commentFree (body : Text) : Within isAscii (commentFree body) := by
  refine Within.removeAll fun c hc => ?_
  exact (List.mem_filter.1 hc).2

theorem ascii_withSwitches {s : Text} (h : Within isAscii s) : Within isAscii (withSwitches s) :=
  .replaceAll (fun _ _ _ _ _ _ => List.all_eq_true.1 (by decide))
    (.replaceAll (fun _ _ _ _ _ _ => List.all_eq_true.1 (by decide)) h)

theorem line_onOneLine {s : Text} (h : Within isAscii s) : Within isLineChar (onOneLine s) := by
  have hascii : Within isAscii ((s.removeAll (Command.readerOf familyNames)).replaceAll (Command.reader ['n']) fun _ => [' ']) :=
    .replaceAll (fun _ _ _ _ _ _ => List.all_eq_true.1 (by decide)) (.removeAll h)
  intro c hc
  obtain ⟨d, hd, rfl⟩ := List.mem_map.1 hc
  have hd : d.toNat < 128 := of_decide_eq_true (hascii d hd)
  by_cases hend : (d = '\r' || d = '\n') = true
  · rw [if_pos hend]
    decide
  · simp only [Bool.or_eq_true, decide_eq_true_eq, not_or] at hend
    simp [isLineChar, hd, hend.1, hend.2]

theorem line_flattenLists {s : Text} (h : Within isLineChar s) : Within isLineChar (flattenLists s) := by
  have hbare : Within isLineChar (bareLists s) := .replaceAll (fun _ _ _ _ _ _ => List.all_eq_true.1 (by decide)) h
  rw [flattenLists_eq]
  split
  · exact .replaceAll (fun _ _ _ _ _ _ => List.all_eq_true.1 (by decide)) (.removeAll (.removeAll hbare))
  · exact hbare

theorem line_escapeAmpersands {s : Text} (h : Within isLineChar s) : Within isLineChar (escapeAmpersands s) := by
  rw [escapeAmpersands, Inline.replace_eq_replaceAll (by decide)]
  exact .replaceAll (fun _ _ _ _ _ _ => List.all_eq_true.1 (by decide))
    (.replaceAll (fun _ _ _ _ _ _ => List.all_eq_true.1 (by decide)) h)

theorem line_drawBraces (c : Calibration) {s : Text} (h : Within isLineChar s) : Within isLineChar (drawBraces c s) := by
  rw [drawBraces, guardClosing, Inline.replace_eq_replaceAll (by decide)]
  refine .replaceAll (fun _ _ _ _ _ _ => List.all_eq_true.1 (by decide)) (.replaceAll (fun b before t rest ht hr => ?_) h)
  have ht : Within isLineChar t := h.suffix ht
  obtain ⟨l, m, rfl⟩ := braceReader_eq hr
  obtain ⟨l', m', hcurves, hl, hm⟩ := curves_eq b c
  have hdrawn {u : Text} (hu : Within isDrawnChar u) : Within isLineChar u := fun c hc => isLineChar_of_isDrawnChar (hu c hc)
  have hoptions : Within isLineChar b.nodeOptions := ht.subset fun c hc => by simp [hc]
  have hlabel : Within isLineChar b.label := ht.subset fun c hc => by simp [hc]
  rw [hcurves]
  have hend : Within isLineChar "\x7d;".toList := List.all_eq_true.1 (by decide)
  have hbracket : Within isLineChar ['['] := List.all_eq_true.1 (by decide)
  have hbrace : Within isLineChar ['\x7b'] := List.all_eq_true.1 (by decide)
  exact (hdrawn hl).append (hbracket.append (hoptions.append ((hdrawn hm).append (hbrace.append (hlabel.append hend)))))

theorem line_safeSubset (c : Calibration) (body : Text) : Within isLineChar (safeSubset c body) := by
  rw [safeSubset_eq]
  exact line_drawBraces c (line_escapeAmpersands (line_flattenLists (line_onOneLine (ascii_withSwitches (ascii_commentFree body)))))

/-! ## Ampersands -/

/-- Each ampersand stands behind one backslash at most, where `n` backslashes stand in front of the text. -/
def Single : (n : Nat) → Text → Prop
  | _, [] => True
  | n, c :: s => (c = '&' → n ≤ 1) ∧ Single (if c = '\\' then n + 1 else 0) s

/-- No two backslashes are left in front of an ampersand: a backslash that stays with another one in front of an ampersand
    would have been taken with them. -/
theorem single_replace (n : Nat) (s : Text) (hone : 1 ≤ n → ¬"\\&".toList <+: s) (htwo : 2 ≤ n → ¬"&".toList <+: s) :
    Single n (s.replace "\\\\&" "\\\\ \\&") := by
  induction hlen : s.length using Nat.strongRecOn generalizing n s with
  | ind k ih =>
    by_cases hp : "\\\\&".toList <+: s
    · obtain ⟨rest, rfl⟩ := hp
      rw [Text.replace_append (by decide)]
      have hrest := ih rest.length (by simp at hlen; omega) 0 rest (by omega) (by omega) rfl
      simpa [Single] using hrest
    · cases s with
      | nil => trivial
      | cons c s =>
        rw [Text.replace_skip (by decide) hp]
        refine ⟨fun hc => ?_, ih s.length (by simp at hlen; omega) _ s ?_ ?_ rfl⟩
        · by_contra hn
          exact htwo (by omega) (List.cons_prefix_cons.2 ⟨hc.symm, List.nil_prefix⟩)
        · by_cases hc : c = '\\'
          · exact fun _ h => hp (List.cons_prefix_cons.2 ⟨hc.symm, h⟩)
          · simp [hc]
        · by_cases hc : c = '\\'
          · rw [if_pos hc]
            exact fun hn h => hone (by omega) (List.cons_prefix_cons.2 ⟨hc.symm, h⟩)
          · simp [hc]

theorem guards_escapeAmpersands (s : Text) : Guards not '&' false (escapeAmpersands s) := by
  -- the number of backslashes in front tells both what precedes and whether the next character is escaped
  have main (g : Piece Unit → Text) (hchar : ∀ c, g (.char c) = [c]) (hhit : ∀ source, g (.hit () source) = "\\&".toList)
      (n : Nat) (before : Option Char) (hn : n = 0 ↔ before ≠ some '\\') (s : Text) (hs : Single n s) :
      Guards not '&' (decide (n % 2 = 1)) ((Text.cutFrom bareAmpersand 0 before s).flatMap g) := by
    induction s generalizing n before with
    | nil => exact .nil
    | cons c s ih =>
      obtain ⟨hone, hs⟩ := hs
      have hnext : (if c = '\\' then n + 1 else 0) = 0 ↔ some c ≠ some '\\' := by
        by_cases hc : c = '\\' <;> simp [hc]
      have hrest := ih _ (some c) hnext hs
      have hbit : decide ((if c = '\\' then n + 1 else 0) % 2 = 1) = (decide (c = '\\') && !decide (n % 2 = 1)) := by
        by_cases hc : c = '\\'
        · rw [if_pos hc, decide_eq_true hc, Bool.true_and, ← decide_not]
          exact decide_eq_decide.2 (by omega)
        · simp [hc]
      rw [hbit] at hrest
      by_cases hamp : c = '&' ∧ n = 0
      · obtain ⟨rfl, rfl⟩ := hamp
        have hread : bareAmpersand before ('&' :: s) = some ((), s) := by
          unfold bareAmpersand
          split
          · exact absurd rfl (hn.1 rfl)
          · rename_i h
            cases h
            rfl
          · simp_all
        have hcut : Text.cutFrom bareAmpersand 0 before ('&' :: s) =
            .hit () (Text.upTo ('&' :: s) s) :: Text.cutFrom bareAmpersand 0 (some '&') s := by
          simp [Text.cutFrom, hread]
        rw [hcut, List.flatMap_cons, hhit]
        exact Guards.cons_iff.2 ⟨by decide, Guards.cons_iff.2 ⟨by decide, hrest⟩⟩
      · have hread : bareAmpersand before (c :: s) = none := by
          unfold bareAmpersand
          split
          · rfl
          · simp_all
          · rfl
        rw [Text.cutFrom_char hread, List.flatMap_cons, hchar]
        refine Guards.cons_iff.2 ⟨fun hc => ?_, hrest⟩
        have := hone hc
        simp only [hc, true_and] at hamp
        exact decide_eq_true (by omega)
  exact main _ (fun _ => rfl) (fun _ => rfl) 0 none (by simp) _ (single_replace 0 s (by omega) (by omega))


/-! ## Percent signs -/

section Steps

variable {next : Bool → Bool} {e : Bool} {s : Text}

/-- What is drawn for a brace holds no marks but those of its node options and its label, which stand behind the same
    brackets as before. -/
theorem guards_drawBraces (c : Calibration) {x : Char} (hx : x ∈ ['&', '%']) (h : Guards next x e s) :
    Guards next x e (drawBraces c s) := by
  obtain ⟨hdrawn, hguard⟩ :=
    (by decide : ∀ x ∈ ['&', '%'], isDrawnChar x = false ∧ x ∉ "<\\/".toList) x hx
  have hout {t : Text} (ht : Within isDrawnChar t) : x ∉ t := fun hmem => by
    rw [ht x hmem] at hdrawn
    cases hdrawn
  have hne {d : Char} (hd : isDrawnChar d = true) : d ≠ x := fun he => by
    rw [he, hdrawn] at hd
    cases hd
  rw [drawBraces, guardClosing, Inline.replace_eq_replaceAll (by decide)]
  refine Guards.mark (takes_literal (.of_getLast? (by decide))) (.of_getLast? (by decide)) hguard
    (h.replaceAll fun before t b rest hr => ?_)
  obtain ⟨l, m, rfl⟩ := braceReader_eq hr
  obtain ⟨l', m', hcurves, hl, hm⟩ := curves_eq b c
  rw [Text.upTo_append_rest, hcurves]
  constructor
  · intro e
    simp
  · intro e hold
    simp only [Guards.append_iff, Guards.cons_iff, hne (d := '[') (by decide), hne (d := '\x7b') (by decide)] at hold ⊢
    obtain ⟨-, hoptions, -, -, hlabel, hend⟩ := by simpa using hold
    simpa using ⟨Guards.of_not_mem (hout hl), hoptions, Guards.of_not_mem (hout hm), hlabel, hend⟩

/-- A comment goes up to the end of its line, so what is left behind it begins with no percent sign, whatever stands in
    front. -/
theorem guards_strip (s : Text) : Guards (fun _ => true) '%' false (Comment.strip s) := by
  have main (g : Piece Unit → Text) (hchar : ∀ c, g (.char c) = [c]) (hhit : ∀ source, g (.hit () source) = []) (s : Text) :
      ∀ before e, (e = decide (before = some '\\') ∨ s.head?.all (· = '\n') = true) →
        Guards (fun _ => true) '%' e ((Text.cutFrom Comment.reader 0 before s).flatMap g) := by
    induction hlen : s.length using Nat.strongRecOn generalizing s with
    | ind n ih =>
      intro before e he
      cases s with
      | nil => exact .nil
      | cons c s =>
        cases hr : Comment.reader before (c :: s) with
        | none =>
          rw [Text.cutFrom_char hr, List.flatMap_cons, hchar]
          refine Guards.cons_iff.2 ⟨?_, ih s.length (by simp at hlen; omega) s rfl _ _ (.inl (by simp))⟩
          rintro rfl
          rcases he with rfl | hline
          · unfold Comment.reader at hr
            split at hr <;> simp_all
          · cases hline
        | some r =>
          obtain ⟨a, rest⟩ := r
          obtain ⟨rfl, hrest⟩ : c = '%' ∧ s.dropWhile (· ≠ '\n') = rest := by
            unfold Comment.reader at hr
            split at hr <;> simp_all
          obtain ⟨gap, hgap, -⟩ := Text.dropWhile_eq (· ≠ '\n') s
          rw [hrest] at hgap
          subst hgap
          obtain ⟨b, hcut⟩ := Text.cutFrom_hit hr
          rw [hcut, List.flatMap_cons, hhit, List.nil_append]
          refine ih rest.length (by simp at hlen; omega) rest rfl b e (.inr ?_)
          cases rest with
          | nil => rfl
          | cons d rest => simpa using Text.head_dropWhile hrest
  exact main _ (fun _ => rfl) (fun _ => rfl) s none false (.inl rfl)

/-- The body when the markers of its lists are taken out. -/
def withLists (body : Text) : Text := bareLists (onOneLine (withSwitches (commentFree body)))

/-- No font family and no list marker that is taken out begins behind an odd run of backslashes where another backslash
    follows it. -/
structure Detached (next : Bool → Bool) (body : Text) : Prop where
  families : TakenClean next (Command.readerOf familyNames) ['\\'] (withSwitches (commentFree body))
  begins : TakenClean next (literal listBegin) ['\\'] (withLists body)
  ends : (withLists body).includes listBegin = true →
    TakenClean next (literal listEnd) ['\\'] ((withLists body).removeAll (literal listBegin))

instance (next : Bool → Bool) (body : Text) : Decidable (Detached next body) :=
  decidable_of_iff (_ ∧ _ ∧ _) ⟨fun ⟨h₁, h₂, h₃⟩ => ⟨h₁, h₂, h₃⟩, fun ⟨h₁, h₂, h₃⟩ => ⟨h₁, h₂, h₃⟩⟩

theorem slashed_listMarker {t : Text} (ht : t ∈ [listBegin, listEnd]) : Takes IsSlashed (literal t) := by
  refine slashed_literal ?_
  rcases List.mem_pair.1 ht with rfl | rfl <;> exact ⟨rfl, .of_getLast? (by decide)⟩

/-- Each step keeps every percent sign behind its backslash, also where only the character directly in front counts. -/
theorem guards_percent (c : Calibration) {body : Text} (hbody : Detached next body)
    (h : Guards next '%' false (commentFree body)) : Guards next '%' false (safeSubset c body) := by
  have hfamilies : ∀ name ∈ familyNames, EndsPlain ('\\' :: name) := fun name hname =>
    .of_getLast? ((by decide : ∀ name ∈ familyNames, (('\\' :: name).getLast?.any (· ≠ '\\')) = true) name hname)
  have hswitched : Guards next '%' false (withSwitches (commentFree body)) :=
    .mark takes_opened (.of_getLast? (by decide)) (by decide) (.mark takes_opened (.of_getLast? (by decide)) (by decide) h)
  have hline : Guards next '%' false (onOneLine (withSwitches (commentFree body))) := by
    refine .map (fun d => ?_) (fun d => ?_) (.mark (takes_reader (.of_getLast? (by decide))) (.of_getLast? (by decide)) (by decide)
      (hswitched.removeAll List.mem_cons_self (slashed_readerOf hfamilies) hbody.families))
    · split
      · rename_i hd
        rcases (by simpa using hd : d = '\r' ∨ d = '\n') with rfl | rfl <;> decide
      · rfl
    · split <;> simp_all
  have hbare : Guards next '%' false (withLists body) :=
    .mark takes_listOptions (.of_getLast? (by decide)) (by decide) hline
  have hflat : Guards next '%' false (flattenLists (onOneLine (withSwitches (commentFree body)))) := by
    rw [flattenLists_eq]
    split
    · rename_i hlist
      exact .mark takes_listItem (.of_getLast? (by decide)) (by decide)
        ((hbare.removeAll List.mem_cons_self (slashed_listMarker (by simp)) hbody.begins).removeAll
          List.mem_cons_self (slashed_listMarker (by simp)) (hbody.ends hlist))
    · exact hbare
  rw [safeSubset_eq]
  refine guards_drawBraces c (by decide) ?_
  rw [escapeAmpersands, Inline.replace_eq_replaceAll (by decide)]
  exact .mark takes_bareAmpersand (.of_getLast? (by decide)) (by decide)
    (.mark (takes_literal (.of_getLast? (by decide))) (.of_getLast? (by decide)) (by decide) hflat)

end Steps

/-! ## The safe subset -/

/-- Ampersands are escaped, and each percent sign has a backslash directly in front of it. Whether that backslash escapes
    it is decided where comments are taken out: the look at one character keeps a percent sign behind a row break. -/
theorem safeSubset_escapes (c : Calibration) (body : Text) :
    (∀ d ∈ safeSubset c body, d.toNat < 128 ∧ d ≠ '\n' ∧ d ≠ '\r') ∧
    Escaped '&' (safeSubset c body) ∧
    (∀ before after, safeSubset c body = before ++ '%' :: after → before.getLast? = some '\\') ∧
    (Escaped '%' (commentFree body) → Detached not body → Escaped '%' (safeSubset c body)) := by
  refine ⟨fun d hd => ?_, ?_, fun before after hs => ?_, fun hbody hdetached => ?_⟩
  · simpa [isLineChar, and_assoc] using line_safeSubset c body d hd
  · rw [safeSubset_eq]
    exact escaped_iff.2 (guards_drawBraces c (by decide) (guards_escapeAmpersands _))
  · have hconst : Guards (fun _ => true) '%' false (safeSubset c body) :=
      guards_percent c ⟨.of_const (fun _ => rfl) _ _ _, .of_const (fun _ => rfl) _ _ _, fun _ => .of_const (fun _ => rfl) _ _ _⟩
        (guards_strip _)
    exact (behind_true_iff before).1 (hconst before after hs)
  · exact escaped_iff.2 (guards_percent c hdetached (escaped_iff.1 hbody))

/-- A matrix with a percentage, a comment, a font family and a list in a node. -/
def matrixBody : Text :=
  "\\sffamily A & 5\\% \\\\ % rows\n\\begin\x7bitemize\x7d\\item B\\end\x7bitemize\x7d"

theorem safeSubset_escapes_matrix : Escaped '%' (commentFree matrixBody) ∧ Detached not matrixBody ∧
    Escaped '%' (safeSubset {} matrixBody) := by
  have hbody : Escaped '%' (commentFree matrixBody) := by decide +kernel
  have hdetached : Detached not matrixBody := by decide +kernel
  exact ⟨hbody, hdetached, (safeSubset_escapes {} matrixBody).2.2.2 hbody hdetached⟩

/-- A comment directly behind a row break stays. -/
theorem rowBreak_comment_kept : ¬Escaped '%' (safeSubset {} "a\\\\%b") := by
  decide +kernel

end Diagram
end Galley
