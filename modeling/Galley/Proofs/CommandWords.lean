import Galley.Proofs.TokenSeams
/-!
# Commands as words

Behind a backslash the letters up to the next other character are one word, and a command is read just where the word is its
name (`readerOf_slash`). So the commands of a text are counted backslash by backslash (`tally_cons`), and a token puts its own
letters behind a name that ends in front of it: that command is lost (`tally_glued`).
-/

namespace Galley

namespace Text

/-- The letters at the head of a text, and what stands behind them. -/
def word (s : Text) : Text := s.takeWhile isAsciiLetter

def behindWord (s : Text) : Text := s.dropWhile isAsciiLetter

theorem word_append_behindWord (s : Text) : word s ++ behindWord s = s := List.takeWhile_append_dropWhile

/-- The text is letters throughout. -/
abbrev Letters (s : Text) : Prop := ∀ c ∈ s, isAsciiLetter c = true

theorem letters_word (s : Text) : Letters (word s) := fun _ hc => List.all_eq_true.1 List.all_takeWhile _ hc

theorem word_append_of_letters {s : Text} (hs : Letters s) (u : Text) : word (s ++ u) = s ++ word u :=
  List.takeWhile_append_of_pos hs

theorem behindWord_append_of_letters {s : Text} (hs : Letters s) (u : Text) : behindWord (s ++ u) = behindWord u :=
  List.dropWhile_append_of_pos hs

theorem word_cons_of_not_letter {c : Char} (hc : isAsciiLetter c = false) (s : Text) : word (c :: s) = [] :=
  List.takeWhile_cons_of_neg (by simp [hc])

theorem behindWord_cons_of_not_letter {c : Char} (hc : isAsciiLetter c = false) (s : Text) : behindWord (c :: s) = c :: s :=
  List.dropWhile_cons_of_neg (by simp [hc])

/-- A text that is not letters throughout has its word in it. -/
theorem behindWord_eq_cons {s : Text} (hs : ¬Letters s) :
    ∃ c r, isAsciiLetter c = false ∧ s = word s ++ c :: r ∧ ∀ u, word (s ++ u) = word s ∧ behindWord (s ++ u) = c :: (r ++ u) := by
  cases hr : behindWord s with
  | nil =>
    refine absurd ?_ hs
    have hword := word_append_behindWord s
    rw [hr, List.append_nil] at hword
    exact hword ▸ letters_word s
  | cons c r =>
    have hc : isAsciiLetter c = false := head_dropWhile hr
    refine ⟨c, r, hc, by rw [← hr, word_append_behindWord], fun u => ?_⟩
    have hs : s ++ u = word s ++ (c :: (r ++ u)) := by
      conv_lhs => rw [← word_append_behindWord s, hr]
      simp
    constructor
    · rw [hs, word_append_of_letters (letters_word s), word_cons_of_not_letter hc, List.append_nil]
    · rw [hs, behindWord_append_of_letters (letters_word s), behindWord_cons_of_not_letter hc]

/-- Of a row of pieces without a last construct nothing is read. -/
theorem filterMap_eq_nil_of_lastHit? {α : Type} {ps : List (Piece α)} (h : lastHit? ps = none) :
    ps.filterMap Piece.value? = [] := by
  induction ps with
  | nil => rfl
  | cons p ps ih =>
    simp only [lastHit?] at h
    split at h
    · cases h
    · cases p with
      | char c => exact ih ‹_›
      | hit a source => cases h

end Text

namespace Command

open Text (Forward Letters behindWord findLast? word readAll tally)

/-! ## Reading words -/

theorem after?_slash {name : Text} (hname : Letters name) (s : Text) :
    after? name ('\\' :: s) = if word s = name then some (behindWord s) else none := by
  have hcons : Text.after? ('\\' :: name) ('\\' :: s) = Text.after? name s := if_pos rfl
  rw [after?, hcons]
  cases hafter : Text.after? name s with
  | none =>
    refine (if_neg fun he => ?_).symm
    rw [Text.after?_eq_some_iff.2 (he ▸ (Text.word_append_behindWord s).symm)] at hafter
    cases hafter
  | some rest =>
    obtain rfl := Text.after?_eq_some_iff.1 hafter
    rw [Text.word_append_of_letters hname, Text.behindWord_append_of_letters hname]
    cases rest with
    | nil => simp [word, behindWord]
    | cons c rest =>
      cases hc : isAsciiLetter c with
      | true => simp [hc, word]
      | false => simp [hc, Text.word_cons_of_not_letter hc, Text.behindWord_cons_of_not_letter hc]

theorem after?_of_ne {name : Text} {c : Char} (hc : c ≠ '\\') (s : Text) : after? name (c :: s) = none := by
  have hcons : Text.after? ('\\' :: name) (c :: s) = none := if_neg (Ne.symm hc)
  rw [after?, hcons]

variable {names : List Text}

theorem forward_readerOf (names : List Text) : Forward (readerOf names) := fun _ _ _ => rfl

theorem readerOf_nil (b : Option Char) : readerOf names b [] = none :=
  List.findSome?_eq_none_iff.2 fun _ _ => rfl

theorem readerOf_of_ne {c : Char} (hc : c ≠ '\\') (b : Option Char) (s : Text) : readerOf names b (c :: s) = none :=
  List.findSome?_eq_none_iff.2 fun name _ => by rw [after?_of_ne hc, Option.map_none]

/-- A command is read where the word behind a backslash is one of the names. -/
theorem readerOf_slash (hnames : ∀ n ∈ names, Letters n) (b : Option Char) (s : Text) :
    readerOf names b ('\\' :: s) = if word s ∈ names then some (word s, behindWord s) else none := by
  induction names with
  | nil => rfl
  | cons n names ih =>
    obtain ⟨hn, hnames⟩ := List.forall_mem_cons.1 hnames
    rw [readerOf] at ih ⊢
    rw [List.findSome?_cons, after?_slash hn]
    by_cases he : word s = n
    · simp [he]
    · simp only [he, if_false, Option.map_none, ih hnames, List.mem_cons, false_or]

/-! ## Counting commands -/

/-- A command begins at the head of the text. -/
def startsCommand (names : List Text) : Text → Bool
  | '\\' :: s => names.contains (word s)
  | _ => false

/-- The text ends with the name of a command. -/
def endsInName (names : List Text) : Text → Bool
  | [] => false
  | c :: s => (c = '\\' && names.contains s) || endsInName names s

/-- Some command of the text stands directly in front of another one. -/
def adjacent (names : List Text) : Text → Bool
  | [] => false
  | c :: s => (startsCommand names (c :: s) && startsCommand names (behindWord s)) || adjacent names s

theorem endsInName_append {n : Text} (hn : names.contains n = true) (x : Text) : endsInName names (x ++ '\\' :: n) = true := by
  induction x with
  | nil => simp only [List.nil_append, endsInName, hn, decide_true, Bool.and_self, Bool.true_or]
  | cons c x ih => rw [List.cons_append, endsInName, ih, Bool.or_true]

theorem endsInName_of_not_mem {x : Text} (hx : '\\' ∉ x) : endsInName names x = false := by
  induction x with
  | nil => rfl
  | cons c x ih =>
    obtain ⟨hc, hx⟩ := not_or.1 (mt List.mem_cons.2 hx)
    rw [endsInName, ih hx, decide_eq_false (Ne.symm hc)]
    rfl

theorem startsCommand_of_ne {c : Char} (hc : c ≠ '\\') (s : Text) : startsCommand names (c :: s) = false := by
  unfold startsCommand
  split
  · rename_i h
    exact absurd (List.cons.inj h).1 hc
  · rfl

theorem readAll_of_ne {c : Char} (hc : c ≠ '\\') (s : Text) : readAll (readerOf names) (c :: s) = readAll (readerOf names) s :=
  (forward_readerOf names).readAll_cons (readerOf_of_ne hc none s)

theorem readAll_append_of_not_mem {x : Text} (hx : '\\' ∉ x) (s : Text) :
    readAll (readerOf names) (x ++ s) = readAll (readerOf names) s := by
  induction x with
  | nil => rfl
  | cons c x ih =>
    obtain ⟨hc, hx⟩ := not_or.1 (mt List.mem_cons.2 hx)
    rw [List.cons_append, readAll_of_ne (Ne.symm hc), ih hx]

theorem tally_append_of_not_mem {x : Text} (hx : '\\' ∉ x) (s : Text) :
    tally (readerOf names) (x ++ s) = tally (readerOf names) s := by
  rw [tally, readAll_append_of_not_mem hx]
  rfl

section Counting

variable (hnames : ∀ n ∈ names, Letters n)

include hnames

/-- The commands of a text are counted place by place. -/
theorem tally_cons (c : Char) (s : Text) :
    tally (readerOf names) (c :: s) = (startsCommand names (c :: s)).toNat + tally (readerOf names) s := by
  by_cases hc : c = '\\'
  · subst hc
    have hread := readerOf_slash hnames none s
    have hslash : '\\' ∉ word s := fun hm => absurd (Text.letters_word s _ hm) (by decide)
    have hrest : readAll (readerOf names) (word s ++ behindWord s) = readAll (readerOf names) (behindWord s) :=
      readAll_append_of_not_mem hslash _
    rw [Text.word_append_behindWord] at hrest
    by_cases hmem : word s ∈ names
    · rw [if_pos hmem] at hread
      rw [tally, (forward_readerOf names).readAll_hit hread (Text.word_append_behindWord s).symm, tally, hrest]
      simp [startsCommand, hmem, Nat.add_comm]
    · rw [if_neg hmem] at hread
      rw [tally, (forward_readerOf names).readAll_cons hread, tally]
      simp [startsCommand, hmem]
  · rw [tally, readAll_of_ne hc, tally, startsCommand_of_ne hc]
    simp

omit hnames in
theorem word_append_cons {c : Char} (hc : isAsciiLetter c = false) (x u : Text) : word (x ++ c :: u) = word x := by
  by_cases hx : Letters x
  · have hword := Text.word_append_of_letters hx []
    rw [List.append_nil] at hword
    rw [Text.word_append_of_letters hx, Text.word_cons_of_not_letter hc, hword]
    rfl
  · obtain ⟨d, r, -, -, hword⟩ := Text.behindWord_eq_cons hx
    exact (hword _).1

/-- No command reaches over another character than a letter. -/
theorem tally_append_cons {c : Char} (hc : isAsciiLetter c = false) (x u : Text) :
    tally (readerOf names) (x ++ c :: u) = tally (readerOf names) x + tally (readerOf names) (c :: u) := by
  induction x with
  | nil => simp [tally, readAll, Text.cut, Text.cutFrom]
  | cons d x ih =>
    have hstarts : startsCommand names (d :: (x ++ c :: u)) = startsCommand names (d :: x) := by
      by_cases hd : d = '\\'
      · subst hd
        simp only [startsCommand, word_append_cons hc]
      · rw [startsCommand_of_ne hd, startsCommand_of_ne hd]
    rw [List.cons_append, tally_cons hnames, tally_cons hnames, ih, hstarts, Nat.add_assoc]

/-- What stands behind a marker is counted on its own. -/
theorem tally_marker {word gap name : Text} (hname : '\\' ∉ name) (x u : Text) :
    tally (readerOf names) (x ++ (Marker.source word gap name ++ u)) =
      tally (readerOf names) (x ++ '\\' :: (word ++ gap)) + tally (readerOf names) u := by
  have hplain : '\\' ∉ '{' :: (name ++ ['}']) := by simp [hname]
  have hsplit : x ++ (Marker.source word gap name ++ u) = x ++ '\\' :: (word ++ gap) ++ '{' :: (name ++ ['}'] ++ u) := by
    simp [Marker.source]
  have hbehind : tally (readerOf names) ('{' :: (name ++ ['}'] ++ u)) = tally (readerOf names) u :=
    tally_append_of_not_mem hplain u
  rw [hsplit, tally_append_cons hnames (by decide), hbehind]

/-! ### The last command -/

omit hnames in
theorem tally_of_findLast?_eq_none {s : Text} (h : findLast? (readerOf names) s = none) : tally (readerOf names) s = 0 := by
  rw [tally, readAll, Text.filterMap_eq_nil_of_lastHit? h]
  rfl

/-- Nothing is read behind the last command, which is a backslash and a name. -/
theorem findLast?_eq_some {s : Text} {f : Text.Found Text} (hf : findLast? (readerOf names) s = some f) :
    f.value ∈ names ∧ s = f.before ++ '\\' :: (f.value ++ f.after) ∧ word (f.value ++ f.after) = f.value ∧
      tally (readerOf names) f.after = 0 := by
  induction hn : s.length using Nat.strongRecOn generalizing s f with
  | ind n ih =>
    cases s with
    | nil => cases hf
    | cons c s =>
      rw [List.length_cons] at hn
      rw [findLast?] at hf
      cases hr : readerOf names none (c :: s) with
      | none =>
        simp only [(forward_readerOf names).cut_cons hr, Text.lastHit?] at hf
        cases hg : Text.lastHit? (Text.cut (readerOf names) s) with
        | none =>
          simp only [hg] at hf
          cases hf
        | some g =>
          simp only [hg] at hf
          obtain rfl := Option.some.inj hf
          obtain ⟨hmem, hs, hword, hafter⟩ := ih s.length (by omega) hg rfl
          exact ⟨hmem, congrArg (c :: ·) hs, hword, hafter⟩
      | some r =>
        obtain ⟨a, rest⟩ := r
        obtain rfl : c = '\\' := by
          by_contra hc
          rw [readerOf_of_ne hc] at hr
          cases hr
        obtain ⟨hmem, he⟩ := Option.ite_none_right_eq_some.1 ((readerOf_slash hnames none s).symm.trans hr)
        obtain ⟨rfl, rfl⟩ := Prod.mk.inj (Option.some.inj he)
        have hs : '\\' :: s = '\\' :: word s ++ behindWord s := congrArg ('\\' :: ·) (Text.word_append_behindWord s).symm
        simp only [(forward_readerOf names).cut_hit hr (congrArg List.tail hs), Text.lastHit?] at hf
        cases hg : Text.lastHit? (Text.cut (readerOf names) (behindWord s)) with
        | none =>
          simp only [hg] at hf
          obtain rfl := Option.some.inj hf
          rw [Text.sources_cut]
          exact ⟨hmem, hs, congrArg word (Text.word_append_behindWord s), tally_of_findLast?_eq_none hg⟩
        | some g =>
          simp only [hg] at hf
          obtain rfl := Option.some.inj hf
          have hshort : (behindWord s).length ≤ s.length := (List.dropWhile_suffix _).length_le
          obtain ⟨hvalue, hbehind, hword, hafter⟩ := ih (behindWord s).length (by omega) hg rfl
          refine ⟨hvalue, ?_, hword, hafter⟩
          rw [hs, List.append_assoc, ← hbehind]
          rfl

/-- In front of the last command there is one command less. -/
theorem tally_last {a after : Text} (hmem : a ∈ names) (hword : word (a ++ after) = a) (hafter : tally (readerOf names) after = 0)
    (x : Text) : tally (readerOf names) (x ++ '\\' :: (a ++ after)) = tally (readerOf names) x + 1 := by
  have hslash : '\\' ∉ a := fun hm => absurd (hnames a hmem _ hm) (by decide)
  have hstarts : startsCommand names ('\\' :: (a ++ after)) = true := by
    rw [startsCommand, hword, List.contains_eq_mem, decide_eq_true hmem]
  rw [tally_append_cons hnames (by decide), tally_cons hnames, hstarts, tally_append_of_not_mem hslash, hafter]
  rfl

theorem tally_suffix {s t : Text} (ht : t <:+ s) : tally (readerOf names) t ≤ tally (readerOf names) s := by
  induction s with
  | nil => rw [List.suffix_nil.1 ht]
  | cons c s ih =>
    rw [tally_cons hnames]
    rcases List.suffix_cons_iff.1 ht with rfl | ht
    · rw [tally_cons hnames]
    · exact (ih ht).trans (Nat.le_add_left _ _)

theorem startsCommand_of_tally {s t : Text} (hs : tally (readerOf names) s = 0) (ht : t <:+ s) : startsCommand names t = false := by
  cases t with
  | nil => rfl
  | cons c t =>
    have hle := tally_suffix hnames ht
    rw [tally_cons hnames, hs] at hle
    simpa using Nat.eq_zero_of_add_eq_zero_right (Nat.le_zero.1 hle)

theorem misses_of_tally {s : Text} (hs : tally (readerOf names) s = 0) : Text.Misses (readerOf names) s := by
  intro b t ht
  cases t with
  | nil => exact readerOf_nil b
  | cons c t =>
    by_cases hc : c = '\\'
    · subst hc
      have hstarts := startsCommand_of_tally hnames hs ht
      rw [startsCommand, List.contains_eq_mem, decide_eq_false_iff_not] at hstarts
      rw [readerOf_slash hnames, if_neg hstarts]
    · exact readerOf_of_ne hc b t

theorem adjacent_of_tally {s : Text} (hs : tally (readerOf names) s = 0) : adjacent names s = false := by
  induction s with
  | nil => rfl
  | cons c s ih =>
    have hstarts := startsCommand_of_tally hnames hs (List.suffix_refl _)
    rw [tally_cons hnames] at hs
    rw [adjacent, hstarts, ih (Nat.eq_zero_of_add_eq_zero_left hs)]
    rfl

end Counting

/-! ## In front of a token -/

section Tokens

variable (hnames : ∀ n ∈ names, Letters n) (hcapital : ∀ n ∈ names, 'L' ∉ n)

include hcapital

/-- With the letters of a token behind it a name is another word. -/
theorem not_contains_word_append {x : Text} (hx : Letters x) (v : Text) : names.contains (word (x ++ 'L' :: v)) = false := by
  rw [Text.word_append_of_letters hx, List.contains_eq_mem, decide_eq_false_iff_not]
  refine fun hm => hcapital _ hm (List.mem_append_right x ?_)
  simp [word, show isAsciiLetter 'L' = true by decide]

include hnames

/-- Of the commands in front of a token the one is lost whose name ends there. -/
theorem tally_glued (x v : Text) : tally (readerOf names) (x ++ 'L' :: v) + (endsInName names x).toNat =
    tally (readerOf names) x + tally (readerOf names) v := by
  induction x with
  | nil =>
    rw [List.nil_append, tally_cons hnames, startsCommand_of_ne (by decide)]
    simp [endsInName, tally, readAll, Text.cut, Text.cutFrom]
  | cons c x ih =>
    rw [List.cons_append, tally_cons hnames, tally_cons hnames, endsInName]
    by_cases hc : c = '\\'
    · subst hc
      by_cases hx : Letters x
      · have hword : word x = x := by
          have := Text.word_append_of_letters hx []
          rwa [List.append_nil, show word [] = [] from rfl, List.append_nil] at this
        have hends : endsInName names x = false :=
          endsInName_of_not_mem fun hm => absurd (hx _ hm) (show ¬isAsciiLetter '\\' = true by decide)
        rw [hends] at ih ⊢
        simp only [startsCommand, not_contains_word_append hcapital hx, hword, Bool.toNat_false, decide_true, Bool.true_and,
          Bool.or_false] at ih ⊢
        omega
      · have hmem : names.contains x = false := by
          rw [List.contains_eq_mem, decide_eq_false_iff_not]
          exact fun hm => hx (hnames x hm)
        obtain ⟨d, r, -, -, hword⟩ := Text.behindWord_eq_cons hx
        simp only [startsCommand, (hword _).1, hmem, Bool.and_false, Bool.false_or]
        omega
    · rw [startsCommand_of_ne hc, startsCommand_of_ne hc]
      simpa [hc] using ih

/-- A token brings no commands with it. -/
theorem tally_put_le {t : Text} (ht : Placed t) (x v : Text) :
    tally (readerOf names) (x ++ (t ++ v)) ≤ tally (readerOf names) x + tally (readerOf names) v := by
  have hslash := ht.slash_not_mem
  obtain ⟨gap, w, rfl, hgap⟩ := ht.begins
  cases gap with
  | nil =>
    have hglued := tally_glued hnames hcapital x (w ++ v)
    rw [tally_append_of_not_mem (fun hm => hslash (List.mem_cons_of_mem _ hm))] at hglued
    exact Nat.le_of_add_right_le (Nat.le_of_eq hglued)
  | cons c gap =>
    obtain rfl := hgap c List.mem_cons_self
    rw [List.cons_append, List.cons_append, tally_append_cons hnames (by decide), ← List.cons_append, ← List.cons_append,
      tally_append_of_not_mem hslash]

/-- With a token in the place of something that begins with a backslash there are no more commands than before. -/
theorem tally_put_slash_le {t : Text} (ht : Placed t) (x : Text) {u v : Text} (hv : v <:+ u) :
    tally (readerOf names) (x ++ (t ++ v)) ≤ tally (readerOf names) (x ++ '\\' :: u) := by
  rw [tally_append_cons hnames (by decide)]
  exact (tally_put_le hnames hcapital ht x v).trans
    (Nat.add_le_add_left (tally_suffix hnames (hv.trans (List.suffix_cons _ u))) _)

omit hnames in
/-- What stands behind a word that is no name does not decide whether a command begins with it. -/
theorem startsCommand_put {r : Text} (hr : names.contains r = false) (z v : Text) :
    startsCommand names ('\\' :: (r ++ '\\' :: z)) = startsCommand names ('\\' :: (r ++ 'L' :: v)) := by
  by_cases hletters : Letters r
  · simp only [startsCommand, not_contains_word_append hcapital hletters]
    rw [Text.word_append_of_letters hletters, Text.word_cons_of_not_letter (by decide), List.append_nil, hr]
  · obtain ⟨d, q, -, -, hword⟩ := Text.behindWord_eq_cons hletters
    simp only [startsCommand, (hword _).1]

/-- When a token takes the place of the last command, a command is lost or commands stay as close to each other as before. -/
theorem adjacent_put {x z v : Text} (hstarts : startsCommand names ('\\' :: z) = true) (hz : tally (readerOf names) z = 0)
    (hv : tally (readerOf names) v = 0) :
    adjacent names (x ++ '\\' :: z) = (endsInName names x || adjacent names (x ++ 'L' :: v)) := by
  induction x with
  | nil =>
    have hbehind : behindWord z <:+ z := List.dropWhile_suffix _
    have hcapital : startsCommand names ('L' :: v) = false := startsCommand_of_ne (by decide) v
    rw [List.nil_append, List.nil_append, adjacent, adjacent, endsInName, adjacent_of_tally hnames hz, adjacent_of_tally hnames hv,
      startsCommand_of_tally hnames hz hbehind, hcapital]
    simp
  | cons c x ih =>
    rw [List.cons_append, List.cons_append, adjacent, adjacent, endsInName, ih]
    by_cases hc : c = '\\'
    · subst hc
      by_cases hx : Letters x
      · have hword : word (x ++ '\\' :: z) = x := by
          rw [Text.word_append_of_letters hx, Text.word_cons_of_not_letter (by decide), List.append_nil]
        have hbehind : behindWord (x ++ '\\' :: z) = '\\' :: z := by
          rw [Text.behindWord_append_of_letters hx, Text.behindWord_cons_of_not_letter (by decide)]
        have hhead : startsCommand names ('\\' :: (x ++ '\\' :: z)) = names.contains x := congrArg names.contains hword
        have hlost : startsCommand names ('\\' :: (x ++ 'L' :: v)) = false := not_contains_word_append hcapital hx v
        simp only [hhead, hlost, hbehind, hstarts, decide_true, Bool.true_and, Bool.and_true, Bool.false_and, Bool.false_or, Bool.or_assoc]
      · obtain ⟨d, r, -, hsplit, hword⟩ := Text.behindWord_eq_cons hx
        have hmem : names.contains x = false := by
          rw [List.contains_eq_mem, decide_eq_false_iff_not]
          exact fun hm => hx (hnames x hm)
        have hhead : startsCommand names ('\\' :: (x ++ '\\' :: z)) = startsCommand names ('\\' :: (x ++ 'L' :: v)) :=
          startsCommand_put hcapital hmem z v
        cases hends : endsInName names x with
        | true => simp
        | false =>
          -- the command behind this one is the same before and after, as `x` does not end in its name
          have hnext : startsCommand names (d :: (r ++ '\\' :: z)) = startsCommand names (d :: (r ++ 'L' :: v)) := by
            by_cases hd : d = '\\'
            · subst hd
              refine startsCommand_put hcapital ?_ z v
              by_contra hr
              rw [hsplit, endsInName_append (by simpa using hr)] at hends
              cases hends
            · rw [startsCommand_of_ne hd, startsCommand_of_ne hd]
          rw [hhead, (hword _).2, (hword _).2, hnext, hmem]
          simp
    · rw [startsCommand_of_ne hc, startsCommand_of_ne hc, decide_eq_false hc]
      simp

end Tokens

end Command

end Galley
