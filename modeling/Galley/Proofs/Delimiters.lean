import Galley.Extract.Formula
import Galley.Proofs.Cutting
/-!
# Delimited formulas

A formula is written in atoms: characters, and backslashes with the characters they make inert. The readers of formulas
look at the parity of the backslashes in front of a delimiter, so none of them begins to read inside a formula of another
kind, and each takes its own formulas whole (`cut_source`). A formula in brackets that ends with a row break is not taken:
there the reader looks at one backslash only.
-/

namespace Galley.Extract.Formula

/-! ## Texts with formulas -/

/-- The delimiters around a formula. -/
inductive Fence where
  | square | round | double | single
  deriving DecidableEq

namespace Fence

def opening : Fence → Text
  | square => ['\\', '[']
  | round => ['\\', '(']
  | double => ['$', '$']
  | single => ['$']

def closing : Fence → Text
  | square => ['\\', ']']
  | round => ['\\', ')']
  | double => ['$', '$']
  | single => ['$']

/-- The place of the pass that takes out these formulas. -/
def pass : Fence → Nat
  | square => 0
  | round => 1
  | double => 2
  | single => 3

def reader : Fence → Reader (Text × Text)
  | square => slashDelimited '[' ']'
  | round => slashDelimited '(' ')'
  | double => doubleDollar
  | single => singleDollar

def isBracket : Fence → Bool
  | square | round => true
  | double | single => false

end Fence

inductive Atom where
  | char (c : Char) (hc : c ≠ '\\' ∧ c ≠ '$')
  /-- A backslash and the character behind it. -/
  | escaped (c : Char) (hc : c ∉ ['\n', '[', ']', '(', ')'])

namespace Atom

def source : Atom → Text
  | char c _ => [c]
  | escaped c _ => ['\\', c]

/-- A backslash behind a backslash. -/
def isRowBreak : Atom → Bool
  | char _ _ => false
  | escaped c _ => c = '\\'

end Atom

def written (u : List Atom) : Text := u.flatMap Atom.source

/-- What stands between the delimiters. -/
abbrev Body := { u : List Atom // u ≠ [] ∧ ¬ "\\begin".toList <:+: written u }

/-- Text without formulas. -/
abbrev Plain := { t : Text // t ≠ [] ∧ '\\' ∉ t ∧ '$' ∉ t }

inductive Segment where
  | plain (t : Plain)
  | formula (k : Fence) (u : Body)

namespace Segment

def source : Segment → Text
  | plain t => t.1
  | formula k u => k.opening ++ (written u.1 ++ k.closing)

/-- A formula that can be read: one in brackets does not end with a row break. -/
def isClosed : Segment → Bool
  | plain _ => true
  | formula k u => !(k.isBracket && (u.1.getLast?.any Atom.isRowBreak))

def isFormula : Segment → Bool
  | plain _ => false
  | formula _ _ => true

end Segment

def source (ss : List Segment) : Text := ss.flatMap Segment.source

/-- No two formulas stand side by side. -/
def alternating : List Segment → Bool
  | [] => true
  | s :: ss => !(s.isFormula && ss.head?.any Segment.isFormula) && alternating ss

/-! ## Runs of backslashes -/

/-- A run of backslashes. -/
def run (n : Nat) : Text := List.replicate n '\\'

theorem run_add (m n : Nat) : run (m + n) = run m ++ run n := List.replicate_append_replicate.symm

theorem slashes_run (n : Nat) {s : Text} (hs : s.head? ≠ some '\\') : slashes (run n ++ s) = run n := by
  have hstop : s.takeWhile (· = '\\') = [] := by
    cases s with
    | nil => rfl
    | cons c s => exact List.takeWhile_cons_of_neg (by simpa using hs)
  rw [slashes, run, List.takeWhile_append_of_pos (by simp), hstop, List.append_nil]

theorem length_slashes_run (n : Nat) {s : Text} (hs : s.head? ≠ some '\\') : (slashes (run n ++ s)).length = n := by
  rw [slashes_run n hs, run, List.length_replicate]

theorem drop_slashes_run (n : Nat) {s : Text} (hs : s.head? ≠ some '\\') : (run n ++ s).drop (slashes (run n ++ s)).length = s := by
  rw [slashes_run n hs, List.drop_left]

section Readers

variable {before : Option Char} {s : Text} {o c : Char} {j : Nat}

theorem slashDelimited_even (hs : s.head? ≠ some '\\') : slashDelimited o c before (run (2 * j) ++ s) = none := by
  unfold slashDelimited
  split
  · rfl
  · simp only [length_slashes_run _ hs]
    rw [if_pos (by omega)]

theorem slashDelimited_odd (hs : s.head? ≠ some '\\') (ho : s.head? ≠ some o) : slashDelimited o c before (run (2 * j + 1) ++ s) = none := by
  unfold slashDelimited
  split
  · rfl
  · simp only [drop_slashes_run _ hs]
    split
    · rfl
    · split
      · rw [if_neg (by simpa using ho)]
      · rfl

theorem doubleDollar_odd (hs : s.head? ≠ some '\\') : doubleDollar before (run (2 * j + 1) ++ s) = none := by
  unfold doubleDollar
  split
  · rfl
  · simp only [length_slashes_run _ hs]
    rw [if_pos (by omega)]

theorem doubleDollar_even (hs : s.head? ≠ some '\\') (hd : ¬ ['$', '$'] <+: s) : doubleDollar before (run (2 * j) ++ s) = none := by
  unfold doubleDollar
  split
  · rfl
  · simp only [drop_slashes_run _ hs]
    split
    · rfl
    · split
      · exact absurd ⟨_, rfl⟩ hd
      · rfl

theorem singleDollar_odd (hs : s.head? ≠ some '\\') : singleDollar before (run (2 * j + 1) ++ s) = none := by
  unfold singleDollar
  split
  · rfl
  · simp only [length_slashes_run _ hs]
    rw [if_pos (by omega)]

theorem singleDollar_even (hs : s.head? ≠ some '\\') (hd : s.head? ≠ some '$') : singleDollar before (run (2 * j) ++ s) = none := by
  unfold singleDollar
  split
  · rfl
  · simp only [drop_slashes_run _ hs]
    split
    · rfl
    · split
      · exact absurd rfl hd
      · rfl

end Readers

/-! ## Reading over formulas -/

/-- A reader that goes by the parity of the backslashes in front. -/
structure Fair (read : Reader (Text × Text)) : Prop where
  behind : ∀ s, read (some '\\') s = none
  even : ∀ {c}, c ≠ '\\' → c ≠ '$' → ∀ j before s, read before (run (2 * j) ++ c :: s) = none
  odd : ∀ {c}, c ≠ '\\' → c ∉ ['[', '('] → ∀ j before s, read before (run (2 * j + 1) ++ c :: s) = none

theorem head?_cons_ne {c x : Char} (hc : c ≠ x) (s : Text) : (c :: s).head? ≠ some x := by simpa using hc

theorem not_dollars_cons {c : Char} (hc : c ≠ '$') (s : Text) : ¬ ['$', '$'] <+: c :: s :=
  fun h => hc (List.cons_prefix_cons.1 h).1.symm

theorem Fence.fair (k : Fence) : Fair k.reader := by
  cases k with
  | square | round =>
    exact {
      behind := fun _ => rfl
      even := fun hc _ _ _ _ => slashDelimited_even (head?_cons_ne hc _)
      odd := fun hc hb _ _ _ => slashDelimited_odd (head?_cons_ne hc _) (head?_cons_ne (by rintro rfl; simp at hb) _) }
  | double =>
    exact {
      behind := fun _ => rfl
      even := fun hc hd _ _ _ => doubleDollar_even (head?_cons_ne hc _) (not_dollars_cons hd _)
      odd := fun hc _ _ _ _ => doubleDollar_odd (head?_cons_ne hc _) }
  | single =>
    exact {
      behind := fun _ => rfl
      even := fun hc hd _ _ _ => singleDollar_even (head?_cons_ne hc _) (head?_cons_ne hd _)
      odd := fun hc _ _ _ _ => singleDollar_odd (head?_cons_ne hc _) }

/-- Nothing is read in front of the text, with whole row breaks before it. -/
def Skips (read : Reader (Text × Text)) (s : Text) : Prop := ∀ j before, read before (run (2 * j) ++ s) = none

namespace Fair

variable {read : Reader (Text × Text)} (h : Fair read) {s : Text}

include h

theorem skips_written (hs : Skips read s) (u : List Atom) : Skips read (written u ++ s) := by
  induction u with
  | nil => exact hs
  | cons a u ih =>
    intro j before
    cases a with
    | char c hc => exact h.even hc.1 hc.2 j before _
    | escaped c hc =>
      by_cases hslash : c = '\\'
      · -- one row break more
        subst hslash
        have hrun : run (2 * j) ++ ('\\' :: '\\' :: (written u ++ s)) = run (2 * (j + 1)) ++ (written u ++ s) := by
          rw [Nat.mul_add, run_add, List.append_assoc]
          rfl
        exact (congrArg (read before) hrun).trans (ih (j + 1) before)
      · have hrun : run (2 * j) ++ ('\\' :: c :: (written u ++ s)) = run (2 * j + 1) ++ c :: (written u ++ s) := by
          rw [run_add, List.append_assoc]
          rfl
        have hopen : c ∉ ['[', '('] := fun hm => hc (by
          simp only [List.mem_cons, List.not_mem_nil, or_false] at hm
          rcases hm with rfl | rfl <;> decide)
        exact (congrArg (read before) hrun).trans (h.odd hslash hopen j before _)

theorem cut_written (hs : Skips read s) (u : List Atom) (before : Option Char) :
    ∃ b, Text.cutFrom read 0 before (written u ++ s) = (written u).map .char ++ Text.cutFrom read 0 b s := by
  induction u generalizing before with
  | nil => exact ⟨before, rfl⟩
  | cons a u ih =>
    have hread := h.skips_written hs (a :: u) 0 before
    cases a with
    | char c hc =>
      obtain ⟨b, hb⟩ := ih (some c)
      exact ⟨b, (Text.cutFrom_char hread).trans (congrArg (.char c :: ·) hb)⟩
    | escaped c hc =>
      obtain ⟨b, hb⟩ := ih (some c)
      have hsecond : Text.cutFrom read 0 (some '\\') (c :: (written u ++ s)) =
          .char c :: ((written u).map .char ++ Text.cutFrom read 0 b s) := by rw [Text.cutFrom_char (h.behind _), hb]
      exact ⟨b, (Text.cutFrom_char hread).trans (congrArg (Piece.char '\\' :: ·) hsecond)⟩

end Fair

/-! ### Delimiters of other kinds -/

/-- Delimiters that the reader does not stop at, whatever stands before them. -/
def PassesOver (read : Reader (Text × Text)) (mark s : Text) : Prop :=
  Skips read (mark ++ s) ∧ ∀ before, ∃ b, Text.cutFrom read 0 before (mark ++ s) = mark.map .char ++ Text.cutFrom read 0 b s

section Marks

variable {read : Reader (Text × Text)} {s : Text}

theorem passesOver_one {c : Char} (h : Skips read (c :: s)) : PassesOver read [c] s :=
  ⟨h, fun before => ⟨some c, Text.cutFrom_char (h 0 before)⟩⟩

theorem passesOver_two {c x : Char} (h : Skips read (c :: x :: s)) (hx : read (some c) (x :: s) = none) : PassesOver read [c, x] s := by
  refine ⟨h, fun before => ⟨some x, ?_⟩⟩
  have hfirst : Text.cutFrom read 0 before (c :: x :: s) = .char c :: Text.cutFrom read 0 (some c) (x :: s) := Text.cutFrom_char (h 0 before)
  exact hfirst.trans (congrArg (Piece.char c :: ·) (Text.cutFrom_char hx))

theorem passesOver_slash (k : Fence) {x : Char} (hx : x ≠ '\\') (ho : k.opening ≠ ['\\', x]) : PassesOver k.reader ['\\', x] s := by
  refine passesOver_two (fun j before => ?_) (k.fair.behind _)
  have hrun : run (2 * j) ++ ('\\' :: x :: s) = run (2 * j + 1) ++ x :: s := by
    rw [run_add, List.append_assoc]
    rfl
  have hhead := head?_cons_ne hx s
  rw [hrun]
  cases k with
  | square | round => exact slashDelimited_odd hhead (head?_cons_ne (by rintro rfl; exact ho rfl) s)
  | double => exact doubleDollar_odd hhead
  | single => exact singleDollar_odd hhead

theorem passesOver_closing (k : Fence) {k' : Fence} (hk' : k'.isBracket = true) : PassesOver k.reader k'.closing s := by
  cases k' with
  | square | round => exact passesOver_slash k (by decide) (by cases k <;> decide)
  | double | single => cases hk'

theorem passesOver_brackets {k k' : Fence} (hne : k' ≠ k) (hk' : k'.isBracket = true) :
    PassesOver k.reader k'.opening s ∧ PassesOver k.reader k'.closing s := by
  refine ⟨?_, passesOver_closing k hk'⟩
  cases k' with
  | square | round => exact passesOver_slash k (by decide) (by cases k <;> first | exact absurd rfl hne | decide)
  | double | single => cases hk'

theorem skips_dollar {o c : Char} (s : Text) : Skips (slashDelimited o c) ('$' :: s) :=
  fun _ _ => slashDelimited_even (head?_cons_ne (by decide) s)

theorem passesOver_dollars {o c : Char} (k : Fence) (hk : k.isBracket = false) (s : Text) :
    PassesOver (slashDelimited o c) k.opening s ∧ PassesOver (slashDelimited o c) k.closing s := by
  have hone : PassesOver (slashDelimited o c) ['$'] s := passesOver_one (skips_dollar s)
  have htwo : PassesOver (slashDelimited o c) ['$', '$'] s := passesOver_two (skips_dollar _) (skips_dollar s 0 _)
  cases k with
  | square | round => cases hk
  | double => exact ⟨htwo, htwo⟩
  | single => exact ⟨hone, hone⟩

/-- A pass goes over brackets of another kind, and over the delimiters of the later passes. -/
theorem passesOver_other {k k' : Fence} (hne : k' ≠ k) (hk : k'.isBracket = true ∨ k.pass ≤ k'.pass) (hs : s.head? ≠ some '$') :
    PassesOver k.reader k'.opening s ∧ PassesOver k.reader k'.closing s := by
  by_cases hbracket : k'.isBracket = true
  · exact passesOver_brackets hne hbracket
  have hdollars := Bool.eq_false_iff.2 hbracket
  have hle := hk.resolve_left hbracket
  cases k with
  | square | round => exact passesOver_dollars k' hdollars s
  | double =>
    cases k' with
    | square | round => cases hdollars
    | double => exact absurd rfl hne
    | single =>
      have hdollars : ¬ ['$', '$'] <+: '$' :: s := fun h => by
        obtain ⟨t, rfl⟩ := (List.cons_prefix_cons.1 h).2
        exact hs rfl
      have hone : PassesOver doubleDollar ['$'] s :=
        passesOver_one fun _ _ => doubleDollar_even (head?_cons_ne (by decide) s) hdollars
      exact ⟨hone, hone⟩
  | single => cases k' <;> first | exact absurd rfl hne | exact absurd hle (by decide)

end Marks

theorem head_written {u : List Atom} (hu : u ≠ []) (s : Text) : (written u ++ s).head? ≠ some '$' := by
  cases u with
  | nil => exact absurd rfl hu
  | cons a u =>
    cases a with
    | char c hc => simpa [written, Atom.source] using hc.2
    | escaped c hc => simp [written, Atom.source]

/-- A pass goes over the formulas whose delimiters it goes over. -/
theorem cut_other {k k' : Fence} (hne : k' ≠ k) (hk : k'.isBracket = true ∨ k.pass ≤ k'.pass) (u : Body) {s : Text}
    (hs : s.head? ≠ some '$') (before : Option Char) :
    ∃ b, Text.cutFrom k.reader 0 before ((Segment.formula k' u).source ++ s) =
      (Segment.formula k' u).source.map .char ++ Text.cutFrom k.reader 0 b s := by
  have hclosing := (passesOver_other hne hk hs).2
  obtain ⟨b₁, h₁⟩ := (passesOver_other hne hk (head_written u.2.1 (k'.closing ++ s))).1.2 before
  obtain ⟨b₂, h₂⟩ := k.fair.cut_written hclosing.1 u.1 b₁
  obtain ⟨b₃, h₃⟩ := hclosing.2 b₂
  refine ⟨b₃, ?_⟩
  simp only [Segment.source, List.append_assoc, List.map_append]
  rw [h₁, h₂, h₃]

/-! ### Formulas of its own kind -/

section Own

variable {s : Text}

theorem untilCloser_written {closer : Char} (hcloser : closer ∈ ['\n', '[', ']', '(', ')']) (u : List Atom)
    {before : Option Char} (hb : u = [] → before ≠ none ∧ before ≠ some '\\') (hu : u.getLast?.any Atom.isRowBreak = false) :
    untilCloser closer before (written u ++ '\\' :: closer :: s) = some (written u, s) := by
  induction u generalizing before with
  | nil =>
    obtain ⟨hnone, hslash⟩ := hb rfl
    simp [written, untilCloser, hnone, hslash]
  | cons a u ih =>
    have hlast : u.getLast?.any Atom.isRowBreak = false := by
      cases u with
      | nil => rfl
      | cons a' u => exact hu
    cases a with
    | char c hc =>
      have hrest := @ih (some c) (fun _ => ⟨by simp, by simpa using hc.1⟩) hlast
      have hsource : written (.char c hc :: u) ++ '\\' :: closer :: s = c :: (written u ++ '\\' :: closer :: s) := rfl
      rw [hsource, untilCloser, if_neg (by simp [hc.1]), hrest]
      rfl
    | escaped c hc =>
      have hrest := @ih (some c) (fun he => ⟨by simp, by subst he; simpa [Atom.isRowBreak] using hu⟩) hlast
      have hsource : written (.escaped c hc :: u) ++ '\\' :: closer :: s = '\\' :: c :: (written u ++ '\\' :: closer :: s) := rfl
      have hne : c ≠ closer := fun he => hc (he ▸ hcloser)
      rw [hsource, untilCloser, if_neg (by simp [hne]), untilCloser, if_neg (by simp), hrest]
      rfl

theorem slashDelimited_written {opener closer : Char} (ho : opener ≠ '\\') (hcloser : closer ∈ ['\n', '[', ']', '(', ')']) {u : List Atom}
    (hne : u ≠ []) (hu : u.getLast?.any Atom.isRowBreak = false) {before : Option Char} (hb : before ≠ some '\\') :
    slashDelimited opener closer before ('\\' :: opener :: (written u ++ '\\' :: closer :: s)) = some (([], written u), s) := by
  have hhead := head?_cons_ne ho (written u ++ '\\' :: closer :: s)
  have hslashes : slashes ('\\' :: opener :: (written u ++ '\\' :: closer :: s)) = ['\\'] := slashes_run 1 hhead
  have hclose : untilCloser closer none (written u ++ '\\' :: closer :: s) = some (written u, s) :=
    untilCloser_written hcloser u (fun he => absurd he hne) hu
  rw [slashDelimited, if_neg hb, hslashes]
  simp [hclose]

theorem untilDollars_written (u : List Atom) {first : Bool} (hf : first = true → u ≠ []) :
    untilDollars first (written u ++ '$' :: '$' :: s) = some (written u, s) := by
  induction u generalizing first with
  | nil =>
    cases first with
    | true => exact absurd rfl (hf rfl)
    | false => rfl
  | cons a u ih =>
    have hrest := @ih false (by simp)
    cases a with
    | char c hc =>
      have hsource : written (.char c hc :: u) ++ '$' :: '$' :: s = c :: (written u ++ '$' :: '$' :: s) := rfl
      have hstep : untilDollars first (c :: (written u ++ '$' :: '$' :: s)) =
          (untilDollars false (written u ++ '$' :: '$' :: s)).map fun p => (c :: p.1, p.2) := by
        cases first with
        | true => rw [untilDollars] <;> simp [hc.1]
        | false => rw [untilDollars] <;> simp [hc.1, hc.2]
      rw [hsource, hstep, hrest]
      rfl
    | escaped c hc =>
      have hsource : written (.escaped c hc :: u) ++ '$' :: '$' :: s = '\\' :: c :: (written u ++ '$' :: '$' :: s) := rfl
      rw [hsource, untilDollars, hrest]
      rfl

theorem doubleDollar_written {u : List Atom} (hne : u ≠ []) {before : Option Char} (hb : before ≠ some '\\') :
    doubleDollar before ('$' :: '$' :: (written u ++ '$' :: '$' :: s)) = some (([], written u), s) := by
  have hslashes : slashes ('$' :: '$' :: (written u ++ '$' :: '$' :: s)) = [] := slashes_run 0 (head?_cons_ne (by decide) _)
  have huntil : untilDollars true (written u ++ '$' :: '$' :: s) = some (written u, s) := untilDollars_written u fun _ => hne
  rw [doubleDollar, if_neg hb, hslashes]
  simp only [List.length_nil, List.drop_zero, huntil]
  rfl

theorem untilDollar_written (u : List Atom) : untilDollar (written u ++ '$' :: s) = some (written u, s) := by
  induction u with
  | nil => rw [written, List.flatMap_nil, List.nil_append, untilDollar] <;> simp
  | cons a u ih =>
    cases a with
    | char c hc =>
      have hsource : written (.char c hc :: u) ++ '$' :: s = c :: (written u ++ '$' :: s) := rfl
      have hstep : untilDollar (c :: (written u ++ '$' :: s)) =
          (untilDollar (written u ++ '$' :: s)).map fun p => (c :: p.1, p.2) := by
        rw [untilDollar] <;> simp [hc.1, hc.2]
      rw [hsource, hstep, ih]
      rfl
    | escaped c hc =>
      have hline : c ≠ '\n' := fun he => hc (by simp [he])
      have hsource : written (.escaped c hc :: u) ++ '$' :: s = '\\' :: c :: (written u ++ '$' :: s) := rfl
      have hstep : untilDollar ('\\' :: c :: (written u ++ '$' :: s)) =
          (untilDollar (written u ++ '$' :: s)).map fun p => ('\\' :: c :: p.1, p.2) := by
        rw [untilDollar]
        exact hline
      rw [hsource, hstep, ih]
      rfl

theorem written_ne_nil {u : List Atom} (hu : u ≠ []) : written u ≠ [] := by
  cases u with
  | nil => exact absurd rfl hu
  | cons a u => cases a <;> simp [written, Atom.source]

theorem singleDollar_written {u : List Atom} (hne : u ≠ []) {before : Option Char} (hb : before ≠ some '\\') (hd : before ≠ some '$') :
    singleDollar before ('$' :: (written u ++ '$' :: s)) = some (([], written u), s) := by
  have hslashes : slashes ('$' :: (written u ++ '$' :: s)) = [] := slashes_run 0 (head?_cons_ne (by decide) _)
  rw [singleDollar, if_neg (by simp [hb, hd]), hslashes]
  simp only [List.length_nil, List.drop_zero, untilDollar_written u]
  simp [written_ne_nil hne]

end Own

/-- A pass takes its formulas whole, behind a character that is no backslash or dollar. -/
theorem read_own {k : Fence} {u : Body} (hclosed : (Segment.formula k u).isClosed = true) {before : Option Char} (hb : before ≠ some '\\')
    (hd : before ≠ some '$') (s : Text) : k.reader before ((Segment.formula k u).source ++ s) = some (([], written u.1), s) := by
  simp only [Segment.source, List.append_assoc]
  cases k with
  | square => exact slashDelimited_written (by decide) (by decide) u.2.1 (by simpa [Segment.isClosed, Fence.isBracket] using hclosed) hb
  | round => exact slashDelimited_written (by decide) (by decide) u.2.1 (by simpa [Segment.isClosed, Fence.isBracket] using hclosed) hb
  | double => exact doubleDollar_written u.2.1 hb
  | single => exact singleDollar_written u.2.1 hb hd

/-! ## What a pass cuts -/

/-- The pieces of a segment for a pass. -/
def pieces (k : Fence) : Segment → List (Piece (Text × Text))
  | .plain t => t.1.map .char
  | .formula k' u => if k' = k then [.hit ([], written u.1) (Segment.formula k' u).source] else (Segment.formula k' u).source.map .char

/-- What a character before a formula is not. -/
def Open (before : Option Char) : Prop := before ≠ some '\\' ∧ before ≠ some '$'

theorem cut_plain (k : Fence) (t : Plain) (s : Text) (before : Option Char) :
    ∃ b, Open b ∧ Text.cutFrom k.reader 0 before (t.1 ++ s) = t.1.map .char ++ Text.cutFrom k.reader 0 b s := by
  have main (t : Text) (ht : '\\' ∉ t ∧ '$' ∉ t) (before : Option Char) (hb : Open before ∨ t ≠ []) :
      ∃ b, Open b ∧ Text.cutFrom k.reader 0 before (t ++ s) = t.map .char ++ Text.cutFrom k.reader 0 b s := by
    induction t generalizing before with
    | nil => exact ⟨before, hb.resolve_right fun h => h rfl, rfl⟩
    | cons c t ih =>
      simp only [List.mem_cons, not_or] at ht
      have hopen : Open (some c) := ⟨by simpa using Ne.symm ht.1.1, by simpa using Ne.symm ht.2.1⟩
      obtain ⟨b, hopen', hb⟩ := ih ⟨ht.1.2, ht.2.2⟩ (some c) (.inl hopen)
      have hnone : k.reader before (c :: (t ++ s)) = none := k.fair.even (Ne.symm ht.1.1) (Ne.symm ht.2.1) 0 before _
      exact ⟨b, hopen', (Text.cutFrom_char hnone).trans (congrArg (Piece.char c :: ·) hb)⟩
  exact main t.1 t.2.2 before (.inr t.2.1)

theorem exists_opening (k : Fence) : ∃ c t, k.opening = c :: t := by cases k <;> exact ⟨_, _, rfl⟩

theorem head_source {ss : List Segment} (h : ss.head?.any Segment.isFormula = false) : (source ss).head? ≠ some '$' := by
  cases ss with
  | nil => simp [source]
  | cons s ss =>
    cases s with
    | formula k u => cases h
    | plain t =>
      obtain ⟨t, hne, -, hd⟩ := t
      cases t with
      | nil => exact absurd rfl hne
      | cons c t =>
        have hc : '$' ≠ c := fun he => hd (he ▸ List.mem_cons_self)
        simpa [source, Segment.source] using Ne.symm hc

/-- What a pass finds: the formulas that the passes before it take out are gone, but for some in brackets. -/
structure Left (k : Fence) (ss : List Segment) : Prop where
  alternating : alternating ss = true
  others : ∀ k' u, .formula k' u ∈ ss → k'.isBracket = true ∨ k.pass ≤ k'.pass

namespace Left

variable {k : Fence} {s : Segment} {ss : List Segment}

theorem tail (h : Left k (s :: ss)) : Left k ss where
  alternating := (Bool.and_eq_true_iff.1 h.alternating).2
  others k' u hm := h.others k' u (List.mem_cons_of_mem s hm)

theorem next {k' : Fence} {u : Body} (h : Left k (.formula k' u :: ss)) : ss.head?.any Segment.isFormula = false := by
  simpa [Segment.isFormula] using (Bool.and_eq_true_iff.1 h.alternating).1

end Left

/-- A pass cuts the text at its own formulas. -/
theorem cut_source {k : Fence} {ss : List Segment} (h : Left k ss) (hclosed : ∀ s ∈ ss, s.isClosed = true) {before : Option Char}
    (hb : Open before) : Text.cutFrom k.reader 0 before (source ss) = ss.flatMap (pieces k) := by
  -- what stands before matters only where a formula comes first
  have main (before : Option Char) (hb : ss.head?.any Segment.isFormula = true → Open before) :
      Text.cutFrom k.reader 0 before (source ss) = ss.flatMap (pieces k) := by
    induction ss generalizing before with
    | nil => rfl
    | cons s ss ih =>
      obtain ⟨hs, hss⟩ := List.forall_mem_cons.1 hclosed
      have hrest := ih h.tail hss
      have hsource : source (s :: ss) = s.source ++ source ss := List.flatMap_cons
      rw [hsource, List.flatMap_cons]
      cases s with
      | plain t =>
        obtain ⟨b, hopen, hcut⟩ := cut_plain k t (source ss) before
        rw [Segment.source, hcut, hrest b fun _ => hopen]
        rfl
      | formula k' u =>
        have hfollows (b : Option Char) := hrest b fun hf => by rw [h.next] at hf; cases hf
        by_cases hk : k' = k
        · subst hk
          obtain ⟨c, t, hc⟩ := exists_opening k'
          have hread := read_own hs (hb rfl).1 (hb rfl).2 (source ss)
          have hhead : (Segment.formula k' u).source = c :: (t ++ (written u.1 ++ k'.closing)) := by rw [Segment.source, hc]; rfl
          rw [hhead] at hread ⊢
          obtain ⟨b, hcut⟩ := Text.cutFrom_hit hread
          rw [pieces, if_pos rfl, hhead]
          exact hcut.trans (congrArg _ (hfollows b))
        · obtain ⟨b, hcut⟩ := cut_other hk (h.others k' u List.mem_cons_self) u (head_source h.next) before
          rw [hcut, hfollows b, pieces, if_neg hk]
  exact main before fun _ => hb

/-! ## Text in which nothing opens a formula -/

/-- How many backslashes stand directly in front. -/
def slashesBefore (t : Text) : Nat := (slashes t.reverse).length

/-- Each dollar stands behind an odd number of backslashes, and no opening bracket does. -/
def Escaped (s : Text) : Prop := ∀ i < s.length, (s[i]? = some '$' → slashesBefore (s.take i) % 2 = 1) ∧
  (s[i]? = some '[' ∨ s[i]? = some '(' → slashesBefore (s.take i) % 2 = 0)

instance (s : Text) : Decidable (Escaped s) := inferInstanceAs (Decidable (∀ i < s.length, _ ∧ _))

section Escaped

variable {s : Text}

theorem exists_run (s : Text) : ∃ n t, s = run n ++ t ∧ t.head? ≠ some '\\' := by
  induction s with
  | nil => exact ⟨0, [], rfl, by simp⟩
  | cons c s ih =>
    by_cases hc : c = '\\'
    · obtain ⟨n, t, rfl, ht⟩ := ih
      exact ⟨n + 1, t, by rw [hc]; rfl, ht⟩
    · exact ⟨0, c :: s, rfl, head?_cons_ne hc s⟩

theorem slashesBefore_append {t : Text} (ht : t.getLast? ≠ some '\\') (n : Nat) : slashesBefore (t ++ run n) = n := by
  have hhead : t.reverse.head? ≠ some '\\' := by rwa [List.head?_reverse]
  rw [slashesBefore, List.reverse_append, run, List.reverse_replicate]
  exact length_slashes_run n hhead

theorem read_escaped (h : Escaped s) (k : Fence) {x y : Text} (hs : s = x ++ y) : k.reader x.getLast? y = none := by
  by_cases hb : x.getLast? = some '\\'
  · rw [hb]
    exact k.fair.behind y
  · obtain ⟨n, t, rfl, ht⟩ := exists_run y
    -- what stands behind the backslashes opens no formula
    have hhead (c : Char) (hc : t.head? = some c) : (c = '$' → n % 2 = 1) ∧ (c = '[' ∨ c = '(' → n % 2 = 0) := by
      obtain ⟨t, rfl⟩ : ∃ t', t = c :: t' := by
        cases t with
        | nil => cases hc
        | cons d t => exact ⟨t, by rw [Option.some.inj hc]⟩
      have hsource : s = (x ++ run n) ++ c :: t := by rw [hs, List.append_assoc]
      have hat : s[(x ++ run n).length]? = some c := by simp [hsource]
      have htake : s.take (x ++ run n).length = x ++ run n := by rw [hsource, List.take_left]
      obtain ⟨hdollar, hbracket⟩ := h (x ++ run n).length (by rw [hsource]; simp)
      rw [hat, htake, slashesBefore_append hb] at hdollar hbracket
      exact ⟨fun he => hdollar (by rw [he]), fun he => hbracket (he.imp (congrArg some) (congrArg some))⟩
    obtain ⟨j, rfl | rfl⟩ : ∃ j, n = 2 * j ∨ n = 2 * j + 1 := ⟨n / 2, by omega⟩
    · have hdollar : t.head? ≠ some '$' := fun he => by
        have := (hhead '$' he).1 rfl
        omega
      have hdollars : ¬ ['$', '$'] <+: t := fun hp => by
        obtain ⟨u, rfl⟩ := hp
        exact hdollar rfl
      cases k with
      | square | round => exact slashDelimited_even ht
      | double => exact doubleDollar_even ht hdollars
      | single => exact singleDollar_even ht hdollar
    · have hbracket (c : Char) (hc : c = '[' ∨ c = '(') : t.head? ≠ some c := fun he => by
        have := (hhead c he).2 hc
        omega
      cases k with
      | square => exact slashDelimited_odd ht (hbracket '[' (.inl rfl))
      | round => exact slashDelimited_odd ht (hbracket '(' (.inr rfl))
      | double => exact doubleDollar_odd ht
      | single => exact singleDollar_odd ht

/-- No pass cuts anything out. -/
theorem cut_escaped (h : Escaped s) (k : Fence) : Text.cut k.reader s = s.map .char := by
  have main (x y : Text) (hs : s = x ++ y) : Text.cutFrom k.reader 0 x.getLast? y = y.map .char := by
    induction y generalizing x with
    | nil => rfl
    | cons c y ih =>
      have hrest := ih (x ++ [c]) (by rw [hs, List.append_assoc]; rfl)
      rw [List.getLast?_concat] at hrest
      rw [Text.cutFrom_char (read_escaped h k hs), hrest, List.map_cons]
  exact main [] s rfl

end Escaped

end Galley.Extract.Formula
