import Galley.Proofs.Carrying
import Galley.Proofs.Finding
import Galley.Proofs.Fragments
import Galley.Proofs.Signs
import Galley.Reduction
/-!
# Edges of constructs

What a stage takes out of a text is cut out of it at two places. Neither lies inside a token of the text, with one
exception: a construct may end with a digit that a token has too. So a construct begins with a character that no token
has and ends with no capital letter (`Edged`). One that gets a token begins with a backslash or a dollar
(`Construct`).
-/

namespace Galley

open Block (isTokenChar)

/-- In `s` a character that is no capital letter stands right before the ending `rest`. -/
def Closes (rest s : Text) : Prop := ∃ u c, s = u ++ c :: rest ∧ isCapital c = false

/-- No token reaches over the left edge, and none is cut at the right edge but in its digits. -/
structure Edged (x : Text) : Prop where
  first : ∃ c u, x = c :: u ∧ isTokenChar c = false
  last : Closes [] x

/-- The source of a construct that gets a token. -/
structure Construct (x : Text) : Prop extends Edged x where
  signed : 0 < signs x

theorem isCapital_of_isTokenChar {c : Char} (h : isTokenChar c = false) : isCapital c = false := by
  rw [isTokenChar, Bool.or_eq_false_iff] at h
  exact h.1

theorem isTokenChar_of_isSign {c : Char} (h : isSign c = true) : isTokenChar c = false := by
  simp only [isSign, Bool.or_eq_true, decide_eq_true_eq] at h
  rcases h with rfl | rfl <;> rfl

theorem isCapital_of_not_letter {c : Char} (h : isAsciiLetter c = false) : isCapital c = false := by
  rw [Bool.eq_false_iff] at h ⊢
  refine fun hc => h ?_
  simp only [isCapital, Bool.and_eq_true, decide_eq_true_eq] at hc
  simp [isAsciiLetter, hc]

namespace Closes

variable {rest s t : Text}

theorem suffix (h : Closes rest s) : rest <:+ s := by
  obtain ⟨u, c, rfl, -⟩ := h
  exact (List.suffix_cons c rest).trans (List.suffix_append u _)

theorem of_suffix (h : Closes rest s) (hs : s <:+ t) : Closes rest t := by
  obtain ⟨u, c, rfl, hc⟩ := h
  obtain ⟨v, rfl⟩ := hs
  exact ⟨v ++ u, c, by rw [List.append_assoc], hc⟩

theorem append (h : Closes [] s) (rest : Text) : Closes rest (s ++ rest) := by
  obtain ⟨u, c, rfl, hc⟩ := h
  exact ⟨u, c, by simp, hc⟩

/-- What stands before the ending. -/
theorem part (h : Closes rest s) : ∃ x, s = x ++ rest ∧ Closes [] x := by
  obtain ⟨u, c, rfl, hc⟩ := h
  exact ⟨u ++ [c], by simp, u, c, rfl, hc⟩

theorem of_getLast? (h : (s.getLast?.any fun c => !isCapital c) = true) : Closes [] s := by
  obtain ⟨c, hc, hcap⟩ := Option.any_eq_true .. |>.1 h
  obtain ⟨u, rfl⟩ := List.getLast?_eq_some_iff.1 hc
  exact ⟨u, c, rfl, by simpa using hcap⟩

theorem singleton {c : Char} (hc : isCapital c = false) (rest : Text) : Closes rest (c :: rest) := ⟨[], c, rfl, hc⟩

theorem after? {p : Text} (hp : Closes [] p) (h : Text.after? p s = some rest) : Closes rest s := by
  rw [Text.after?_eq_some_iff.1 h]
  exact hp.append rest

theorem closedBy {c : Char} (hc : isCapital c = false) (h : Text.closedBy c s = some (t, rest)) : Closes rest s :=
  ⟨t, c, Text.closedBy_eq h, hc⟩

end Closes

namespace Edged

variable {x y : Text}

/-- What is read from a character that no token has up to an ending. -/
theorem of_closes {c : Char} {u rest : Text} (hc : isTokenChar c = false) (h : Closes rest (c :: u)) :
    ∃ x, c :: u = x ++ rest ∧ Edged x := by
  obtain ⟨x, hx, hlast⟩ := h.part
  refine ⟨x, hx, ?_, hlast⟩
  obtain ⟨v, d, rfl, -⟩ := hlast
  cases v with
  | nil => exact ⟨d, [], rfl, by rwa [(List.cons.inj hx).1] at hc⟩
  | cons e v => exact ⟨e, v ++ [d], rfl, by rwa [(List.cons.inj hx).1] at hc⟩

/-- From the left edge of one to the right edge of another. -/
theorem between (hx : Edged x) (m : Text) (hy : Closes [] y) : Edged (x ++ m ++ y) := by
  obtain ⟨c, u, rfl, hc⟩ := hx.first
  exact ⟨⟨c, u ++ m ++ y, rfl, hc⟩, hy.of_suffix (List.suffix_append _ y)⟩

end Edged

namespace Construct

variable {x y : Text}

theorem of_closes {c : Char} {u rest : Text} (hc : isSign c = true) (h : Closes rest (c :: u)) :
    ∃ x, c :: u = x ++ rest ∧ Construct x := by
  obtain ⟨x, hx, hedged⟩ := Edged.of_closes (isTokenChar_of_isSign hc) h
  refine ⟨x, hx, hedged, ?_⟩
  obtain ⟨d, v, rfl, -⟩ := hedged.first
  rw [(List.cons.inj hx).1] at hc
  exact signs_pos hc List.mem_cons_self

theorem between (hx : Construct x) (m : Text) (hy : Closes [] y) : Construct (x ++ m ++ y) := by
  refine ⟨hx.toEdged.between m hy, Nat.lt_of_lt_of_le hx.signed ?_⟩
  rw [signs_append, signs_append]
  omega

end Construct

/-! ## Readers -/

/-- What is read is a beginning of the text that has the property. -/
def Takes {α : Type} (P : Text → Prop) (read : Reader α) : Prop :=
  ∀ before s a rest, read before s = some (a, rest) → ∃ x, s = x ++ rest ∧ P x

namespace Takes

variable {α : Type} {P : Text → Prop} {read : Reader α}

theorem mono {Q : Text → Prop} (h : Takes P read) (hpq : ∀ x, P x → Q x) : Takes Q read := by
  intro before s a rest hr
  obtain ⟨x, hs, hx⟩ := h before s a rest hr
  exact ⟨x, hs, hpq x hx⟩

theorem ahead (h : Takes P read) : Text.Ahead read := by
  intro before s a rest hr
  obtain ⟨x, rfl, -⟩ := h before s a rest hr
  exact List.suffix_append x rest

theorem upTo (h : Takes P read) {before : Option Char} {s rest : Text} {a : α} (hr : read before s = some (a, rest)) :
    P (Text.upTo s rest) := by
  obtain ⟨x, rfl, hx⟩ := h before s a rest hr
  rwa [Text.upTo_append_rest]

theorem find? (h : Takes P read) {s : Text} {f : Text.Found α} (hf : Text.find? read s = some f) :
    f.Splits s ∧ P f.source := by
  have main (s : Text) (f : Text.Found α) (before : Option Char) (hf : Text.findFrom read before s = some f) :
      P f.source := by
    induction s generalizing f before with
    | nil => cases hf
    | cons c s ih =>
      simp only [Text.findFrom] at hf
      split at hf
      · rename_i a rest hr
        cases hf
        exact h.upTo hr
      · obtain ⟨g, hg, rfl⟩ := Option.map_eq_some_iff.1 hf
        exact ih g _ hg
  exact ⟨Text.find?_splits h.ahead hf, main s f none hf⟩

theorem findLast? (h : Takes P read) {s : Text} {f : Text.Found α} (hf : Text.findLast? read s = some f) :
    f.Splits s ∧ P f.source := by
  have main (ps : List (Piece α)) (f : Text.Found α) (hf : Text.lastHit? ps = some f) : Piece.hit f.value f.source ∈ ps := by
    induction ps generalizing f with
    | nil => cases hf
    | cons p ps ih =>
      simp only [Text.lastHit?] at hf
      split at hf
      · rename_i g hg
        cases hf
        exact List.mem_cons_of_mem p (ih g hg)
      · cases p with
        | char c => cases hf
        | hit a source =>
          cases hf
          exact List.mem_cons_self
  refine ⟨Text.findLast?_splits hf, ?_⟩
  rcases Text.mem_cut (main _ f hf) with ⟨c, -, hc⟩ | ⟨a, before, t, rest, ha, -, hr⟩
  · cases hc
  · obtain ⟨-, hsource⟩ := Piece.hit.inj ha
    rw [hsource]
    exact h.upTo hr

end Takes

/-! ## Commands and markers -/

/-- A command with something behind it. -/
theorem construct_of_after? {p s s₁ rest : Text} (h : Text.after? ('\\' :: p) s = some s₁) (hrest : Closes rest s₁) :
    ∃ x, s = x ++ rest ∧ Construct x := by
  have hs : s = '\\' :: (p ++ s₁) := Text.after?_eq_some_iff.1 h
  have hcloses : Closes rest ('\\' :: (p ++ s₁)) := hrest.of_suffix (hs ▸ Text.suffix_after? h)
  rw [hs]
  exact Construct.of_closes rfl hcloses

namespace Marker

theorem closes_after? {word name s rest : Text} (h : after? word name s = some rest) : Closes rest s := by
  have hsuffix : ∀ {u : Text}, u <:+ s → Text.after? "\x7d" u = some rest → Closes rest s := fun hu hr =>
    (Closes.after? (.of_getLast? (by decide)) hr).of_suffix hu
  simp only [after?, Option.bind_eq_bind, Option.bind_eq_some_iff] at h
  obtain ⟨s₁, h₁, s₂, h₂, s₃, h₃, h₄⟩ := h
  exact hsuffix ((Text.suffix_after? h₃).trans ((Text.suffix_after? h₂).trans
    ((List.dropWhile_suffix _).trans (Text.suffix_after? h₁)))) h₄

theorem construct_after? {word name s rest : Text} (h : after? word name s = some rest) :
    ∃ x, s = x ++ rest ∧ Construct x := by
  have hcloses := closes_after? h
  simp only [after?, Option.bind_eq_bind, Option.bind_eq_some_iff] at h
  obtain ⟨s₁, h₁, -⟩ := h
  have hs : s = '\\' :: (word ++ s₁) := Text.after?_eq_some_iff.1 h₁
  rw [hs] at hcloses ⊢
  exact Construct.of_closes rfl hcloses

theorem takes_begins (name : Text) : Takes Construct (begins name) := by
  intro before s a rest h
  obtain ⟨r, hr, he⟩ := Option.map_eq_some_iff.1 h
  cases he
  exact construct_after? hr

theorem takes_ends (name : Text) : Takes Construct (ends name) := by
  intro before s a rest h
  obtain ⟨r, hr, he⟩ := Option.map_eq_some_iff.1 h
  cases he
  exact construct_after? hr

theorem takes_beginsAny (names : List Text) : Takes Construct (beginsAny names) := by
  intro before s a rest h
  obtain ⟨name, -, h⟩ := List.exists_of_findSome?_eq_some h
  obtain ⟨r, hr, he⟩ := Option.map_eq_some_iff.1 h
  cases he
  exact construct_after? hr

theorem takes_either (name : Text) : Takes Construct (either name) := by
  intro before s a rest h
  unfold either at h
  split at h
  · rename_i r hr
    cases h
    exact construct_after? hr
  · obtain ⟨r, hr, he⟩ := Option.map_eq_some_iff.1 h
    cases he
    exact construct_after? hr

end Marker

namespace Group

theorem closes_read? {d : Delimiter} {q : Bool} {s i r : Text} (h : read? d s q = some (i, r)) : Closes r s := by
  obtain ⟨gap, rfl⟩ := read?_eq h
  exact ⟨gap ++ d.opener :: i, d.closer, by simp, by cases d <;> rfl⟩

end Group

namespace Arguments

theorem closes_braces {n : Nat} {s r : Text} {parts : List Text} (h : braces (n + 1) s = .ok (some (parts, r))) :
    Closes r s := by
  simp only [braces] at h
  obtain ⟨o, hr, h⟩ := bind_eq_ok h
  cases o with
  | none => cases h
  | some p =>
    obtain ⟨m, hm, h⟩ := bind_eq_ok h
    cases m with
    | none => cases h
    | some q =>
      cases h
      have hfirst : Closes p.2 s := Group.closes_read? (Group.read_eq_read? hr)
      cases n with
      | zero =>
        cases hm
        exact hfirst
      | succ n => exact (closes_braces hm).of_suffix hfirst.suffix

theorem closes_read? {n : Nat} {takesOption : Bool} {s r : Text} {args : Arguments}
    (h : read? (n + 1) takesOption s = some (args, r)) : Closes r s := by
  have hok : read (n + 1) takesOption s = .ok (some (args, r)) := by
    rw [read?] at h
    split at h
    · rename_i o ho
      rw [ho, h]
    · cases h
  have hbraces {s' : Text} (hs : s' <:+ s) {q : List Text × Text} (hb : braces (n + 1) s' = .ok (some q)) : Closes q.2 s :=
    (closes_braces hb).of_suffix hs
  cases takesOption with
  | false =>
    simp only [read, Bool.false_eq_true, if_false, pure_bind] at hok
    obtain ⟨q, hb, hok⟩ := bind_eq_ok hok
    cases q with
    | none => cases hok
    | some q =>
      cases hok
      exact hbraces (List.suffix_refl s) hb
  | true =>
    simp only [read, if_true] at hok
    obtain ⟨bracket, hr, hok⟩ := bind_eq_ok hok
    obtain ⟨q, hb, hok⟩ := bind_eq_ok hok
    cases q with
    | none => cases hok
    | some q =>
      cases hok
      cases bracket with
      | none => exact hbraces (List.suffix_refl s) hb
      | some p => exact hbraces (Group.read?_rest (Group.read_eq_read? hr)) hb

end Arguments

namespace Command

/-- A command by its name alone. -/
theorem construct_after? {name s rest : Text} (hname : Closes [] ('\\' :: name)) (h : after? name s = some rest) :
    ∃ x, s = x ++ rest ∧ Construct x := by
  rw [after?_eq h, ← List.cons_append]
  refine ⟨'\\' :: name, rfl, ⟨⟨'\\', name, rfl, rfl⟩, hname⟩, signs_pos (c := '\\') rfl List.mem_cons_self⟩

theorem takes_readerOf {names : List Text} (hnames : ∀ name ∈ names, Closes [] ('\\' :: name)) :
    Takes Construct (readerOf names) := by
  intro before s a rest h
  obtain ⟨name, hname, h⟩ := List.exists_of_findSome?_eq_some h
  obtain ⟨r, hr, he⟩ := Option.map_eq_some_iff.1 h
  cases he
  exact construct_after? (hnames _ hname) hr

theorem closes_starred? {name s rest : Text} (hname : Closes [] ('\\' :: name)) (h : starred? name s = some rest) :
    Closes rest s := by
  unfold starred? at h
  split at h
  · rename_i c r hr
    split at h
    · cases h
      exact .after? hname hr
    · cases h
      exact (Closes.singleton (c := '*') rfl _).of_suffix (Text.suffix_after? hr)
  · rename_i hr
    cases h
    exact (Closes.singleton (c := '*') rfl _).of_suffix (Text.suffix_after? hr)
  · rename_i c r _ _ hr
    split at h
    · cases h
    · cases h
      exact .after? hname hr
  · rename_i hr
    cases h
    exact .after? hname hr
  · cases h

theorem head_starred? {name s rest : Text} (h : starred? name s = some rest) : ∃ u, s = '\\' :: u := by
  cases hr : Text.after? ('\\' :: name) s with
  | none => rw [starred?, hr] at h; cases h
  | some r => exact ⟨name ++ r, Text.after?_eq_some_iff.1 hr⟩

end Command

theorem Extract.Image.takes_reader : Takes Construct Extract.Image.reader := by
  intro before s a rest h
  obtain ⟨r, hr, he⟩ := Option.map_eq_some_iff.1 h
  obtain ⟨u, rfl⟩ := Command.head_starred? hr
  have hcommand := Command.closes_starred? (.of_getLast? (by decide)) hr
  refine Construct.of_closes rfl ?_
  split at he
  · rename_i hread
    cases he
    exact (Arguments.closes_read? hread).of_suffix hcommand.suffix
  · cases he
    exact hcommand

theorem Extract.Abstract.takes_keywordsCommand : Takes Construct Extract.Abstract.keywordsCommand := by
  intro before s a rest h
  obtain ⟨r, hr, he⟩ := Option.map_eq_some_iff.1 h
  have hs := Command.after?_eq hr
  rw [hs]
  refine Construct.of_closes rfl ?_
  split at he
  · rename_i hread
    cases he
    exact (Group.closes_read? hread).of_suffix ⟨'\\' :: "keywords".toList, rfl⟩
  · cases he
    exact Closes.append (s := '\\' :: "keywords".toList) (.of_getLast? (by decide)) _

/-! ## Code -/

theorem Closes.dropWhile {p : Char → Bool} {c : Char} {s rest : Text} (h : s.dropWhile p = c :: rest)
    (hc : isCapital c = false) : Closes rest s :=
  ⟨s.takeWhile p, c, by rw [← h, List.takeWhile_append_dropWhile], hc⟩

theorem Repair.closes_delimited? {s code rest : Text} (h : Repair.delimited? s = some (code, rest)) : Closes rest s := by
  unfold Repair.delimited? at h
  split at h
  · rename_i d s
    split at h
    · rename_i hd
      have hcap : isCapital d = false := by
        simp only [isVerbDelimiter, Bool.not_eq_true', Bool.or_eq_false_iff] at hd
        exact isCapital_of_not_letter hd.1.1
      rw [List.span_eq_takeWhile_dropWhile] at h
      dsimp only at h
      split at h
      · rename_i c r hr
        split at h
        · rename_i hc
          cases h
          exact (Closes.dropWhile hr (hc ▸ hcap)).of_suffix (List.suffix_cons d s)
        · cases h
      · cases h
    · cases h
  · cases h

namespace Extract.Code

theorem takes_verb : Takes Construct verb := by
  intro before s a rest h
  simp only [verb, Option.bind_eq_bind, Option.bind_eq_some_iff] at h
  obtain ⟨s₁, h₁, h⟩ := h
  refine construct_of_after? h₁ ((Repair.closes_delimited? h).of_suffix ?_)
  cases hstar : Text.after? "*" s₁ with
  | none => exact List.suffix_refl s₁
  | some s₂ => exact Text.suffix_after? hstar

theorem takes_lstinline : Takes Construct lstinline := by
  intro before s a rest h
  simp only [lstinline, Option.bind_eq_bind, Option.bind_eq_some_iff] at h
  obtain ⟨s₁, h₁, h⟩ := h
  refine construct_of_after? h₁ (Closes.of_suffix ?_ (Text.suffix_skipEnclosed '[' ']' s₁))
  split at h
  · rename_i inner heq
    rw [heq]
    exact (Closes.closedBy (by decide) h).of_suffix (List.suffix_cons _ _)
  · rename_i d inner _ heq
    rw [heq]
    split at h
    · cases h
    · rename_i hd
      have hcap : isCapital d = false := by
        simp only [Bool.or_eq_true, not_or, Bool.not_eq_true] at hd
        exact isCapital_of_not_letter hd.1.1
      rw [List.span_eq_takeWhile_dropWhile] at h
      dsimp only at h
      split at h
      · rename_i c r hr
        split at h
        · rename_i hc
          cases h
          exact (Closes.dropWhile hr (hc ▸ hcap)).of_suffix (List.suffix_cons d inner)
        · cases h
      · cases h
  · cases h

theorem takes_mintinline : Takes Construct mintinline := by
  intro before s a rest h
  simp only [mintinline, Option.bind_eq_bind, Option.bind_eq_some_iff] at h
  obtain ⟨s₁, h₁, s₂, h₂, ⟨i, s₃⟩, h₃, s₄, h₄, h⟩ := h
  have hfirst : s₃ <:+ s₁ := (Text.suffix_closedBy h₃).trans ((Text.suffix_after? h₂).trans (List.dropWhile_suffix _))
  refine construct_of_after? h₁ ((Closes.closedBy (by decide) h).of_suffix ?_)
  exact (Text.suffix_after? h₄).trans ((List.dropWhile_suffix _).trans hfirst)

end Extract.Code

/-! ## Formulas -/

namespace Extract.Formula

theorem closes_untilCloser {closer : Char} (hcap : isCapital closer = false) {before : Option Char} {s t r : Text}
    (h : untilCloser closer before s = some (t, r)) : Closes r s := by
  induction s generalizing before t with
  | nil => cases h
  | cons c s ih =>
    rw [untilCloser] at h
    split at h
    · rename_i hclose
      cases h
      simp only [Bool.and_eq_true, decide_eq_true_eq] at hclose
      obtain ⟨u, rfl⟩ := List.head?_eq_some_iff.1 hclose.1.1.2
      exact (Closes.singleton hcap u).of_suffix (List.suffix_cons c _)
    · obtain ⟨⟨u, r'⟩, hu, he⟩ := Option.map_eq_some_iff.1 h
      cases he
      exact (ih hu).of_suffix (List.suffix_cons c s)

theorem closes_untilDollars {isFirst : Bool} {s t r : Text} (h : untilDollars isFirst s = some (t, r)) : Closes r s := by
  fun_induction untilDollars isFirst s generalizing t <;>
    first
    | (cases h; done)
    | (obtain ⟨⟨u, r'⟩, hu, he⟩ := Option.map_eq_some_iff.1 h
       cases he
       rename_i ih
       exact (ih hu).of_suffix (by simp [List.suffix_cons_iff]))
    | (cases h
       exact (Closes.singleton (c := '$') rfl _).of_suffix (List.suffix_cons _ _))

theorem closes_untilDollar {s t r : Text} (h : untilDollar s = some (t, r)) : Closes r s := by
  fun_induction untilDollar s generalizing t <;>
    first
    | (cases h; done)
    | (obtain ⟨⟨u, r'⟩, hu, he⟩ := Option.map_eq_some_iff.1 h
       cases he
       rename_i ih
       exact (ih hu).of_suffix (by simp [List.suffix_cons_iff]))
    | (cases h
       exact Closes.singleton rfl _)

/-- Behind the row breaks that are kept stands a construct. -/
def Keeps (read : Reader (Text × Text)) : Prop :=
  ∀ before s breaks formula rest, read before s = some ((breaks, formula), rest) →
    ∃ x, Text.upTo s rest = breaks ++ x ∧ Construct x

theorem slashes_append_drop (s : Text) : slashes s ++ s.drop (slashes s).length = s := by
  have hprefix : slashes s <+: s := List.takeWhile_prefix _
  calc slashes s ++ s.drop (slashes s).length
    _ = s.take (slashes s).length ++ s.drop (slashes s).length := by rw [← List.prefix_iff_eq_take.1 hprefix]
    _ = s := List.take_append_drop _ s

/-- What is taken behind some row breaks. -/
theorem upTo_behind {s breaks x rest : Text} (h : s = breaks ++ (x ++ rest)) : Text.upTo s rest = breaks ++ x := by
  rw [h, ← List.append_assoc, Text.upTo_append_rest]

theorem keeps_slashDelimited (o : Char) {c : Char} (hcap : isCapital c = false) : Keeps (slashDelimited o c) := by
  intro before s breaks formula rest h
  unfold slashDelimited at h
  split at h
  · cases h
  dsimp only at h
  split at h
  · cases h
  rename_i hodd
  split at h
  · rename_i d v hdrop
    split at h
    · obtain ⟨⟨f, r⟩, hf, he⟩ := Option.map_eq_some_iff.1 h
      cases he
      -- the last backslash of the run opens the formula
      obtain ⟨run, hrun⟩ : ∃ run, slashes s = run ++ ['\\'] := by
        rcases List.eq_nil_or_concat (slashes s) with hnil | ⟨run, e, he⟩
        · rw [hnil] at hodd
          exact absurd rfl hodd
        · have hslash := List.all_eq_true.1 (List.all_takeWhile (p := (· = '\\'))) e (by simp [he] : e ∈ slashes s)
          exact ⟨run, by rw [he, List.concat_eq_append, of_decide_eq_true hslash]⟩
      have hcloses : Closes r ('\\' :: d :: v) :=
        (closes_untilCloser hcap hf).of_suffix ((List.suffix_cons d v).trans (List.suffix_cons _ _))
      obtain ⟨x, hx, hconstruct⟩ := Construct.of_closes rfl hcloses
      refine ⟨x, upTo_behind ?_, hconstruct⟩
      have hs := slashes_append_drop s
      rw [hdrop, hrun, List.append_assoc] at hs
      rw [← hx, hrun, List.dropLast_concat]
      exact hs.symm
    · cases h
  · cases h

theorem keeps_doubleDollar : Keeps doubleDollar := by
  intro before s breaks formula rest h
  unfold doubleDollar at h
  split at h
  · cases h
  dsimp only at h
  split at h
  · cases h
  split at h
  · rename_i v hdrop
    obtain ⟨⟨f, r⟩, hf, he⟩ := Option.map_eq_some_iff.1 h
    cases he
    have hcloses : Closes r ('$' :: '$' :: v) :=
      (closes_untilDollars hf).of_suffix ((List.suffix_cons _ v).trans (List.suffix_cons _ _))
    obtain ⟨x, hx, hconstruct⟩ := Construct.of_closes rfl hcloses
    exact ⟨x, upTo_behind (by rw [← hx, ← hdrop, slashes_append_drop]), hconstruct⟩
  · cases h

theorem keeps_singleDollar : Keeps singleDollar := by
  intro before s breaks formula rest h
  unfold singleDollar at h
  split at h
  · cases h
  dsimp only at h
  split at h
  · cases h
  split at h
  · rename_i v hdrop
    simp only [Option.bind_eq_bind, Option.bind_eq_some_iff] at h
    obtain ⟨⟨f, r⟩, hf, h⟩ := h
    dsimp only at h
    split at h
    · cases h
    · cases h
      have hcloses : Closes rest ('$' :: v) := (closes_untilDollar hf).of_suffix (List.suffix_cons _ v)
      obtain ⟨x, hx, hconstruct⟩ := Construct.of_closes rfl hcloses
      exact ⟨x, upTo_behind (by rw [← hx, ← hdrop, slashes_append_drop]), hconstruct⟩
  · cases h

end Extract.Formula

/-! ## Environments -/

namespace Environment

/-- The end marker of an environment stands among the pieces it is looked for. -/
theorem closing_mem_of_close {d : Nat} {ps : List (Piece Bool)} {body closing rest : Text}
    (h : close d ps = some (body, closing, rest)) : .hit false closing ∈ ps := by
  have keep {d : Nat} {p : Piece Bool} {ps : List (Piece Bool)} (source : Text) {body : Text}
      (ih : ∀ {d b}, close d ps = some (b, closing, rest) → Piece.hit false closing ∈ ps)
      (h : (close d ps).map (fun p => (source ++ p.1, p.2)) = some (body, closing, rest)) :
      Piece.hit false closing ∈ p :: ps := by
    obtain ⟨⟨b, r⟩, hb, he⟩ := Option.map_eq_some_iff.1 h
    obtain ⟨-, rfl⟩ := Prod.mk.inj he
    exact List.mem_cons_of_mem p (ih hb)
  induction ps generalizing d body with
  | nil => cases h
  | cons p ps ih =>
    cases p with
    | char c => exact keep [c] ih h
    | hit sense source =>
      cases sense with
      | true => exact keep source ih h
      | false =>
        cases d with
        | succ d => exact keep source ih h
        | zero =>
          cases h
          exact List.mem_cons_self

theorem closes_close {name s : Text} {d : Nat} {body closing rest : Text}
    (h : close d (s.cut (Marker.either name)) = some (body, closing, rest)) : Closes [] closing := by
  rcases Text.mem_cut (closing_mem_of_close h) with ⟨c, -, hc⟩ | ⟨a, before, t, r, ha, -, hr⟩
  · cases hc
  · obtain ⟨-, rfl⟩ := Piece.hit.inj ha
    exact ((Marker.takes_either name).upTo hr).last

theorem construct_find {name s : Text} {e : Environment} (h : find name s = .ok (some e)) : Construct e.source := by
  unfold find at h
  split at h
  · cases h
  · rename_i f hf
    split at h
    · rename_i hclose
      cases h
      exact ((Marker.takes_begins name).find? hf).2.between _ (closes_close hclose)
    · cases h

theorem construct_at? {name before s : Text} {e : Environment} (h : at? name before s = some e) : Construct e.source := by
  unfold at? at h
  split at h
  · cases h
  · rename_i rest hr
    obtain ⟨⟨body, closing, rest'⟩, hclose, rfl⟩ := Option.map_eq_some_iff.1 h
    obtain ⟨x, rfl, hx⟩ := Marker.construct_after? hr
    have hopening : Text.upTo (x ++ rest) rest = x := Text.upTo_append_rest _ _
    simp only [source, hopening]
    exact hx.between _ (closes_close hclose)

theorem construct_leaf? {names : List Text} {s : Text} {e : Environment} (h : leaf? names s = some e) :
    Construct e.source := by
  have main (names : List Text) (ps : List (Piece Text)) (before : List Text) (h : leafFrom names before ps = some e) :
      Construct e.source := by
    induction ps generalizing before with
    | nil => cases h
    | cons p ps ih =>
      cases p with
      | char c => exact ih _ h
      | hit name source =>
        simp only [leafFrom] at h
        split at h
        · rename_i e' he
          split at h
          · exact ih _ h
          · cases h
            exact construct_at? he
        · exact ih _ h
  exact main _ _ _ h

end Environment

/-! ## Boxes -/

theorem Extract.Box.closes_readCommand {name s : Text} {content : Content} (h : readCommand name s = .ok (some content)) :
    Closes content.rest s := by
  have hline {t : Text} (ht : t <:+ s) {p : Text × Text} (hr : Group.read .brace t = .ok (some p)) : Closes p.2 s :=
    (Group.closes_read? (Group.read_eq_read? hr)).of_suffix ht
  unfold readCommand at h
  split at h
  · obtain ⟨p, hu, h⟩ := bind_eq_ok h
    obtain ⟨o, ha, h⟩ := bind_eq_ok h
    cases o with
    | none => cases h
    | some q =>
      cases h
      have hread : Arguments.read? 2 false p.2 = some q := by rw [Arguments.read?, ha]
      exact (Arguments.closes_read? hread).of_suffix (Group.readUpTo_rest hu)
  · split at h
    · obtain ⟨t, ht, h⟩ := bind_eq_ok h
      obtain ⟨o, hr, h⟩ := bind_eq_ok h
      obtain ⟨p, hu, rfl⟩ : ∃ p, Group.readUpTo .bracket 2 s = .ok p ∧ p.2 = t := by
        rw [map_eq_pure_bind] at ht
        obtain ⟨p, hu, ht⟩ := bind_eq_ok ht
        cases ht
        exact ⟨p, hu, rfl⟩
      cases o with
      | none => cases h
      | some q =>
        cases h
        exact hline (Group.readUpTo_rest hu) hr
    · rw [pure_bind] at h
      obtain ⟨o, hr, h⟩ := bind_eq_ok h
      cases o with
      | none => cases h
      | some q =>
        cases h
        exact hline (List.suffix_refl s) hr

/-! ## Citations -/

namespace Bibliography

theorem closes_braced? {s inside rest : Text} (h : braced? s = some (inside, rest)) : Closes rest s := by
  simp only [braced?, Option.bind_eq_bind, Option.bind_eq_some_iff] at h
  obtain ⟨t, ht, h⟩ := h
  exact (Closes.closedBy (by decide) h).of_suffix (Text.suffix_after? ht)

theorem takes_bibliographyCommand : Takes Construct bibliographyCommand := by
  intro before s a rest h
  obtain ⟨name, hname, h⟩ := List.exists_of_findSome?_eq_some h
  simp only [Option.bind_eq_bind, Option.bind_eq_some_iff] at h
  obtain ⟨t, ht, ⟨i, r⟩, hr, h⟩ := h
  cases h
  have hcloses := (closes_braced? hr).of_suffix (List.dropWhile_suffix _)
  obtain ⟨p, rfl⟩ : ∃ p, name = '\\' :: p := by
    simp only [texts, List.map_cons, List.map_nil, List.mem_cons, List.not_mem_nil, or_false] at hname
    rcases hname with rfl | rfl | rfl <;> exact ⟨_, rfl⟩
  exact construct_of_after? ht hcloses

theorem takes_citation : Takes Construct citation := by
  intro before s a rest h
  obtain ⟨name, -, h⟩ := List.exists_of_findSome?_eq_some h
  simp only [Option.bind_eq_bind, Option.bind_eq_some_iff] at h
  obtain ⟨t, ht, ⟨keys, r⟩, hr, h⟩ := h
  cases h
  refine construct_of_after? ht ((closes_braced? hr).of_suffix ?_)
  have hskip (u : Text) : (Text.skipEnclosed '[' ']' u).dropWhile isBlank <:+ u :=
    (List.dropWhile_suffix _).trans (Text.suffix_skipEnclosed _ _ u)
  refine (hskip _).trans ((hskip _).trans ((List.dropWhile_suffix _).trans ?_))
  cases hstar : Text.after? "*" t with
  | none => exact List.suffix_refl t
  | some u => exact Text.suffix_after? hstar

theorem suffix_loose? {s rest : Text} (h : loose? s = some rest) : rest <:+ s := by
  simp only [loose?, Option.bind_eq_bind, Option.bind_eq_some_iff] at h
  obtain ⟨t, ht, h⟩ := h
  rw [List.span_eq_takeWhile_dropWhile] at h
  dsimp only at h
  have hgetD (p u : Text) : (Text.after? p u).getD u <:+ u := by
    cases hr : Text.after? p u with
    | none => exact List.suffix_refl u
    | some r => exact Text.suffix_after? hr
  split at h
  · cases h
  · cases h
    exact (List.dropWhile_suffix _).trans ((hgetD _ _).trans ((hgetD _ _).trans (Text.suffix_afterCaseless? ht)))

theorem suffix_moreLoose (n : Nat) (s : Text) : moreLoose n s <:+ s := by
  induction n generalizing s with
  | zero => exact List.suffix_refl s
  | succ n ih =>
    simp only [moreLoose]
    split
    · rename_i r hr
      split
      · rename_i u hu
        have hcomma := (Text.suffix_after? hr).trans (List.dropWhile_suffix _)
        exact (ih u).trans ((suffix_loose? hu).trans ((List.dropWhile_suffix _).trans hcomma))
      · exact List.suffix_refl s
    · exact List.suffix_refl s

theorem takes_looseGroup : Takes Edged looseGroup := by
  intro before s a rest h
  simp only [looseGroup, Option.bind_eq_bind, Option.bind_eq_some_iff] at h
  obtain ⟨t, ht, u, hu, v, hv, h⟩ := h
  cases h
  have hs : s = '(' :: t := Text.after?_eq_some_iff.1 ht
  rw [hs]
  refine Edged.of_closes rfl ?_
  have hparen : Closes rest _ := .after? (.of_getLast? (by decide)) hv
  refine hparen.of_suffix ((List.dropWhile_suffix _).trans ((suffix_moreLoose _ u).trans ((suffix_loose? hu).trans ?_)))
  exact (List.dropWhile_suffix _).trans (List.suffix_cons _ t)

theorem takes_looseCommand : Takes Edged looseCommand := by
  intro before s a rest h
  simp only [looseCommand, Option.bind_eq_bind, Option.bind_eq_some_iff] at h
  obtain ⟨t, ht, u, hu, v, hv, h⟩ := h
  rw [List.span_eq_takeWhile_dropWhile] at h
  dsimp only at h
  split at h
  · cases h
  · obtain ⟨w, hw, h⟩ := Option.bind_eq_some_iff.1 h
    cases h
    have hbrace : Closes rest _ := .after? (.of_getLast? (by decide)) hw
    have hsuffix : v.dropWhile isDecimalDigit <:+ s := by
      refine (List.dropWhile_suffix _).trans ((Text.suffix_afterCaseless? hv).trans ((Text.suffix_after? hu).trans ?_))
      exact (List.dropWhile_suffix _).trans (Text.suffix_afterCaseless? ht)
    have hcloses := hbrace.of_suffix hsuffix
    obtain ⟨q, rfl, hq⟩ := Text.afterCaseless?_eq_some ht
    cases q with
    | nil => cases hq
    | cons c q =>
      -- only the backslash is equal to one but for case
      obtain rfl := eq_of_foldChar (List.cons.inj hq).1
      exact Edged.of_closes rfl hcloses

end Bibliography

/-! ## Layout -/

namespace Extract.Strip

theorem takes_dropped : Takes Construct (Command.readerOf droppedNames) := by
  have hlast : (droppedNames.all fun name => (('\\' :: name).getLast?.any fun c => !isCapital c)) = true := by decide
  exact Command.takes_readerOf fun name hname => .of_getLast? (List.all_eq_true.1 hlast name hname)

theorem takes_spacing : Takes Construct spacing := by
  intro before s a rest h
  simp only [spacing, Option.bind_eq_bind, Option.bind_eq_some_iff] at h
  obtain ⟨t, ht, u, hu, ⟨i, v⟩, hv, h⟩ := h
  cases h
  have hcloses : Closes v t := by
    refine (Closes.closedBy (by decide) hv).of_suffix ((Text.suffix_after? hu).trans ((List.dropWhile_suffix _).trans ?_))
    cases hstar : Text.after? "*" t with
    | none => exact List.suffix_refl t
    | some u => exact Text.suffix_after? hstar
  simp only [HOrElse.hOrElse, OrElse.orElse, Option.orElse] at ht
  split at ht
  · rename_i r hr
    cases ht
    exact construct_of_after? hr hcloses
  · exact construct_of_after? ht hcloses

end Extract.Strip

end Galley
