import Galley.Inline.Format
import Galley.Markup.KeyValue
import Galley.Proofs.Cutting
import Mathlib.Data.List.TakeDrop
/-!
# Parts of a text

What is read out of a text (stripped text, paragraphs, the content of a group and what follows it, the
value of an option) is a part of it in one piece.
-/

namespace Galley

/-- Work that succeeds has succeeded at its first step. -/
theorem bind_eq_ok {ε α β : Type} {x : Except ε α} {f : α → Except ε β} {b : β} (h : x >>= f = .ok b) :
    ∃ a, x = .ok a ∧ f a = .ok b := by
  cases x with
  | error e => cases h
  | ok a => exact ⟨a, rfl, h⟩

/-! ## Reading ahead -/

namespace Text

theorem closedBy_eq {c : Char} {s t r : Text} (h : closedBy c s = some (t, r)) : s = t ++ c :: r := (closedBy_eq_some_iff.1 h).2

/-- What is found is read at some place of the text. -/
theorem findFrom_eq_some {α : Type} {read : Reader α} {before : Option Char} {s : Text} {f : Found α}
    (h : findFrom read before s = some f) : ∃ b t, t <:+ s ∧ read b t = some (f.value, f.after) := by
  induction s generalizing before f with
  | nil => cases h
  | cons c s ih =>
    simp only [findFrom] at h
    split at h
    · rename_i a rest hr
      obtain rfl := Option.some.inj h
      exact ⟨before, c :: s, List.suffix_refl _, hr⟩
    · obtain ⟨g, hg, rfl⟩ := Option.map_eq_some_iff.1 h
      obtain ⟨b, t, ht, hr⟩ := ih hg
      exact ⟨b, t, ht.trans (List.suffix_cons c s), hr⟩

end Text

/-! ## Stripping -/

namespace Text

theorem dropWhileRight_eq (p : Char → Bool) (s : Text) : ∃ t : Text, s = dropWhileRight p s ++ t ∧ ∀ c ∈ t, p c = true := by
  refine ⟨(s.reverse.takeWhile p).reverse, ?_, fun c hc => ?_⟩
  · rw [dropWhileRight, ← List.reverse_append, List.takeWhile_append_dropWhile, List.reverse_reverse]
  · exact List.all_eq_true.1 List.all_takeWhile c (List.mem_reverse.1 hc)

theorem prefix_of_dropWhileRight (p : Char → Bool) (s : Text) : dropWhileRight p s <+: s := by
  obtain ⟨t, ht, -⟩ := dropWhileRight_eq p s
  exact ⟨t, ht.symm⟩

/-- White space in front of a text, the stripped text, white space behind it. -/
theorem exists_strip (s : Text) :
    ∃ lead trail, s = lead ++ strip s ++ trail ∧ (∀ c ∈ lead, isBlank c = true) ∧ ∀ c ∈ trail, isBlank c = true := by
  obtain ⟨trail, htrail, hblank⟩ := dropWhileRight_eq isBlank (s.dropWhile isBlank)
  refine ⟨s.takeWhile isBlank, trail, ?_, fun c hc => List.all_eq_true.1 List.all_takeWhile c hc, hblank⟩
  rw [List.append_assoc, show strip s ++ trail = s.dropWhile isBlank from htrail.symm, List.takeWhile_append_dropWhile]

theorem strip_part (s : Text) : strip s <:+: s :=
  (prefix_of_dropWhileRight isBlank _).isInfix.trans (List.dropWhile_suffix isBlank).isInfix

end Text

/-! ## Words -/

namespace Text

theorem mem_joinWith {sep : Text} {parts : List Text} {c : Char} (h : c ∈ joinWith sep parts) :
    c ∈ sep ∨ ∃ t ∈ parts, c ∈ t := by
  induction parts with
  | nil => simp [joinWith] at h
  | cons t parts ih =>
    cases parts with
    | nil => exact .inr ⟨t, List.mem_cons_self, h⟩
    | cons u parts =>
      simp only [joinWith, List.mem_append] at h
      rcases h with (h | h) | h
      · exact .inr ⟨t, List.mem_cons_self, h⟩
      · exact .inl h
      · rcases ih h with h | ⟨x, hx, hc⟩
        · exact .inl h
        · exact .inr ⟨x, List.mem_cons_of_mem t hx, hc⟩

theorem wordsFrom_cons (word : Text) (c : Char) (s : Text) :
    wordsFrom word (c :: s) =
      if isBlank c then
        match word with
        | [] => wordsFrom [] s
        | _ :: _ => word.reverse :: wordsFrom [] s
      else wordsFrom (c :: word) s := by
  cases word <;> rfl

theorem wordsFrom_subset {word s w : Text} (h : w ∈ wordsFrom word s) : w ⊆ word ++ s := by
  induction s generalizing word with
  | nil =>
    cases word with
    | nil => cases h
    | cons c word =>
      obtain rfl := List.mem_singleton.1 h
      simp
  | cons c s ih =>
    rw [wordsFrom_cons] at h
    split at h
    · have hrest (h : w ∈ wordsFrom [] s) : w ⊆ word ++ c :: s := fun x hx =>
        List.mem_append_right word (List.mem_cons_of_mem c (ih h hx))
      split at h
      · exact hrest h
      · rcases List.mem_cons.1 h with rfl | h
        · exact fun x hx => List.mem_append_left _ (List.mem_reverse.1 hx)
        · exact hrest h
    · intro x hx
      have := ih h hx
      simp only [List.cons_append, List.mem_cons, List.mem_append] at this ⊢
      tauto

theorem wordsFrom_append {word q : Text} (hq : ∀ c ∈ q, isBlank c = false) (s : Text) :
    wordsFrom word (q ++ s) = wordsFrom (q.reverse ++ word) s := by
  induction q generalizing word with
  | nil => rfl
  | cons c q ih =>
    obtain ⟨hc, hq⟩ := List.forall_mem_cons.1 hq
    rw [List.cons_append, wordsFrom_cons, hc, if_neg (by simp), ih hq, List.reverse_cons, List.append_assoc,
      List.singleton_append]

theorem words_gap {gap : Text} (hgap : ∀ c ∈ gap, isBlank c = true) (s : Text) : words (gap ++ s) = words s := by
  induction gap with
  | nil => rfl
  | cons c gap ih =>
    obtain ⟨hc, hgap⟩ := List.forall_mem_cons.1 hgap
    have hskip : words (c :: (gap ++ s)) = words (gap ++ s) := by rw [words, wordsFrom_cons, if_pos hc, words]
    rw [List.cons_append, hskip, ih hgap]

/-- A word with white space behind it, and the words that follow. -/
theorem words_word {q gap : Text} (hne : q ≠ []) (hq : ∀ c ∈ q, isBlank c = false) (hgap : ∀ c ∈ gap, isBlank c = true)
    {s : Text} (hs : gap = [] → s = []) : words (q ++ (gap ++ s)) = q :: words s := by
  obtain ⟨c, w, hw⟩ := List.exists_cons_of_ne_nil (List.reverse_ne_nil_iff.2 hne)
  have hreverse : (c :: w).reverse = q := by rw [← hw, List.reverse_reverse]
  rw [words, wordsFrom_append hq, List.append_nil, hw]
  cases gap with
  | nil =>
    rw [hs rfl, List.nil_append, wordsFrom, hreverse]
    rfl
  | cons d gap =>
    obtain ⟨hd, hgap⟩ := List.forall_mem_cons.1 hgap
    rw [List.cons_append, wordsFrom_cons, if_pos hd]
    dsimp only
    rw [hreverse, ← words, words_gap hgap]

/-- Words are not empty and hold no white space. -/
theorem not_isBlank_of_mem_words {s w : Text} (h : w ∈ words s) : w ≠ [] ∧ ∀ c ∈ w, isBlank c = false := by
  have main (s word : Text) (hword : ∀ c ∈ word, isBlank c = false) (h : w ∈ wordsFrom word s) :
      w ≠ [] ∧ ∀ c ∈ w, isBlank c = false := by
    induction s generalizing word with
    | nil =>
      cases word with
      | nil => cases h
      | cons d word =>
        obtain rfl := List.mem_singleton.1 h
        exact ⟨by simp, fun c hc => hword c (List.mem_reverse.1 hc)⟩
    | cons c s ih =>
      rw [wordsFrom_cons] at h
      split at h
      · split at h
        · exact ih [] (by simp) h
        · rcases List.mem_cons.1 h with rfl | h
          · exact ⟨by simp, fun c hc => hword c (List.mem_reverse.1 hc)⟩
          · exact ih [] (by simp) h
      · rename_i hc
        exact ih (c :: word) (List.forall_mem_cons.2 ⟨Bool.eq_false_iff.2 hc, hword⟩) h
  exact main s [] (by simp) h

theorem words_joinWith {ws : List Text} (h : ∀ w ∈ ws, w ≠ [] ∧ ∀ c ∈ w, isBlank c = false) : words (joinWith " " ws) = ws := by
  induction ws with
  | nil => rfl
  | cons w ws ih =>
    obtain ⟨⟨hne, hw⟩, hws⟩ := List.forall_mem_cons.1 h
    cases ws with
    | nil =>
      have hword := @words_word w [] hne hw (by simp) [] fun _ => rfl
      rwa [List.append_nil, List.append_nil] at hword
    | cons v ws =>
      have hgap : ∀ c ∈ " ".toList, isBlank c = true := by decide
      have hjoin : joinWith " " (w :: v :: ws) = w ++ (" ".toList ++ joinWith " " (v :: ws)) := List.append_assoc _ _ _
      rw [hjoin, words_word hne hw hgap fun h => absurd h (by decide), ih hws]

/-- Making white space even keeps the words. -/
theorem words_collapse (s : Text) : words (collapse s) = words s := words_joinWith fun _ => not_isBlank_of_mem_words

/-- Making white space even puts nothing but spaces into a text. -/
theorem mem_collapse {s : Text} {c : Char} (h : c ∈ collapse s) : c ∈ s ∨ c = ' ' := by
  rcases mem_joinWith h with hc | ⟨w, hw, hc⟩
  · exact .inr (List.mem_singleton.1 hc)
  · exact .inl (wordsFrom_subset hw hc)

end Text

/-! ## What follows a construct -/

namespace Text

theorem suffix_after? {p s r : Text} (h : after? p s = some r) : r <:+ s := ⟨p, (after?_eq_some_iff.1 h).symm⟩

theorem suffix_afterCaseless? {p s r : Text} (h : afterCaseless? p s = some r) : r <:+ s := by
  obtain ⟨q, rfl, -⟩ := afterCaseless?_eq_some h
  exact List.suffix_append q r

theorem suffix_closedBy {c : Char} {s t rest : Text} (h : closedBy c s = some (t, rest)) : rest <:+ s := by
  rw [closedBy_eq h]
  exact ⟨t ++ [c], by simp⟩

theorem splitAtFirst_eq {part s t rest : Text} (h : splitAtFirst part s = some (t, rest)) : s = t ++ part ++ rest := by
  induction s generalizing t with
  | nil =>
    simp only [splitAtFirst] at h
    split at h
    · rename_i hp
      obtain ⟨rfl, rfl⟩ := Prod.mk.inj (Option.some.inj h)
      simp [List.isEmpty_iff.1 hp]
    · cases h
  | cons c s ih =>
    simp only [splitAtFirst] at h
    split at h
    · rename_i r hr
      obtain ⟨rfl, rfl⟩ := Prod.mk.inj (Option.some.inj h)
      exact after?_eq_some_iff.1 hr
    · obtain ⟨⟨u, r⟩, hu, he⟩ := Option.map_eq_some_iff.1 h
      obtain ⟨rfl, rfl⟩ := Prod.mk.inj he
      rw [ih hu]
      rfl

theorem suffix_skipEnclosed (o c : Char) (s : Text) : skipEnclosed o c s <:+ s := by
  unfold skipEnclosed
  split
  · split
    · cases h : closedBy c ‹_› with
      | none => exact List.suffix_refl _
      | some p =>
        obtain ⟨inside, rest⟩ := p
        exact (suffix_closedBy h).trans (List.suffix_cons _ _)
    · exact List.suffix_refl _
  · exact List.suffix_refl _

end Text

namespace Command

theorem after?_eq {name s rest : Text} (h : after? name s = some rest) : s = '\\' :: (name ++ rest) := by
  unfold after? at h
  split at h
  · rename_i r hr
    split at h
    · cases h
    · cases h
      exact Text.after?_eq_some_iff.1 hr
  · cases h

theorem suffix_readerOf {names : List Text} {before : Option Char} {s name rest : Text}
    (h : readerOf names before s = some (name, rest)) : rest <:+ s := by
  obtain ⟨n, -, h⟩ := List.exists_of_findSome?_eq_some h
  obtain ⟨r, hr, he⟩ := Option.map_eq_some_iff.1 h
  cases he
  rw [after?_eq hr]
  exact (List.suffix_append name rest).trans (List.suffix_cons _ _)

theorem suffix_starred? {name s rest : Text} (h : starred? name s = some rest) : rest <:+ s := by
  unfold starred? at h
  split at h
  · rename_i c r hr
    have hs := Text.suffix_after? hr
    split at h
    · cases h
      exact hs
    · cases h
      exact (List.suffix_cons _ _).trans hs
  · cases h
    exact List.nil_suffix
  · rename_i c r _ _ hr
    split at h
    · cases h
    · cases h
      exact Text.suffix_after? hr
  · cases h
    exact List.nil_suffix
  · cases h

end Command

/-! ## Paragraphs -/

namespace Inline

/-- What stands between constructs is a part of the text, and the first such part a beginning. -/
theorem partsBetween_part (ps : List (Piece Unit)) :
    (∃ part parts, partsBetween ps = part :: parts ∧ part <+: Piece.sources ps) ∧
      ∀ t ∈ partsBetween ps, t <:+: Piece.sources ps := by
  induction ps with
  | nil => exact ⟨⟨[], [], rfl, List.nil_prefix⟩, by simp [partsBetween]⟩
  | cons p ps ih =>
    obtain ⟨⟨part, parts, he, hpart⟩, hall⟩ := ih
    have hrest (t : Text) (ht : t <:+: Piece.sources ps) : t <:+: Piece.sources (p :: ps) :=
      ht.trans (List.suffix_append _ _).isInfix
    cases p with
    | hit a source =>
      refine ⟨⟨[], _, rfl, List.nil_prefix⟩, fun t ht => ?_⟩
      rcases List.mem_cons.1 ht with rfl | ht
      · exact List.nil_infix
      · exact hrest t (hall t ht)
    | char c =>
      have hc : c :: part <+: Piece.sources (.char c :: ps) := List.cons_prefix_cons.2 ⟨rfl, hpart⟩
      simp only [partsBetween, he]
      refine ⟨⟨c :: part, parts, rfl, hc⟩, fun t ht => ?_⟩
      rcases List.mem_cons.1 ht with rfl | ht
      · exact hc.isInfix
      · exact hrest t (hall t (by rw [he]; exact List.mem_cons_of_mem _ ht))

theorem chunks_part {s t : Text} (h : t ∈ chunks s) : t <:+: s := by
  simp only [chunks, List.mem_filter, List.mem_map] at h
  obtain ⟨⟨u, hu, rfl⟩, -⟩ := h
  have hpart := (partsBetween_part _).2 u hu
  rw [Text.sources_cut] at hpart
  exact (Text.strip_part u).trans (hpart.trans (Text.strip_part s))

end Inline

/-! ## Groups -/

namespace Group

theorem keep_eq_some {cs i r : Text} {o : Option (Text × Text)} (h : keep cs o = some (i, r)) :
    ∃ j, o = some (j, r) ∧ i = cs ++ j := by
  obtain ⟨⟨j, r'⟩, ho, he⟩ := Option.map_eq_some_iff.1 h
  simp only [Prod.mk.injEq] at he
  exact ⟨j, by rw [ho, he.2], he.1.symm⟩

theorem braceRest_eq {q : Bool} {d : Nat} {b : Bool} {s i r : Text} (h : braceRest q d b s = some (i, r)) :
    s = i ++ '}' :: r := by
  fun_induction braceRest q d b s generalizing i <;>
    first
    | (cases h; done)
    | (obtain ⟨j, hj, rfl⟩ := keep_eq_some h
       rename_i ih
       simp [ih hj])
    | (cases h
       simp_all)

theorem bracketRest_eq {q : Bool} {d n : Nat} {b : Bool} {s i r : Text}
    (h : bracketRest q d n b s = some (i, r)) : s = i ++ ']' :: r := by
  fun_induction bracketRest q d n b s generalizing i <;>
    first
    | (cases h; done)
    | (obtain ⟨j, hj, rfl⟩ := keep_eq_some h
       rename_i ih
       simp [ih hj])
    | (cases h
       simp_all)

theorem inside?_eq {d : Delimiter} {q : Bool} {s i r : Text} (h : inside? d q s = some (i, r)) :
    s = i ++ d.closer :: r := by
  cases d with
  | brace => exact braceRest_eq h
  | bracket => exact bracketRest_eq h

/-- A group that is read, behind the white space in front of it, closes where its content ends. -/
theorem read?_groups {d : Delimiter} {q : Bool} {s i r : Text} (h : read? d s q = some (i, r)) :
    s = s.takeWhile isGap ++ d.opener :: (i ++ d.closer :: r) ∧ inside? d q (i ++ d.closer :: r) = some (i, r) := by
  simp only [read?, read] at h
  split at h
  · rename_i heq
    split at heq
    · cases heq
      cases h
    · rename_i c rest hrest
      split at heq
      · rename_i hc
        split at heq
        · rename_i p hp
          obtain ⟨i', r'⟩ := p
          cases heq
          cases h
          refine ⟨?_, by rw [← inside?_eq hp, hp]⟩
          rw [← hc, ← inside?_eq hp, ← hrest, List.takeWhile_append_dropWhile]
        · cases heq
      · cases heq
        cases h
  · cases h

theorem read?_eq {d : Delimiter} {q : Bool} {s i r : Text} (h : read? d s q = some (i, r)) :
    ∃ gap, s = gap ++ d.opener :: (i ++ d.closer :: r) := ⟨_, (read?_groups h).1⟩

theorem read?_inside {d : Delimiter} {q : Bool} {s i r : Text} (h : read? d s q = some (i, r)) : i <:+: s := by
  obtain ⟨gap, rfl⟩ := read?_eq h
  exact ⟨gap ++ [d.opener], d.closer :: r, by simp⟩

theorem read?_rest {d : Delimiter} {q : Bool} {s i r : Text} (h : read? d s q = some (i, r)) : r <:+ s := by
  obtain ⟨gap, rfl⟩ := read?_eq h
  exact ⟨gap ++ d.opener :: (i ++ [d.closer]), by simp⟩

theorem read_eq_read? {d : Delimiter} {s : Text} {o : Option (Text × Text)} (h : read d s = .ok o) : read? d s = o := by
  rw [read?, h]

theorem readUpTo_rest {d : Delimiter} {n : Nat} {s : Text} {parts : List Text} {r : Text}
    (h : readUpTo d n s = .ok (parts, r)) : r <:+ s := by
  induction n generalizing s parts r with
  | zero =>
    cases h
    exact List.suffix_refl s
  | succ n ih =>
    simp only [readUpTo] at h
    obtain ⟨o, hr, h⟩ := bind_eq_ok h
    cases o with
    | none =>
      cases h
      exact List.suffix_refl s
    | some p =>
      obtain ⟨m, hm, h⟩ := bind_eq_ok h
      cases h
      exact (ih hm).trans (read?_rest (read_eq_read? hr))

end Group

/-! ## Arguments -/

namespace Arguments

theorem braces_parts {n : Nat} {s r : Text} {parts : List Text} (h : braces n s = .ok (some (parts, r))) :
    r <:+ s ∧ ∀ t ∈ parts, ∃ v, t ++ '}' :: v <:+ s := by
  induction n generalizing s parts r with
  | zero =>
    cases h
    exact ⟨List.suffix_refl s, by simp⟩
  | succ n ih =>
    simp only [braces] at h
    obtain ⟨o, hr, h⟩ := bind_eq_ok h
    cases o with
    | none => cases h
    | some p =>
      obtain ⟨i, rest⟩ := p
      obtain ⟨m, hm, h⟩ := bind_eq_ok h
      cases m with
      | none => cases h
      | some q =>
        cases h
        have hread := Group.read_eq_read? hr
        have hrest := Group.read?_rest hread
        obtain ⟨hsuffix, hmore⟩ := ih hm
        refine ⟨hsuffix.trans hrest, fun t ht => ?_⟩
        rcases List.mem_cons.1 ht with rfl | ht
        · obtain ⟨gap, hgap⟩ := Group.read?_eq hread
          exact ⟨rest, gap ++ ['{'], by rw [hgap]; simp [Delimiter.opener, Delimiter.closer]⟩
        · obtain ⟨v, hv⟩ := hmore t ht
          exact ⟨v, hv.trans hrest⟩

/-- What follows the arguments is an ending of the text, and a closing brace stands behind each argument. -/
theorem read?_parts {count : Nat} {takesOption : Bool} {s r : Text} {args : Arguments}
    (h : read? count takesOption s = some (args, r)) :
    r <:+ s ∧ ∀ t ∈ args.required, ∃ v, t ++ '}' :: v <:+ s := by
  have hparts {s' : Text} (hs : s' <:+ s) {q : List Text × Text} (hb : braces count s' = .ok (some q)) :
      q.2 <:+ s ∧ ∀ t ∈ q.1, ∃ v, t ++ '}' :: v <:+ s := by
    obtain ⟨hsuffix, hall⟩ := braces_parts hb
    refine ⟨hsuffix.trans hs, fun t ht => ?_⟩
    obtain ⟨v, hv⟩ := hall t ht
    exact ⟨v, hv.trans hs⟩
  have hok : read count takesOption s = .ok (some (args, r)) := by
    rw [read?] at h
    split at h
    · rename_i o ho
      rw [ho, h]
    · cases h
  cases takesOption with
  | false =>
    simp only [read, Bool.false_eq_true, if_false, pure_bind] at hok
    obtain ⟨q, hb, hok⟩ := bind_eq_ok hok
    cases q with
    | none => cases hok
    | some q =>
      cases hok
      exact hparts (List.suffix_refl s) hb
  | true =>
    simp only [read, if_true] at hok
    obtain ⟨bracket, hr, hok⟩ := bind_eq_ok hok
    obtain ⟨q, hb, hok⟩ := bind_eq_ok hok
    cases q with
    | none => cases hok
    | some q =>
      cases hok
      cases bracket with
      | none => exact hparts (List.suffix_refl s) hb
      | some p => exact hparts (Group.read?_rest (Group.read_eq_read? hr)) hb

end Arguments

/-! ## Options -/

namespace KeyValue

theorem valueAfter?_part {key s v r : Text} (h : valueAfter? key s = some (v, r)) : v <:+: s := by
  simp only [valueAfter?, Option.bind_eq_bind, Option.bind_eq_some_iff, Text.after?_eq_some_iff] at h
  obtain ⟨a, ha, b, hb, h⟩ := h
  have hpart : b.dropWhile isBlank <:+: s := by
    have hba : b.dropWhile isBlank <:+ a.dropWhile isBlank :=
      (List.dropWhile_suffix isBlank).trans ⟨_, hb.symm⟩
    have has : a.dropWhile isBlank <:+ s.dropWhile isBlank :=
      (List.dropWhile_suffix isBlank).trans ⟨_, ha.symm⟩
    exact (hba.trans (has.trans (List.dropWhile_suffix isBlank))).isInfix
  refine List.IsInfix.trans ?_ hpart
  generalize b.dropWhile isBlank = t at h
  split at h
  · rename_i p hp
    obtain rfl := Option.some.inj h
    split at hp
    · rename_i inner
      obtain ⟨⟨x, rest⟩, hc, he⟩ := Option.map_eq_some_iff.1 hp
      obtain ⟨rfl, rfl⟩ := Prod.mk.inj he
      rw [Text.closedBy_eq hc]
      exact ⟨[], rest, by simp⟩
    · cases hp
  · rw [List.span_eq_takeWhile_dropWhile] at h
    obtain rfl := (Prod.mk.inj (Option.some.inj h)).1
    exact (List.takeWhile_prefix _).isInfix

theorem reader_part {key s v r : Text} {before : Option Char} (h : reader key before s = some (v, r)) :
    v <:+: s := by
  simp only [reader] at h
  simp only [HOrElse.hOrElse, OrElse.orElse, Option.orElse] at h
  split at h
  · obtain rfl := Option.some.inj h
    rename_i heq
    split at heq
    · exact valueAfter?_part heq
    · cases heq
  · split at h
    · exact (valueAfter?_part h).trans (List.suffix_cons _ _).isInfix
    · cases h

theorem get?_part {key options v : Text} (h : get? key options = some v) : v <:+: options := by
  simp only [get?, Option.bind_eq_bind, Option.bind_eq_some_iff] at h
  obtain ⟨f, hf, h⟩ := h
  obtain ⟨before, t, ht, hr⟩ := Text.findFrom_eq_some hf
  have hvalue : Text.strip f.value <:+: options := (Text.strip_part _).trans ((reader_part hr).trans ht.isInfix)
  have hpart : ∀ t : Text, t <:+: f.value.strip →
      (if (Text.strip t).isEmpty then none else some (Text.strip t)) = some v → v <:+: options := by
    intro t ht he
    split at he
    · cases he
    · obtain rfl := Option.some.inj he
      exact (Text.strip_part t).trans (ht.trans hvalue)
  split at h
  · exact hpart _ ((List.dropLast_prefix _).isInfix.trans (List.tail_suffix _).isInfix) h
  · exact hpart _ List.infix_rfl h

end KeyValue

end Galley
