import Galley.Proofs.Marks
/-!
# Steps on marked texts

The characters that guard specials, and the readers of inline text that neither begin nor end inside a mark (`Neat`):
what escapes a text, sets its dashes and quotes and replaces its symbols leaves the marks in it whole.
-/

namespace Galley.Inline

open Stash (Marked Heeds Laid isMarkChar)

/-! ## Alphabets -/

/-- A set of characters that holds all of ASCII and not the character that opens marks. -/
structure Alphabet (ok : Char → Bool) : Prop where
  ascii : ∀ c : Char, c.toNat < 128 → ok c = true
  unopened : ok Stash.opening = false

/-- The characters, and those that protect specials. -/
def guarded (ok : Char → Bool) (c : Char) : Bool := ok c || specials.any fun x => x.2.1 = c

section Alphabets

variable {ok : Char → Bool}

theorem Alphabet.text (h : Alphabet ok) {t : Text} (ht : t.all (fun c => c.toNat < 128) = true) : Within ok t :=
  fun c hc => h.ascii c (of_decide_eq_true (List.all_eq_true.1 ht c hc))

theorem alphabet_unmarked : Alphabet fun c => c ≠ Stash.opening where
  ascii c hc := by
    refine decide_eq_true ?_
    rintro rfl
    exact absurd hc (by decide)
  unopened := by decide

theorem guarded_of {c : Char} (h : ok c = true) : guarded ok c = true := by rw [guarded, h, Bool.true_or]

theorem guarded_special {x : Char × Char × Text} (h : x ∈ specials) : guarded ok x.2.1 = true := by
  have hany : specials.any (fun y => y.2.1 = x.2.1) = true := List.any_eq_true.2 ⟨x, h, by simp⟩
  rw [guarded, hany, Bool.or_true]

theorem Alphabet.guarded (h : Alphabet ok) : Alphabet (guarded ok) where
  ascii c hc := guarded_of (h.ascii c hc)
  unopened := by
    rw [Inline.guarded, h.unopened]
    decide

theorem within_guarded {s : Text} (h : Within ok s) : Within (guarded ok) s := fun c hc => guarded_of (h c hc)

end Alphabets

/-- The characters that marks of pieces and guards of specials are made of, and those between them. -/
def isInternal (c : Char) : Bool := 0xE000 ≤ c.toNat && c.toNat ≤ 0xE016

/-- What guards an escaped special. -/
def isGuard (c : Char) : Bool := specials.any fun x => x.2.1 = c

theorem alphabet_external : Alphabet fun c => !isInternal c where
  ascii c hc := by
    have hlow : ¬ 0xE000 ≤ c.toNat := by omega
    simp [isInternal, hlow]
  unopened := by decide

/-! ## Readers that heed marks -/

theorem not_cons_of_isMarkChar {c x : Char} (h : isMarkChar c = true) (hx : isMarkChar x = false) {s t : Text} :
    c :: s ≠ x :: t := fun he => Stash.ne_of_isMarkChar h hx (List.cons.inj he).1.symm

theorem after?_markChar {c x : Char} (h : isMarkChar c = true) (hx : isMarkChar x = false) (p s : Text) :
    Text.after? (x :: p) (c :: s) = none := by
  rw [Text.after?, if_neg (Stash.ne_of_isMarkChar h hx)]

/-- The text goes on behind some characters, of which the last one is none of a mark's. -/
def Behind (s rest : Text) : Prop := ∃ x c, isMarkChar c = false ∧ s = x ++ c :: rest

namespace Behind

variable {s t rest : Text}

theorem suffix (h : Behind s rest) : rest <:+ s := by
  obtain ⟨x, c, -, rfl⟩ := h
  exact ⟨x ++ [c], by simp⟩

/-- Passing over characters that are none of a mark's. -/
theorem drop (h : Behind s t) {gap : Text} (ht : t = gap ++ rest) (hgap : ∀ c ∈ gap, isMarkChar c = false) : Behind s rest := by
  rcases List.eq_nil_or_concat gap with rfl | ⟨g, c, rfl⟩
  · rw [List.nil_append] at ht
    exact ht ▸ h
  · subst ht
    obtain ⟨x, d, hd, rfl⟩ := h
    exact ⟨x ++ d :: g, c, hgap c (by simp), by simp⟩

theorem after? {p : Text} {c : Char} (hlast : p.getLast? = some c) (hc : isMarkChar c = false) (h : Text.after? p s = some rest) :
    Behind s rest := by
  obtain ⟨q, rfl⟩ := List.getLast?_eq_some_iff.1 hlast
  exact ⟨q, c, hc, by rw [Text.after?_eq_some_iff.1 h]; simp⟩

theorem command {name : Text} {c : Char} (hlast : name.getLast? = some c) (hc : isMarkChar c = false)
    (h : Command.after? name s = some rest) : Behind s rest := by
  obtain ⟨q, rfl⟩ := List.getLast?_eq_some_iff.1 hlast
  exact ⟨'\\' :: q, c, hc, by rw [Command.after?_eq h]; simp⟩

end Behind

/-- What stands behind a place that is no mark's has a share of the marks. -/
theorem Stash.Marked.behind {ok : Char → Bool} {u : Multiset Nat} {s rest : Text} (h : Marked ok u s) (hrest : Behind s rest) :
    Marked ok u rest := by
  obtain ⟨x, c, hc, rfl⟩ := hrest
  obtain ⟨v, w, hle, -, -, hw⟩ := h.split hc
  exact hw.mono ((Multiset.le_add_left w v).trans hle)

/-- A reader of constructs that begin and end with no character of a mark. -/
structure Neat {α : Type} (read : Reader α) : Prop where
  heeds : Heeds read
  behind : ∀ before s a rest, read before s = some (a, rest) → Behind s rest

theorem neat_formula : Neat formula where
  heeds before c s hc := by
    unfold formula
    split
    · rename_i h
      exact (not_cons_of_isMarkChar hc (by decide) h).elim
    · rename_i h
      exact (not_cons_of_isMarkChar hc (by decide) h).elim
    · rfl
  behind before s a rest h := by
    unfold formula at h
    split at h
    · split at h
      · cases h
      · simp only [Option.bind_eq_bind, Option.bind_eq_some_iff] at h
        obtain ⟨⟨inside, r⟩, hr, h⟩ := h
        split at h
        · cases h
        · cases h
          rw [Text.closedBy_eq hr]
          exact ⟨'$' :: inside, '$', by decide, rfl⟩
    · simp only [Option.bind_eq_bind, Option.bind_eq_some_iff] at h
      obtain ⟨⟨inside, r⟩, hr, h⟩ := h
      cases h
      rename_i c t
      rw [Text.splitAtFirst_eq hr]
      exact ⟨'\\' :: '(' :: c :: (inside ++ ['\\']), ')', by decide, by simp⟩
    · cases h

/-- What stands in a formula stands in the text. -/
theorem formula_subset {before : Option Char} {s f rest : Text} (h : formula before s = some (f, rest)) : f ⊆ s := by
  unfold formula at h
  split at h
  · split at h
    · cases h
    · simp only [Option.bind_eq_bind, Option.bind_eq_some_iff] at h
      obtain ⟨⟨inside, r⟩, hr, h⟩ := h
      split at h
      · cases h
      · cases h
        rw [Text.closedBy_eq hr]
        intro x hx
        simp [hx]
  · simp only [Option.bind_eq_bind, Option.bind_eq_some_iff] at h
    obtain ⟨⟨inside, r⟩, hr, h⟩ := h
    cases h
    rw [Text.splitAtFirst_eq hr]
    intro x hx
    simp at hx ⊢
    tauto
  · cases h

theorem neat_escapedSpecial : Neat escapedSpecial where
  heeds before c s hc := by
    unfold escapedSpecial
    split
    · rename_i h
      exact (not_cons_of_isMarkChar hc (by decide) h).elim
    · rfl
  behind before s a rest h := by
    unfold escapedSpecial at h
    split at h
    · rename_i c s
      obtain ⟨p, hlookup, hp⟩ := Option.map_eq_some_iff.1 h
      cases hp
      obtain ⟨as, bs, hspecials, -⟩ := List.lookup_eq_some_iff.1 hlookup
      have hall : ∀ x ∈ specials, isMarkChar x.1 = false := by decide
      exact ⟨['\\'], c, hall (c, p) (by simp [hspecials]), rfl⟩
    · cases h

theorem neat_rowBreak : Neat rowBreak where
  heeds before c s hc := by
    unfold rowBreak
    split
    · rename_i h
      exact (not_cons_of_isMarkChar hc (by decide) h).elim
    · rfl
  behind before s a rest h := by
    unfold rowBreak at h
    split at h
    · rename_i s
      cases h
      have hbreak : Behind ('\\' :: '\\' :: s) s := ⟨['\\'], '\\', by decide, rfl⟩
      unfold Text.skipEnclosed
      split
      · split
        · rename_i c inner hc
          cases hclosed : Text.closedBy ']' inner with
          | none => exact hbreak
          | some r =>
            obtain ⟨inside, rest⟩ := r
            refine ⟨'\\' :: '\\' :: c :: inside, ']', by decide, ?_⟩
            rw [Text.closedBy_eq hclosed]
            rfl
        · exact hbreak
      · exact hbreak
    · cases h

theorem command_markChar {c : Char} (hc : isMarkChar c = true) (name s : Text) : Command.after? name (c :: s) = none := by
  rw [Command.after?, after?_markChar hc (by decide)]

/-- The text does not end like a mark. -/
def endsUnmarked (s : Text) : Bool := s.getLast?.any fun c => !isMarkChar c

theorem exists_last {s : Text} (h : endsUnmarked s = true) : ∃ c, s.getLast? = some c ∧ isMarkChar c = false := by
  cases hlast : s.getLast? with
  | none => simp [endsUnmarked, hlast] at h
  | some c => exact ⟨c, rfl, by simpa [endsUnmarked, hlast] using h⟩

/-- What a symbol command may skip: blanks. -/
def Skips (skip : Text → Text) : Prop := ∀ s, ∃ gap, s = gap ++ skip s ∧ ∀ c ∈ gap, isBlank c = true

theorem skips_id : Skips id := fun _ => ⟨[], rfl, fun _ hc => absurd hc List.not_mem_nil⟩

theorem skips_blanks : Skips (·.dropWhile isBlank) := fun s => Text.dropWhile_eq isBlank s

theorem skips_dropBlank : Skips dropBlank := by
  intro s
  unfold dropBlank
  split
  · rename_i c s
    split
    · rename_i hc
      exact ⟨[c], rfl, fun x hx => by rwa [List.mem_singleton.1 hx]⟩
    · exact skips_id (c :: s)
  · exact skips_id []

theorem neat_symbolCommand {names : List Text} {skip : Text → Text} (hskip : Skips skip)
    (hnames : names.all endsUnmarked = true) : Neat (symbolCommand names skip) where
  heeds before c s hc := by
    rw [symbolCommand, List.findSome?_eq_none_iff]
    intro name _
    rw [command_markChar hc, Option.map_none]
  behind before s a rest h := by
    obtain ⟨name, hname, h⟩ := List.exists_of_findSome?_eq_some h
    obtain ⟨r, hr, he⟩ := Option.map_eq_some_iff.1 h
    cases he
    obtain ⟨c, hc, hmark⟩ := exists_last (List.all_eq_true.1 hnames name hname)
    obtain ⟨gap, hgap, hblank⟩ := hskip r
    exact (Behind.command hc hmark hr).drop hgap fun x hx => Stash.not_isMarkChar_of_isBlank (hblank x hx)

theorem neat_literal {x c : Char} {t : Text} (hx : isMarkChar x = false) (hlast : (x :: t).getLast? = some c)
    (hc : isMarkChar c = false) : Neat (literal (x :: t)) where
  heeds before c s hc := by
    rw [literal, after?_markChar hc hx, Option.map_none]
  behind before s a rest h := by
    obtain ⟨r, hr, he⟩ := Option.map_eq_some_iff.1 h
    cases he
    exact Behind.after? hlast hc hr

theorem neat_of_mem_symbols {x : Reader Unit × Text} (hx : x ∈ symbols) : Neat x.1 := by
  simp only [symbols, List.mem_cons, List.not_mem_nil, or_false] at hx
  rcases hx with rfl | rfl | rfl | rfl | rfl | rfl | rfl | rfl | rfl | rfl | rfl | rfl | rfl
  · exact neat_rowBreak
  · exact neat_symbolCommand skips_blanks (by decide)
  · exact neat_symbolCommand skips_id (by decide)
  · exact neat_symbolCommand skips_id (by decide)
  · exact neat_symbolCommand skips_id (by decide)
  · exact neat_symbolCommand skips_id (by decide)
  · exact neat_symbolCommand skips_dropBlank (by decide)
  all_goals exact neat_literal (by decide) rfl (by decide)

/-- Nothing is read in a text of mark characters. -/
theorem Neat.misses {α : Type} {read : Reader α} (h : Neat read) {s : Text} (hs : ∀ c ∈ s, isMarkChar c = true) :
    Text.Misses read s := by
  intro before t ht
  cases t with
  | nil =>
    refine Option.eq_none_iff_forall_ne_some.2 fun r hr => ?_
    obtain ⟨x, c, -, hx⟩ := h.behind before [] r.1 r.2 hr
    simp at hx
  | cons c t => exact h.heeds before c t (hs c (ht.subset List.mem_cons_self))

theorem restoreSpecial_markChar {c : Char} (hc : isMarkChar c = true) : restoreSpecial c = [c] := by
  have hmark : ∀ x ∈ specials, isMarkChar x.2.1 = false := by decide
  have hnone : specials.find? (fun x => x.2.1 = c) = none := by
    rw [List.find?_eq_none]
    intro x hx
    simpa using Stash.ne_of_isMarkChar hc (hmark x hx)
  rw [restoreSpecial]
  split
  · rename_i hsome
    rw [hnone] at hsome
    cases hsome
  · rfl

/-! ## Steps without pieces -/

section Steps

variable {ok ok' : Char → Bool} {u : Multiset Nat} {s : Text}

theorem Neat.replaceAll {α : Type} {read : Reader α} (h : Neat read) (hopen : ok Stash.opening = false)
    (hsub : ∀ c, ok c = true → ok' c = true) {f : α → Text}
    (hf : ∀ before s a rest, read before s = some (a, rest) → Within ok' (f a)) (hs : Marked ok u s) :
    Marked ok' u (s.replaceAll read f) := by
  have hlaid : Laid ok (fun v a _ => v = 0 ∧ Within ok' (f a)) u (Text.cut read s) := by
    refine Stash.laid_cut hopen h.heeds (fun v _ before t a rest ht hr => ?_) hs
    have hbehind := h.behind before t a rest hr
    exact ⟨hbehind.suffix, 0, v, by simp, ⟨rfl, hf before t a rest hr⟩, ht.behind hbehind⟩
  exact hlaid.flatMap hsub (fun _ => rfl) fun v a source h => .of_within h.2

theorem marked_protectSpecials (hok : Alphabet ok) (hs : Marked ok u s) : Marked (guarded ok) u (protectSpecials s) := by
  refine neat_escapedSpecial.replaceAll hok.unopened (fun c => guarded_of) (fun before s a rest hr => ?_) hs
  unfold escapedSpecial at hr
  split at hr
  · rename_i c t
    obtain ⟨⟨mark, shown⟩, hlookup, he⟩ := Option.map_eq_some_iff.1 hr
    cases he
    obtain ⟨as, bs, hspecials, -⟩ := List.lookup_eq_some_iff.1 hlookup
    intro x hx
    rw [List.mem_singleton.1 hx]
    exact guarded_special (x := (c, a, shown)) (by rw [hspecials]; simp)
  · cases hr

theorem escapeChar_markChar {c : Char} (hc : isMarkChar c = true) : Html.escapeChar c = [c] := by
  rw [Html.escapeChar, if_neg (Stash.ne_of_isMarkChar hc (by decide)).symm,
    if_neg (Stash.ne_of_isMarkChar hc (by decide)).symm, if_neg (Stash.ne_of_isMarkChar hc (by decide)).symm]

theorem marked_escape (hok : Alphabet ok) (hs : Marked ok u s) : Marked ok u (Html.escape s) := by
  refine hs.flatMap (fun c hc => escapeChar_markChar hc) (fun c hc => ?_)
  unfold Html.escapeChar
  split
  · exact hok.text (by decide)
  · split
    · exact hok.text (by decide)
    · split
      · exact hok.text (by decide)
      · intro x hx
        rwa [List.mem_singleton.1 hx]

/-- Replacing a text is replacing a construct that is read as it stands. -/
theorem replace_eq_replaceAll {old : Text} (hold : old ≠ []) (new s : Text) :
    s.replace old new = s.replaceAll (literal old) fun _ => new := by
  have main (f : Piece Unit → Text) (hchar : ∀ c, f (.char c) = [c]) (hhit : ∀ a t, f (.hit a t) = new) (s : Text) :
      ∀ k before, Text.replaceFrom old new k s = (Text.cutFrom (literal old) k before s).flatMap f := by
    induction s with
    | nil =>
      intro k before
      cases k <;> rfl
    | cons c s ih =>
      intro k before
      cases k with
      | succ k => exact ih k (some c)
      | zero =>
        rw [Text.replaceFrom]
        split
        · rename_i hp
          obtain ⟨rest, hrest⟩ := List.isPrefixOf_iff_prefix.1 hp
          have hread : literal old before (c :: s) = some ((), rest) := by
            rw [literal, ← hrest, Text.after?_append, Option.map_some]
          have hlen := congrArg List.length hrest
          have hpos := List.length_pos_of_ne_nil hold
          simp only [List.length_append, List.length_cons] at hlen
          simp only [Text.cutFrom, hread]
          rw [if_pos (by omega), List.flatMap_cons, hhit, ih (old.length - 1) (some c),
            show old.length - 1 = s.length - rest.length by omega]
        · rename_i hp
          have hread : literal old before (c :: s) = none := by
            cases hr : Text.after? old (c :: s) with
            | none => rw [literal, hr, Option.map_none]
            | some r => exact absurd (List.isPrefixOf_iff_prefix.2 ⟨r, (Text.after?_eq_some_iff.1 hr).symm⟩) hp
          simp only [Text.cutFrom, hread]
          rw [List.flatMap_cons, hchar, ih 0 (some c)]
          rfl
  exact main _ (fun _ => rfl) (fun _ _ => rfl) s 0 none

variable (hok : Alphabet ok)

include hok

theorem marked_literal {x c : Char} {t shown : Text} (hx : isMarkChar x = false) (hlast : (x :: t).getLast? = some c)
    (hc : isMarkChar c = false) (hshown : shown.all (fun c => c.toNat < 128) = true) (hs : Marked ok u s) :
    Marked ok u (s.replaceAll (literal (x :: t)) fun _ => shown) :=
  (neat_literal hx hlast hc).replaceAll hok.unopened (fun _ h => h) (fun _ _ _ _ _ => hok.text hshown) hs

theorem marked_replace (x : Char) (t shown : Text) {c : Char} (hx : isMarkChar x = false) (hlast : (x :: t).getLast? = some c)
    (hc : isMarkChar c = false) (hshown : shown.all (fun c => c.toNat < 128) = true) (hs : Marked ok u s) :
    Marked ok u (s.replace (x :: t) shown) := by
  rw [replace_eq_replaceAll (by simp)]
  exact marked_literal hok hx hlast hc hshown hs

theorem marked_typography (hs : Marked ok u s) : Marked ok u (typography s) := by
  have h := marked_replace hok '-' "--" "&mdash;" (by decide) rfl (by decide) (by decide) hs
  have h := marked_replace hok '-' "-" "&ndash;" (by decide) rfl (by decide) (by decide) h
  have h := marked_replace hok '\x60' "\x60" "&ldquo;" (by decide) rfl (by decide) (by decide) h
  exact marked_replace hok '\'' "'" "&rdquo;" (by decide) rfl (by decide) (by decide) h

theorem marked_replaceSymbols (hs : Marked ok u s) : Marked ok u (replaceSymbols s) := by
  have hshown : ∀ x ∈ symbols, x.2.all (fun c => c.toNat < 128) = true := by decide
  unfold replaceSymbols
  refine List.foldlRecOn (motive := fun s => Marked ok u s) _ _ hs fun s hs x hx => ?_
  exact (neat_of_mem_symbols hx).replaceAll hok.unopened (fun _ h => h) (fun _ _ _ _ _ => hok.text (hshown x hx)) hs

theorem marked_restoreSpecials (hs : Marked (guarded ok) u s) : Marked ok u (restoreSpecials s) := by
  have hshown : ∀ x ∈ specials, x.2.2.all (fun c => c.toNat < 128) = true := by decide
  refine hs.flatMap (fun c hc => restoreSpecial_markChar hc) (fun c hc => ?_)
  unfold restoreSpecial
  split
  · rename_i hsome
    exact hok.text (hshown _ (List.mem_of_find?_eq_some hsome))
  · rename_i hnone
    intro x hx
    obtain rfl := List.mem_singleton.1 hx
    rcases Bool.or_eq_true_iff.1 hc with hc | hc
    · exact hc
    · obtain ⟨y, hy, he⟩ := List.any_eq_true.1 hc
      exact absurd he (List.find?_eq_none.1 hnone y hy)

end Steps

end Galley.Inline
