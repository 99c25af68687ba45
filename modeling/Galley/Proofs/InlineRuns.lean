import Galley.Proofs.Formatting
/-!
# How formatting can end

Formatting stops, or goes on for ever where a piece set aside leads back to its own mark, which only a text with
marks of its own can bring about (`restoring_stops_iff`). A text without internal characters is formatted with every
piece put in its place once; what guards an escaped special is left over just where it stands in a piece, as pieces
are restored after specials (`guards_left_iff`).
-/

namespace Galley.Inline

open Stash (Marked Restores Reached Readable Names isMarkChar)
open Relation

/-! ## Whether restoring stops -/

/-- Restoring stops for every text, or never does because a piece that is met leads back to its own mark while every
    mark that is met can be read. It stops at a mark that names no piece or has too many digits, or with a text that
    holds no mark; a text that holds no mark of its own is restored to the end. -/
theorem restoring_stops_iff (settings : Settings) (engine : Formula.Engine) (s : Text) :
    let shown := (rewritten settings engine s).1
    let pieces := (rewritten settings engine s).2
    (∀ r, Restores pieces shown r ↔ format settings engine s = r ∧ r ≠ .error .endlessPiece) ∧
    ((∃ r, Restores pieces shown r) ↔ (∃ d, Reached pieces shown d ∧ ¬ Readable pieces d) ∨
      ∀ d, Reached pieces shown d → ¬ TransGen (Names pieces) (Text.digitsValue d) (Text.digitsValue d)) ∧
    (∀ fault, Restores pieces shown (.error fault) → fault = .pieceMissing ∨ ∃ digits, fault = .longNumber digits) ∧
    (∀ t, Restores pieces shown (.ok t) → t.occurs Stash.reader = false) ∧
    (Stash.opening ∉ s → Converts (fun c => c ≠ Stash.opening) engine → ∃ t, Restores pieces shown (.ok t)) := by
  intro shown pieces
  have hsealed := sealed_rewritten settings engine s
  refine ⟨fun r => ?_, Stash.exists_restores_iff hsealed, fun fault h => ?_, fun t h => (h.readable_of_ok hsealed).2.2,
    fun hs hengine => ?_⟩
  · rw [format_eq]
    exact Stash.restores_iff hsealed
  · obtain ⟨d, -, hnamed⟩ := h.exists_of_error hsealed
    exact Stash.fault_of_named hnamed
  · obtain ⟨t, ht⟩ := (tidy_rewritten alphabet_unmarked hengine (.of_not_mem hs)).restore_ok alphabet_unmarked
    exact ⟨t, (Stash.restores_iff hsealed).2 ⟨ht, by simp⟩⟩

/-- A converter that always fails. -/
def failing : Formula.Engine := fun _ _ => .error "Cannot convert"

theorem converts_failing {ok : Char → Bool} (hok : Alphabet ok) : Converts ok failing := fun _ _ => hok.text (by decide)

theorem restoring_stops_address :
    ∃ t, Restores (rewritten {} failing "\\href\x7bhttp://a\x7d\x7b\\url\x7bb\x7d $x$\x7d").2
      (rewritten {} failing "\\href\x7bhttp://a\x7d\x7b\\url\x7bb\x7d $x$\x7d").1 (.ok t) :=
  (restoring_stops_iff {} failing "\\href\x7bhttp://a\x7d\x7b\\url\x7bb\x7d $x$\x7d").2.2.2.2 (by decide)
    (converts_failing alphabet_unmarked)

/-- An address that is the mark of its own piece. -/
def ownMark : Text := "\\url\x7b" ++ Stash.mark 0 ++ "\x7d"

theorem rewritten_ownMark : rewritten {} failing ownMark = (Stash.mark 0, [("<code>" ++ Stash.mark 0 ++ "</code>" : Text)]) := by
  have h : decide (rewritten {} failing ownMark = (Stash.mark 0, [("<code>" ++ Stash.mark 0 ++ "</code>" : Text)])) = true := by
    decide +kernel
  exact of_decide_eq_true h

theorem endless_ownMark : ¬ ∃ r, Restores (rewritten {} failing ownMark).2 (rewritten {} failing ownMark).1 r := by
  have hsealed := sealed_rewritten {} failing ownMark
  rw [rewritten_ownMark] at hsealed ⊢
  generalize hpieces : [("<code>" ++ Stash.mark 0 ++ "</code>" : Text)] = pieces at hsealed
  have hshown : Stash.marks (Stash.mark 0) = [Text.ofNat 0] := by decide +kernel
  have hpiece : Stash.marks (Stash.content pieces (Text.ofNat 0)) = [Text.ofNat 0] := by
    rw [← hpieces]
    decide +kernel
  -- every round puts the same mark back
  have hrounds (n : Nat) : Stash.marksAfter pieces n [Text.ofNat 0] = [Text.ofNat 0] := by
    induction n with
    | zero => rfl
    | succ n ih => rw [Stash.marksAfter_succ, ih, List.flatMap_singleton, hpiece]
  rw [Stash.exists_restores_iff hsealed]
  rintro (⟨d, ⟨n, hn⟩, hnot⟩ | hno)
  · rw [hshown, hrounds, List.mem_singleton] at hn
    subst hn
    exact hnot (Stash.readable_ofNat (by rw [← hpieces]; decide))
  · have hlead : Stash.Leads pieces (Text.ofNat 0) (Text.ofNat 0) := by
      rw [Stash.Leads, hpiece]
      exact List.mem_singleton_self _
    refine hno (Text.ofNat 0) ⟨0, ?_⟩ (.single hlead.names)
    rw [hshown]
    exact List.mem_singleton_self _

theorem rewritten_markChars {settings : Settings} {engine : Formula.Engine} {s : Text} (hs : ∀ c ∈ s, isMarkChar c = true) :
    rewritten settings engine s = (s, []) := by
  have hflat {f : Char → Text} (hf : ∀ c, isMarkChar c = true → f c = [c]) : s.flatMap f = s := by
    rw [List.flatMap_congr fun c hc => hf c (hs c hc)]
    exact List.flatMap_singleton' s
  have hliteral {x c : Char} {t new : Text} (hx : isMarkChar x = false) (hlast : (x :: t).getLast? = some c)
      (hc : isMarkChar c = false) : s.replace (x :: t) new = s := by
    rw [replace_eq_replaceAll (by simp)]
    exact ((neat_literal hx hlast hc).misses hs).replaceAll_eq _
  have hformulas (render : Text → Text) : stashFormulas render s = pure s := (neat_formula.misses hs).replaceAllM_eq _
  have hspecials : protectSpecials s = s := (neat_escapedSpecial.misses hs).replaceAll_eq _
  have hescape : Html.escape s = s := hflat fun c hc => escapeChar_markChar hc
  have htypography : typography s = s := by
    have hem : s.replace "---" "&mdash;" = s := hliteral (x := '-') (t := "--") (by decide) rfl (by decide)
    have hen : s.replace "--" "&ndash;" = s := hliteral (x := '-') (t := "-") (by decide) rfl (by decide)
    have hleft : s.replace "\x60\x60" "&ldquo;" = s := hliteral (x := '\x60') (t := "\x60") (by decide) rfl (by decide)
    have hright : s.replace "''" "&rdquo;" = s := hliteral (x := '\'') (t := "'") (by decide) rfl (by decide)
    rw [typography, hem, hen, hleft, hright]
  have hcount : s.count '\\' = 0 := by
    refine List.count_eq_zero.2 fun hm => ?_
    have := hs _ hm
    revert this
    decide
  have hsymbols : replaceSymbols s = s := by
    unfold replaceSymbols
    refine List.foldlRecOn (motive := fun t => t = s) _ _ rfl fun t ht x hx => ?_
    subst ht
    exact ((neat_of_mem_symbols hx).misses hs).replaceAll_eq _
  have hrestore : restoreSpecials s = s := hflat fun c hc => restoreSpecial_markChar hc
  rw [rewritten, rewrite, hformulas, pure_bind, hspecials, hescape, htypography]
  dsimp only
  rw [hcount, rewriteCommands, pure_bind, hsymbols, hrestore]
  rfl

/-- Formatting stops at a mark that is the whole text as at one that names a piece when none has been set aside. -/
theorem format_digits {settings : Settings} {engine : Formula.Engine} {digits : Text} {fault : Fault} (hne : digits ≠ [])
    (hdigits : ∀ c ∈ digits, isMarkChar c = true ∧ isDecimalDigit c = true) (h : Stash.named [] digits = .error fault) :
    format settings engine (Stash.opening :: (digits ++ [Stash.closing])) = .error fault := by
  have hall : ∀ c ∈ Stash.opening :: (digits ++ [Stash.closing]), isMarkChar c = true := by
    refine List.forall_mem_cons.2 ⟨by decide, List.forall_mem_append.2 ⟨fun c hc => (hdigits c hc).1, ?_⟩⟩
    exact List.forall_mem_singleton.2 (by decide)
  rw [format_eq, rewritten_markChars hall]
  exact Stash.restore_error (Stash.reader_written hne (fun c hc => (hdigits c hc).2) none []) h

theorem mostDigits_nil : Stash.mostDigits [] = 4300 := by decide +kernel

/-- Formatting stops at a mark with more digits than are read. -/
theorem format_longNumber {settings : Settings} {engine : Formula.Engine} {n : Nat} (hn : 4300 < n) :
    format settings engine (Stash.opening :: (List.replicate n '1' ++ [Stash.closing])) = .error (.longNumber n) := by
  refine format_digits (List.ne_nil_of_length_pos (by rw [List.length_replicate]; omega)) (fun c hc => ?_) ?_
  · rw [(List.mem_replicate.1 hc).2]
    decide
  · rw [Stash.named, mostDigits_nil, List.length_replicate, if_pos hn]

/-- Formatting stops at a mark of the text's own. -/
theorem format_mark (settings : Settings) (engine : Formula.Engine) :
    format settings engine (Stash.mark 0) = .error .pieceMissing :=
  format_digits (List.cons_ne_nil '0' []) (by decide) (by rw [Stash.named, mostDigits_nil]; rfl)

theorem restoring_ownMark_longNumber :
    (¬ ∃ r, Restores (rewritten {} failing ownMark).2 (rewritten {} failing ownMark).1 r) ∧
    format {} failing (Stash.opening :: (List.replicate 4301 '1' ++ [Stash.closing])) = .error (.longNumber 4301) :=
  ⟨endless_ownMark, format_longNumber (by decide)⟩

/-! ## What restoring leaves -/

theorem apart_of_isGuard {c : Char} (h : isGuard c = true) : Stash.Apart c ∧ isMarkChar c = false := by
  have hall : ∀ x ∈ specials, Stash.Apart x.2.1 ∧ isMarkChar x.2.1 = false := by decide
  obtain ⟨x, hx, he⟩ := List.any_eq_true.1 h
  rw [← of_decide_eq_true he]
  exact hall x hx

/-- A text without internal characters is formatted: every mark that is met is one that was given out, no piece is
    restored twice, and of the internal characters there are left the guards of specials in the pieces that are restored,
    which restoring the specials once more would take away. -/
theorem guards_left_iff {settings : Settings} {engine : Formula.Engine} {s : Text} (hs : Within (fun c => !isInternal c) s)
    (hengine : Converts (fun c => !isInternal c) engine) :
    let shown := (rewritten settings engine s).1
    let pieces := (rewritten settings engine s).2
    ∃ html, format settings engine s = .ok html ∧ Restores pieces shown (.ok html) ∧
      (∀ d, Reached pieces shown d → ∃ k < pieces.length, d = Text.ofNat k) ∧
      (∀ rounds, (Stash.met pieces shown rounds).Nodup) ∧
      (∀ c, isInternal c = true → (c ∈ html ↔ isGuard c = true ∧ ∃ d, Reached pieces shown d ∧ c ∈ Stash.content pieces d)) ∧
      Within (fun c => !isInternal c) (restoreSpecials html) := by
  intro shown pieces
  have hok := alphabet_external
  have htidy : Tidy (fun c => !isInternal c) pieces shown := tidy_rewritten hok hengine hs
  obtain ⟨html, hhtml⟩ := htidy.restore_ok hok
  have hrestores : Restores pieces shown (.ok html) := (Stash.restores_iff htidy.sealed).2 ⟨hhtml, by simp⟩
  have hwithin : Within (guarded fun c => !isInternal c) html := htidy.within hok hrestores
  refine ⟨html, by rw [format_eq]; exact hhtml, hrestores, fun d hd => htidy.exists_ofNat hok hd, htidy.nodup_met hok,
    fun c hc => ⟨fun hm => ?_, fun ⟨hguard, hd⟩ => ?_⟩, ?_⟩
  · -- specials are restored in the text shown, so a guard that is left comes from a piece
    have hguard : isGuard c = true := by
      have hin := hwithin c hm
      rwa [guarded, hc, Bool.not_true, Bool.false_or] at hin
    obtain ⟨hapart, hmark⟩ := apart_of_isGuard hguard
    refine ⟨hguard, ((hrestores.mem_iff htidy.sealed hapart).1 hm).resolve_left fun hshown => ?_⟩
    have hin := htidy.mem_shown hshown
    simp [hc, hmark] at hin
  · exact (hrestores.mem_iff htidy.sealed (apart_of_isGuard hguard).1).2 (.inr hd)
  · exact (marked_restoreSpecials hok (Marked.of_within (u := 0) hwithin)).within

theorem guards_left_address :
    let s : Text := "\\textbf\x7b\\url\x7ba\\_b\x7d \\%\x7d"
    let shown := (rewritten {} failing s).1
    let pieces := (rewritten {} failing s).2
    ∃ html, format {} failing s = .ok html ∧ Restores pieces shown (.ok html) ∧
      (∀ d, Reached pieces shown d → ∃ k < pieces.length, d = Text.ofNat k) ∧
      (∀ rounds, (Stash.met pieces shown rounds).Nodup) ∧
      (∀ c, isInternal c = true → (c ∈ html ↔ isGuard c = true ∧ ∃ d, Reached pieces shown d ∧ c ∈ Stash.content pieces d)) ∧
      Within (fun c => !isInternal c) (restoreSpecials html) :=
  guards_left_iff (by decide) (converts_failing alphabet_external)

/-- The address of a link is set aside with the guard of its underscore. -/
theorem guard_in_address :
    Within (fun c => !isInternal c) "\\url\x7ba\\_b\x7d".toList ∧ Converts (fun c => !isInternal c) failing ∧
    format {} failing "\\url\x7ba\\_b\x7d" = .ok ("<code>a" ++ [Char.ofNat 0xE013] ++ "b</code>") ∧
    isInternal (Char.ofNat 0xE013) = true := by
  refine ⟨by decide, converts_failing alphabet_external, ?_, by decide⟩
  have hrun : decide (format {} failing "\\url\x7ba\\_b\x7d" = .ok ("<code>a" ++ [Char.ofNat 0xE013] ++ "b</code>")) = true := by
    decide +kernel
  exact of_decide_eq_true hrun

end Galley.Inline
