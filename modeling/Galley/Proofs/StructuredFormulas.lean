import Galley.Proofs.CappedRounds
import Galley.Proofs.Cleaning
import Galley.Proofs.FormulaPasses
/-!
# Structured formulas

An environment of formulas is found with white space between the word and the name of a marker, and unwrapped without any
(`unwrap?_source`). So an environment whose markers have no white space is shown as its body, at its full size, and another
one with its markers, as one line of formula (`structured_shown`).
-/

namespace Galley

/-! ## Markers of an environment -/

namespace Environment

/-- No white space stands in the markers. -/
def IsTight (e : Environment) : Prop := e.opening = Marker.source "begin" [] e.name ∧ e.closing = Marker.source "end" [] e.name

instance (e : Environment) : Decidable e.IsTight := inferInstanceAs (Decidable (_ ∧ _))

/-- An environment that is found is marked with its name. -/
theorem find?_eq_some {name s : Text} {e : Environment} (hname : '\\' ∉ name) (h : find? name s = some e) : e.name = name ∧
    ∃ gap gap', (∀ c ∈ gap, isBlank c = true) ∧ (∀ c ∈ gap', isBlank c = true) ∧
      e.opening = Marker.source "begin" gap name ∧ e.closing = Marker.source "end" gap' name := by
  have hfind : find name s = .ok (some e) := by
    unfold find? at h
    split at h
    · rename_i he
      rw [he, h]
    · cases h
  have hbegins : Text.Slashed (Marker.begins name) := Marker.slashed_begins hname
  unfold find at hfind
  split at hfind
  · cases hfind
  · rename_i f hf
    split at hfind
    · rename_i body closing rest hclose
      cases hfind
      obtain ⟨-, -, hread⟩ := hbegins.find?_eq_some hf
      obtain ⟨r, hafter, he⟩ := Option.map_eq_some_iff.1 hread
      cases he
      obtain ⟨gap, hgap, hsource⟩ := Marker.after?_eq_some_iff.1 hafter
      rcases Text.mem_cut (closing_mem_of_close hclose) with ⟨c, -, hc⟩ | ⟨sense, b, t, r, hhit, -, hread⟩
      · cases hc
      · obtain ⟨rfl, rfl⟩ := Piece.hit.inj hhit
        obtain ⟨gap', hgap', rfl⟩ := Marker.either_eq_some hread
        exact ⟨rfl, gap, gap', hgap, hgap', List.append_cancel_right hsource, Text.upTo_append_rest _ _⟩
    · cases hfind

end Environment

namespace Formula

section Unwrapping

variable {n name gap gap' : Text}

/-- A marker without white space is another one's beginning only if they are one. -/
theorem source_append_eq_iff {word : Text} (hn : '}' ∉ n) (hname : '}' ∉ name) (hgap : ∀ c ∈ gap, isBlank c = true) {u v : Text} :
    Marker.source word [] n ++ u = Marker.source word gap name ++ v ↔ n = name ∧ gap = [] ∧ u = v := by
  constructor
  · intro h
    rw [Marker.source_append, Marker.source_append] at h
    have hrest := List.append_cancel_left (List.cons.inj h).2
    cases gap with
    | nil =>
      have hbraced := (List.cons.inj hrest).2
      have hclosed : Text.closedBy '}' (n ++ '}' :: u) = some (n, u) := Text.closedBy_eq_some_iff.2 ⟨hn, rfl⟩
      have hclosed' : Text.closedBy '}' (n ++ '}' :: u) = some (name, v) := Text.closedBy_eq_some_iff.2 ⟨hname, hbraced⟩
      rw [hclosed] at hclosed'
      cases hclosed'
      exact ⟨rfl, rfl, rfl⟩
    | cons c gap =>
      -- a blank is no brace
      have hblank := hgap c List.mem_cons_self
      rw [← (List.cons.inj hrest).1] at hblank
      exact absurd hblank (by decide)
  · rintro ⟨rfl, rfl, rfl⟩
    rfl

/-- A text ends with a marker without white space if it ends with a marker that has none. -/
theorem source_suffix_iff (hgap : ∀ c ∈ gap, isBlank c = true) (body : Text) :
    Marker.source "end" [] name <:+ body ++ Marker.source "end" gap name ↔ gap = [] := by
  constructor
  · rintro ⟨v, hv⟩
    have hsplit (x : Text) : Marker.source "end" x name = "\\end".toList ++ x ++ '{' :: (name ++ ['}']) := by simp [Marker.source]
    rw [hsplit, hsplit, ← List.append_assoc, ← List.append_assoc, ← List.append_assoc body, ← List.append_assoc body] at hv
    have hfront := List.append_cancel_right hv
    rcases List.eq_nil_or_concat gap with rfl | ⟨gap, c, rfl⟩
    · rfl
    · -- a blank is no letter
      have hlast := congrArg List.getLast? hfront
      have hblank := hgap c (by simp)
      simp only [List.append_nil, List.concat_eq_append, ← List.append_assoc, List.getLast?_append, List.getLast?_singleton,
        Option.some_or] at hlast
      cases hlast
      exact absurd hblank (by decide)
  · rintro rfl
    exact List.suffix_append _ _

theorem wholeEnvironment?_source (hn : '}' ∉ n) (hname : '}' ∉ name) (hgap : ∀ c ∈ gap, isBlank c = true)
    (hgap' : ∀ c ∈ gap', isBlank c = true) (body : Text) :
    wholeEnvironment? n (Marker.source "begin" gap name ++ (body ++ Marker.source "end" gap' name)) =
      if n = name ∧ gap = [] ∧ gap' = [] then some body else none := by
  have hbegin : "\\begin\x7b".toList ++ n ++ "\x7d" = Marker.source "begin" [] n := by simp [Marker.source]
  have hend : "\\end\x7b".toList ++ n ++ "\x7d" = Marker.source "end" [] n := by simp [Marker.source]
  rw [wholeEnvironment?, hbegin]
  dsimp only
  rw [hend]
  by_cases hopening : n = name ∧ gap = []
  · obtain ⟨rfl, rfl⟩ := hopening
    rw [Text.after?_append]
    simp only [Option.bind_eq_bind, Option.bind_some, true_and]
    by_cases hclosing : gap' = []
    · subst hclosing
      have hsuffix : Text.endsWith (body ++ Marker.source "end" [] n) (Marker.source "end" [] n) = true :=
        List.isSuffixOf_iff_suffix.2 (List.suffix_append _ _)
      rw [if_pos hsuffix, if_pos rfl, Text.dropRight, List.length_append, Nat.add_sub_cancel, List.take_left]
    · have hsuffix : ¬Text.endsWith (body ++ Marker.source "end" gap' n) (Marker.source "end" [] n) = true := fun h =>
        hclosing ((source_suffix_iff hgap' body).1 (List.isSuffixOf_iff_suffix.1 h))
      rw [if_neg hsuffix, if_neg hclosing]
  · have hnone : Text.after? (Marker.source "begin" [] n) (Marker.source "begin" gap name ++ (body ++ Marker.source "end" gap' name)) = none := by
      rw [Option.eq_none_iff_forall_ne_some]
      intro r hr
      obtain ⟨h₁, h₂, -⟩ := (source_append_eq_iff hn hname hgap).1 (Text.after?_eq_some_iff.1 hr).symm
      exact hopening ⟨h₁, h₂⟩
    rw [hnone, if_neg fun h => hopening ⟨h.1, h.2.1⟩]
    rfl

/-- What an environment is unwrapped to: the body of an equation, and the aligned body of another environment. -/
def bare (name body : Text) : Text := if name = "equation" ∨ name = "equation*" then body else aligned body

/-- Names in pairs, with and without a star, are tried one after another. -/
theorem findSome?_starred {β : Type} (bases : List Text) (whole : Text → Option Text) (g h : Text → Text → β)
    (hg : ∀ base ∈ bases, ∀ n ∈ [base, base ++ ['*']], g base = h n) :
    (bases.findSome? fun base => [base, base ++ ['*']].findSome? fun n => (whole n).map (g base)) =
      (bases.flatMap fun base => [base, base ++ ['*']]).findSome? fun n => (whole n).map (h n) := by
  induction bases with
  | nil => rfl
  | cons base bases ih =>
    have hplain := hg base List.mem_cons_self base (by simp)
    have hstarred := hg base List.mem_cons_self (base ++ ['*']) (by simp)
    have hpair : ([base, base ++ ['*']].findSome? fun n => (whole n).map (g base)) =
        [base, base ++ ['*']].findSome? fun n => (whole n).map (h n) := by
      simp only [List.findSome?_cons, List.findSome?_nil, ← hplain, ← hstarred]
    rw [List.findSome?_cons, List.flatMap_cons, List.findSome?_append, hpair, ih fun b hb => hg b (List.mem_cons_of_mem base hb)]
    cases [base, base ++ ['*']].findSome? fun n => (whole n).map (h n) <;> rfl

/-- All environments are tried in turn. -/
theorem unwrap?_eq (s : Text) :
    unwrap? s = Extract.Formula.environmentNames.findSome? fun n => (wholeEnvironment? n (Text.strip s)).map (bare n) := by
  refine findSome?_starred structuredNames (fun n => wholeEnvironment? n (Text.strip s)) _ bare ?_
  have hbare : ∀ base ∈ structuredNames, ∀ n ∈ [base, base ++ ['*']],
      (n = "equation".toList ∨ n = "equation*".toList ↔ base = "equation".toList) := by decide
  intro base hbase n hn
  funext body
  exact if_congr (hbare base hbase n hn).symm rfl rfl

theorem stripRight_source (t word gap name : Text) : Text.stripRight (t ++ Marker.source word gap name) = t ++ Marker.source word gap name := by
  have hlast : t ++ Marker.source word gap name = (t ++ '\\' :: (word ++ (gap ++ '{' :: name))) ++ ['}'] := by simp [Marker.source]
  rw [hlast]
  exact Text.dropWhileRight_append_cons (by decide) _ []

theorem unwrap?_source (hname : name ∈ Extract.Formula.environmentNames) (hgap : ∀ c ∈ gap, isBlank c = true)
    (hgap' : ∀ c ∈ gap', isBlank c = true) (body : Text) :
    unwrap? (Marker.source "begin" gap name ++ (body ++ Marker.source "end" gap' name)) =
      if gap = [] ∧ gap' = [] then some (bare name body) else none := by
  have hbrace : ∀ n ∈ Extract.Formula.environmentNames, '}' ∉ n := by decide
  have hwhole (n : Text) (hn : n ∈ Extract.Formula.environmentNames) :=
    wholeEnvironment?_source (hbrace n hn) (hbrace name hname) hgap hgap' body
  rw [unwrap?_eq, strip_begin, stripRight_source]
  by_cases htight : gap = [] ∧ gap' = []
  · rw [if_pos htight]
    generalize Extract.Formula.environmentNames = names at hname hwhole
    induction names with
    | nil => cases hname
    | cons n names ih =>
      rw [List.findSome?_cons, hwhole n List.mem_cons_self]
      by_cases hn : n = name
      · rw [if_pos ⟨hn, htight⟩, hn]
        rfl
      · rw [if_neg fun h => hn h.1]
        have hmem : name ∈ names := (List.mem_cons.1 hname).resolve_left (Ne.symm hn)
        exact ih hmem fun m hm => hwhole m (List.mem_cons_of_mem n hm)
  · rw [if_neg htight]
    refine List.findSome?_eq_none_iff.2 fun n hn => ?_
    rw [hwhole n hn, if_neg fun h => htight h.2]
    rfl

end Unwrapping

/-! ## Showing a formula -/

/-- A formula at its full size. -/
def fullSize (kit : Kit) (formula : Text) : Text :=
  match kit.engine formula .block with
  | .error message =>
    "<span class=\"math-error\" style=\"color:red;\" title=\"" ++ Html.escapeQuoted message ++ "\">Math Error</span>"
  | .ok mathml => "<div class=\"math-display\">" ++ sanitize mathml ++ "</div>"

/-- A formula on one line, scaled down if it is too wide. -/
def fitted (kit : Kit) (formula : Text) : Text :=
  match kit.engine formula .block with
  | .error _ => fullSize kit formula
  | .ok _ => scaledToFit kit.settings formula (fullSize kit formula)

/-- What a displayed formula is given to the converter as, and at what size it is shown. -/
theorem render_block (kit : Kit) (s : Text) : (render kit.settings kit.engine s .block).html =
    if (unwrap? s).isSome || (clean ((unwrap? s).getD s)).includes "\\\\" then fullSize kit (clean ((unwrap? s).getD s))
    else fitted kit (clean ((unwrap? s).getD s)) := by
  rw [render]
  dsimp only
  unfold fitted fullSize
  cases kit.engine (clean ((unwrap? s).getD s)) .block with
  | error message => simp only [ite_self]
  | ok mathml =>
    dsimp only
    split <;> rfl

end Formula

namespace Extract.Formula

open Block (Table)
open Environment (takenOut)
open Galley.Formula (aligned bare fullSize fitted tidy Closed)

/-- An environment is shown as its body, at its full size. -/
def ShownBare (kit : Kit) (e : Environment) : Prop :=
  fragment kit .square e.source = fullSize kit (Galley.Formula.clean (bare e.name e.body))

/-- An environment is shown as one line of formula, with its begin marker in it. -/
def ShownMarked (kit : Kit) (e : Environment) : Prop :=
  e.opening <+: Galley.Formula.clean e.source ∧
    fragment kit .square e.source =
      if (Galley.Formula.clean e.source).includes "\\\\" then fullSize kit (Galley.Formula.clean e.source) else fitted kit (Galley.Formula.clean e.source)

theorem shown (kit : Kit) {name s : Text} {e : Environment} (hname : name ∈ environmentNames)
    (h : Environment.find? name s = some e) : e.name = name ∧ (e.IsTight → ShownBare kit e) ∧ (¬e.IsTight → ShownMarked kit e) := by
  have hplain : ∀ n ∈ environmentNames, '\\' ∉ n ∧ '$' ∉ n := by decide
  obtain ⟨rfl, gap, gap', hgap, hgap', hopening, hclosing⟩ := Environment.find?_eq_some (hplain name hname).1 h
  have hsource : e.source = Marker.source "begin" gap e.name ++ (e.body ++ Marker.source "end" gap' e.name) := by
    rw [Environment.source, hopening, hclosing, List.append_assoc]
  have hunwrap := Galley.Formula.unwrap?_source hname hgap hgap' e.body
  rw [← hsource] at hunwrap
  have hrender := Galley.Formula.render_block kit e.source
  have htight : e.IsTight ↔ gap = [] ∧ gap' = [] := by
    rw [Environment.IsTight, hopening, hclosing]
    simp [Marker.source]
  refine ⟨rfl, fun ht => ?_, fun ht => ⟨?_, ?_⟩⟩
  · rw [if_pos (htight.1 ht)] at hunwrap
    rw [hunwrap, Option.isSome_some, Bool.true_or, if_pos rfl, Option.getD_some] at hrender
    exact hrender
  · rw [hsource, Galley.Formula.clean_begin hgap (hplain _ hname), hopening]
    exact List.prefix_append _ _
  · rw [if_neg fun hgaps => ht (htight.2 hgaps)] at hunwrap
    rw [hunwrap, Option.isSome_none, Bool.false_or, Option.getD_none] at hrender
    exact hrender

/-! ## All structured formulas -/

/-- The environments that are taken out of a text under one name after another, in so many rounds each. -/
def structured (cap : Nat) : (names : List Text) → (issued : Nat) → Text → List Environment
  | [], _, _ => []
  | name :: names, issued, s =>
    let es := takenOut (Environment.find? name) .math cap issued s
    es ++ structured cap names (issued + es.length) (Environment.leftOver (Environment.find? name) .math cap issued s)

/-- The table with the fragments of formulas. -/
def storedIn (kit : Kit) (es : List Environment) (t : Table) : Table :=
  (es.map fun e => fragment kit .square e.source).foldl (fun t h => (t.register .math h).2) t

theorem issued_storedIn (kit : Kit) (es : List Environment) (t : Table) : (storedIn kit es t).issued = t.issued + es.length := by
  rw [storedIn, Table.issued_foldl_register, List.length_map]

theorem storedIn_append (kit : Kit) (es fs : List Environment) (t : Table) :
    storedIn kit (es ++ fs) t = storedIn kit fs (storedIn kit es t) := by
  rw [storedIn, List.map_append, List.foldl_append]
  rfl

/-- A round over environments of one name. -/
def round (kit : Kit) (name s : Text) : Bench (Option Text) :=
  match Environment.find name s with
  | .error _ => do
    Bench.notify (.mathUnclosed name)
    pure none
  | .ok none => pure none
  | .ok (some e) => do pure (some (e.replaceBy (← display kit e.source)))

theorem environments_eq (kit : Kit) (name s : Text) :
    environments kit name s = Bench.rounds.go name kit.settings.environmentIterationCap (round kit name) kit.settings.environmentIterationCap s :=
  rfl

theorem run_round_none (kit : Kit) {name s : Text} (h : Environment.find? name s = none) (b : BenchState) :
    ∃ b', (round kit name s).run.run b = (.ok none, b') ∧ b'.table = b.table ∧ b'.extracted = b.extracted := by
  rw [round]
  cases hfind : Environment.find name s with
  | error u => exact ⟨_, rfl, rfl, rfl⟩
  | ok e =>
    rw [Environment.find?, hfind] at h
    subst h
    exact ⟨b, rfl, rfl, rfl⟩

theorem run_round_some (kit : Kit) {name s : Text} {e : Environment} (h : Environment.find? name s = some e) (b : BenchState) :
    (round kit name s).run.run b =
      (.ok (some (e.replaceBy (Lists.ownLine (Block.Token.ofNumber .math (b.table.issued + 1))))), stored kit .square b e.source) := by
  rw [round]
  cases hfind : Environment.find name s with
  | error u =>
    rw [Environment.find?, hfind] at h
    cases h
  | ok f =>
    rw [Environment.find?, hfind] at h
    subst h
    exact Bench.run_bind_of_ok (run_render kit .square e.source b)

/-- Environments of one name are taken out one after another. -/
theorem run_rounds (kit : Kit) (name : Text) (cap : Int) (n : Nat) (s : Text) (b : BenchState) : ∃ b',
    (Bench.rounds.go name cap (round kit name) n s).run.run b =
      (.ok (Environment.leftOver (Environment.find? name) .math n b.table.issued s), b') ∧
    b'.table = storedIn kit (takenOut (Environment.find? name) .math n b.table.issued s) b.table ∧
    b'.extracted = b.extracted + (takenOut (Environment.find? name) .math n b.table.issued s).length := by
  induction n generalizing s b with
  | zero => exact ⟨_, rfl, rfl, rfl⟩
  | succ n ih =>
    rw [Bench.rounds.go, Environment.leftOver, takenOut]
    cases hfind : Environment.find? name s with
    | none =>
      obtain ⟨b', hrun, htable, hextracted⟩ := run_round_none kit hfind b
      exact ⟨b', Bench.run_bind_of_ok hrun, htable, hextracted⟩
    | some e =>
      have hrun := run_round_some kit hfind b
      obtain ⟨b', hrest, htable, hextracted⟩ := ih (e.replaceBy _) (stored kit .square b e.source)
      have hissued : (stored kit .square b e.source).table.issued = b.table.issued + 1 := Table.issued_register _ _ _
      rw [hissued] at hrest htable hextracted
      refine ⟨b', (Bench.run_bind_of_ok hrun).trans hrest, htable, ?_⟩
      rw [hextracted, List.length_cons]
      exact Nat.add_right_comm _ _ _

theorem run_names (kit : Kit) (names : List Text) (s : Text) (b : BenchState) : ∃ out b',
    (names.foldlM (fun s name => environments kit name s) s).run.run b = (.ok out, b') ∧
      b'.table = storedIn kit (structured kit.settings.environmentIterationCap names b.table.issued s) b.table ∧
      b'.extracted = b.extracted + (structured kit.settings.environmentIterationCap names b.table.issued s).length := by
  induction names generalizing s b with
  | nil => exact ⟨s, b, rfl, rfl, rfl⟩
  | cons name names ih =>
    obtain ⟨b₁, hrun, htable, hextracted⟩ := run_rounds kit name kit.settings.environmentIterationCap
      kit.settings.environmentIterationCap s b
    rw [← environments_eq] at hrun
    obtain ⟨out, b', hrest, htable', hextracted'⟩ := ih
      (Environment.leftOver (Environment.find? name) .math kit.settings.environmentIterationCap b.table.issued s) b₁
    have hissued := congrArg Table.issued htable
    rw [issued_storedIn] at hissued
    rw [hissued] at htable' hextracted'
    refine ⟨out, b', ?_, ?_, ?_⟩
    · rw [List.foldlM_cons, Bench.run_bind_of_ok hrun, hrest]
    · rw [htable', htable, structured, storedIn_append]
    · rw [hextracted', hextracted, structured, List.length_append, Nat.add_assoc]

theorem mem_structured {cap issued : Nat} {names : List Text} {s : Text} {e : Environment} (h : e ∈ structured cap names issued s) :
    ∃ name ∈ names, ∃ t, Environment.find? name t = some e := by
  induction names generalizing issued s with
  | nil => cases h
  | cons name names ih =>
    rcases List.mem_append.1 h with h | h
    · exact ⟨name, List.mem_cons_self, Environment.mem_takenOut h⟩
    · obtain ⟨m, hm, hfind⟩ := ih h
      exact ⟨m, List.mem_cons_of_mem name hm, hfind⟩

/-- **Structured formulas.** The first pass takes the environments out one after another, whatever the text, and stores what
    they are shown as. An environment without white space in its markers is given to the converter without the markers, as its
    cleaned body or its cleaned aligned body, and shown at its full size; where the braces of the body are closed, cleaning
    keeps to the inside of `aligned`. An environment with white space in a marker is given with its markers, and scaled like a
    formula on one line. -/
theorem structured_shown (kit : Kit) (s : Text) (b : BenchState) : ∃ out b',
    (environmentNames.foldlM (fun s name => environments kit name s) s).run.run b = (.ok out, b') ∧
      b'.table = storedIn kit (structured kit.settings.environmentIterationCap environmentNames b.table.issued s) b.table ∧
      b'.extracted = b.extracted + (structured kit.settings.environmentIterationCap environmentNames b.table.issued s).length ∧
      ∀ e ∈ structured kit.settings.environmentIterationCap environmentNames b.table.issued s,
        e.name ∈ environmentNames ∧ (e.IsTight → ShownBare kit e) ∧ (¬e.IsTight → ShownMarked kit e) ∧
        (Closed e.body → Galley.Formula.clean (aligned e.body) = aligned (tidy e.body)) := by
  obtain ⟨out, b', hrun, htable, hextracted⟩ := run_names kit environmentNames s b
  refine ⟨out, b', hrun, htable, hextracted, fun e he => ?_⟩
  obtain ⟨name, hname, t, hfind⟩ := mem_structured he
  obtain ⟨rfl, hbare, hmarked⟩ := shown kit hname hfind
  exact ⟨hname, hbare, hmarked, Galley.Formula.clean_aligned⟩

/-- A kit whose converter has no MathML for any formula. -/
def refusing : Kit := { engine := fun _ _ => .error [] }

def tightEquation : Text := "\\begin\x7bequation\x7dx\\end\x7bequation\x7d"

theorem structured_shown_tightEquation : ∃ out b',
    (environmentNames.foldlM (fun s name => environments refusing name s) tightEquation).run.run {} = (.ok out, b') ∧
      b'.extracted = 1 ∧ ∀ e ∈ structured 500 environmentNames 0 tightEquation, e.IsTight ∧ ShownBare refusing e := by
  have htight : ∀ e ∈ structured 500 environmentNames 0 tightEquation, e.IsTight := by decide +kernel
  have hlength : (structured 500 environmentNames 0 tightEquation).length = 1 := by decide +kernel
  obtain ⟨out, b', hrun, -, hextracted, hshown⟩ := structured_shown refusing tightEquation {}
  exact ⟨out, b', hrun, hextracted.trans hlength, fun e he => ⟨htight e he, (hshown e he).2.1 (htight e he)⟩⟩

def looseEquation : Text := "\\begin \x7bequation\x7dx\\end\x7bequation\x7d"

/-- The formulas that the converter has refused. -/
def refused (ns : List Notice) : List Text := ns.filterMap fun
  | .mathFailed _ formula _ => some formula
  | _ => none

/-- With white space in its begin marker an equation is taken out, and given to the converter with its markers. -/
theorem looseEquation_marked : ∃ out b',
    (environmentNames.foldlM (fun s name => environments refusing name s) looseEquation).run.run {} = (.ok out, b') ∧
      b'.extracted = 1 ∧ refused b'.notices = [looseEquation] := by
  have hends : (match (environmentNames.foldlM (fun s name => environments refusing name s) looseEquation).run.run {} with
      | (.ok _, b) => decide (b.extracted = 1 ∧ refused b.notices = [looseEquation])
      | (.error _, _) => false) = true := by decide +kernel
  obtain ⟨out, b', hrun, -, -⟩ := run_names refusing environmentNames looseEquation {}
  rw [hrun] at hends
  exact ⟨out, b', hrun, of_decide_eq_true hends⟩

end Extract.Formula

end Galley
