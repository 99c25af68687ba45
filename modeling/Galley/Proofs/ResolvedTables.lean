import Galley.Proofs.FirstMarkers
import Galley.Proofs.FreeText
import Galley.Proofs.InlineRuns
import Galley.Proofs.Quiet
import Galley.Proofs.TokenSeams
/-!
# Every table is resolved

A round looks at the first begin marker only and puts a token into its place (`run_round`), so the rounds go through a text
from left to right: what is in front of a token is done with (`Text.Slashed.done_fenced`), and each round leaves fewer begin
markers (`Outcome.tally_lt`). The one thing that can end the work is the caption of a float (`run_go_iff`).
-/

namespace Galley.Extract.Table

open Bench (Ends Quiet)
open Marker (Wordy beginsAny)
open Text (Done Found Misses find? tally)

/-- The names of all tables. -/
def allNames : List Text := floatNames ++ tabularNames

theorem wordy_floatNames : Wordy floatNames := ⟨by decide, by decide, by decide⟩

theorem wordy_tabularNames : Wordy tabularNames := ⟨by decide, by decide, by decide⟩

theorem wordy_allNames : Wordy allNames := ⟨by decide, by decide, by decide⟩

/-! ## What a begin marker opens -/

/-- The body of the environment that a begin marker opens and what stands behind it, if it closes. -/
def closing? (f : Found Text) : Option (Text × Text) :=
  (Environment.close 0 (f.after.cut (Marker.either f.value))).map fun r => (r.1, r.2.2)

/-- What is left to do behind the token that takes the place of a begin marker or of its environment. -/
def remainder (f : Found Text) : Text := ((closing? f).map Prod.snd).getD f.after

theorem remainder_suffix (f : Found Text) : remainder f <:+ f.after := by
  cases hc : Environment.close 0 (f.after.cut (Marker.either f.value)) with
  | none => simp [remainder, closing?, hc]
  | some r =>
    obtain ⟨body, closing, rest⟩ := r
    have hclose := Environment.close_eq hc
    rw [Text.sources_cut] at hclose
    simp only [remainder, closing?, hc, Option.map_some, Option.getD_some]
    exact ⟨_, hclose.symm⟩

/-! ## Rounds -/

/-- One round: the first environment is taken out, or its begin marker if it never closes. -/
def round (names : List Text) (render : Text → Text → Bench Text) (s : Text) : Bench (Option Text) := do
  match Environment.firstName? names s with
  | none => pure none
  | some name =>
    match Environment.find name s with
    | .error _ => do pure (some (← failUnclosed name s))
    | .ok none => pure none
    | .ok (some e) => do
      let token ← Bench.register .table (← render name e.body)
      pure (some (e.replaceBy token))

variable {names : List Text} {render : Text → Text → Bench Text}

/-- How a round in the state `b` ends. -/
inductive Outcome (names : List Text) (render : Text → Text → Bench Text) (s : Text) (b : BenchState) :
    Except Fault (Option Text) × BenchState → Prop where
  | nothing (h : Misses (beginsAny names) s) : Outcome names render s b (.ok none, b)
  | fault {f : Found Text} {body rest : Text} {e : Fault} {b' : BenchState} (hf : find? (beginsAny names) s = some f)
      (hc : closing? f = some (body, rest)) (hr : (render f.value body).run.run b = (.error e, b')) :
      Outcome names render s b (.error e, b')
  | put {f : Found Text} {t : Text} {b' : BenchState} (hf : find? (beginsAny names) s = some f) (ht : Placed t)
      (hr : ∀ p ∈ closing? f, ∃ fragment b₁, (render f.value p.1).run.run b = (.ok fragment, b₁))
      (hb : b'.extracted = b.extracted + 1) :
      Outcome names render s b (.ok (some (f.before ++ (t ++ remainder f))), b')

/-- A begin marker that is never closed gives way to a token. -/
theorem run_failUnclosed {name s : Text} {f : Found Unit} (hf : find? (Marker.begins name) s = some f) (b : BenchState) :
    ∃ t b', (failUnclosed name s).run.run b = (.ok (f.before ++ (t ++ f.after)), b') ∧ Placed t ∧
      b'.extracted = b.extracted + 1 := by
  have hnotify : (Bench.notify (.tableUnclosed name)).run.run b =
      (.ok (), { b with notices := b.notices ++ [.tableUnclosed name] }) := rfl
  obtain ⟨t, b', hregister, ht, hb⟩ :=
    Bench.run_register .table failure true { b with notices := b.notices ++ [.tableUnclosed name] }
  refine ⟨t, b', ?_, ht, hb⟩
  rw [failUnclosed, Bench.run_bind_of_ok hnotify, hf]
  dsimp only
  rw [Bench.run_bind_of_ok hregister, List.append_assoc]
  rfl

/-- A round looks at the first begin marker and at what stands behind it. -/
theorem run_round (h : Wordy names) (hquiet : ∀ name body, Quiet (render name body)) (s : Text) (b : BenchState) :
    Outcome names render s b ((round names render s).run.run b) := by
  rw [round, Environment.firstName?_eq h.brace]
  cases hf : find? (beginsAny names) s with
  | none =>
    have hslashed : Text.Slashed (beginsAny names) := Wordy.slashed h
    exact .nothing (hslashed.forward.misses_of_find?_eq_none (hslashed.read_nil none) hf)
  | some f =>
    obtain ⟨hfind, -, -⟩ := Marker.find?_beginsAny h.brace hf
    simp only [Option.map_some, Environment.find, hfind]
    cases hc : Environment.close 0 (f.after.cut (Marker.either f.value)) with
    | none =>
      have hclosing : closing? f = none := by rw [closing?, hc, Option.map_none]
      obtain ⟨t, b', hrun, ht, hb⟩ := run_failUnclosed hfind b
      have hput : Outcome names render s b (.ok (some (f.before ++ (t ++ remainder f))), b') := .put hf ht (by simp [hclosing]) hb
      rw [remainder, hclosing, Option.map_none, Option.getD_none] at hput
      dsimp only
      rw [Bench.run_bind_of_ok hrun]
      exact hput
    | some r =>
      obtain ⟨body, closing, rest⟩ := r
      have hclosing : closing? f = some (body, rest) := by rw [closing?, hc, Option.map_some]
      have hextracted := (hquiet f.value body b).extracted
      dsimp only
      rw [Bench.run_bind]
      cases hr : (render f.value body).run.run b with
      | mk r b₁ =>
        rw [hr] at hextracted
        cases r with
        | error e => exact .fault hf hclosing hr
        | ok fragment =>
          obtain ⟨t, b', hregister, ht, hb⟩ := Bench.run_register .table fragment true b₁
          have hput : Outcome names render s b (.ok (some (f.before ++ (t ++ remainder f))), b') := .put hf ht (by
            simp only [hclosing, Option.mem_some_iff, forall_eq']
            exact ⟨fragment, b₁, hr⟩) (by rw [hb, hextracted])
          rw [remainder, hclosing, Option.map_some, Option.getD_some] at hput
          dsimp only
          rw [Bench.run_bind_of_ok hregister, Environment.replaceBy, List.append_assoc]
          exact hput

namespace Outcome

variable {s : Text} {b b' : BenchState}

/-- Each round leaves fewer begin markers, and it takes out as many environments as there are fewer at least. -/
theorem tally_lt {all : List Text} (hall : Wordy all) (hsub : names ⊆ all) (h : Wordy names) {s' : Text}
    (ho : Outcome names render s b (.ok (some s'), b')) :
    tally (beginsAny all) s' < tally (beginsAny all) s ∧ b'.extracted = b.extracted + 1 := by
  cases ho with
  | @put f _ _ hf ht hr hb =>
    obtain ⟨-, hmem, gap, hgap, hs⟩ := h.find?_eq_some hf
    refine ⟨?_, hb⟩
    conv_rhs => rw [hs]
    exact hall.tally_put_lt (hsub hmem) f.before hgap ht (remainder_suffix f)

/-- No round makes begin markers of any names. -/
theorem tally_le {others : List Text} (hothers : Wordy others) (h : Wordy names) {s' : Text}
    (ho : Outcome names render s b (.ok (some s'), b')) : tally (beginsAny others) s' ≤ tally (beginsAny others) s := by
  cases ho with
  | @put f _ _ hf ht hr hb =>
    obtain ⟨-, -, gap, -, hs⟩ := h.find?_eq_some hf
    conv_rhs => rw [hs]
    exact hothers.tally_put_le f.before ht ((remainder_suffix f).trans (List.suffix_append _ _))

end Outcome

/-! ## Runs -/

/-- The begin markers in the text that work comes to, if it comes to one. -/
def leftOver (names : List Text) : Except Fault Text → Nat
  | .ok s => tally (beginsAny names) s
  | .error _ => 0

section Runs

variable {construct : Text} {cap : Int} (h : Wordy names) (hquiet : ∀ name body, Quiet (render name body))

include h hquiet

/-- A run that ends leaves no begin marker if there were not more than rounds, and it never makes any. -/
theorem run_go_ok {n : Nat} {s out : Text} {b b' : BenchState}
    (hrun : (Bench.rounds.go construct cap (round names render) n s).run.run b = (.ok out, b')) :
    (tally (beginsAny names) s ≤ n → Misses (beginsAny names) out) ∧
      ∀ others, Wordy others → tally (beginsAny others) out ≤ tally (beginsAny others) s := by
  induction n generalizing s b with
  | zero =>
    obtain rfl : s = out := by
      cases hrun
      rfl
    have hslashed : Text.Slashed (beginsAny names) := Wordy.slashed h
    exact ⟨fun hn => hslashed.tally_eq_zero.1 (Nat.le_zero.1 hn), fun _ _ => Nat.le_refl _⟩
  | succ n ih =>
    obtain ⟨r, b₁, hround, hrest⟩ := Bench.run_bind_ok hrun
    have ho := run_round h hquiet s b
    rw [hround] at ho
    cases r with
    | none =>
      obtain ⟨rfl, -⟩ := Bench.run_pure_ok hrest
      cases ho with
      | nothing hmiss => exact ⟨fun _ => hmiss, fun _ _ => Nat.le_refl _⟩
    | some s₁ =>
      obtain ⟨hmiss, hfewer⟩ := ih hrest
      have hlt := (ho.tally_lt h (List.Subset.refl names) h).1
      exact ⟨fun hn => hmiss (by omega), fun others hothers => (hfewer others hothers).trans (ho.tally_le hothers h)⟩

/-- However a run ends, it takes out no more than there are begin markers fewer. -/
theorem extracted_go {all : List Text} (hall : Wordy all) (hsub : names ⊆ all) (n : Nat) (s : Text) (b : BenchState) :
    ((Bench.rounds.go construct cap (round names render) n s).run.run b).2.extracted +
      leftOver all ((Bench.rounds.go construct cap (round names render) n s).run.run b).1 ≤
      b.extracted + tally (beginsAny all) s := by
  induction n generalizing s b with
  | zero => exact Nat.le_refl _
  | succ n ih =>
    have ho := run_round h hquiet s b
    rw [Bench.rounds.go, Bench.run_bind]
    cases hround : (round names render s).run.run b with
    | mk r b₁ =>
      rw [hround] at ho
      cases r with
      | error e =>
        cases ho with
        | @fault f body _ _ _ hf hc hr =>
          have hkept := (hquiet f.value body b).extracted
          rw [hr] at hkept
          exact hkept.le.trans (Nat.le_add_right _ _)
      | ok r =>
        cases r with
        | none =>
          cases ho with
          | nothing => exact Nat.le_refl _
        | some s₁ =>
          obtain ⟨hlt, hextracted⟩ := ho.tally_lt hall hsub h
          have hnext := ih s₁ b₁
          dsimp only
          omega

end Runs

/-! ## What ends the work -/

/-- The environments that are taken out of a text: the one that the first begin marker opens, if it closes, and those that
    are taken out of what is left behind it. -/
inductive Taken (names : List Text) : Text → Text → Text → Prop where
  | here {s body rest : Text} {f : Found Text} (hf : find? (beginsAny names) s = some f)
      (hc : closing? f = some (body, rest)) : Taken names s f.value body
  | behind {s name body : Text} {f : Found Text} (hf : find? (beginsAny names) s = some f)
      (h : Taken names (remainder f) name body) : Taken names s name body

theorem after_part (h : Wordy names) {s : Text} {f : Found Text} (hf : find? (beginsAny names) s = some f) :
    f.after <:+: s := by
  obtain ⟨-, -, gap, -, hs⟩ := h.find?_eq_some hf
  rw [hs, ← List.append_assoc]
  exact (List.suffix_append _ _).isInfix

theorem Taken.part {s name body : Text} (h : Wordy names) (ht : Taken names s name body) : body <:+: s := by
  induction ht with
  | @here s body rest f hf hc =>
    obtain ⟨⟨body', closing, rest'⟩, hclose, he⟩ := Option.map_eq_some_iff.1 hc
    obtain ⟨rfl, rfl⟩ := Prod.mk.inj he
    have hafter := Environment.close_eq hclose
    rw [Text.sources_cut] at hafter
    refine List.IsInfix.trans ?_ (after_part h hf)
    rw [hafter, List.append_assoc]
    exact (List.prefix_append _ _).isInfix
  | @behind s name body f hf _ ih => exact ih.trans ((remainder_suffix f).isInfix.trans (after_part h hf))

/-- Some bodies can be shown, and the work of showing another one ends with a fault. -/
def Renders (fits : Text → Text → Prop) (render : Text → Text → Bench Text) : Prop :=
  ∀ name body b, (∃ t b', (render name body).run.run b = (.ok t, b')) ↔ fits name body

/-- The rounds go on up to the first environment that cannot be shown. -/
theorem run_go_iff (construct : Text) (cap : Int) (h : Wordy names) (hquiet : ∀ name body, Quiet (render name body))
    {fits : Text → Text → Prop} (hfits : Renders fits render) {n : Nat} {x u : Text} {b : BenchState}
    (hx : Done (beginsAny names) x) (hn : tally (beginsAny names) u ≤ n) :
    (∃ out b', (Bench.rounds.go construct cap (round names render) n (x ++ u)).run.run b = (.ok out, b')) ↔
      ∀ name body, Taken names u name body → fits name body := by
  have hslashed : Text.Slashed (beginsAny names) := Wordy.slashed h
  -- nothing is taken out of a text without begin markers
  have hnothing {u : Text} (hu : Misses (beginsAny names) u) : ∀ name body, Taken names u name body → fits name body := by
    intro name body ht
    cases ht with
    | here hf =>
      rw [hu.find?_eq] at hf
      cases hf
    | behind hf =>
      rw [hu.find?_eq] at hf
      cases hf
  induction n generalizing x u b with
  | zero => exact ⟨fun _ => hnothing (hslashed.tally_eq_zero.1 (Nat.le_zero.1 hn)), fun _ => ⟨_, _, rfl⟩⟩
  | succ n ih =>
    have ho := run_round h hquiet (x ++ u) b
    rw [Bench.rounds.go, Bench.run_bind]
    cases hround : (round names render (x ++ u)).run.run b with
    | mk r b₁ =>
      rw [hround] at ho
      cases ho with
      | nothing hmiss => exact ⟨fun _ => hnothing (hmiss.of_suffix (List.suffix_append x u)), fun _ => ⟨_, _, rfl⟩⟩
      | @fault f' body rest e b' hf' hc hr =>
        rw [hx] at hf'
        obtain ⟨f, hf, rfl⟩ := Option.map_eq_some_iff.1 hf'
        refine iff_of_false (fun ⟨_, _, he⟩ => by cases he) fun hall => ?_
        obtain ⟨t, b₂, ht⟩ := (hfits f.value body b).2 (hall _ _ (.here hf hc))
        rw [hr] at ht
        cases ht
      | @put f' t b' hf' ht hr hb =>
        rw [hx] at hf'
        obtain ⟨f, hf, rfl⟩ := Option.map_eq_some_iff.1 hf'
        have hdone : Done (beginsAny names) (x ++ (f.before ++ t)) :=
          hslashed.done_fenced hx (h.find?_eq_some hf).1 (h.fences ht) ht.slash_not_mem
        have hle : tally (beginsAny names) (remainder f) ≤ n := by
          obtain ⟨-, hmem, gap, hgap, hu⟩ := h.find?_eq_some hf
          have hlt := h.tally_put_lt hmem f.before hgap ht (remainder_suffix f)
          have hsuffix := hslashed.tally_le_of_suffix (s := f.before ++ (t ++ remainder f)) (t := remainder f)
            ⟨f.before ++ t, List.append_assoc _ _ _⟩
          rw [← hu] at hlt
          omega
        have hrest := ih (b := b₁) hdone hle
        simp only [List.append_assoc] at hrest ⊢
        refine hrest.trans ⟨fun hall name body htaken => ?_, fun hall name body htaken => hall name body (.behind hf htaken)⟩
        cases htaken with
        | @here _ body rest g hg hc =>
          obtain rfl := Option.some.inj (hf.symm.trans hg)
          obtain ⟨fragment, b₂, hfragment⟩ := hr _ hc
          exact (hfits _ _ b).1 ⟨fragment, b₂, hfragment⟩
        | @behind _ _ _ g hg htaken =>
          obtain rfl := Option.some.inj (hf.symm.trans hg)
          exact hall name body htaken

/-! ## Captions -/

/-- The caption of a float, if it has one, can be formatted. -/
def Captioned (kit : Kit) (body : Text) : Prop :=
  ∀ c ∈ caption? body, ∃ t, Inline.format kit.settings kit.engine (Text.strip c.2.1.first) = .ok t

theorem ends_floatFragment {kit : Kit} {body : Text} (h : Captioned kit body) :
    Ends (floatFragment kit body) fun _ => True := by
  unfold floatFragment
  split
  · rename_i before args rest hc
    obtain ⟨t, ht⟩ := h _ hc
    have hinline : Ends (Bench.inline kit (Text.strip args.first)) fun _ => True := by
      refine (Bench.ends_notifyAll _).bind fun _ _ => ?_
      rw [show Inline.format kit.settings kit.engine (Text.strip args.first) = .ok t from ht]
      exact .pure trivial
    exact hinline.bind fun _ _ => ends_floatTable kit _ _
  · exact ends_floatTable kit _ _

/-- A caption that cannot be formatted ends the work on its float. -/
theorem comes_floatFragment {kit : Kit} {body : Text} (h : ¬Captioned kit body) :
    ∃ e, Bench.Comes (floatFragment kit body) (.error e) := by
  simp only [Captioned, not_forall] at h
  obtain ⟨⟨before, args, rest⟩, hc, h⟩ := h
  cases hformat : Inline.format kit.settings kit.engine (Text.strip args.first) with
  | ok t => exact absurd ⟨t, hformat⟩ h
  | error e =>
    have hcomes := Bench.Comes.inline kit (Text.strip args.first)
    rw [hformat] at hcomes
    refine ⟨e, ?_⟩
    unfold floatFragment
    rw [Option.mem_def.1 hc]
    exact hcomes.stop _

theorem renders_float (kit : Kit) : Renders (fun _ body => Captioned kit body) fun _ body => floatFragment kit body := by
  intro _ body b
  refine ⟨fun ⟨t, b', hrun⟩ => Classical.byContradiction fun h => ?_, fun h => ?_⟩
  · obtain ⟨e, he⟩ := comes_floatFragment h
    obtain ⟨ns, hns⟩ := he b
    rw [hns] at hrun
    cases hrun
  · obtain ⟨t, b', hrun, -⟩ := ends_floatFragment h b
    exact ⟨t, b', hrun⟩

theorem renders_tabular (kit : Kit) : Renders (fun _ _ => True) (tabularBlock kit) := by
  intro name body b
  have hends : Ends (tabularBlock kit name body) fun _ => True := by
    refine (ends_tabularFragment? kit name body).bind fun table _ => ?_
    cases table with
    | some t => exact .pure trivial
    | none => exact .pure trivial
  obtain ⟨t, b', hrun, -⟩ := hends b
  exact iff_of_true ⟨t, b', hrun⟩ trivial

theorem captioned_of_unmarked {kit : Kit} (hkit : kit.Unmarked) {body : Text} (h : Inline.Stash.opening ∉ body) :
    Captioned kit body := by
  intro c hc
  have hpart : Text.strip c.2.1.first <:+: body := (Text.strip_part _).trans (caption?_part (Option.mem_def.1 hc))
  exact Inline.format_ok Inline.alphabet_unmarked hkit.converts (.of_not_mem fun hm => h (hpart.subset hm))

/-! ## Extraction -/

/-- One round over the floats, and one over the tabulars that are left. -/
def floatRound (kit : Kit) : Text → Bench (Option Text) := round floatNames fun _ body => floatFragment kit body

def tabularRound (kit : Kit) : Text → Bench (Option Text) := round tabularNames (tabularBlock kit)

theorem extract_eq (kit : Kit) (s : Text) : extract kit s =
    Bench.rounds "table" kit.settings.environmentIterationCap (floatRound kit) s >>=
      Bench.rounds "tabular" kit.settings.environmentIterationCap (tabularRound kit) := rfl

theorem extracted_rounds (construct : Text) (cap : Int) (h : Wordy names) (hquiet : ∀ name body, Quiet (render name body))
    {all : List Text} (hall : Wordy all) (hsub : names ⊆ all) (s : Text) (b : BenchState) :
    ((Bench.rounds construct cap (round names render) s).run.run b).2.extracted +
      leftOver all ((Bench.rounds construct cap (round names render) s).run.run b).1 ≤
      b.extracted + tally (beginsAny all) s :=
  extracted_go h hquiet hall hsub cap.toNat s b

/-- Where no marker of two families is read, none of both together is. -/
theorem misses_append {names names' : List Text} {s : Text} (h : Misses (beginsAny names) s) (h' : Misses (beginsAny names') s) :
    Misses (beginsAny (names ++ names')) s := by
  intro b t ht
  have hn := h b t ht
  rw [beginsAny] at hn ⊢
  rw [List.findSome?_append, hn]
  exact h' b t ht

/-- A round over tables leaves fewer begin markers. -/
theorem tally_round_lt (h : Wordy names) (hquiet : ∀ name body, Quiet (render name body)) {s s' : Text} {b b' : BenchState}
    (hrun : (round names render s).run.run b = (.ok (some s'), b')) :
    tally (beginsAny names) s' < tally (beginsAny names) s :=
  ((hrun ▸ run_round h hquiet s b : Outcome names render s b (.ok (some s'), b')).tally_lt h (List.Subset.refl names) h).1

section Extraction

variable (kit : Kit) {s : Text}

theorem quiet_float : ∀ _ body : Text, Quiet (floatFragment kit body) := fun _ body => Quiet.tableFloat kit body

/-- Only a caption ends the work. -/
theorem extract_ends_iff (hfloats : tally (beginsAny floatNames) s ≤ kit.settings.environmentIterationCap)
    (htabulars : tally (beginsAny tabularNames) s ≤ kit.settings.environmentIterationCap) (b : BenchState) :
    (∃ out b', (extract kit s).run.run b = (.ok out, b')) ↔ ∀ name body, Taken floatNames s name body → Captioned kit body := by
  rw [← run_go_iff "table" kit.settings.environmentIterationCap (b := b) wordy_floatNames (quiet_float kit)
    (renders_float kit) Text.done_nil hfloats, List.nil_append, extract_eq]
  refine ⟨fun ⟨out, b', hrun⟩ => ?_, fun ⟨s₁, b₁, hrun⟩ => ?_⟩
  · obtain ⟨s₁, b₁, hfirst, -⟩ := Bench.run_bind_ok hrun
    exact ⟨s₁, b₁, hfirst⟩
  · have hfewer := (run_go_ok wordy_floatNames (quiet_float kit) hrun).2 _ wordy_tabularNames
    obtain ⟨out, b', hrest⟩ := (run_go_iff "tabular" kit.settings.environmentIterationCap (b := b₁)
      wordy_tabularNames (Quiet.tabularBlock kit) (renders_tabular kit) Text.done_nil (hfewer.trans htabulars)).2 fun _ _ _ => trivial
    exact ⟨out, b', (Bench.run_bind_of_ok hrun).trans hrest⟩

theorem extract_misses (hfloats : tally (beginsAny floatNames) s ≤ kit.settings.environmentIterationCap)
    (htabulars : tally (beginsAny tabularNames) s ≤ kit.settings.environmentIterationCap) {b b' : BenchState} {out : Text}
    (hrun : (extract kit s).run.run b = (.ok out, b')) : Misses (beginsAny allNames) out := by
  have hslashed : Text.Slashed (beginsAny floatNames) := Wordy.slashed wordy_floatNames
  rw [extract_eq] at hrun
  obtain ⟨s₁, b₁, hfirst, hsecond⟩ := Bench.run_bind_ok hrun
  obtain ⟨hmiss, hfewer⟩ := run_go_ok wordy_floatNames (quiet_float kit) hfirst
  obtain ⟨hmiss', hfewer'⟩ := run_go_ok wordy_tabularNames (Quiet.tabularBlock kit) hsecond
  -- the second rounds make no floats
  have hleft := hfewer' _ wordy_floatNames
  rw [hslashed.tally_eq_zero.2 (hmiss hfloats)] at hleft
  exact misses_append (hslashed.tally_eq_zero.1 (Nat.le_zero.1 hleft)) (hmiss' ((hfewer _ wordy_tabularNames).trans htabulars))

theorem extract_extracted (s : Text) (b : BenchState) :
    ((extract kit s).run.run b).2.extracted ≤ b.extracted + tally (beginsAny allNames) s := by
  have hfirst := extracted_rounds "table" kit.settings.environmentIterationCap wordy_floatNames
    (quiet_float kit) wordy_allNames (List.subset_append_left _ _) s b
  rw [extract_eq, Bench.run_bind]
  change (Prod.snd ((Bench.rounds "table" kit.settings.environmentIterationCap (floatRound kit) s).run.run b)).extracted +
    leftOver allNames (Prod.fst ((Bench.rounds "table" kit.settings.environmentIterationCap (floatRound kit) s).run.run b)) ≤ _ at hfirst
  generalize (Bench.rounds "table" kit.settings.environmentIterationCap (floatRound kit) s).run.run b = r at hfirst ⊢
  obtain ⟨_ | s₁, b₁⟩ := r
  · exact (Nat.le_add_right _ _).trans hfirst
  · have hsecond := extracted_rounds "tabular" kit.settings.environmentIterationCap wordy_tabularNames
      (Quiet.tabularBlock kit) wordy_allNames (List.subset_append_right _ _) s₁ b₁
    exact (Nat.le_add_right _ _).trans (hsecond.trans hfirst)

/-- **Every table is resolved.** Let there be no more begin markers of floats than rounds, and no more of tabulars. When the
    work ends no begin marker is left. It ends just if the captions of the floats that it takes out can be formatted, as they
    can where neither the text nor the converter has a mark. No more is taken out than there are begin markers, and each
    round leaves fewer of them. -/
theorem extract_resolves (hfloats : tally (beginsAny floatNames) s ≤ kit.settings.environmentIterationCap)
    (htabulars : tally (beginsAny tabularNames) s ≤ kit.settings.environmentIterationCap) (b : BenchState) :
    (∀ out b', (extract kit s).run.run b = (.ok out, b') → Misses (beginsAny allNames) out) ∧
    ((∃ out b', (extract kit s).run.run b = (.ok out, b')) ↔
      ∀ name body, Taken floatNames s name body → Captioned kit body) ∧
    (kit.Unmarked → Inline.Stash.opening ∉ s → ∃ out b', (extract kit s).run.run b = (.ok out, b')) ∧
    ((extract kit s).run.run b).2.extracted ≤ b.extracted + tally (beginsAny allNames) s ∧
    (∀ s s' b b', (floatRound kit s).run.run b = (.ok (some s'), b') →
      tally (beginsAny floatNames) s' < tally (beginsAny floatNames) s) ∧
    ∀ s s' b b', (tabularRound kit s).run.run b = (.ok (some s'), b') →
      tally (beginsAny tabularNames) s' < tally (beginsAny tabularNames) s := by
  have hends := extract_ends_iff kit hfloats htabulars b
  refine ⟨fun out b' => extract_misses kit hfloats htabulars, hends, fun hkit hs => hends.2 fun name body htaken => ?_,
    extract_extracted kit s b, fun _ _ _ _ => tally_round_lt wordy_floatNames (quiet_float kit),
    fun _ _ _ _ => tally_round_lt wordy_tabularNames (Quiet.tabularBlock kit)⟩
  exact captioned_of_unmarked hkit fun hm => hs ((htaken.part wordy_floatNames).subset hm)

end Extraction

/-- Floats and tabulars that end in each other, and one that never ends. -/
def crossed : Text :=
  "\\begin\x7btable\x7d\\begin\x7btabular\x7da\\end\x7btable\x7d\\end\x7btabular\x7d\\begin\x7btable*\x7d\\begin\x7blongtable\x7d"

theorem extract_resolves_crossed : tally (beginsAny floatNames) crossed ≤ 500 ∧ tally (beginsAny tabularNames) crossed ≤ 500 ∧
    ∃ out b', (extract { engine := fun _ _ => .error [] } crossed).run.run {} = (.ok out, b') ∧
      Misses (beginsAny allNames) out ∧ b'.extracted ≤ 4 := by
  have hfloats : tally (beginsAny floatNames) crossed ≤ 500 := by decide
  have htabulars : tally (beginsAny tabularNames) crossed ≤ 500 := by decide
  obtain ⟨hmiss, -, hends, hextracted, -⟩ := extract_resolves { engine := fun _ _ => .error [] } hfloats htabulars {}
  obtain ⟨out, b', hrun⟩ := hends (fun _ _ => List.not_mem_nil) (by decide)
  have hall : tally (beginsAny allNames) crossed = 4 := by decide
  rw [hrun, hall] at hextracted
  exact ⟨hfloats, htabulars, out, b', hrun, hmiss out b' hrun, hextracted⟩

/-- A float whose caption is a mark that names no piece. -/
def marked : Text := "\\begin\x7btable\x7d\\caption\x7b" ++ Inline.Stash.mark 0 ++ "\x7d\\end\x7btable\x7d"

theorem marked_not_extracted : tally (beginsAny floatNames) marked = 1 ∧ tally (beginsAny tabularNames) marked = 0 ∧
    ¬∃ out b', (extract {} marked).run.run {} = (.ok out, b') := by
  have hfloats : tally (beginsAny floatNames) marked = 1 := by decide
  have htabulars : tally (beginsAny tabularNames) marked = 0 := by decide
  refine ⟨hfloats, htabulars, fun hends => ?_⟩
  have hall := (extract_ends_iff {} (by rw [hfloats]; decide) (by rw [htabulars]; decide) {}).1 hends
  let f : Found Text := ⟨[], "table", "\\begin\x7btable\x7d", "\\caption\x7b" ++ Inline.Stash.mark 0 ++ "\x7d\\end\x7btable\x7d"⟩
  have htaken : Taken floatNames marked f.value ("\\caption\x7b" ++ Inline.Stash.mark 0 ++ "\x7d") := .here rfl rfl
  obtain ⟨t, ht⟩ := hall _ _ htaken ([], ⟨none, [Inline.Stash.mark 0]⟩, []) rfl
  have hformat := Inline.format_mark ({} : Kit).settings ({} : Kit).engine
  have hstrip : Text.strip (Inline.Stash.mark 0) = Inline.Stash.mark 0 := by decide
  rw [Arguments.first, List.headD_cons, hstrip, hformat] at ht
  cases ht

end Galley.Extract.Table
