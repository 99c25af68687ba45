import Galley.Proofs.Endings
import Galley.Proofs.TokenSeams
/-!
# Code behind a block that never closes

Blocks of code are taken out from left to right, up to the first begin marker that does not close behind its options
(`Stops`): what stands from there on is left as it is (`run_go`). So of blocks that close just those behind such a marker
are left (`extract_leaves_unclosed`).
-/

namespace Galley.Extract.Code

open Bench (Ends)
open Marker (Wordy beginsAny either source)
open Repair (verbatimNames)
open Text (Done Found Misses find? readAll tally)

theorem wordy_verbatimNames : Wordy verbatimNames := ⟨by decide, by decide, by decide⟩

/-! ## Blocks -/

/-- A begin marker of the name stands in the text, and an end marker of the name somewhere behind it. -/
def HasBlock (name s : Text) : Prop :=
  ∃ before gap inside gap' after, (∀ c ∈ gap, isBlank c = true) ∧ (∀ c ∈ gap', isBlank c = true) ∧
    s = before ++ (source "begin" gap name ++ (inside ++ (source "end" gap' name ++ after)))

/-- So it is if some begin marker is read before some end marker. -/
theorem hasBlock_iff {name : Text} (hname : '\\' ∉ name) (s : Text) :
    HasBlock name s ↔ [true, false].Sublist (readAll (either name) s) := by
  have hslashed : Text.Slashed (either name) := Marker.slashed_either hname
  constructor
  · rintro ⟨before, gap, inside, gap', after, hgap, hgap', rfl⟩
    have hend : readAll (either name) (source "end" gap' name ++ after) = false :: readAll (either name) after :=
      Text.Firm.readAll_hit (Text.Slashed.firm hslashed) (Marker.either_end hgap' none after)
    have hbegin (u : Text) : readAll (either name) (source "begin" gap name ++ u) = true :: readAll (either name) u :=
      Text.Firm.readAll_hit (Text.Slashed.firm hslashed) (Marker.either_begin hgap none u)
    have hinside : [false].Sublist (readAll (either name) (inside ++ (source "end" gap' name ++ after))) := by
      refine List.Sublist.trans ?_ (hslashed.readAll_sublist_of_suffix (List.suffix_append _ _))
      rw [hend]
      exact (List.nil_sublist _).cons_cons false
    refine List.Sublist.trans ?_ (hslashed.readAll_sublist_of_suffix (List.suffix_append _ _))
    rw [hbegin]
    exact hinside.cons_cons true
  · intro h
    obtain ⟨l, l', hl, htrue, hfalse⟩ := List.cons_sublist_iff.1 h
    obtain ⟨l₁, l₂, rfl⟩ := List.append_of_mem htrue
    rw [List.append_assoc, List.cons_append] at hl
    obtain ⟨before, t, rest, rfl, hread, hrest⟩ := hslashed.readAll_eq_append hl
    obtain ⟨l₃, l₄, hl'⟩ := List.append_of_mem (List.mem_append_right l₂ (List.singleton_sublist.1 hfalse))
    rw [hl'] at hrest
    obtain ⟨inside, t', after, rfl, hread', -⟩ := hslashed.readAll_eq_append hrest
    obtain ⟨gap, hgap, rfl⟩ := Marker.either_eq_some hread
    obtain ⟨gap', hgap', rfl⟩ := Marker.either_eq_some hread'
    exact ⟨before, gap, inside, gap', after, hgap, hgap', rfl⟩

/-- End markers do not make a block with what stands behind them. -/
theorem sublist_append_ends {l m : List Bool} (hl : ∀ a ∈ l, a = false) : [true, false].Sublist (l ++ m) ↔ [true, false].Sublist m := by
  refine ⟨fun h => ?_, fun h => h.trans (List.sublist_append_right l m)⟩
  induction l with
  | nil => exact h
  | cons a l ih =>
    obtain ⟨rfl, hrest⟩ := List.forall_mem_cons.1 hl
    refine ih hrest ?_
    rw [List.cons_append] at h
    cases h with
    | cons _ h => exact h

/-- Where no begin marker is read, only end markers are. -/
theorem readAll_either_of_misses {name : Text} (hname : '\\' ∉ name) (hmem : name ∈ verbatimNames) {s : Text}
    (h : Misses (beginsAny verbatimNames) s) : ∀ a ∈ readAll (either name) s, a = false := by
  have hslashed : Text.Slashed (either name) := Marker.slashed_either hname
  intro a ha
  obtain ⟨l, l', hl⟩ := List.append_of_mem ha
  obtain ⟨x, t, rest, rfl, hread, -⟩ := hslashed.readAll_eq_append hl
  obtain ⟨gap, hgap, rfl⟩ := Marker.either_eq_some hread
  cases a with
  | false => rfl
  | true =>
    have hbegin := Marker.beginsAny_source wordy_verbatimNames.brace hgap (wordy_verbatimNames.brace name hmem) none rest
    rw [if_pos hmem] at hbegin
    have hnone := h none _ (List.suffix_append x _)
    rw [show (if true = true then "begin".toList else "end".toList) = "begin".toList from rfl, hbegin] at hnone
    cases hnone

/-! ## Where taking out stops -/

/-- What stands behind the block that a begin marker opens, if it closes behind its options. -/
def behind? (f : Found Text) : Option Text := ((language f.value f.after).2.find? (Marker.ends f.value)).map (·.after)

theorem suffix_behind? {f : Found Text} {rest : Text} (h : behind? f = some rest) : rest <:+ f.after := by
  obtain ⟨e, he, rfl⟩ := Option.map_eq_some_iff.1 h
  have hsplits := Text.find?_splits (Marker.ahead_ends _) he
  exact List.IsSuffix.trans ⟨_, hsplits⟩ (suffix_language f.value f.after)

/-- Blocks are taken out of a text from left to right. This stops behind `k` blocks in front of `r`: at the end of the text,
    or at the first begin marker that does not close. -/
inductive Stops : (k : Nat) → (s r : Text) → Prop where
  | done {s : Text} (h : Misses (beginsAny verbatimNames) s) : Stops 0 s []
  | stuck {s : Text} {f : Found Text} (hf : find? (beginsAny verbatimNames) s = some f) (hb : behind? f = none) :
      Stops 0 s (f.source ++ f.after)
  | block {k : Nat} {s rest r : Text} {f : Found Text} (hf : find? (beginsAny verbatimNames) s = some f)
      (hb : behind? f = some rest) (h : Stops k rest r) : Stops (k + 1) s r

/-- Behind a block there are fewer begin markers. -/
theorem tally_behind_lt {s rest : Text} {f : Found Text} (hf : find? (beginsAny verbatimNames) s = some f)
    (hb : behind? f = some rest) : tally (beginsAny verbatimNames) rest < tally (beginsAny verbatimNames) s := by
  have hslashed : Text.Slashed (beginsAny verbatimNames) := Wordy.slashed wordy_verbatimNames
  obtain ⟨-, hs, hread⟩ := hslashed.find?_eq_some hf
  have hle := hslashed.tally_le_of_suffix (suffix_behind? hb)
  have hhit := hslashed.tally_hit hread
  have hwhole := hslashed.tally_le_of_suffix (s := s) ⟨f.before, hs.symm⟩
  omega

/-- It stops somewhere, and behind no more blocks than there are begin markers. -/
theorem exists_stops (s : Text) : ∃ k r, Stops k s r ∧ k ≤ tally (beginsAny verbatimNames) s := by
  have hslashed : Text.Slashed (beginsAny verbatimNames) := Wordy.slashed wordy_verbatimNames
  generalize hn : tally (beginsAny verbatimNames) s = n
  induction n using Nat.strongRecOn generalizing s with
  | _ n ih =>
    cases hf : find? (beginsAny verbatimNames) s with
    | none => exact ⟨0, [], .done (hslashed.forward.misses_of_find?_eq_none (hslashed.read_nil none) hf), Nat.zero_le n⟩
    | some f =>
      cases hb : behind? f with
      | none => exact ⟨0, _, .stuck hf hb, Nat.zero_le n⟩
      | some rest =>
        have hlt := tally_behind_lt hf hb
        obtain ⟨k, r, hstops, hk⟩ := ih _ (hn ▸ hlt) rest rfl
        exact ⟨k + 1, r, .block hf hb hstops, by omega⟩

/-! ## Rounds -/

/-- One round: the block that the first begin marker opens is taken out. -/
def round (s : Text) : Bench (Option Text) := do
  match s.find? (beginsAny verbatimNames) with
  | none => pure none
  | some f =>
    let (language, rest) := language f.value f.after
    match rest.find? (Marker.ends f.value) with
    | none => do
      Bench.notify (.codeUnclosed f.value)
      pure none
    | some e => do
      let token ← Bench.register .verbatim (blockFragment language e.before)
      pure (some (f.before ++ token ++ e.after))

theorem environments_eq (kit : Kit) (s : Text) :
    environments kit s = Bench.rounds "verbatim" kit.settings.environmentIterationCap round s := rfl

section Rounds

variable {s : Text} {f : Found Text}

theorem run_round_of_misses (h : Misses (beginsAny verbatimNames) s) (b : BenchState) :
    (round s).run.run b = (.ok none, b) := by
  rw [round, h.find?_eq]
  rfl

theorem run_round_stuck (hf : find? (beginsAny verbatimNames) s = some f) (hb : behind? f = none) (b : BenchState) :
    ∃ b', (round s).run.run b = (.ok none, b') := by
  rw [round, hf]
  dsimp only
  rw [Option.map_eq_none_iff.1 hb]
  exact ⟨_, rfl⟩

theorem run_round_block {rest : Text} (hf : find? (beginsAny verbatimNames) s = some f) (hb : behind? f = some rest)
    (b : BenchState) : ∃ t b', (round s).run.run b = (.ok (some (f.before ++ (t ++ rest))), b') ∧ Placed t := by
  obtain ⟨e, he, rfl⟩ := Option.map_eq_some_iff.1 hb
  obtain ⟨t, b', hregister, ht, -⟩ := Bench.run_register .verbatim (blockFragment (language f.value f.after).1 e.before) true b
  refine ⟨t, b', ?_, ht⟩
  rw [round, hf]
  dsimp only
  rw [he]
  dsimp only
  rw [Bench.run_bind_of_ok hregister, List.append_assoc]
  rfl

end Rounds

/-! ## Runs -/

/-- A text that is done with: no block begins in it, and it reaches into nothing behind it. -/
structure Past (x : Text) : Prop where
  done : Done (beginsAny verbatimNames) x
  ends : ∀ n ∈ verbatimNames, ∀ u, ∃ l, readAll (either n) (x ++ u) = l ++ readAll (either n) u ∧ ∀ a ∈ l, a = false

theorem Past.nil : Past [] := ⟨Text.done_nil, fun _ _ _ => ⟨[], rfl, by simp⟩⟩

/-- Behind the token in the place of a block the text in front of it is done with. -/
theorem Past.put {x before t : Text} (hx : Past x) (hbefore : Misses (beginsAny verbatimNames) before) (ht : Placed t) :
    Past (x ++ (before ++ t)) := by
  have hslashed : Text.Slashed (beginsAny verbatimNames) := Wordy.slashed wordy_verbatimNames
  refine ⟨hslashed.done_fenced hx.done hbefore (wordy_verbatimNames.fences ht) ht.slash_not_mem, fun n hn u => ?_⟩
  have hname := wordy_verbatimNames.slash n hn
  have heither : Text.Slashed (either n) := Marker.slashed_either hname
  obtain ⟨l, hl, hends⟩ := hx.ends n hn (before ++ (t ++ u))
  have hfenced := heither.readAll_fenced (Marker.fences_either (wordy_verbatimNames.capital n hn) ht) ht.slash_not_mem before u
  refine ⟨l ++ readAll (either n) before, ?_, fun a ha => ?_⟩
  · rw [List.append_assoc, List.append_assoc, hl, hfenced, List.append_assoc]
  · exact (List.mem_append.1 ha).elim (hends a) (readAll_either_of_misses hname hn hbefore a)

/-- What is left of a text: the part up to `r`, in which no block begins, and `r`. -/
structure Leaves (s y r : Text) : Prop where
  split : s = y ++ r
  blocks : ∀ n ∈ verbatimNames, HasBlock n (y ++ r) ↔ HasBlock n r
  nothing : r = [] → Misses (beginsAny verbatimNames) y

/-- Where no block is taken out any more, the text is left. -/
theorem leaves_of_stops {x u r : Text} (hx : Past x) (h : Stops 0 u r) : ∃ y, Leaves (x ++ u) y r := by
  have hslashed : Text.Slashed (beginsAny verbatimNames) := Wordy.slashed wordy_verbatimNames
  -- what stands in front of `r` holds end markers only
  have hblocks {y r : Text} (hy : ∀ n ∈ verbatimNames, ∃ l, readAll (either n) (y ++ r) = l ++ readAll (either n) r ∧
      ∀ a ∈ l, a = false) : ∀ n ∈ verbatimNames, HasBlock n (y ++ r) ↔ HasBlock n r := by
    intro n hn
    obtain ⟨l, hl, hends⟩ := hy n hn
    rw [hasBlock_iff (wordy_verbatimNames.slash n hn), hasBlock_iff (wordy_verbatimNames.slash n hn), hl, sublist_append_ends hends]
  cases h with
  | done hmiss =>
    refine ⟨x ++ u, (List.append_nil _).symm, hblocks fun n hn => ?_, fun _ => ?_⟩
    · obtain ⟨l, hl, hends⟩ := hx.ends n hn u
      refine ⟨l ++ readAll (either n) u, by rw [List.append_nil, hl]; simp [readAll, Text.cut, Text.cutFrom], fun a ha => ?_⟩
      exact (List.mem_append.1 ha).elim (hends a) (readAll_either_of_misses (wordy_verbatimNames.slash n hn) hn hmiss a)
    · refine hslashed.forward.misses_of_find?_eq_none (hslashed.read_nil none) ?_
      rw [hx.done, hmiss.find?_eq, Option.map_none]
  | @stuck _ f hf hb =>
    obtain ⟨hmiss, hs, -⟩ := hslashed.find?_eq_some hf
    obtain ⟨z, -, hsource⟩ := hslashed.source_of_findFrom hf
    refine ⟨x ++ f.before, by rw [List.append_assoc, ← hs], hblocks fun n hn => ?_, fun hr => ?_⟩
    · have hname := wordy_verbatimNames.slash n hn
      have heither : Text.Slashed (either n) := Marker.slashed_either hname
      obtain ⟨l, hl, hends⟩ := hx.ends n hn (f.before ++ (f.source ++ f.after))
      refine ⟨l ++ readAll (either n) f.before, ?_, fun a ha => ?_⟩
      · rw [List.append_assoc, hl, hsource, List.cons_append, heither.readAll_append_slash, List.append_assoc]
      · exact (List.mem_append.1 ha).elim (hends a) (readAll_either_of_misses hname hn hmiss a)
    · rw [hsource] at hr
      cases hr

/-- A round ends the run there. -/
theorem run_round_of_stops {x u r : Text} (hx : Past x) (h : Stops 0 u r) (b : BenchState) :
    ∃ b', (round (x ++ u)).run.run b = (.ok none, b') := by
  have hslashed : Text.Slashed (beginsAny verbatimNames) := Wordy.slashed wordy_verbatimNames
  have hfind := hx.done u
  cases h with
  | done hmiss =>
    rw [hmiss.find?_eq, Option.map_none] at hfind
    exact ⟨b, run_round_of_misses (hslashed.forward.misses_of_find?_eq_none (hslashed.read_nil none) hfind) b⟩
  | stuck hf hb =>
    rw [hf, Option.map_some] at hfind
    exact run_round_stuck hfind hb b

/-- The rounds take out block after block and leave what stands from the first unclosed one on. -/
theorem run_go (construct : Text) (cap : Int) {k n : Nat} {x u r : Text} {b : BenchState} (hstops : Stops k u r) (hk : k ≤ n)
    (hx : Past x) : ∃ s y b', (Bench.rounds.go construct cap round n (x ++ u)).run.run b = (.ok s, b') ∧ Leaves s y r := by
  -- where no block is taken out the text stays, whether or not a round is left
  have hstop {u r : Text} (hstops : Stops 0 u r) {n : Nat} {x : Text} {b : BenchState} (hx : Past x) :
      ∃ s y b', (Bench.rounds.go construct cap round n (x ++ u)).run.run b = (.ok s, b') ∧ Leaves s y r := by
    obtain ⟨y, hleaves⟩ := leaves_of_stops hx hstops
    cases n with
    | zero => exact ⟨x ++ u, y, _, rfl, hleaves⟩
    | succ n =>
      obtain ⟨b', hround⟩ := run_round_of_stops hx hstops b
      exact ⟨x ++ u, y, b', Bench.run_bind_of_ok hround, hleaves⟩
  induction hstops generalizing n x b with
  | done h => exact hstop (.done h) hx
  | stuck hf hb => exact hstop (.stuck hf hb) hx
  | @block k s rest r f hf hb hstops ih =>
    obtain ⟨n, rfl⟩ := Nat.exists_eq_add_one_of_ne_zero (Nat.ne_of_gt (Nat.lt_of_lt_of_le (Nat.succ_pos k) hk))
    have hfind := hx.done s
    rw [hf, Option.map_some] at hfind
    obtain ⟨t, b₁, hround, ht⟩ := run_round_block hfind hb b
    have hmiss := (wordy_verbatimNames.find?_eq_some hf).1
    obtain ⟨s', y, b', hrun, hleaves⟩ := ih (n := n) (b := b₁) (Nat.le_of_succ_le_succ hk) (hx.put hmiss ht)
    rw [List.append_assoc, List.append_assoc] at hrun
    rw [List.append_assoc] at hround
    exact ⟨s', y, b', (Bench.run_bind_of_ok hround).trans hrun, hleaves⟩

/-! ## Inline code -/

/-- A piece and what is put into its place: a character, or a token for a construct. -/
def IsPut {α : Type} : Piece α → Text → Prop
  | .char c, part => part = [c]
  | .hit _ _, part => Placed part

/-- Tokens bring no markers with them. -/
theorem readAll_put_sublist {α β : Type} {marks : Reader β} (h : Text.Slashed marks)
    (hfences : ∀ t, Placed t → Text.Fences marks t) {ps : List (Piece α)} {parts : List Text} (hput : List.Forall₂ IsPut ps parts)
    (x : Text) : (readAll marks (x ++ parts.flatten)).Sublist (readAll marks (x ++ Piece.sources ps)) := by
  induction hput generalizing x with
  | nil => exact .refl _
  | @cons p part ps parts hpart _ ih =>
    cases p with
    | char c =>
      obtain rfl : part = [c] := hpart
      have hc := ih (x ++ [c])
      rw [List.append_assoc, List.append_assoc] at hc
      exact hc
    | hit a source =>
      have ht : Placed part := hpart
      have hrest : Piece.sources ps <:+ Piece.sources (Piece.hit a source :: ps) := List.suffix_append source _
      rw [List.flatten_cons, h.readAll_fenced (hfences part ht) ht.slash_not_mem]
      refine List.Sublist.trans ?_ (h.readAll_append_sublist x _)
      exact (List.Sublist.refl _).append ((ih []).trans (h.readAll_sublist_of_suffix hrest))

theorem ends_mapM_forall₂ {α β : Type} {f : α → Bench β} {R : α → β → Prop} {l : List α} (h : ∀ x ∈ l, Ends (f x) (R x)) :
    Ends (l.mapM f) (List.Forall₂ R l) := by
  induction l with
  | nil => exact .pure .nil
  | cons x l ih =>
    rw [List.mapM_cons]
    refine (h x List.mem_cons_self).bind fun a ha => ?_
    refine (ih fun y hy => h y (List.mem_cons_of_mem x hy)).bind fun as has => ?_
    exact .pure (.cons ha has)

/-- The markers of the one text are markers of the other, in the same order. -/
def Thinned (s out : Text) : Prop :=
  ∀ {β : Type} {marks : Reader β}, Text.Slashed marks → (∀ t, Placed t → Text.Fences marks t) →
    (readAll marks out).Sublist (readAll marks s)

theorem ends_replaceAllM {read : Reader Text} {put : Text → Bench Text} (hput : ∀ code, Ends (put code) Placed) (s : Text) :
    Ends (Text.replaceAllM read put s) (Thinned s) := by
  refine Ends.bind (P := List.Forall₂ IsPut (s.cut read)) (ends_mapM_forall₂ fun p _ => ?_) fun parts hparts => .pure ?_
  · cases p with
    | char c => exact .pure rfl
    | hit a source => exact hput a
  · intro β marks h hfences
    have hsublist := readAll_put_sublist h hfences hparts []
    rwa [List.nil_append, List.nil_append, Text.sources_cut] at hsublist

theorem ends_token (code : Text) : Ends (Bench.register .verbatim (inlineFragment code) false) Placed := fun _ =>
  ⟨_, _, rfl, placed_token .verbatim _ false⟩

theorem ends_inline (s : Text) : Ends (inline s) (Thinned s) := by
  refine (ends_replaceAllM ends_token s).bind fun s₁ h₁ => ?_
  refine (ends_replaceAllM ends_token s₁).bind fun s₂ h₂ => ?_
  refine (ends_replaceAllM ends_token s₂).mono fun out h₃ => ?_
  intro β marks h hfences
  exact (h₃ h hfences).trans ((h₂ h hfences).trans (h₁ h hfences))

/-- Without inline code nothing is put. -/
theorem inline_eq {s : Text} (hverb : Misses verb s) (hlstinline : Misses lstinline s) (hmintinline : Misses mintinline s) :
    inline s = pure s := by
  rw [inline, hverb.replaceAllM_eq, pure_bind, hlstinline.replaceAllM_eq, pure_bind, hmintinline.replaceAllM_eq]

/-! ## Extraction -/

/-- **Code behind an unclosed block.** Taking out code stops behind some blocks, not more than there are begin markers. If
    the rounds are enough for these, the work ends, and what the blocks leave has a begin marker with an end marker of the
    same name behind it just if what stands from the first unclosed block on has; so has the text at the end, if it holds no
    inline code. Where every begin marker is closed none is left. -/
theorem extract_leaves_unclosed (kit : Kit) (s : Text) (b : BenchState) :
    ∃ k r, Stops k s r ∧ k ≤ tally (beginsAny verbatimNames) s ∧ (k ≤ kit.settings.environmentIterationCap →
      ∃ blocksOut b₁ out b', (environments kit s).run.run b = (.ok blocksOut, b₁) ∧ (extract kit s).run.run b = (.ok out, b') ∧
        (∀ n ∈ verbatimNames, HasBlock n blocksOut ↔ HasBlock n r) ∧
        (∀ n ∈ verbatimNames, HasBlock n out → HasBlock n r) ∧
        (Misses verb blocksOut → Misses lstinline blocksOut → Misses mintinline blocksOut → out = blocksOut) ∧
        (r = [] → Misses (beginsAny verbatimNames) out)) := by
  obtain ⟨k, r, hstops, hk⟩ := exists_stops s
  refine ⟨k, r, hstops, hk, fun hcap => ?_⟩
  have hslashed : Text.Slashed (beginsAny verbatimNames) := Wordy.slashed wordy_verbatimNames
  obtain ⟨s₁, y, b₁, hrun, hsplit, hblocks, hnothing⟩ := run_go "verbatim" kit.settings.environmentIterationCap
    (b := b) hstops hcap Past.nil
  obtain ⟨out, b', hinline, hthin⟩ := ends_inline s₁ b₁
  subst hsplit
  refine ⟨y ++ r, b₁, out, b', hrun, (Bench.run_bind_of_ok hrun).trans hinline, hblocks, fun n hn hblock => ?_, ?_, ?_⟩
  · have hname := wordy_verbatimNames.slash n hn
    rw [hasBlock_iff hname] at hblock
    refine (hblocks n hn).1 ((hasBlock_iff hname _).2 (hblock.trans (hthin (Marker.slashed_either hname) fun t ht => ?_)))
    exact Marker.fences_either (wordy_verbatimNames.capital n hn) ht
  · intro hverb hlstinline hmintinline
    rw [inline_eq hverb hlstinline hmintinline] at hinline
    cases hinline
    rfl
  · rintro rfl
    have hsublist := hthin hslashed fun t ht => wordy_verbatimNames.fences ht
    rw [List.append_nil, (hnothing rfl).readAll_eq, List.sublist_nil] at hsublist
    rw [← hslashed.tally_eq_zero, tally, hsublist]
    rfl

/-- A text whose first block never closes is left as it is, if it holds no inline code. -/
theorem run_extract_stuck (kit : Kit) {s : Text} {f : Found Text} (hf : find? (beginsAny verbatimNames) s = some f)
    (hb : behind? f = none) (hverb : find? verb s = none) (hlstinline : find? lstinline s = none)
    (hmintinline : find? mintinline s = none) (b : BenchState) : ∃ b', (extract kit s).run.run b = (.ok s, b') := by
  have misses {read : Reader Text} (hforward : Text.Forward read) (hnil : read none [] = none) (h : find? read s = none) :
      Misses read s := hforward.misses_of_find?_eq_none hnil h
  obtain ⟨b', hrun⟩ : ∃ b', (environments kit s).run.run b = (.ok s, b') := by
    rw [environments_eq, Bench.rounds]
    cases (kit.settings.environmentIterationCap : Int).toNat with
    | zero => exact ⟨_, rfl⟩
    | succ n =>
      obtain ⟨b', hround⟩ := run_round_stuck hf hb b
      exact ⟨b', Bench.run_bind_of_ok hround⟩
  have hinline := inline_eq (misses (fun _ _ _ => rfl) rfl hverb) (misses (fun _ _ _ => rfl) rfl hlstinline)
    (misses (fun _ _ _ => rfl) rfl hmintinline)
  refine ⟨b', (Bench.run_bind_of_ok hrun).trans ?_⟩
  rw [hinline]
  rfl

/-- A block that closes behind one that does not. -/
def shadowed : Text := "\\begin\x7bverbatim\x7d \\begin\x7blstlisting\x7dx\\end\x7blstlisting\x7d"

/-- A block whose end marker stands where its options are. -/
def swallowed : Text := "\\begin\x7blstlisting\x7d[\\end\x7blstlisting\x7d]"

/-- Both are left as they are. -/
theorem closed_blocks_left : (tally (beginsAny verbatimNames) shadowed = 2 ∧ HasBlock "lstlisting" shadowed ∧
      ∃ b', (extract {} shadowed).run.run {} = (.ok shadowed, b')) ∧
    tally (beginsAny verbatimNames) swallowed = 1 ∧ HasBlock "lstlisting" swallowed ∧
      ∃ b', (extract {} swallowed).run.run {} = (.ok swallowed, b') := by
  let f : Found Text := ⟨[], "verbatim", "\\begin\x7bverbatim\x7d", " \\begin\x7blstlisting\x7dx\\end\x7blstlisting\x7d"⟩
  let g : Found Text := ⟨[], "lstlisting", "\\begin\x7blstlisting\x7d", "[\\end\x7blstlisting\x7d]"⟩
  refine ⟨⟨by decide, ⟨"\\begin\x7bverbatim\x7d ", [], "x", [], [], by simp, by simp, rfl⟩, ?_⟩, by decide,
    ⟨[], [], "[", [], "]", by simp, by simp, rfl⟩, ?_⟩
  · exact run_extract_stuck {} (f := f) rfl rfl rfl rfl rfl {}
  · exact run_extract_stuck {} (f := g) rfl rfl rfl rfl rfl {}

end Galley.Extract.Code
