import Galley.Proofs.CommandWords
import Galley.Proofs.Endings
import Galley.Proofs.LeafEnvironments
import Galley.Proofs.Nesting
/-!
# Boxes that are left

The rounds over box commands take the last one each time, until none is left (`run_commands`); those over environments take
a leaf each time, until none is left (`Peels`). A box that holds one that is never closed is no leaf. It closes, though, so
the sweep over what is left passes over it (`Sweeps`), and its begin marker stays (`Sweeps.misses_iff`).
-/

namespace Galley.Extract.Box

open Bench (Gives Quiet)
open Command (adjacent endsInName readerOf startsCommand)
open Environment (SomeCloses leaf?)
open Marker (Wordy beginsAny)
open Text (Misses findLast? find? tally)

theorem wordy_environmentNames : Wordy environmentNames := ⟨by decide, by decide, by decide⟩

theorem letters_commandNames : ∀ n ∈ commandNames, Text.Letters n := by decide

theorem capital_commandNames : ∀ n ∈ commandNames, 'L' ∉ n := by decide

/-- How many box commands there are in a text. -/
abbrev commandCount (s : Text) : Nat := tally (readerOf commandNames) s

/-- The names in the begin markers of box environments, and how many there are. -/
abbrev begins (s : Text) : List Text := Text.readAll (beginsAny environmentNames) s

abbrev beginCount (s : Text) : Nat := tally (beginsAny environmentNames) s

/-! ## Commands -/

/-- One round over the commands. -/
def commandRound (kit : Kit) (s : Text) : Bench (Option Text) := do
  match s.findLast? (readerOf commandNames) with
  | none => pure none
  | some f =>
    match readCommand f.value f.after with
    | .ok (some content) => do
      let (fragment, rest) ← commandFragment kit f.value content
      pure (some (f.before ++ (← Bench.register .box fragment false) ++ rest))
    | _ => do
      Bench.notify (.boxArguments f.value)
      pure (some (f.before ++ (← Bench.register .box failure false) ++ f.after))

theorem commands_eq (kit : Kit) :
    commands kit = Bench.rounds "box" kit.settings.environmentIterationCap (commandRound kit) := rfl

theorem quiet_commandFragment (kit : Kit) (name : Text) (content : Content) : Quiet (commandFragment kit name content) := by
  cases content with
  | paragraphs width content rest => exact (Quiet.paragraphs kit content).bind fun _ => .pure _
  | line content rest => exact (Quiet.inline kit _).bind fun _ => .pure _

theorem gives_commandFragment (kit : Kit) (name : Text) (content : Content) :
    Gives (commandFragment kit name content) fun r => r.2 = content.rest := by
  cases content with
  | paragraphs width content rest => exact (Gives.any _).bind fun _ _ => .pure rfl
  | line content rest => exact (Gives.any _).bind fun _ _ => .pure rfl

/-- A token takes the place of the last command, and of its arguments if they are read. -/
inductive CommandPut (s : Text) : Text → Prop where
  | put {f : Text.Found Text} {v rest : Text} (hf : findLast? (readerOf commandNames) s = some f) (hrest : rest <:+ f.after)
      (ht : Placed ('L' :: v)) : CommandPut s (f.before ++ ('L' :: v ++ rest))

namespace CommandPut

variable {s s' : Text}

/-- The command is taken out, and so is one whose name ends in front of it, without a token of its own. -/
theorem count (h : CommandPut s s') : ∃ lost : Bool, commandCount s' + lost.toNat + 1 = commandCount s ∧
    adjacent commandNames s = (lost || adjacent commandNames s') := by
  cases h with
  | @put f v rest hf hrest ht =>
    obtain ⟨hmem, hs, hword, hafter⟩ := Command.findLast?_eq_some letters_commandNames hf
    have hnone : commandCount (v ++ rest) = 0 := by
      rw [commandCount, Command.tally_append_of_not_mem fun hm => ht.slash_not_mem (List.mem_cons_of_mem _ hm)]
      exact Nat.le_zero.1 (hafter ▸ Command.tally_suffix letters_commandNames hrest)
    have hglued : commandCount (f.before ++ 'L' :: (v ++ rest)) + (endsInName commandNames f.before).toNat =
        commandCount f.before + commandCount (v ++ rest) :=
      Command.tally_glued letters_commandNames capital_commandNames f.before (v ++ rest)
    have hlast : commandCount (f.before ++ '\\' :: (f.value ++ f.after)) = commandCount f.before + 1 :=
      Command.tally_last letters_commandNames hmem hword hafter f.before
    have hstarts : startsCommand commandNames ('\\' :: (f.value ++ f.after)) = true := by
      rw [startsCommand, hword, List.contains_eq_mem, decide_eq_true hmem]
    have hbehind : commandCount (f.value ++ f.after) = 0 := by
      have hslash : '\\' ∉ f.value := fun hm => absurd (letters_commandNames _ hmem _ hm) (by decide)
      rw [commandCount, Command.tally_append_of_not_mem hslash, hafter]
    refine ⟨endsInName commandNames f.before, ?_, ?_⟩
    · rw [← hs] at hlast
      rw [List.cons_append]
      omega
    · conv_lhs => rw [hs]
      exact Command.adjacent_put letters_commandNames capital_commandNames hstarts hbehind hnone

theorem begins_sublist (h : CommandPut s s') : (begins s').Sublist (begins s) := by
  cases h with
  | @put f v rest hf hrest ht =>
    obtain ⟨-, hs, -, -⟩ := Command.findLast?_eq_some letters_commandNames hf
    have hsuffix : rest <:+ '\\' :: (f.value ++ f.after) :=
      hrest.trans ((List.suffix_append f.value f.after).trans (List.suffix_cons '\\' _))
    conv_rhs => rw [hs]
    exact Text.Slashed.readAll_put_sublist (Wordy.slashed wordy_environmentNames) (wordy_environmentNames.fences ht)
      ht.slash_not_mem f.before hsuffix

end CommandPut

theorem run_commandRound {kit : Kit} {s : Text} {r : Option Text} {b b' : BenchState}
    (h : (commandRound kit s).run.run b = (.ok r, b')) : (r = none ∧ b' = b ∧ commandCount s = 0) ∨
      ∃ s', r = some s' ∧ CommandPut s s' ∧ b'.extracted = b.extracted + 1 := by
  rw [commandRound] at h
  cases hf : findLast? (readerOf commandNames) s with
  | none =>
    simp only [hf] at h
    obtain ⟨rfl, rfl⟩ := Bench.run_pure_ok h
    exact .inl ⟨rfl, rfl, Command.tally_of_findLast?_eq_none hf⟩
  | some f =>
    simp only [hf] at h
    refine .inr ?_
    have hput {fragment rest : Text} {b₁ : BenchState} (hrest : rest <:+ f.after) (hb : b₁.extracted = b.extracted)
        (h : (do pure (some (f.before ++ (← Bench.register .box fragment false) ++ rest)) : Bench _).run.run b₁ = (.ok r, b')) :
        ∃ s', r = some s' ∧ CommandPut s s' ∧ b'.extracted = b.extracted + 1 := by
      obtain ⟨v, b₂, hregister, ht, hcount⟩ := Bench.run_register_inLine .box fragment b₁
      rw [Bench.run_bind_of_ok hregister] at h
      obtain ⟨rfl, rfl⟩ := Bench.run_pure_ok h
      exact ⟨_, rfl, List.append_assoc _ _ _ ▸ .put hf hrest ht, by rw [hcount, hb]⟩
    split at h
    · rename_i content hread
      obtain ⟨⟨fragment, rest⟩, b₁, hfragment, hrest⟩ := Bench.run_bind_ok h
      obtain rfl : rest = content.rest := gives_commandFragment kit f.value content b _ b₁ hfragment
      have hkept := (quiet_commandFragment kit f.value content b).extracted
      rw [hfragment] at hkept
      exact hput (readCommand_part hread).2 hkept hrest
    · obtain ⟨_, b₁, hnotify, hrest⟩ := Bench.run_bind_ok h
      have hkept := (Quiet.notify (.boxArguments f.value) b).extracted
      rw [hnotify] at hkept
      exact hput (List.suffix_refl _) hkept hrest

/-- The rounds take out all commands, unless one command stands directly in front of another. -/
theorem run_go_commands {kit : Kit} {construct : Text} {cap : Int} {n : Nat} {s out : Text} {b b' : BenchState}
    (hn : commandCount s ≤ n) (h : (Bench.rounds.go construct cap (commandRound kit) n s).run.run b = (.ok out, b')) :
    commandCount out = 0 ∧ (begins out).Sublist (begins s) ∧ b'.extracted ≤ b.extracted + commandCount s ∧
      (b'.extracted = b.extracted + commandCount s ↔ adjacent commandNames s = false) := by
  have hnothing {s : Text} (hs : commandCount s = 0) {b : BenchState} :
      b.extracted = b.extracted + commandCount s ↔ adjacent commandNames s = false := by
    rw [hs]
    exact iff_of_true rfl (Command.adjacent_of_tally letters_commandNames hs)
  induction n generalizing s b with
  | zero =>
    obtain ⟨rfl, hb⟩ : s = out ∧ b'.extracted = b.extracted := by
      cases h
      exact ⟨rfl, rfl⟩
    have hs : commandCount s = 0 := Nat.le_zero.1 hn
    rw [hb]
    exact ⟨hs, List.Sublist.refl _, Nat.le_add_right _ _, hnothing hs⟩
  | succ n ih =>
    obtain ⟨r, b₁, hround, hrest⟩ := Bench.run_bind_ok h
    rcases run_commandRound hround with ⟨rfl, rfl, hs⟩ | ⟨s', rfl, hput, hb⟩
    · obtain ⟨rfl, rfl⟩ := Bench.run_pure_ok hrest
      exact ⟨hs, List.Sublist.refl _, Nat.le_add_right _ _, hnothing hs⟩
    · obtain ⟨lost, hcount, hadjacent⟩ := hput.count
      obtain ⟨hout, hbegins, hle, heq⟩ := ih (by omega) hrest
      refine ⟨hout, hbegins.trans hput.begins_sublist, by omega, ?_⟩
      rw [hadjacent, Bool.or_eq_false_iff, ← heq]
      cases lost with
      | true => exact iff_of_false (by simp only [Bool.toNat_true] at hcount; omega) (by simp)
      | false =>
        simp only [Bool.toNat_false] at hcount
        rw [and_iff_right rfl]
        omega

/-! ## Environments -/

/-- One round over the environments. -/
def environmentRound (kit : Kit) (s : Text) : Bench (Option Text) := do
  match Environment.leaf? environmentNames s with
  | none => pure none
  | some e =>
    match readEnvironment e.name e.body with
    | .ok layout => do
      let (fragment, ownLine) ← environmentFragment kit layout
      pure (some (e.replaceBy (← Bench.register .box fragment ownLine)))
    | .error _ => do
      Bench.notify (.boxOptions e.name)
      pure (some (e.replaceBy (← Bench.register .box failure)))

theorem environments_eq (kit : Kit) (s : Text) : environments kit s =
    Bench.rounds "box environment" kit.settings.environmentIterationCap (environmentRound kit) s >>=
      fun s => failUnclosed s.length s := rfl

/-- One after another leaves give way to tokens. -/
inductive Peels : Text → Text → Prop where
  | done (s : Text) : Peels s s
  | leaf {s t out : Text} {e : Environment} (he : leaf? environmentNames s = some e) (ht : Placed t)
      (h : Peels (e.replaceBy t) out) : Peels s out

theorem run_environmentRound {kit : Kit} {s : Text} {r : Option Text} {b b' : BenchState}
    (h : (environmentRound kit s).run.run b = (.ok r, b')) : (r = none ∧ b' = b ∧ leaf? environmentNames s = none) ∨
      ∃ e t, leaf? environmentNames s = some e ∧ r = some (e.replaceBy t) ∧ Placed t ∧ b'.extracted = b.extracted + 1 := by
  rw [environmentRound] at h
  cases he : leaf? environmentNames s with
  | none =>
    simp only [he] at h
    obtain ⟨rfl, rfl⟩ := Bench.run_pure_ok h
    exact .inl ⟨rfl, rfl, rfl⟩
  | some e =>
    simp only [he] at h
    refine .inr ⟨e, ?_⟩
    have hput {fragment : Text} {ownLine : Bool} {b₁ : BenchState} (hb : b₁.extracted = b.extracted)
        (h : (do pure (some (e.replaceBy (← Bench.register .box fragment ownLine))) : Bench _).run.run b₁ = (.ok r, b')) :
        ∃ t, some e = some e ∧ r = some (e.replaceBy t) ∧ Placed t ∧ b'.extracted = b.extracted + 1 := by
      obtain ⟨t, b₂, hregister, ht, hcount⟩ := Bench.run_register .box fragment ownLine b₁
      rw [Bench.run_bind_of_ok hregister] at h
      obtain ⟨rfl, rfl⟩ := Bench.run_pure_ok h
      exact ⟨t, rfl, rfl, ht, by rw [hcount, hb]⟩
    split at h
    · rename_i layout hread
      obtain ⟨⟨fragment, ownLine⟩, b₁, hfragment, hrest⟩ := Bench.run_bind_ok h
      have hkept := (Quiet.boxFragment kit layout b).extracted
      rw [hfragment] at hkept
      exact hput hkept hrest
    · obtain ⟨_, b₁, hnotify, hrest⟩ := Bench.run_bind_ok h
      have hkept := (Quiet.notify (.boxOptions e.name) b).extracted
      rw [hnotify] at hkept
      exact hput hkept hrest

theorem environmentNames_ne_nil : environmentNames ≠ [] := List.cons_ne_nil _ _

/-- A leaf takes no command with it that was not there. -/
theorem commandCount_leaf {s t : Text} {e : Environment} (he : leaf? environmentNames s = some e) (ht : Placed t) :
    commandCount (e.replaceBy t) ≤ commandCount s := by
  obtain ⟨-, -, gap, gap', -, -, hs⟩ := Environment.leaf?_eq_some environmentNames_ne_nil he
  have hsource : s = e.before ++ '\\' :: ("begin" ++ (gap ++ '{' :: (e.name ++ ['}'])) ++
      (e.body ++ Marker.source "end" gap' e.name) ++ e.after) := by
    conv_lhs => rw [hs]
    simp [Marker.source]
  conv_rhs => rw [hsource]
  rw [Environment.replaceBy, List.append_assoc]
  exact Command.tally_put_slash_le letters_commandNames capital_commandNames ht e.before (List.suffix_append _ _)

/-- No begin markers are made. -/
theorem Peels.sublist {s out : Text} (h : Peels s out) : (begins out).Sublist (begins s) := by
  induction h with
  | done s => exact List.Sublist.refl _
  | @leaf s t out e he ht _ ih =>
    have hsplits := Environment.leaf?_splits he
    rw [Environment.Splits, List.append_assoc] at hsplits
    refine ih.trans ?_
    rw [Environment.replaceBy, List.append_assoc]
    conv_rhs => rw [← hsplits]
    exact Text.Slashed.readAll_put_sublist (Wordy.slashed wordy_environmentNames) (wordy_environmentNames.fences ht)
      ht.slash_not_mem e.before (List.suffix_append _ _)

/-- The rounds take out leaves until none is left. -/
theorem run_go_environments {kit : Kit} {construct : Text} {cap : Int} {n : Nat} {s out : Text} {b b' : BenchState}
    (hn : beginCount s ≤ n) (h : (Bench.rounds.go construct cap (environmentRound kit) n s).run.run b = (.ok out, b')) :
    Peels s out ∧ leaf? environmentNames out = none ∧ commandCount out ≤ commandCount s ∧
      b'.extracted + beginCount out = b.extracted + beginCount s := by
  induction n generalizing s b with
  | zero =>
    obtain ⟨rfl, hb⟩ : s = out ∧ b'.extracted = b.extracted := by
      cases h
      exact ⟨rfl, rfl⟩
    have hslashed : Text.Slashed (beginsAny environmentNames) := Wordy.slashed wordy_environmentNames
    have hmiss := hslashed.tally_eq_zero.1 (Nat.le_zero.1 hn)
    exact ⟨.done s, Environment.leaf?_eq_none environmentNames_ne_nil hmiss, Nat.le_refl _, by rw [hb]⟩
  | succ n ih =>
    obtain ⟨r, b₁, hround, hrest⟩ := Bench.run_bind_ok h
    rcases run_environmentRound hround with ⟨rfl, rfl, hnone⟩ | ⟨e, t, he, rfl, ht, hb⟩
    · obtain ⟨rfl, rfl⟩ := Bench.run_pure_ok hrest
      exact ⟨.done s, hnone, Nat.le_refl _, rfl⟩
    · have hcount : beginCount (e.replaceBy t) + 1 = beginCount s :=
        wordy_environmentNames.tally_leaf environmentNames_ne_nil he ht
      obtain ⟨hpeels, hnone, hcommands, hextracted⟩ := ih (by omega) hrest
      exact ⟨.leaf he ht hpeels, hnone, hcommands.trans (commandCount_leaf he ht), by omega⟩

/-! ## Boxes that never close -/

/-- The sweep goes over a text from left to right: a begin marker that closes stays, and another gives way to a token. -/
inductive Sweeps : Text → Text → Prop where
  | done {s : Text} (h : Misses (beginsAny environmentNames) s) : Sweeps s s
  | keep {s out : Text} {f : Text.Found Text} (hf : find? (beginsAny environmentNames) s = some f)
      (hat : (Environment.at? f.value f.before (f.source ++ f.after)).isSome = true) (h : Sweeps f.after out) :
      Sweeps s (f.before ++ (f.source ++ out))
  | fail {s t out : Text} {f : Text.Found Text} (hf : find? (beginsAny environmentNames) s = some f)
      (hat : Environment.at? f.value f.before (f.source ++ f.after) = none) (ht : Placed t) (h : Sweeps f.after out) :
      Sweeps s (f.before ++ (t ++ out))

section Found

variable {s : Text} {f : Text.Found Text} (hf : find? (beginsAny environmentNames) s = some f)

include hf

theorem eq_of_find? : s = f.before ++ (f.source ++ f.after) :=
  (Text.Slashed.find?_eq_some (Wordy.slashed wordy_environmentNames) hf).2.1

theorem length_after : f.after.length < s.length := by
  obtain ⟨-, gap, -, hsource⟩ := wordy_environmentNames.source_of_find? hf
  have hlength := congrArg List.length (eq_of_find? hf)
  simp only [hsource, Marker.source, List.length_append, List.length_cons] at hlength
  omega

/-- The first begin marker is the only one in front of what stands behind it. -/
theorem beginCount_keep (u : Text) : beginCount (f.before ++ (f.source ++ u)) = beginCount u + 1 := by
  have hslashed : Text.Slashed (beginsAny environmentNames) := Wordy.slashed wordy_environmentNames
  obtain ⟨hmiss, -, -⟩ := hslashed.find?_eq_some hf
  obtain ⟨hname, gap, hgap, hsource⟩ := wordy_environmentNames.source_of_find? hf
  have hread := Marker.beginsAny_source wordy_environmentNames.brace hgap (wordy_environmentNames.brace _ hname) none u
  rw [if_pos hname] at hread
  have hhit := hslashed.tally_hit hread
  rw [Marker.source, List.cons_append] at hhit
  rw [hsource, Marker.source, List.cons_append, beginCount, hslashed.tally_append_slash, hslashed.tally_eq_zero.2 hmiss, hhit,
    Nat.zero_add]

theorem beginCount_fail {t : Text} (ht : Placed t) (u : Text) : beginCount (f.before ++ (t ++ u)) = beginCount u := by
  have hslashed : Text.Slashed (beginsAny environmentNames) := Wordy.slashed wordy_environmentNames
  obtain ⟨hmiss, -, -⟩ := hslashed.find?_eq_some hf
  rw [beginCount, hslashed.tally_fenced (wordy_environmentNames.fences ht) ht.slash_not_mem, hslashed.tally_eq_zero.2 hmiss,
    Nat.zero_add]

theorem beginCount_of_find? : beginCount s = beginCount f.after + 1 := by
  conv_lhs => rw [eq_of_find? hf]
  exact beginCount_keep hf f.after

end Found

namespace Sweeps

variable {s out : Text}

/-- A begin marker is left just if one of the text closes. -/
theorem misses_iff (h : Sweeps s out) : Misses (beginsAny environmentNames) out ↔ ¬SomeCloses environmentNames s := by
  have hslashed : Text.Slashed (beginsAny environmentNames) := Wordy.slashed wordy_environmentNames
  induction h with
  | done hmiss => exact iff_of_true hmiss (Environment.not_someCloses hmiss)
  | @keep s out f hf hat _ _ =>
    refine iff_of_false (fun hmiss => ?_) (not_not.2 ((wordy_environmentNames.someCloses_iff hf).2 (.inl hat)))
    have hzero := hslashed.tally_eq_zero.2 hmiss
    exact Nat.succ_ne_zero _ ((beginCount_keep hf out).symm.trans hzero)
  | @fail s t out f hf hat ht _ ih =>
    rw [← hslashed.tally_eq_zero] at ih ⊢
    rw [wordy_environmentNames.someCloses_iff hf, hat]
    exact (Eq.congr_left (beginCount_fail hf ht out)).trans (ih.trans (by simp))

/-- The sweep makes no commands. -/
theorem commandCount_le (h : Sweeps s out) : commandCount out ≤ commandCount s := by
  induction h with
  | done => exact Nat.le_refl _
  | @keep s out f hf _ _ ih =>
    obtain ⟨hname, gap, -, hsource⟩ := wordy_environmentNames.source_of_find? hf
    have hslash := wordy_environmentNames.slash _ hname
    conv_rhs => rw [eq_of_find? hf]
    rw [hsource, commandCount, Command.tally_marker letters_commandNames hslash, commandCount,
      Command.tally_marker letters_commandNames hslash]
    exact Nat.add_le_add_left ih _
  | @fail s t out f hf _ ht _ ih =>
    obtain ⟨hname, gap, -, hsource⟩ := wordy_environmentNames.source_of_find? hf
    have hput := Command.tally_put_le letters_commandNames capital_commandNames ht f.before out
    conv_rhs => rw [eq_of_find? hf, hsource, commandCount,
      Command.tally_marker letters_commandNames (wordy_environmentNames.slash _ hname)]
    refine hput.trans (Nat.add_le_add ?_ ih)
    rw [Command.tally_append_cons letters_commandNames (by decide)]
    exact Nat.le_add_right _ _

end Sweeps

/-- The sweep comes to an end, and counts the begin markers that give way. -/
theorem run_failUnclosed {n : Nat} {s : Text} (hn : s.length ≤ n) (b : BenchState) : ∃ out b',
    (failUnclosed n s).run.run b = (.ok out, b') ∧ Sweeps s out ∧ b'.extracted + beginCount out = b.extracted + beginCount s := by
  have hslashed : Text.Slashed (beginsAny environmentNames) := Wordy.slashed wordy_environmentNames
  induction n generalizing s b with
  | zero =>
    obtain rfl := List.length_eq_zero_iff.1 (Nat.le_zero.1 hn)
    exact ⟨[], b, rfl, .done (hslashed.misses (by simp)), rfl⟩
  | succ n ih =>
    rw [failUnclosed]
    cases hf : find? (beginsAny environmentNames) s with
    | none => exact ⟨s, b, rfl, .done (hslashed.forward.misses_of_find?_eq_none (hslashed.read_nil none) hf), rfl⟩
    | some f =>
      have hlength : f.after.length ≤ n := Nat.le_of_lt_succ (Nat.lt_of_lt_of_le (length_after hf) hn)
      have hbegins := beginCount_of_find? hf
      dsimp only
      cases hat : Environment.at? f.value f.before (f.source ++ f.after) with
      | some e =>
        obtain ⟨out, b', hrun, hsweeps, hextracted⟩ := ih hlength b
        refine ⟨f.before ++ (f.source ++ out), b', ?_, .keep hf (by rw [hat]; rfl) hsweeps, ?_⟩
        · dsimp only
          rw [Bench.run_bind_of_ok hrun, List.append_assoc]
          rfl
        · rw [beginCount_keep hf]
          omega
      | none =>
        have hnotify : (Bench.notify (.boxUnclosed f.value)).run.run b =
            (.ok (), { b with notices := b.notices ++ [.boxUnclosed f.value] }) := rfl
        obtain ⟨t, b₁, hregister, ht, hcount⟩ :=
          Bench.run_register .box failure true { b with notices := b.notices ++ [.boxUnclosed f.value] }
        obtain ⟨out, b', hrun, hsweeps, hextracted⟩ := ih hlength b₁
        have hcount : b₁.extracted = b.extracted + 1 := hcount
        refine ⟨f.before ++ (t ++ out), b', ?_, .fail hf hat ht hsweeps, ?_⟩
        · dsimp only
          rw [Bench.run_bind_of_ok hnotify, Bench.run_bind_of_ok hregister, Bench.run_bind_of_ok hrun, List.append_assoc]
          rfl
        · rw [beginCount_fail hf ht]
          omega

/-! ## Extraction -/

theorem unmarked_within {kit : Kit} (hkit : kit.Unmarked) : Formats kit (Within fun c => c ≠ Inline.Stash.opening) where
  part h ht := h.part ht
  inline h := (unmarked_formats hkit).inline fun hm => by simpa using h _ hm

theorem extract_ends {kit : Kit} (hkit : kit.Unmarked) {s : Text} (hs : Inline.Stash.opening ∉ s) (b : BenchState) :
    ∃ out b', (extract kit s).run.run b = (.ok out, b') := by
  have hplaceholder (c : Char) (hc : isPlaceholderChar c = true) : decide (c ≠ Inline.Stash.opening) = true := by
    rw [decide_eq_true_eq]
    rintro rfl
    revert hc
    decide
  obtain ⟨out, b', hrun, -⟩ := ends_extract (unmarked_within hkit) hplaceholder
    (fun c hc => decide_eq_true fun he => hs (he ▸ hc)) b
  exact ⟨out, b', hrun⟩

section Extraction

variable (kit : Kit) {s : Text}

/-- **Boxes that are left.** Let there be no more box commands than rounds, and no more begin markers of box environments.
    The work ends where neither the text nor the converter has a mark. When it ends no command is left, and a begin marker is
    left just if a box closes in the text that is left of leaves, as none does where all begin markers are of one name. Each
    box has a fragment of its own just if, besides, no command stands directly in front of another, and none has a box
    environment in its arguments. -/
theorem extract_boxes_left (hcommands : commandCount s ≤ kit.settings.environmentIterationCap)
    (hbegins : beginCount s ≤ kit.settings.environmentIterationCap) (b : BenchState) :
    (kit.Unmarked → Inline.Stash.opening ∉ s → ∃ out b', (extract kit s).run.run b = (.ok out, b')) ∧
    ∀ out b', (extract kit s).run.run b = (.ok out, b') → Misses (readerOf commandNames) out ∧
      ((∃ n, ∀ m ∈ begins s, m = n) → Misses (beginsAny environmentNames) out) ∧
      ∃ s₁ b₁ s₂, (commands kit s).run.run b = (.ok s₁, b₁) ∧ Peels s₁ s₂ ∧ leaf? environmentNames s₂ = none ∧
        (Misses (beginsAny environmentNames) out ↔ ¬SomeCloses environmentNames s₂) ∧
        b'.extracted ≤ b.extracted + (commandCount s + beginCount s) ∧
        (b'.extracted = b.extracted + (commandCount s + beginCount s) ↔
          adjacent commandNames s = false ∧ beginCount s₁ = beginCount s ∧ ¬SomeCloses environmentNames s₂) := by
  refine ⟨fun hkit hs => extract_ends hkit hs b, fun out b' h => ?_⟩
  have hslashed : Text.Slashed (beginsAny environmentNames) := Wordy.slashed wordy_environmentNames
  obtain ⟨s₁, b₁, hfirst, h⟩ := Bench.run_bind_ok h
  rw [environments_eq] at h
  obtain ⟨s₂, b₂, hsecond, hthird⟩ := Bench.run_bind_ok h
  have hrun := hfirst
  rw [commands_eq] at hrun
  obtain ⟨hnone, hfewer, hle, heq⟩ := run_go_commands (n := kit.settings.environmentIterationCap) hcommands hrun
  have hbegins₁ : beginCount s₁ ≤ beginCount s := hfewer.length_le
  obtain ⟨hpeels, hleaf, hcommands₂, hextracted₂⟩ :=
    run_go_environments (n := kit.settings.environmentIterationCap) (hbegins₁.trans hbegins) hsecond
  obtain ⟨out', b'', hsweep, hsweeps, hextracted⟩ := run_failUnclosed (Nat.le_refl s₂.length) b₂
  rw [hthird] at hsweep
  obtain ⟨rfl, rfl⟩ : out = out' ∧ b' = b'' := by
    cases hsweep
    exact ⟨rfl, rfl⟩
  have hmisses := hsweeps.misses_iff
  have hzero : beginCount out = 0 ↔ ¬SomeCloses environmentNames s₂ := hslashed.tally_eq_zero.trans hmisses
  refine ⟨?_, fun ⟨n, hone⟩ => ?_, s₁, b₁, s₂, hfirst, hpeels, hleaf, hmisses, by omega, ?_⟩
  · exact Command.misses_of_tally letters_commandNames (Nat.le_zero.1 (hnone ▸ hsweeps.commandCount_le.trans hcommands₂))
  · have hone₂ : ∀ m ∈ begins s₂, m = n := fun m hm => hone m ((hpeels.sublist.trans hfewer).subset hm)
    exact hmisses.2 (wordy_environmentNames.not_someCloses_of_leaf? environmentNames_ne_nil hleaf hone₂)
  · rw [← heq, ← hzero]
    omega

end Extraction

/-- A command, and minipages of which one never closes. -/
def minipages : Text := "\\fbox\x7ba\x7d\\begin\x7bminipage\x7d\\begin\x7bminipage\x7db\\end\x7bminipage\x7d"

theorem extract_boxes_left_minipages : commandCount minipages ≤ 500 ∧ beginCount minipages ≤ 500 ∧
    ∃ out b', (extract { engine := fun _ _ => .error [] } minipages).run.run {} = (.ok out, b') ∧
      Misses (readerOf commandNames) out ∧ Misses (beginsAny environmentNames) out ∧ b'.extracted ≤ 3 := by
  have hcommands : commandCount minipages ≤ 500 := by decide
  have hbegins : beginCount minipages ≤ 500 := by decide
  obtain ⟨hends, hall⟩ := extract_boxes_left { engine := fun _ _ => .error [] } hcommands hbegins {}
  obtain ⟨out, b', hrun⟩ := hends (fun _ _ => List.not_mem_nil) (by decide)
  obtain ⟨hnone, hone, _, _, _, -, -, -, -, hextracted, -⟩ := hall out b' hrun
  have hcount : commandCount minipages + beginCount minipages = 3 := by decide
  rw [hcount] at hextracted
  exact ⟨hcommands, hbegins, out, b', hrun, hnone, hone ⟨"minipage", by decide⟩, hextracted⟩

/-- A minipage that closes around a frame that never does. -/
def truncated : Text := "\\begin\x7bminipage\x7d\\begin\x7bmdframed\x7d x \\end\x7bminipage\x7d"

/-- A command in front of another one. -/
def doubled : Text := "\\fbox\\fbox\x7bx\x7d"

/-- The frame gives way to a token, and the begin marker of the minipage stays. The token of the last command makes the other
    one unreadable. -/
theorem closed_box_left : (beginCount truncated = 2 ∧ commandCount truncated = 0 ∧
      ∃ b', (extract {} truncated).run.run {} =
          (.ok "\\begin\x7bminipage\x7d\n\nLATEXPREVIEWBOX000001\n\n x \\end\x7bminipage\x7d", b') ∧ b'.extracted = 1 ∧
        ¬Misses (beginsAny environmentNames) "\\begin\x7bminipage\x7d\n\nLATEXPREVIEWBOX000001\n\n x \\end\x7bminipage\x7d") ∧
    commandCount doubled = 2 ∧
      ∃ b', (extract {} doubled).run.run {} = (.ok "\\fboxLATEXPREVIEWBOX000001", b') ∧ b'.extracted = 1 := by
  have ran {s out : Text} (h : (match (extract {} s).run.run {} with
        | (.ok t, b') => decide (t = out ∧ b'.extracted = 1)
        | (.error _, _) => false) = true) :
      ∃ b', (extract {} s).run.run {} = (.ok out, b') ∧ b'.extracted = 1 := by
    split at h
    · rename_i t b' hrun
      obtain ⟨rfl, hextracted⟩ := of_decide_eq_true h
      exact ⟨b', hrun, hextracted⟩
    · cases h
  obtain ⟨b₁, hrun₁, hextracted₁⟩ := @ran truncated
    "\\begin\x7bminipage\x7d\n\nLATEXPREVIEWBOX000001\n\n x \\end\x7bminipage\x7d" (by decide +kernel)
  obtain ⟨b₂, hrun₂, hextracted₂⟩ := @ran doubled "\\fboxLATEXPREVIEWBOX000001" (by decide +kernel)
  refine ⟨⟨by decide, by decide, b₁, hrun₁, hextracted₁, fun h => ?_⟩, by decide, b₂, hrun₂, hextracted₂⟩
  exact absurd (h none _ (List.suffix_refl _)) (by decide)

end Galley.Extract.Box
