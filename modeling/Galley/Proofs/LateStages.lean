import Galley.Proofs.Stages
/-!
# The stages after the citations

Abstract, tables, lists, algorithms, boxes and theorem-like environments are taken out of a row whole:
their bodies are calm, so rendering them ends without a fault, and none of them is ever unclosed. The
last step, which drops commands that only concern layout, finds none.
-/

namespace Galley

/-! ## Abstract and keywords -/

theorem keeps_abstractEnvironments {kit : Kit} {name : Text} (hn : isTaken name = true) {render : Text → Bench Text}
    (hr : ∀ s, Calm s → Bench.Ends (render s) fun _ => True) :
    Keeps (Extract.Abstract.environments kit name render) :=
  Keeps.environments hn (fun _ _ => do Bench.notify (.environmentUnclosed name); pure none)
    fun _ e h he => ends_put h (by rw [he]; exact hn) .env (hr e.body h.calm_body)

theorem Tame.misses_keywords {s : Text} (h : Tame s) : Text.Misses Extract.Abstract.keywordsCommand s :=
  h.misses fun _ t ht => by
    rw [Extract.Abstract.keywordsCommand, ht.command_eq_none (by decide), Option.map_none]

theorem keeps_abstract (kit : Kit) : Keeps (Extract.Abstract.extract kit) := by
  have keywords (s : Text) (hs : Calm s) : Bench.Ends (Extract.Abstract.keywordsFragment kit s) fun _ => True :=
    ((calm_formats kit).inline hs.collapse).bind fun _ _ => .pure trivial
  refine Keeps.bind (keeps_abstractEnvironments (by decide) fun s hs => ?_) <|
    Keeps.bind (keeps_abstractEnvironments (by decide) keywords) <|
    Keeps.bind (keeps_abstractEnvironments (by decide) keywords) <| Keeps.of_eq fun s hs => ?_
  · exact ((calm_formats kit).paragraphs hs).bind fun _ _ => .pure trivial
  · refine (congrArg (· >>= fun parts => pure parts.flatten) (hs.tame.misses_keywords.mapM_cut (m := Bench) _ ?_)).trans ?_
    · exact fun _ => rfl
    · rw [pure_bind, Text.flatten_map_singleton]

/-! ## Tables -/

theorem keeps_tableEnvironments {kit : Kit} {construct : Text} {names : List Text}
    (hn : ∀ n ∈ names, isTaken n = true) {render : Text → Text → Bench Text}
    (hr : ∀ n s, Calm s → Bench.Ends (render n s) fun _ => True) :
    Keeps (Extract.Table.environments kit construct names render) := by
  refine Keeps.rounds fun d k hd => ?_
  cases hname : Environment.firstName? names d.source with
  | none => exact .pure (by simp)
  | some name =>
    have ht := hn name (Row.firstName?_mem hname)
    rcases Row.find_source (brace_not_mem_of_isTaken ht) d hd with ⟨h, -⟩ | ⟨e, h, hholds, he⟩
    · simp only [h]
      exact .pure (by simp)
    · simp only [h]
      exact ends_put hholds (by rw [he]; exact ht) .table (hr name e.body hholds.calm_body)

theorem keeps_table (kit : Kit) : Keeps (Extract.Table.extract kit) := by
  refine Keeps.bind (keeps_tableEnvironments (by decide) fun _ s hs => (calm_formats kit).tableFloat hs)
    (keeps_tableEnvironments (by decide) fun n s _ => ?_)
  refine (ends_tabularFragment? kit n s).bind fun t _ => ?_
  cases t with
  | some t => exact .pure trivial
  | none => exact .pure trivial

/-! ## Lists -/

/-- Rounds that take out the first environment of some names that holds no other of them. -/
theorem keeps_leaves {construct : Text} {cap : Int} {names : List Text} (hne : names ≠ [])
    (hn : ∀ n ∈ names, isTaken n = true) {take : Environment → Bench (Option Text)}
    (htake : ∀ (d : Row) e, d.Holds e → isTaken e.name = true →
      Bench.Ends (take e) fun r => ∀ s ∈ r, Reduces d s) :
    Keeps (Bench.rounds construct cap fun s =>
      match Environment.leaf? names s with
      | none => pure none
      | some e => take e) := by
  refine Keeps.rounds fun d k hd => ?_
  cases he : Environment.leaf? names d.source with
  | none => exact .pure (by simp)
  | some e =>
    obtain ⟨h, hname⟩ := Row.leaf?_source hne (fun n hn' => brace_not_mem_of_isTaken (hn n hn')) hd he
    exact htake d e h (hn _ hname)

theorem keeps_list (kit : Kit) : Keeps (Extract.List.extract kit) :=
  keeps_leaves (by decide) (by decide) fun _ e h hn => ends_put h hn .list ((calm_formats kit).listFragment h.calm_body e.name)

/-! ## Algorithms -/

/-- The letters behind a backslash spell the beginning of `begin` or `end`. -/
theorem takeWhile_prefix_of_take {p : Char → Bool} {w : Text} {x : Char} (hx : p x = false) {t : Text}
    (h : t.take (w.length + 1) <+: w ++ [x]) : t.takeWhile p <+: w := by
  induction w generalizing t with
  | nil =>
    cases t with
    | nil => exact List.nil_prefix
    | cons c t =>
      obtain rfl := (List.cons_prefix_cons.1 h).1
      simp [hx]
  | cons a w ih =>
    cases t with
    | nil => exact List.nil_prefix
    | cons c t =>
      obtain ⟨rfl, h'⟩ := List.cons_prefix_cons.1 h
      rw [List.takeWhile_cons]
      split
      · exact List.cons_prefix_cons.2 ⟨rfl, ih h'⟩
      · exact List.nil_prefix

namespace Calm

variable {s t : Text}

theorem misses_stateBeforeReturn (h : Calm s) : Text.Misses Pseudocode.stateBeforeReturn s := by
  refine h.misses fun before t ht => ?_
  unfold Pseudocode.stateBeforeReturn
  split
  · rename_i r
    match r with
    | [] => rfl
    | c :: r => rcases ht.letter with rfl | rfl <;> rfl
  · rfl

/-- No keyword of pseudocode begins like a marker. -/
theorem ofName?_eq_none (h : Calm ('\\' :: t)) :
    Pseudocode.Keyword.ofName? ((t.takeWhile Pseudocode.isNameLetter).map foldChar) = none := by
  have hm := h.continuesMarker_rest
  simp only [continuesMarker, Bool.or_eq_true, List.isPrefixOf_iff_prefix] at hm
  have hword : ∃ w ∈ texts ["begin", "end"], t.takeWhile Pseudocode.isNameLetter <+: w := by
    rcases hm with hm | hm
    · exact ⟨"begin", by simp [texts], takeWhile_prefix_of_take (w := "begin") (x := '{') (by decide) hm⟩
    · exact ⟨"end", by simp [texts], takeWhile_prefix_of_take (w := "end") (x := '{') (by decide) hm⟩
  obtain ⟨w, hw, hp⟩ := hword
  have hall : ∀ w ∈ texts ["begin", "end"], ∀ n ≤ w.length,
      Pseudocode.Keyword.ofName? ((w.take n).map foldChar) = none := by decide
  rw [List.prefix_iff_eq_take.1 hp]
  exact hall w hw _ hp.length_le

theorem misses_commandReader (h : Calm s) : Text.Misses Pseudocode.commandReader s := by
  refine h.misses fun before t ht => ?_
  unfold Pseudocode.commandReader Pseudocode.caselessWord
  split
  · simp only [ht.ofName?_eq_none]
    rfl
  · rfl

theorem misses_label (h : Calm s) : Text.Misses (Command.simpleArgument "label") s := h.misses fun _ t ht => by
  rw [Command.simpleArgument, ht.after?_eq_none (by decide)]
  rfl

theorem dropOption (h : Calm s) : Calm (Extract.Algorithm.dropOption s) := by
  unfold Extract.Algorithm.dropOption
  split
  · rename_i hr
    exact h.of_suffix (Group.read?_rest hr)
  · exact h

theorem commandsOf_eq_nil (h : Calm s) : Extract.Algorithm.commandsOf s = [] := by
  have hd := h.dropOption
  rw [Extract.Algorithm.commandsOf, hd.misses_stateBeforeReturn.removeAll_eq, hd.misses_commandReader.sections_cut]

theorem takeCaption_eq (h : Calm s) : Extract.Algorithm.takeCaption s = (none, s) := by
  have hm : Text.Misses (fun _ s => (Command.starred? "caption" s).map ((), ·)) s := h.misses fun _ t ht => by
    rw [ht.starred_eq_none (by decide), Option.map_none]
  rw [Extract.Algorithm.takeCaption, hm.find?_eq]
  rfl

end Calm

theorem ends_algorithmFloat {s : Text} (h : Calm s) (kit : Kit) :
    Bench.Ends (Extract.Algorithm.floatFragment kit s) fun _ => True := by
  simp only [Extract.Algorithm.floatFragment, h.takeCaption_eq, pure_bind, h.misses_label.removeAll_eq]
  exact ((calm_formats kit).paragraphs h.dropOption).bind fun _ _ => .pure trivial

theorem keeps_algorithmEnvironments {kit : Kit} {name : Text} (hn : isTaken name = true) {render : Text → Bench Text}
    (hr : ∀ s, Calm s → Bench.Ends (render s) fun _ => True) :
    Keeps (Extract.Algorithm.environments kit name render) :=
  Keeps.environments hn (fun _ _ => do Bench.notify (.algorithmUnclosed name); pure none)
    fun _ e h he => ends_put h (by rw [he]; exact hn) .algo (hr e.body h.calm_body)

theorem keeps_algorithm (kit : Kit) : Keeps (Extract.Algorithm.extract kit) := by
  refine Keeps.bind (keeps_algorithmEnvironments (by decide) fun s hs => ?_) <|
    Keeps.bind (keeps_algorithmEnvironments (by decide) fun s hs => ends_algorithmFloat hs kit)
      (keeps_algorithmEnvironments (by decide) fun s hs => ends_algorithmFloat hs kit)
  simp only [Extract.Algorithm.bodyFragment, hs.commandsOf_eq_nil, Extract.Algorithm.lines, pure_bind]
  exact .pure trivial

/-! ## Boxes -/

/-- In a nested row no box is unclosed. -/
theorem ends_failUnclosed (n : Nat) {d : Row} {k : Nat} (hd : Nested k d.marks) :
    Bench.Ends (Extract.Box.failUnclosed n d.source) (· = d.source) := by
  induction n generalizing d k with
  | zero => exact .pure rfl
  | succ n ih =>
    have hbrace : ∀ name ∈ Extract.Box.environmentNames, '}' ∉ name := by decide
    rcases (Marker.finds_beginsAny hbrace).find?_source d with ⟨h, -⟩ | ⟨p, m, hm, q, a, rfl, ha, -, h⟩
    · simp only [Extract.Box.failUnclosed, h]
      exact .pure rfl
    · obtain ⟨name, hname, hx⟩ := List.exists_of_findSome?_eq_some ha
      split at hx
      · rename_i heq
        subst heq
        obtain rfl := Option.some.inj hx
        obtain ⟨j, hj⟩ := hd.suffix (a := Row.marks p) (b := Row.marks (Item.mark (.opening name) hm :: q)) (by simp)
        obtain ⟨e, he, -⟩ := Row.at?_source (hbrace name hname) p q hm hj
        obtain ⟨i, hi⟩ := hj.suffix (a := [Mark.opening name]) (b := Row.marks q) (by simp)
        simp only [Extract.Box.failUnclosed, h, he]
        refine (ih hi).bind fun t ht => .pure ?_
        rw [ht]
        simp [Item.source]
      · cases hx

theorem Tame.misses_boxCommands {s : Text} (h : Tame s) : Text.Misses (Command.readerOf Extract.Box.commandNames) s :=
  h.misses fun before _ ht => ht.readerOf_eq_none (by decide) before

theorem keeps_box (kit : Kit) : Keeps (Extract.Box.extract kit) := by
  refine Keeps.bind (Keeps.rounds fun d _ _ => ?_) (Keeps.bind (keeps_leaves (by decide) (by decide) ?_) ?_)
  · simp only [d.calm.tame.misses_boxCommands.findLast?_eq]
    exact .pure (by simp)
  · intro d e h hn
    have put (fragment : Text) (ownLine : Bool) :
        Bench.Ends (do pure (some (e.replaceBy (← Bench.register .box fragment ownLine)))) fun r =>
          ∀ s ∈ r, Reduces d s :=
      (Bench.ends_register .box fragment ownLine).bind fun t ht => .pure fun s hs => by
        obtain rfl := Option.some.inj hs
        exact h.reduces hn ht
    split
    · rename_i layout hread
      refine ((calm_formats kit).boxFragment fun t ht => ?_).bind fun f _ => put _ _
      exact h.calm_body.part (Extract.Box.readEnvironment_part hread t ht)
    · exact (Bench.ends_notify _).bind fun _ _ => put _ _
  · intro d k hd
    refine (ends_failUnclosed _ hd).mono fun s hs => ?_
    rw [hs]
    exact .refl d

/-! ## Quotes, alignment and theorems -/

theorem Tame.kindsOf_eq {s : Text} (h : Tame s) : Extract.Theorem.kindsOf s = Extract.Theorem.builtinKinds := by
  have hm : Text.Misses Extract.Theorem.declaration s := h.misses fun _ t ht => by
    have hw : Text.after? "\\newtheorem" t = none :=
      ht.after?_eq_none (show Spelled.isForeign bodyWords "newtheorem" = true by decide)
    rw [Extract.Theorem.declaration, hw]
    rfl
  rw [Extract.Theorem.kindsOf, hm.readAll_eq, List.foldl_nil]

theorem keeps_theorem (kit : Kit) : Keeps (Extract.Theorem.extract kit) := by
  intro d k hd
  simp only [Extract.Theorem.extract, d.calm.tame.kindsOf_eq]
  exact keeps_leaves (by decide) (by decide)
    (fun _ e h hn => ends_put h hn .env ((calm_formats kit).theoremLike h.calm_body _ e.name)) d k hd

/-! ## Commands that only concern layout -/

theorem Tame.dropLayoutCommands_eq {s : Text} (h : Tame s) : Extract.Strip.dropLayoutCommands s = s := by
  have hdropped : Text.Misses (Command.readerOf Extract.Strip.droppedNames) s :=
    h.misses fun before t ht => ht.readerOf_eq_none (by decide) before
  have hspacing : Text.Misses Extract.Strip.spacing s := h.misses fun _ t ht => by
    have hv : Text.after? "\\vspace" t = none := ht.after?_eq_none (show Spelled.isForeign bodyWords "vspace" = true by decide)
    have hh : Text.after? "\\hspace" t = none := ht.after?_eq_none (show Spelled.isForeign bodyWords "hspace" = true by decide)
    rw [Extract.Strip.spacing, hv, hh]
    rfl
  simp only [Extract.Strip.dropLayoutCommands, hdropped.removeAll_eq, hspacing.removeAll_eq,
    h.replace_eq (show Spelled.isForeign bodyWords "label" = true by decide),
    h.replace_eq (show Spelled.isForeign bodyWords "eqref" = true by decide),
    h.replace_eq (show Spelled.isForeign bodyWords "ref" = true by decide),
    h.replace_eq (show Spelled.isForeign bodyWords "pageref" = true by decide),
    h.replace_eq (show Spelled.isForeign bodyWords "autoref" = true by decide),
    h.replace_eq (show Spelled.isForeign bodyWords "footnote" = true by decide)]

end Galley
