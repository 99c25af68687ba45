import Galley.Proofs.BalancedDocuments
import Galley.Proofs.Finding
import Galley.Proofs.FreeText
/-!
# Every reduction of a free document comes to an end

Every stage leaves a free text free and does not fault on it (`Frees`): what it puts into the text are tokens and
characters of the text, and what it formats is a part of the text. The repairs keep a text free too, so a free
document is reduced without a fault (`run_ends`).
-/

namespace Galley

/-- The stage leaves a free text free, and does not fault on it. -/
def Frees (stage : Text → Bench Text) : Prop := ∀ s, Free s → Bench.Ends (stage s) Free

theorem ends_token (kind : Block.Kind) (fragment : Text) (ownLine : Bool) :
    Bench.Ends (Bench.register kind fragment ownLine) Free :=
  (Bench.ends_register kind fragment ownLine).mono fun _ ht => Free.placeholder ht

/-- A fragment takes the place of an environment. -/
theorem ends_replaceBy {s : Text} {e : Environment} (hs : Free s) (he : e.Splits s) (kind : Block.Kind)
    {render : Bench Text} (hr : Bench.Ends render fun _ => True) :
    Bench.Ends (do
      let token ← Bench.register kind (← render)
      pure (some (e.replaceBy token))) fun r => ∀ t ∈ r, Free t := by
  refine hr.bind fun fragment _ => (ends_token kind fragment true).bind fun t ht => .pure ?_
  intro u hu
  cases hu
  exact Within.replaceBy hs he ht

namespace Frees

variable {f g : Text → Bench Text}

theorem bind (hf : Frees f) (hg : Frees g) : Frees fun s => f s >>= g := fun s hs => (hf s hs).bind hg

theorem foldlM {α : Type} {l : List α} {f : Text → α → Bench Text} (hf : ∀ x ∈ l, Frees fun s => f s x) :
    Frees fun s => l.foldlM f s :=
  fun _ hs => Bench.Ends.foldlM hs fun t x hx ht => hf x hx t ht

theorem rounds {construct : Text} {cap : Int} {step : Text → Bench (Option Text)}
    (hstep : ∀ s, Free s → Bench.Ends (step s) fun r => ∀ t ∈ r, Free t) : Frees (Bench.rounds construct cap step) :=
  fun _ hs => Bench.ends_rounds_of_step hs hstep

/-- Rounds that take the first environment `name` out. -/
theorem environments {construct name : Text} {cap : Int} {unclosed : Unclosed → Text → Bench (Option Text)}
    {take : Environment → Bench (Option Text)}
    (hunclosed : ∀ u s, Free s → Bench.Ends (unclosed u s) fun r => ∀ t ∈ r, Free t)
    (htake : ∀ s e, Free s → e.Splits s → Bench.Ends (take e) fun r => ∀ t ∈ r, Free t) :
    Frees (Bench.rounds construct cap fun s =>
      match Environment.find name s with
      | .error u => unclosed u s
      | .ok none => pure none
      | .ok (some e) => take e) := by
  refine rounds fun s hs => ?_
  split
  · exact hunclosed _ s hs
  · exact .pure (by simp)
  · exact htake s _ hs (Environment.find_splits ‹_›)

/-- Rounds that take the first environment of some names out that holds no other of them. -/
theorem leaves {construct : Text} {cap : Int} {names : List Text} {take : Environment → Bench (Option Text)}
    (htake : ∀ s e, Free s → e.Splits s → Bench.Ends (take e) fun r => ∀ t ∈ r, Free t) :
    Frees (Bench.rounds construct cap fun s =>
      match Environment.leaf? names s with
      | none => pure none
      | some e => take e) := by
  refine rounds fun s hs => ?_
  split
  · exact .pure (by simp)
  · exact htake s _ hs (Environment.leaf?_splits ‹_›)

/-- Work on the pieces of a text that keeps its characters. -/
theorem pieces {α : Type} {read : Reader α} {f : Piece α → Bench Text} (hchar : ∀ c, f (.char c) = pure [c])
    (hhit : ∀ a before t rest, Free t → read before t = some (a, rest) → Bench.Ends (f (.hit a (Text.upTo t rest))) Free) :
    Frees fun s => (s.cut read).mapM f >>= fun parts => pure parts.flatten := by
  intro s hs
  refine (Bench.Ends.mapM (P := Free) fun p hp => ?_).bind fun parts hparts => .pure (Within.flatten hparts)
  rcases Text.mem_cut hp with ⟨c, hc, rfl⟩ | ⟨a, before, t, rest, rfl, ht, hr⟩
  · rw [hchar]
    exact .pure (hs.subset (by simpa using hc))
  · exact hhit a before t rest (hs.suffix ht) hr

/-- Texts in the places of constructs. -/
theorem replaceAllM {α : Type} {read : Reader α} {f : α → Bench Text}
    (h : ∀ a before t rest, Free t → read before t = some (a, rest) → Bench.Ends (f a) Free) :
    Frees (Text.replaceAllM read f) :=
  pieces (fun _ => rfl) h

end Frees

/-! ## Diagrams and images -/

variable (kit : Kit)

theorem frees_pictures : Frees (Extract.Diagram.pictures kit) := by
  have hpicture (n : Nat) (s : Text) (hs : Free s) :
      Bench.Ends (Extract.Diagram.picture kit n s) fun r => ∀ t ∈ r, Free t := by
    unfold Extract.Diagram.picture
    split
    · exact .pure (by simp)
    · rename_i f hf
      obtain ⟨hbefore, -, hafter⟩ := Within.found hs (Text.find?_splits (Marker.ahead_begins _) hf)
      have hrest : Free ((Group.read? .bracket f.after true).getD ([], f.after)).2 := by
        cases hr : Group.read? .bracket f.after true with
        | none => exact hafter
        | some p => exact Within.suffix hafter (Group.read?_rest (i := p.1) (r := p.2) hr)
      dsimp only
      split
      · exact (Bench.ends_notify _).bind fun _ _ => .pure (by simp)
      · rename_i e he
        obtain ⟨-, -, hbehind⟩ := Within.found hrest (Text.find?_splits (Marker.ahead_ends _) he)
        refine (ends_token _ _ _).bind fun t ht => .pure fun u hu => ?_
        cases hu
        exact (Within.append hbefore ht).append hbehind
  intro s hs
  unfold Extract.Diagram.pictures
  refine (Bench.ends_rounds_of_step (P := fun p => Free p.2) hs fun p hp => ?_).bind fun p hp => .pure hp
  refine (hpicture _ _ hp).bind fun r hr => .pure fun q hq => ?_
  obtain ⟨t, ht, rfl⟩ := Option.map_eq_some_iff.1 hq
  exact hr t ht

theorem frees_diagram : Frees (Extract.Diagram.extract kit) := by
  refine (frees_pictures kit).bind (Frees.foldlM fun p _ => Frees.environments (fun _ _ _ => ?_) fun s e hs he => ?_)
  · exact (Bench.ends_notify _).bind fun _ _ => .pure (by simp)
  · refine (ends_token _ _ _).bind fun t ht => .pure fun u hu => ?_
    cases hu
    exact Within.replaceBy hs he ht

theorem frees_image : Frees Extract.Image.extract := by
  refine Frees.pieces (fun _ => rfl) fun a before t rest ht _ => ?_
  cases a with
  | none => exact .pure (ht.subset (Text.upTo_subset _ _))
  | some path => exact ends_token _ _ _

/-! ## Code -/

theorem Extract.Code.suffix_sameLine? {o c : Char} {s inside rest : Text} (h : sameLine? o c s = some (inside, rest)) :
    rest <:+ s := by
  unfold sameLine? at h
  split at h
  · rename_i x inner hdrop
    split at h
    · rw [List.span_eq_takeWhile_dropWhile] at h
      dsimp only at h
      split at h
      · rename_i d r hrest
        split at h
        · cases h
          have hinner : rest <:+ inner := (List.suffix_cons d rest).trans (hrest ▸ List.dropWhile_suffix _)
          exact hinner.trans ((List.suffix_cons x inner).trans (hdrop ▸ List.dropWhile_suffix _))
        · cases h
      · cases h
    · cases h
  · cases h

theorem Extract.Code.suffix_language (name s : Text) : (language name s).2 <:+ s := by
  have hoptions {t : Text} (ht : t <:+ s) {inside rest : Text}
      (h : (if name = "minted" then sameLine? '{' '}' t else none) = some (inside, rest)) : rest <:+ s := by
    split at h
    · exact (suffix_sameLine? h).trans ht
    · cases h
  unfold language
  cases h : sameLine? '[' ']' s with
  | none =>
    dsimp only
    split
    · exact hoptions (List.suffix_refl s) ‹_›
    · exact List.suffix_refl s
  | some p =>
    obtain ⟨options, rest⟩ := p
    have hrest := suffix_sameLine? h
    dsimp only
    split
    · exact hoptions hrest ‹_›
    · exact hrest

theorem frees_code : Frees (Extract.Code.extract kit) := by
  have hput {read : Reader Text} : Frees (Text.replaceAllM read fun code =>
      Bench.register .verbatim (Extract.Code.inlineFragment code) false) :=
    Frees.replaceAllM fun _ _ _ _ _ _ => ends_token _ _ _
  refine Frees.bind (Frees.rounds fun s hs => ?_) (hput.bind (hput.bind hput))
  split
  · exact .pure (by simp)
  · rename_i f hf
    obtain ⟨hbefore, -, hafter⟩ := Within.found hs (Text.find?_splits (Marker.ahead_beginsAny _) hf)
    have hrest : Free (Extract.Code.language f.value f.after).2 :=
      Within.suffix hafter (Extract.Code.suffix_language _ _)
    dsimp only
    split
    · exact (Bench.ends_notify _).bind fun _ _ => .pure (by simp)
    · rename_i e he
      obtain ⟨-, -, hbehind⟩ := Within.found hrest (Text.find?_splits (Marker.ahead_ends _) he)
      refine (ends_token _ _ _).bind fun t ht => .pure fun u hu => ?_
      cases hu
      exact (Within.append hbefore ht).append hbehind

/-! ## Formulas -/

namespace Extract.Formula

/-- The row breaks before a delimited formula stand in the text. -/
def Breaks (read : Reader (Text × Text)) : Prop :=
  ∀ before s breaks formula rest, read before s = some ((breaks, formula), rest) → breaks ⊆ s

theorem slashes_subset (s : Text) : slashes s ⊆ s := (List.takeWhile_prefix _).subset

theorem breaks_slashDelimited (o c : Char) : Breaks (slashDelimited o c) := by
  intro before s breaks formula rest h
  unfold slashDelimited at h
  split at h
  · cases h
  · dsimp only at h
    split at h
    · cases h
    · split at h
      · split at h
        · obtain ⟨p, -, he⟩ := Option.map_eq_some_iff.1 h
          cases he
          exact fun x hx => slashes_subset s (List.mem_of_mem_dropLast hx)
        · cases h
      · cases h

theorem breaks_doubleDollar : Breaks doubleDollar := by
  intro before s breaks formula rest h
  unfold doubleDollar at h
  split at h
  · cases h
  · dsimp only at h
    split at h
    · cases h
    · split at h
      · obtain ⟨p, -, he⟩ := Option.map_eq_some_iff.1 h
        cases he
        exact slashes_subset s
      · cases h

theorem breaks_singleDollar : Breaks singleDollar := by
  intro before s breaks formula rest h
  unfold singleDollar at h
  split at h
  · cases h
  · dsimp only at h
    split at h
    · cases h
    · split at h
      · simp only [Option.bind_eq_bind, Option.bind_eq_some_iff] at h
        obtain ⟨⟨f, r⟩, -, h⟩ := h
        dsimp only at h
        split at h
        · cases h
        · cases h
          exact slashes_subset s
      · cases h

end Extract.Formula

theorem frees_formula : Frees (Extract.Formula.extract kit) := by
  have hdelimited {read : Reader (Text × Text)} (hread : Extract.Formula.Breaks read) {render : Text → Bench Text}
      (hrender : ∀ f, Bench.Ends (render f) Free) : Frees (Extract.Formula.delimited read render) := by
    refine Frees.replaceAllM fun parts before t rest ht hr => ?_
    obtain ⟨breaks, formula⟩ := parts
    exact (hrender formula).bind fun token htoken => .pure ((ht.subset (hread _ _ _ _ _ hr)).append htoken)
  have hdisplay (f : Text) : Bench.Ends (Extract.Formula.display kit f) Free :=
    (Bench.ends_math kit f .block).bind fun _ _ => ends_token _ _ _
  have hinline (f : Text) : Bench.Ends (Extract.Formula.inline kit f) Free :=
    (Bench.ends_math kit f .inline).bind fun _ _ => ends_token _ _ _
  have henvironments : Frees fun s =>
      Extract.Formula.environmentNames.foldlM (fun s name => Extract.Formula.environments kit name s) s := by
    refine Frees.foldlM fun name _ => Frees.environments (fun _ _ _ => ?_) fun s e hs he => ?_
    · exact (Bench.ends_notify _).bind fun _ _ => .pure (by simp)
    · refine (hdisplay _).bind fun t ht => .pure fun u hu => ?_
      cases hu
      exact Within.replaceBy hs he ht
  refine henvironments.bind ?_
  refine (hdelimited (Extract.Formula.breaks_slashDelimited _ _) hdisplay).bind ?_
  refine (hdelimited (Extract.Formula.breaks_slashDelimited _ _) hinline).bind ?_
  exact (hdelimited Extract.Formula.breaks_doubleDollar hdisplay).bind
    (hdelimited Extract.Formula.breaks_singleDollar hinline)

/-! ## Citations -/

theorem Free.collapse {s : Text} (h : Free s) : Free (Text.collapse s) := by
  intro c hc
  rcases Text.mem_collapse hc with hc | rfl
  · exact h c hc
  · exact Free.ascii (s := " ") (by decide) ' ' (by simp)

namespace Bibliography

theorem entriesFrom_subset {key : Option Text} {ps : List (Piece Text)} {e : Text × Text} (h : e ∈ entriesFrom key ps) :
    e.2 ⊆ Piece.sources ps := by
  induction ps generalizing key e with
  | nil =>
    cases key with
    | none => cases h
    | some k =>
      obtain rfl := List.mem_singleton.1 h
      exact List.nil_subset _
  | cons p ps ih =>
    have hrest {key : Option Text} (h : e ∈ entriesFrom key ps) : e.2 ⊆ Piece.sources (p :: ps) :=
      fun x hx => List.mem_append_right p.source (ih h hx)
    cases key with
    | none => cases p <;> exact hrest h
    | some k =>
      cases p with
      | hit k' source =>
        rcases List.mem_cons.1 h with rfl | h
        · exact List.nil_subset _
        · exact hrest h
      | char c =>
        simp only [entriesFrom] at h
        split at h
        · rename_i k' t es hes
          rcases List.mem_cons.1 h with rfl | h
          · have hfirst : (k', t) ∈ entriesFrom (some k) ps := by
              rw [hes]
              exact List.mem_cons_self
            exact List.cons_subset_cons c (ih hfirst)
          · have hmore : e ∈ entriesFrom (some k) ps := by
              rw [hes]
              exact List.mem_cons_of_mem _ h
            exact hrest hmore
        · cases h

theorem free_entries {body : Text} (h : Free body) {e : Text × Text} (he : e ∈ entries body) : Free e.2 := by
  obtain ⟨⟨key, text⟩, hmem, rfl⟩ := List.mem_map.1 he
  have ht : Free text := by
    have hsub := entriesFrom_subset hmem
    rw [Text.sources_cut] at hsub
    exact Within.subset h hsub
  exact Free.collapse (Within.replaceAll (fun _ _ _ _ _ _ => Free.ascii (by decide)) ht)

theorem free_citationLabel (numbering : Numbering) (keys : List Text) : Free (citationLabel numbering keys) := by
  have hfixed : ∀ c ∈ "[, ]?".toList, isFree c = true := List.all_eq_true.1 (by decide)
  intro c hc
  rcases mem_citationLabel hc with h | h
  · exact Free.placeholder (s := [c]) (by simp [isPlaceholderChar, h]) c List.mem_cons_self
  · exact hfixed c h

section Resolution

variable {kit : Kit} (hkit : kit.Unmarked)

include hkit

theorem ends_collect (numbered : List (Text × Nat × Text)) {body : Text} (h : Free body) :
    Bench.Ends (collect kit numbered body) fun _ => True := by
  refine (Bench.Ends.mapM (P := fun _ => True) fun e he => ?_).bind fun _ _ => .pure trivial
  have hinline := (free_formats hkit).inline (free_entries h he)
  obtain ⟨key, text⟩ := e
  dsimp only
  split
  · exact .pure trivial
  · exact hinline.bind fun _ _ => .pure trivial

theorem ends_collectAll_free (numbered : List (Text × Nat × Text)) (n : Nat) {s : Text} (h : Free s) :
    Bench.Ends (collectAll kit numbered s n) fun r => Free r.2 := by
  induction n generalizing numbered s with
  | zero => exact .pure h
  | succ n ih =>
    unfold collectAll
    split
    · exact (Bench.ends_notify _).bind fun _ _ => .pure h
    · exact .pure h
    · rename_i e he
      have hsplits := Environment.find_splits he
      obtain ⟨hbefore, -, hafter⟩ := Within.environment h hsplits
      refine (ends_collect hkit numbered (Within.body h hsplits)).bind fun numbered _ => ?_
      exact ih numbered (Within.append hbefore hafter)

theorem ends_resolve_free {s : Text} (h : Free s) : Bench.Ends (resolve kit s) fun r => Free r.markup := by
  have hrewrite (numbering : Numbering) (read : Reader (List Text)) {s : Text} (hs : Free s) :
      Free (rewrite numbering read s).1 :=
    Within.replaceAll (fun keys _ _ _ _ _ => free_citationLabel numbering keys) hs
  refine (ends_collectAll_free hkit [] _ h).bind fun r hr => ?_
  have hrest : Free (r.2.removeAll bibliographyCommand) := Within.removeAll hr
  have hmarkup (numbering : Numbering) := hrewrite numbering looseCommand <|
    hrewrite numbering looseGroup (hrewrite numbering citation hrest)
  dsimp only
  split
  · exact Bench.Ends.bind (P := fun _ => True) (.pure trivial) fun _ _ => .pure (hmarkup _)
  · refine Bench.ends_get.bind fun _ _ => (Bench.ends_set _).bind fun _ _ => ?_
    exact Bench.Ends.bind (P := fun _ => True) (.pure trivial) fun _ _ => .pure (hmarkup _)

end Resolution

end Bibliography

/-! ## Boxes -/

namespace Extract.Box

variable {kit : Kit} {ok : Char → Bool} (hformats : Formats kit (Within ok)) (hplaceholder : ∀ c, isPlaceholderChar c = true → ok c = true)

include hplaceholder

theorem ends_token (fragment : Text) (ownLine : Bool) : Bench.Ends (Bench.register .box fragment ownLine) (Within ok) :=
  (Bench.ends_register .box fragment ownLine).mono fun _ ht c hc => hplaceholder c (ht c hc)

theorem ends_failUnclosed (n : Nat) {s : Text} (hs : Within ok s) : Bench.Ends (failUnclosed n s) (Within ok) := by
  induction n generalizing s with
  | zero => exact .pure hs
  | succ n ih =>
    unfold failUnclosed
    split
    · exact .pure hs
    · rename_i f hf
      obtain ⟨hbefore, hsource, hafter⟩ := Within.found hs (Text.find?_splits (Marker.ahead_beginsAny _) hf)
      split
      · exact (ih hafter).bind fun t ht => .pure ((Within.append hbefore hsource).append ht)
      · refine (Bench.ends_notify _).bind fun _ _ => (ends_token hplaceholder _ _).bind fun t ht => ?_
        exact (ih hafter).bind fun u hu => .pure ((Within.append hbefore ht).append hu)

include hformats

theorem ends_commands {s : Text} (hs : Within ok s) : Bench.Ends (commands kit s) (Within ok) := by
  refine Bench.ends_rounds_of_step hs fun s hs => ?_
  split
  · exact .pure (by simp)
  · rename_i f hf
    obtain ⟨hbefore, -, hafter⟩ := Within.found hs (Text.findLast?_splits hf)
    split
    · rename_i content hread
      obtain ⟨htext, hrest⟩ := readCommand_part hread
      refine (hformats.boxCommand (Within.part hafter htext)).bind fun r hr => ?_
      refine (ends_token hplaceholder _ _).bind fun t ht => .pure fun u hu => ?_
      cases hu
      rw [hr]
      exact (Within.append hbefore ht).append (Within.suffix hafter hrest)
    · refine (Bench.ends_notify _).bind fun _ _ => (ends_token hplaceholder _ _).bind fun t ht => .pure fun u hu => ?_
      cases hu
      exact (Within.append hbefore ht).append hafter

/-- Taking out boxes ends if the texts over some characters are formatted, placeholders among them. -/
theorem ends_extract {s : Text} (hs : Within ok s) : Bench.Ends (extract kit s) (Within ok) := by
  refine (ends_commands hformats hplaceholder hs).bind fun s hs => Bench.Ends.bind (P := Within ok) ?_ fun s hs =>
    ends_failUnclosed hplaceholder _ hs
  refine Bench.ends_rounds_of_step hs fun s hs => ?_
  split
  · exact .pure (by simp)
  · rename_i e he
    have hsplits := Environment.leaf?_splits he
    have put (fragment : Text) (ownLine : Bool) : Bench.Ends
        (do pure (some (e.replaceBy (← Bench.register .box fragment ownLine)))) fun r => ∀ t ∈ r, Within ok t :=
      (ends_token hplaceholder fragment ownLine).bind fun t ht => .pure fun u hu => by
        cases hu
        exact Within.replaceBy hs hsplits ht
    split
    · rename_i layout hread
      have hbody := Within.body hs hsplits
      exact (hformats.boxFragment fun t ht => Within.part hbody (readEnvironment_part hread t ht)).bind fun f _ => put _ _
    · exact (Bench.ends_notify _).bind fun _ _ => put _ _

end Extract.Box

/-! ## The stages after the citations -/

section Late

variable {kit : Kit} (hkit : kit.Unmarked)

include hkit

theorem frees_abstract : Frees (Extract.Abstract.extract kit) := by
  have hformats := free_formats hkit
  have hkeywords {body : Text} (h : Free body) : Bench.Ends (Extract.Abstract.keywordsFragment kit body) fun _ => True :=
    (hformats.inline (Free.collapse h)).bind fun _ _ => .pure trivial
  have henvironments (name : Text) {render : Text → Bench Text}
      (hrender : ∀ {body}, Free body → Bench.Ends (render body) fun _ => True) :
      Frees (Extract.Abstract.environments kit name render) := by
    refine Frees.environments (fun _ _ _ => ?_) fun s e hs he => ?_
    · exact (Bench.ends_notify _).bind fun _ _ => .pure (by simp)
    · exact ends_replaceBy hs he .env (hrender (Within.body hs he))
  refine (henvironments _ fun h => ?_).bind ?_
  · exact (hformats.paragraphs h).bind fun _ _ => .pure trivial
  refine (henvironments _ hkeywords).bind ((henvironments _ hkeywords).bind ?_)
  refine Frees.pieces (fun _ => rfl) fun a before t rest ht hr => ?_
  cases a with
  | none => exact .pure (ht.subset (Text.upTo_subset _ _))
  | some body =>
    obtain ⟨r, hafter, he⟩ := Option.map_eq_some_iff.1 hr
    split at he
    · rename_i inside r' hread
      cases he
      have hr : Free r := by
        rw [Command.after?_eq hafter] at ht
        exact ht.suffix ((List.suffix_append _ r).trans (List.suffix_cons _ _))
      exact (hkeywords (hr.part (Group.read?_inside hread))).bind fun _ _ => ends_token _ _ _
    · cases he

omit hkit in
theorem ends_failUnclosedTable (name : Text) {s : Text} (hs : Free s) :
    Bench.Ends (Extract.Table.failUnclosed name s) Free := by
  refine (Bench.ends_notify _).bind fun _ _ => ?_
  split
  · exact .pure hs
  · rename_i f hf
    obtain ⟨hbefore, -, hafter⟩ := Within.found hs (Text.find?_splits (Marker.ahead_begins _) hf)
    exact (ends_token _ _ _).bind fun t ht => .pure ((Within.append hbefore ht).append hafter)

theorem frees_table : Frees (Extract.Table.extract kit) := by
  have henvironments (construct : Text) (names : List Text) {render : Text → Text → Bench Text}
      (hrender : ∀ name {body}, Free body → Bench.Ends (render name body) fun _ => True) :
      Frees (Extract.Table.environments kit construct names render) := by
    refine Frees.rounds fun s hs => ?_
    split
    · exact .pure (by simp)
    · rename_i name _
      split
      · refine (ends_failUnclosedTable name hs).bind fun t ht => .pure fun u hu => ?_
        cases hu
        exact ht
      · exact .pure (by simp)
      · have he := Environment.find_splits ‹_›
        exact ends_replaceBy hs he .table (hrender name (Within.body hs he))
  refine (henvironments _ _ fun _ _ h => (free_formats hkit).tableFloat h).bind (henvironments _ _ fun name body _ => ?_)
  refine (ends_tabularFragment? kit name body).bind fun table _ => ?_
  cases table with
  | none => exact .pure trivial
  | some table => exact .pure trivial

theorem frees_list : Frees (Extract.List.extract kit) :=
  Frees.leaves fun _ e hs he => ends_replaceBy hs he .list ((free_formats hkit).listFragment (Within.body hs he) e.name)

theorem frees_algorithm : Frees (Extract.Algorithm.extract kit) := by
  have henvironments (name : Text) {render : Text → Bench Text}
      (hrender : ∀ {body}, Free body → Bench.Ends (render body) fun _ => True) :
      Frees (Extract.Algorithm.environments kit name render) := by
    refine Frees.environments (fun _ _ _ => ?_) fun s e hs he => ?_
    · exact (Bench.ends_notify _).bind fun _ _ => .pure (by simp)
    · exact ends_replaceBy hs he .algo (hrender (Within.body hs he))
  exact (henvironments _ (Extract.Algorithm.ends_bodyFragment hkit)).bind <|
    (henvironments _ (Extract.Algorithm.ends_floatFragment hkit)).bind
      (henvironments _ (Extract.Algorithm.ends_floatFragment hkit))

theorem frees_box : Frees (Extract.Box.extract kit) := fun _ hs =>
  Extract.Box.ends_extract (free_formats hkit) (fun c hc => Free.placeholder (s := [c]) (by simpa using hc) c List.mem_cons_self) hs

theorem frees_theorem : Frees (Extract.Theorem.extract kit) := by
  intro s hs
  unfold Extract.Theorem.extract
  refine Frees.leaves (fun _ e hs he => ?_) s hs
  exact ends_replaceBy hs he .env ((free_formats hkit).theoremLike (Within.body hs he) _ e.name)

end Late

/-! ## Reduction -/

theorem frees_early (kit : Kit) : Frees fun s => Reduction.early.foldlM (Reduction.runStage kit) s := by
  refine Frees.foldlM fun stage hs s hfree => ends_runStage ?_
  simp only [Reduction.early, List.mem_cons, List.not_mem_nil, or_false] at hs
  rcases hs with rfl | rfl | rfl | rfl
  · exact frees_diagram kit s hfree
  · exact frees_image s hfree
  · exact frees_code kit s hfree
  · exact frees_formula kit s hfree

theorem frees_late {kit : Kit} (hkit : kit.Unmarked) :
    Frees fun s => Reduction.late.foldlM (Reduction.runStage kit) s := by
  refine Frees.foldlM fun stage hs s hfree => ends_runStage ?_
  simp only [Reduction.late, List.mem_cons, List.not_mem_nil, or_false] at hs
  rcases hs with rfl | rfl | rfl | rfl | rfl | rfl
  · exact frees_abstract hkit s hfree
  · exact frees_table hkit s hfree
  · exact frees_list hkit s hfree
  · exact frees_algorithm hkit s hfree
  · exact frees_box hkit s hfree
  · exact frees_theorem hkit s hfree

namespace Reduction

/-- A free document is reduced without a fault, whatever the settings are. -/
theorem run_ends {kit : Kit} (hkit : kit.Unmarked) {raw : Text} (h : Free raw) :
    Bench.Ends (run kit raw) fun _ => True := by
  have hrepaired : Free (Repair.repair raw).content := Within.repair (fun c hc _ => isFree_of_lt hc) h
  unfold run
  refine (Bench.ends_notifyAll _).bind fun _ _ => (frees_early kit _ hrepaired).bind fun s hs => ?_
  refine (Bibliography.ends_resolve_free hkit hs).bind fun citations hc => (Bench.ends_modify _).bind fun _ _ => ?_
  refine (frees_late hkit _ hc).bind fun _ _ => ?_
  exact Bench.ends_get.bind fun _ _ => .pure trivial

/-- A kit whose converter always fails. -/
def failing : Kit := { engine := fun _ _ => .error "Cannot convert" }

theorem unmarked_failing : failing.Unmarked := by
  intro formula display
  have hmessage : Inline.Stash.opening ∉ "Cannot convert".toList := by decide
  exact hmessage

theorem run_ends_failing :
    Bench.Ends (run failing "\\begin\x7balgorithmic\x7d\\STATE $x$ and \\fbox\x7b\\end\x7balgorithmic\x7d") fun _ => True :=
  run_ends unmarked_failing (by decide)

/-- A command of pseudocode that is known in the caseless sense only. -/
theorem longS_faults :
    failing.Unmarked ∧ "\\begin\x7balgorithmic\x7d\\ſtate x\\end\x7balgorithmic\x7d".toList.all (fun c => c.toNat < 57344) = true ∧
    ((run failing "\\begin\x7balgorithmic\x7d\\ſtate x\\end\x7balgorithmic\x7d").run {}).1 = .error (.unknownCommand "ſtate") := by
  have hrun : (match ((run failing "\\begin\x7balgorithmic\x7d\\ſtate x\\end\x7balgorithmic\x7d").run {}).1 with
      | .error f => decide (f = .unknownCommand "ſtate")
      | .ok _ => false) = true := by decide +kernel
  refine ⟨unmarked_failing, by decide, ?_⟩
  split at hrun
  · rename_i f hf
    rw [hf, of_decide_eq_true hrun]
  · cases hrun

-- A foreign element in what the converter returns is read and printed again, so a reference in it becomes a mark.
example : (match ((run { engine := fun _ _ => .ok "<b>&#xE000;5&#xE001;</b>" }
    "\\begin\x7bquote\x7d\\(x\\\\)\\end\x7bquote\x7d").run {}).1 with
      | .error f => decide (f = .pieceMissing)
      | .ok _ => false) = true := by decide +kernel

end Reduction

end Galley
