import Galley.Proofs.Endings
import Galley.Proofs.Trades
import Mathlib.Algebra.GroupWithZero.Nat
/-!
# The trades of the stages

Every stage does nothing to the text and the table but trades. So a run leads from the repaired document and an empty
table to the reduced markup and the final table by trades, and counts each token that it hands out (`run_trades`).
-/

namespace Galley

open Bench (Quiet Turns Puts puts_register)

/-! ## Diagrams and images -/

variable (kit : Kit)

theorem turns_picture (k : Nat) (s : Text) : Turns (·.getD s) s (Extract.Diagram.picture kit k s) := by
  unfold Extract.Diagram.picture
  split
  · exact .pure rfl
  · rename_i f hf
    obtain ⟨hsplits, hopening⟩ := (Marker.takes_begins _).find? hf
    have hrest : ((Group.read? .bracket f.after true).getD ([], f.after)).2 <:+ f.after := by
      cases hr : Group.read? .bracket f.after true with
      | none => exact List.suffix_refl _
      | some p => exact Group.read?_rest (i := p.1) (r := p.2) hr
    dsimp only
    split
    · exact .after (.notify _) fun _ => .pure rfl
    · rename_i e he
      obtain ⟨hsource, hclosing⟩ := (Marker.takes_ends _).find? he
      exact turns_marked hsplits hopening hrest hsource hclosing (puts_register _ _ _)

theorem trading_pictures : Trading (Extract.Diagram.pictures kit) := by
  intro s
  unfold Extract.Diagram.pictures
  have hrounds := @Turns.rounds (Nat × Text) Prod.snd "tikzpicture" kit.settings.diagramIterationCap
    (fun p : Nat × Text => do pure ((← Extract.Diagram.picture kit (p.1 + 1) p.2).map (p.1 + 1, ·))) (fun p => ?_) (0, s)
  · exact hrounds.bind fun p => .pure rfl
  · refine (turns_picture kit (p.1 + 1) p.2).bind fun r => .pure ?_
    cases r with
    | none => rfl
    | some t => rfl

theorem trading_diagram : Trading (Extract.Diagram.extract kit) := by
  refine (trading_pictures kit).bind (Trading.foldlM fun p _ => Trading.environments (fun _ _ => ?_) fun s e he hx => ?_)
  · exact .after (.notify _) fun _ => .pure rfl
  · exact turns_put he hx (puts_register _ _ _)

theorem trading_image : Trading Extract.Image.extract := by
  refine Trading.pieces (fun _ => rfl) fun a before t rest hr => ?_
  cases a with
  | none => exact .pure rfl
  | some path => exact puts_register _ _ _ _ (Extract.Image.takes_reader.upTo hr)

/-! ## Code -/

theorem trading_code : Trading (Extract.Code.extract kit) := by
  have hput {read : Reader Text} (hread : Takes Construct read) : Trading (Text.replaceAllM read fun code =>
      Bench.register .verbatim (Extract.Code.inlineFragment code) false) :=
    Trading.replaceAllM fun code before t rest hr => puts_register _ _ _ _ (hread.upTo hr)
  refine Trading.bind (Trading.rounds fun s => ?_) ((hput Extract.Code.takes_verb).bind
    ((hput Extract.Code.takes_lstinline).bind (hput Extract.Code.takes_mintinline)))
  split
  · exact .pure rfl
  · rename_i f hf
    obtain ⟨hsplits, hopening⟩ := (Marker.takes_beginsAny _).find? hf
    have hrest := Extract.Code.suffix_language f.value f.after
    dsimp only
    split
    · exact .after (.notify _) fun _ => .pure rfl
    · rename_i e he
      obtain ⟨hsource, hclosing⟩ := (Marker.takes_ends _).find? he
      exact turns_marked hsplits hopening hrest hsource hclosing (puts_register _ _ _)

/-! ## Formulas -/

theorem trading_formula : Trading (Extract.Formula.extract kit) := by
  have hdisplay (f : Text) : Puts (Extract.Formula.display kit f) := .after (.math kit f .block) fun _ => puts_register _ _ _
  have hinline (f : Text) : Puts (Extract.Formula.inline kit f) := .after (.math kit f .inline) fun _ => puts_register _ _ _
  have hdelimited {read : Reader (Text × Text)} (hread : Extract.Formula.Keeps read) {render : Text → Bench Text}
      (hrender : ∀ f, Puts (render f)) : Trading (Extract.Formula.delimited read render) := by
    refine Trading.replaceAllM fun parts before t rest hr => ?_
    obtain ⟨x, hsource, hx⟩ := hread before t parts.1 parts.2 rest hr
    rw [hsource]
    have hput := (hrender parts.2 x hx).frame parts.1 []
    rw [List.append_nil] at hput
    exact hput.bind fun t => .pure (List.append_nil _).symm
  have henvironments : Trading fun s =>
      Extract.Formula.environmentNames.foldlM (fun s name => Extract.Formula.environments kit name s) s := by
    refine Trading.foldlM fun name _ => Trading.environments (fun _ _ => ?_) fun s e he hx => ?_
    · exact .after (.notify _) fun _ => .pure rfl
    · exact turns_put he hx (hdisplay _)
  refine henvironments.bind ((hdelimited (Extract.Formula.keeps_slashDelimited _ (by decide)) hdisplay).bind ?_)
  refine (hdelimited (Extract.Formula.keeps_slashDelimited _ (by decide)) hinline).bind ?_
  exact (hdelimited Extract.Formula.keeps_doubleDollar hdisplay).bind
    (hdelimited Extract.Formula.keeps_singleDollar hinline)

/-! ## Citations -/

namespace Bibliography

theorem citationLabel_bare (numbering : Numbering) (keys : List Text) :
    signs (citationLabel numbering keys) = 0 ∧ 'W' ∉ citationLabel numbering keys := by
  have hfixed : ∀ c ∈ "[, ]?".toList, isSign c = false ∧ c ≠ 'W' := by simp [isSign]
  have hchar : ∀ c ∈ citationLabel numbering keys, isSign c = false ∧ c ≠ 'W' := by
    intro c hc
    rcases mem_citationLabel hc with h | h
    · refine ⟨?_, by rintro rfl; cases h⟩
      rw [Bool.eq_false_iff]
      intro hsign
      simp only [isSign, Bool.or_eq_true, decide_eq_true_eq] at hsign
      rcases hsign with rfl | rfl <;> cases h
    · exact hfixed c h
  exact ⟨signs_eq_zero fun c hc => (hchar c hc).1, fun hw => (hchar 'W' hw).2 rfl⟩

theorem quiet_collect (numbered : List (Text × Nat × Text)) (body : Text) : Quiet (collect kit numbered body) := by
  refine (Quiet.mapM fun e => ?_).bind fun _ => .pure _
  obtain ⟨key, text⟩ := e
  dsimp only
  split
  · exact .pure _
  · exact (Quiet.inline kit text).bind fun _ => .pure _

theorem turns_collectAll (numbered : List (Text × Nat × Text)) (k : Nat) (s : Text) :
    Turns Prod.snd s (collectAll kit numbered s k) := by
  induction k generalizing numbered s with
  | zero => exact .pure rfl
  | succ k ih =>
    unfold collectAll
    split
    · exact .after (.notify _) fun _ => .pure rfl
    · exact .pure rfl
    · rename_i e he
      refine .after (quiet_collect kit numbered e.body) fun numbered => ?_
      have hstrike (table : Block.Table) : Trades (s, table) (e.before ++ e.after, table) := by
        have hsource := (Trades.strike (Environment.construct_find he).toEdged ⟨rfl, List.not_mem_nil⟩).frame
          (T := table) e.before e.after
        rwa [List.append_nil, show e.before ++ e.source ++ e.after = s from Environment.find_splits he] at hsource
      intro b r b' hrun
      obtain ⟨htrades, htally⟩ := ih numbered (e.before ++ e.after) b r b' hrun
      exact ⟨(hstrike b.table).trans htrades, htally⟩

theorem quiet_collectAll (numbered : List (Text × Nat × Text)) (k : Nat) (s : Text) : Quiet (collectAll kit numbered s k) := by
  induction k generalizing numbered s with
  | zero => exact .pure _
  | succ k ih =>
    unfold collectAll
    split
    · exact (Quiet.notify _).bind fun _ => .pure _
    · exact .pure _
    · exact (quiet_collect kit numbered _).bind fun numbered => ih numbered _

theorem trades_citations (numbering : Numbering) (s : Text) (table : Block.Table) : Trades (s, table)
    ((((s.removeAll bibliographyCommand).replaceAll citation (citationLabel numbering)).replaceAll looseGroup
      (citationLabel numbering)).replaceAll looseCommand (citationLabel numbering), table) := by
  have hlabel := citationLabel_bare numbering
  have hcommands := Trades.removeAll (T := table) (takes_bibliographyCommand.mono fun _ hx => hx.toEdged) s
  have hcitations := Trades.replaceAll (T := table) (takes_citation.mono fun _ hx => hx.toEdged) hlabel
  exact hcommands.trans ((hcitations _).trans ((Trades.replaceAll takes_looseGroup hlabel _).trans
    (Trades.replaceAll takes_looseCommand hlabel _)))

/-- Resolving the citations hands out no token. -/
theorem resolve_trades {s : Text} {r : Resolved} {b b' : BenchState} (h : (resolve kit s).run.run b = (.ok r, b')) :
    Trades (s, b.table) (r.markup, b'.table) ∧ b'.table.issued = b.table.issued ∧ b'.counts = b.counts := by
  obtain ⟨p, b₁, hcollect, h⟩ := Bench.run_bind_ok h
  obtain ⟨htrades, -⟩ := turns_collectAll kit [] _ s b p b₁ hcollect
  have hkept := quiet_collectAll kit [] (s.length + 1) s b
  rw [hcollect] at hkept
  dsimp only at h
  split at h
  · cases h
    exact ⟨htrades.trans (trades_citations _ _ _), congrArg _ hkept.table, hkept.counts⟩
  · -- the fragments of the bibliography are taken out of the table
    rw [if_pos rfl] at h
    cases h
    have hissued := (Block.Table.absorb_subset b₁.table (bibliographyMarkup p.1)).2
    exact ⟨(htrades.trans (trades_citations _ _ _)).tail (.fold _), hissued.trans (congrArg _ hkept.table), hkept.counts⟩

end Bibliography

/-! ## The stages after the citations -/

theorem trading_abstract : Trading (Extract.Abstract.extract kit) := by
  have henvironments (name : Text) {render : Text → Bench Text} (hrender : ∀ body, Quiet (render body)) :
      Trading (Extract.Abstract.environments kit name render) := by
    refine Trading.environments (fun _ _ => ?_) fun s e he hx => turns_replaceBy he hx .env (hrender e.body)
    exact .after (.notify _) fun _ => .pure rfl
  refine (henvironments _ (Quiet.abstractFragment kit)).bind ((henvironments _ (Quiet.keywordsFragment kit)).bind
    ((henvironments _ (Quiet.keywordsFragment kit)).bind ?_))
  refine Trading.pieces (fun _ => rfl) fun a before t rest hr => ?_
  cases a with
  | none => exact .pure rfl
  | some body =>
    have hput : Puts (do Bench.register .env (← Extract.Abstract.keywordsFragment kit body)) :=
      .after (.keywordsFragment kit body) fun _ => puts_register _ _ _
    exact hput _ (Extract.Abstract.takes_keywordsCommand.upTo hr)

theorem turns_failUnclosedTable (name s : Text) : Turns id s (Extract.Table.failUnclosed name s) := by
  refine .after (.notify _) fun _ => ?_
  split
  · exact .pure rfl
  · rename_i f hf
    obtain ⟨hsplits, hopening⟩ := (Marker.takes_begins _).find? hf
    have hput := (puts_register .table Extract.Table.failure true _ hopening).frame f.before f.after
    rw [show f.before ++ f.source ++ f.after = s from hsplits] at hput
    exact hput.bind fun t => .pure rfl

theorem trading_table : Trading (Extract.Table.extract kit) := by
  have henvironments (construct : Text) (names : List Text) {render : Text → Text → Bench Text}
      (hrender : ∀ name body, Quiet (render name body)) :
      Trading (Extract.Table.environments kit construct names render) := by
    refine Trading.rounds fun s => ?_
    split
    · exact .pure rfl
    · rename_i name _
      split
      · exact (turns_failUnclosedTable name s).bind fun t => .pure rfl
      · exact .pure rfl
      · rename_i e he
        exact turns_replaceBy (Environment.find_splits he) (Environment.construct_find he) .table (hrender name e.body)
  exact (henvironments _ _ fun _ => Quiet.tableFloat kit).bind (henvironments _ _ (Quiet.tabularBlock kit))

theorem trading_list : Trading (Extract.List.extract kit) :=
  Trading.leaves fun _ e he hx => turns_replaceBy he hx .list (.listFragment kit e.name e.body)

theorem trading_algorithm : Trading (Extract.Algorithm.extract kit) := by
  have henvironments (name : Text) {render : Text → Bench Text} (hrender : ∀ body, Quiet (render body)) :
      Trading (Extract.Algorithm.environments kit name render) := by
    refine Trading.environments (fun _ _ => ?_) fun s e he hx => turns_replaceBy he hx .algo (hrender e.body)
    exact .after (.notify _) fun _ => .pure rfl
  exact (henvironments _ (Quiet.bodyFragment kit)).bind
    ((henvironments _ (Quiet.algorithmFloat kit)).bind (henvironments _ (Quiet.algorithmFloat kit)))

theorem trading_boxCommands : Trading (Extract.Box.commands kit) := by
  have hnames : Takes Construct (Command.readerOf Extract.Box.commandNames) := by
    have hlast : (Extract.Box.commandNames.all fun name => (('\\' :: name).getLast?.any fun c => !isCapital c)) = true := by
      decide
    exact Command.takes_readerOf fun name hname => .of_getLast? (List.all_eq_true.1 hlast name hname)
  refine Trading.rounds fun s => ?_
  split
  · exact .pure rfl
  · rename_i f hf
    obtain ⟨hsplits, hcommand⟩ := hnames.findLast? hf
    have hs : f.before ++ f.source ++ f.after = s := hsplits
    split
    · rename_i content hread
      obtain ⟨arguments, hafter, hclosing⟩ := (Extract.Box.closes_readCommand hread).part
      have hput : Turns (fun p : Text × Text => f.before ++ (f.source ++ [] ++ arguments) ++ p.2) s
          (Extract.Box.commandFragment kit f.value content) := by
        have hview : f.before ++ (f.source ++ [] ++ arguments) ++ content.rest = s := by
          rw [← hs, hafter]
          simp only [List.append_nil, List.append_assoc]
        cases content with
        | paragraphs width text rest => exact .after (.paragraphs kit text) fun _ => .pure hview
        | line text rest => exact .after (.inline kit _) fun _ => .pure hview
      refine hput.bind fun p => ?_
      have hregister := (puts_register .box p.1 false _ (hcommand.between [] hclosing)).frame f.before p.2
      exact hregister.bind fun t => .pure rfl
    · refine .after (.notify _) fun _ => ?_
      have hput := (puts_register .box Extract.Box.failure false _ hcommand).frame f.before f.after
      rw [hs] at hput
      exact hput.bind fun t => .pure rfl

theorem turns_failUnclosedBox (k : Nat) (s : Text) : Turns id s (Extract.Box.failUnclosed k s) := by
  induction k generalizing s with
  | zero => exact .pure rfl
  | succ k ih =>
    unfold Extract.Box.failUnclosed
    split
    · exact .pure rfl
    · rename_i f hf
      obtain ⟨hsplits, hopening⟩ := (Marker.takes_beginsAny _).find? hf
      have hs : f.before ++ f.source ++ f.after = s := hsplits
      have hrest (a : Text) : Turns (fun r => a ++ r) (a ++ f.after) (Extract.Box.failUnclosed k f.after) := by
        have hframed := (ih f.after).frame a []
        simpa using hframed
      split
      · rw [← hs]
        exact (hrest _).bind fun r => .pure rfl
      · refine .after (.notify _) fun _ => ?_
        have hput := (puts_register .box Extract.Box.failure true _ hopening).frame f.before f.after
        rw [hs] at hput
        exact hput.bind fun t => (hrest (f.before ++ t)).bind fun r => .pure rfl

theorem trading_box : Trading (Extract.Box.extract kit) := by
  refine (trading_boxCommands kit).bind (Trading.bind (Trading.leaves fun s e he hx => ?_) fun s => turns_failUnclosedBox _ s)
  split
  · exact .after (.boxFragment kit _) fun f => turns_put he hx (puts_register _ _ _)
  · exact .after (.notify _) fun _ => turns_put he hx (puts_register _ _ _)

theorem trading_theorem : Trading (Extract.Theorem.extract kit) := by
  intro s
  unfold Extract.Theorem.extract
  exact Trading.leaves (fun _ e he hx => turns_replaceBy he hx .env (.theoremLike kit _ e.name e.body)) s

/-! ## Layout commands -/

theorem Arguments.read?_one {s rest : Text} {args : Arguments} (h : read? 1 false s = some (args, rest)) :
    Group.read? .brace s = some (args.first, rest) := by
  have hok : read 1 false s = .ok (some (args, rest)) := by
    rw [read?] at h
    split at h
    · rename_i o ho
      rw [ho, h]
    · cases h
  simp only [read, Bool.false_eq_true, if_false, pure_bind, braces] at hok
  obtain ⟨q, hb, hok⟩ := bind_eq_ok hok
  obtain ⟨o, hr, hb⟩ := bind_eq_ok hb
  cases o with
  | none =>
    cases hb
    cases hok
  | some p =>
    cases hb
    cases hok
    exact Group.read_eq_read? hr

namespace Extract.Strip

theorem closes_blanks {s blanks : Text} (h : Closes [] s) (hblanks : ∀ c ∈ blanks, isBlank c = true) :
    Closes [] (s ++ blanks) := by
  rcases List.eq_nil_or_concat blanks with rfl | ⟨u, c, rfl⟩
  · rwa [List.append_nil]
  · rw [List.concat_eq_append] at hblanks ⊢
    have hblank := Block.not_isTokenChar_of_isBlank (hblanks c (by simp))
    exact ⟨s ++ u, c, by rw [List.append_assoc], isCapital_of_isTokenChar hblank⟩

/-- A command with its argument: the stripped argument between two pieces without a token at their edges. -/
theorem argument_edges {name s rest : Text} {args : Arguments} (h : Arguments.read? 1 false s = some (args, rest)) :
    ∃ x z, '\\' :: (name ++ s) = x ++ Text.strip args.first ++ z ++ rest ∧ Edged x ∧ Edged z := by
  obtain ⟨gap, rfl⟩ := Group.read?_eq (Arguments.read?_one h)
  obtain ⟨lead, trail, hfirst, hlead, htrail⟩ := Text.exists_strip args.first
  refine ⟨'\\' :: (name ++ gap ++ ['{']) ++ lead, trail ++ ['}'], ?_, ⟨⟨'\\', _, rfl, rfl⟩, ?_⟩, ?_⟩
  · generalize Text.strip args.first = core at hfirst ⊢
    rw [hfirst]
    simp [Delimiter.opener, Delimiter.closer]
  · exact closes_blanks ⟨'\\' :: (name ++ gap), '{', rfl, rfl⟩ hlead
  · cases trail with
    | nil => exact ⟨⟨'}', [], rfl, rfl⟩, [], '}', rfl, rfl⟩
    | cons c trail =>
      have hblank := Block.not_isTokenChar_of_isBlank (htrail c List.mem_cons_self)
      exact ⟨⟨c, trail ++ ['}'], rfl, hblank⟩, c :: trail, '}', rfl, rfl⟩

variable {T : Block.Table}

theorem trades_replace {name : Text} {render : Arguments → Text}
    (hrender : ∀ args x z, Edged x → Edged z → Trades (x ++ Text.strip args.first ++ z, T) (render args, T))
    (s : Text) : Trades (s, T) (Command.replace name 1 render s, T) := by
  refine Trades.rewriting (fun _ => rfl) (fun a before t rest hr => ?_) s
  obtain ⟨u, hu, he⟩ := Option.map_eq_some_iff.1 hr
  split at he
  · rename_i args r hread
    cases he
    obtain ⟨x, z, hsource, hx, hz⟩ := @argument_edges name _ _ _ hread
    rw [Command.after?_eq hu, hsource, Text.upTo_append_rest]
    exact hrender args x z hx hz
  · cases he
    exact .refl

/-- A command makes way for its argument between two signs. -/
theorem trades_between (left right : Text) (hleft : signs left = 0 ∧ 'W' ∉ left) (hright : signs right = 0 ∧ 'W' ∉ right)
    (name s : Text) :
    Trades (s, T) (Command.replace name 1 (fun args => left ++ Text.strip args.first ++ right) s, T) :=
  trades_replace (fun _ _ _ hx hz => ((Trades.strike hx hleft).append .refl).append (Trades.strike hz hright)) s

theorem trades_dropLayoutCommands (s : Text) : Trades (s, T) (dropLayoutCommands s, T) := by
  have hlabel (s : Text) : Trades (s, T) (Command.replace "label" 1 (fun _ => []) s, T) :=
    trades_replace (fun _ _ _ hx hz => .strike (hx.between _ hz.last) ⟨rfl, List.not_mem_nil⟩) s
  have hbracketed := trades_between (T := T) "[" "]" (by decide) (by decide)
  refine (Trades.removeAll (takes_dropped.mono fun _ hx => hx.toEdged) s).trans ?_
  refine (Trades.removeAll (takes_spacing.mono fun _ hx => hx.toEdged) _).trans ((hlabel _).trans ?_)
  refine (trades_between "(" ")" (by decide) (by decide) "eqref" _).trans ?_
  refine (hbracketed "ref" _).trans ((hbracketed "pageref" _).trans ((hbracketed "autoref" _).trans ?_))
  exact trades_between " (" ")" (by decide) (by decide) "footnote" _

end Extract.Strip

/-! ## The run of a document -/

namespace Reduction

open Bench (run_bind_ok run_pure_ok)

/-- How many constructs all stages took out. The count named for citations is of bibliography entries. -/
def taken (counts : List (Text × Nat)) : Nat := ((counts.filter (·.1 ≠ "citation".toList)).map Prod.snd).sum

theorem taken_append (counts : List (Text × Nat)) (name : Text) (n : Nat) :
    taken (counts ++ [(name, n)]) = taken counts + if name = "citation".toList then 0 else n := by
  unfold taken
  generalize "citation".toList = citation
  by_cases h : name = citation
  · simp [h]
  · simp [h]

/-- A stage is counted for the tokens that it hands out. -/
theorem runStage_trades {kit : Kit} {stage : Stage} (htrading : Trading (stage.run kit))
    (hname : stage.name ≠ "citation".toList) {s t : Text} {b b' : BenchState}
    (h : (runStage kit s stage).run.run b = (.ok t, b')) :
    Trades (s, b.table) (t, b'.table) ∧ taken b'.counts + b.table.issued = taken b.counts + b'.table.issued := by
  obtain ⟨_, _, hget, h⟩ := run_bind_ok h
  cases hget
  obtain ⟨u, b₁, hstage, h⟩ := run_bind_ok h
  obtain ⟨_, _, hget, h⟩ := run_bind_ok h
  cases hget
  obtain ⟨_, _, hcount, h⟩ := run_bind_ok h
  cases hcount
  cases h
  obtain ⟨htrades, htally⟩ := htrading s b _ b₁ hstage
  refine ⟨htrades, ?_⟩
  have hextracted := htally.extracted
  have hissued := htrades.issued_le
  dsimp only at hissued ⊢
  rw [taken_append, if_neg hname, htally.counts]
  omega

theorem stages_trades {kit : Kit} {stages : List Stage}
    (hstages : ∀ stage ∈ stages, Trading (stage.run kit) ∧ stage.name ≠ "citation".toList) {s t : Text} {b b' : BenchState}
    (h : (stages.foldlM (runStage kit) s).run.run b = (.ok t, b')) :
    Trades (s, b.table) (t, b'.table) ∧ taken b'.counts + b.table.issued = taken b.counts + b'.table.issued := by
  induction stages generalizing s b with
  | nil =>
    cases h
    exact ⟨.refl, rfl⟩
  | cons stage stages ih =>
    rw [List.foldlM_cons] at h
    obtain ⟨u, b₁, hfirst, hrest⟩ := run_bind_ok h
    obtain ⟨hstage, hmore⟩ := List.forall_mem_cons.1 hstages
    obtain ⟨htrades, htally⟩ := runStage_trades hstage.1 hstage.2 hfirst
    obtain ⟨htrades', htally'⟩ := ih hmore hrest
    exact ⟨htrades.trans htrades', by omega⟩

theorem early_trading (kit : Kit) : ∀ stage ∈ early, Trading (stage.run kit) ∧ stage.name ≠ "citation".toList := by
  simp only [early, List.forall_mem_cons]
  exact ⟨⟨trading_diagram kit, by decide⟩, ⟨trading_image, by decide⟩, ⟨trading_code kit, by decide⟩,
    ⟨trading_formula kit, by decide⟩, by simp⟩

theorem late_trading (kit : Kit) : ∀ stage ∈ late, Trading (stage.run kit) ∧ stage.name ≠ "citation".toList := by
  simp only [late, List.forall_mem_cons]
  exact ⟨⟨trading_abstract kit, by decide⟩, ⟨trading_table kit, by decide⟩, ⟨trading_list kit, by decide⟩,
    ⟨trading_algorithm kit, by decide⟩, ⟨trading_box kit, by decide⟩, ⟨trading_theorem kit, by decide⟩, by simp⟩

/-- Where a run comes to a result, trades lead from the repaired document and an empty table to it, and the stages are
    counted for just as many constructs as there are tokens. -/
theorem run_trades {kit : Kit} {raw : Text} {r : Reduction} (h : ((run kit raw).run {}).1 = .ok r) :
    Trades ((Repair.repair raw).content, {}) (r.reduced, r.table) ∧ taken r.counts = r.table.issued := by
  obtain ⟨b', hrun⟩ : ∃ b', (run kit raw).run.run {} = (.ok r, b') := ⟨_, Prod.ext h rfl⟩
  unfold run at hrun
  obtain ⟨_, b₁, hnotify, hrun⟩ := run_bind_ok hrun
  obtain ⟨s, b₂, hearly, hrun⟩ := run_bind_ok hrun
  obtain ⟨citations, b₃, hresolve, hrun⟩ := run_bind_ok hrun
  obtain ⟨_, b₄, hcount, hrun⟩ := run_bind_ok hrun
  obtain ⟨t, b₅, hlate, hrun⟩ := run_bind_ok hrun
  obtain ⟨_, _, hget, hrun⟩ := run_bind_ok hrun
  obtain ⟨rfl, -⟩ := run_pure_ok hrun
  cases hget
  cases hnotify
  cases hcount
  obtain ⟨htrades, htally⟩ := stages_trades (early_trading kit) hearly
  obtain ⟨hcitations, hissued, hcounts⟩ := Bibliography.resolve_trades kit hresolve
  obtain ⟨htrades', htally'⟩ := stages_trades (late_trading kit) hlate
  have hstages : Trades ((Repair.repair raw).content, {}) (s, b₂.table) := htrades
  have hlater : Trades (citations.markup, b₃.table) (t, b₅.table) := htrades'
  have hdropped := (hstages.trans hcitations).trans (hlater.trans (Extract.Strip.trades_dropLayoutCommands t))
  have hnone : taken [] = 0 := rfl
  dsimp only at htally htally' ⊢
  refine ⟨hdropped, ?_⟩
  rw [hnone] at htally
  rw [taken_append, if_pos rfl, hcounts] at htally'
  omega

end Reduction

end Galley
