import Galley.Proofs.Runs
import Galley.Reduction
/-!
# Work that leaves the table alone

What only formats stores no fragment and takes none out, and it counts nothing, however it ends (`Quiet`). Where nothing
but the notices changes, the work may come to the same in every state (`Comes`).
-/

namespace Galley.Bench

variable {α β : Type}

/-- From `b` to `b'` no fragment is stored or taken out, and nothing is counted. -/
structure Kept (b b' : BenchState) : Prop where
  table : b'.table = b.table
  extracted : b'.extracted = b.extracted
  counts : b'.counts = b.counts

theorem Kept.refl (b : BenchState) : Kept b b := ⟨rfl, rfl, rfl⟩

theorem Kept.trans {b b' b'' : BenchState} (h : Kept b b') (h' : Kept b' b'') : Kept b b'' :=
  ⟨h'.table.trans h.table, h'.extracted.trans h.extracted, h'.counts.trans h.counts⟩

theorem run_bind (work : Bench α) (next : α → Bench β) (b : BenchState) :
    (work >>= next).run.run b = match work.run.run b with
      | (.ok a, b') => (next a).run.run b'
      | (.error e, b') => (.error e, b') := by
  simp only [ExceptT.run_bind, StateT.run_bind]
  rcases work.run.run b with ⟨_ | _, b'⟩ <;> rfl

theorem run_bind_ok {work : Bench α} {next : α → Bench β} {b b'' : BenchState} {c : β}
    (h : (work >>= next).run.run b = (.ok c, b'')) :
    ∃ a b', work.run.run b = (.ok a, b') ∧ (next a).run.run b' = (.ok c, b'') := by
  rw [run_bind] at h
  cases hw : work.run.run b with
  | mk r b' =>
    rw [hw] at h
    cases r with
    | error e => cases h
    | ok a => exact ⟨a, b', rfl, h⟩

theorem run_pure_ok {a c : α} {b b' : BenchState} (h : (Pure.pure a : Bench α).run.run b = (.ok c, b')) : a = c ∧ b = b' := by
  cases h
  exact ⟨rfl, rfl⟩

/-- However the work ends, it leaves the table and the counts alone. -/
def Quiet (work : Bench α) : Prop := ∀ b, Kept b (work.run.run b).2

namespace Quiet

variable {work : Bench α}

theorem pure (a : α) : Quiet (Pure.pure a : Bench α) := fun b => .refl b

theorem throw (e : Fault) : Quiet (MonadExcept.throw e : Bench α) := fun b => .refl b

theorem bind {next : α → Bench β} (h : Quiet work) (hn : ∀ a, Quiet (next a)) : Quiet (work >>= next) := by
  intro b
  have hw := h b
  rw [run_bind]
  generalize work.run.run b = r at hw ⊢
  obtain ⟨_ | a, b'⟩ := r
  · exact hw
  · exact hw.trans (hn a b')

theorem mapM {f : β → Bench α} {l : List β} (h : ∀ x, Quiet (f x)) : Quiet (l.mapM f) := by
  induction l with
  | nil => exact .pure []
  | cons x l ih =>
    rw [List.mapM_cons]
    exact (h x).bind fun a => ih.bind fun as => .pure (a :: as)

theorem modify {f : BenchState → BenchState} (hf : ∀ b, Kept b (f b)) : Quiet (modify f : Bench PUnit) := hf

theorem notify (n : Notice) : Quiet (Bench.notify n) := modify fun _ => ⟨rfl, rfl, rfl⟩

theorem notifyAll (ns : List Notice) : Quiet (Bench.notifyAll ns) := modify fun _ => ⟨rfl, rfl, rfl⟩

theorem attempt (h : Quiet work) : Quiet (Bench.attempt work) := by
  intro b
  have hw := h b
  rw [run_attempt]
  generalize work.run.run b = r at hw ⊢
  obtain ⟨_ | a, b'⟩ := r
  · exact hw
  · exact hw

/-! ### Formatting -/

theorem nextTheorem (kind : Text) : Quiet (Bench.nextTheorem kind) := fun _ => ⟨rfl, rfl, rfl⟩

theorem nextAlgorithm : Quiet Bench.nextAlgorithm := fun _ => ⟨rfl, rfl, rfl⟩

variable (kit : Kit)

theorem math (source : Text) (display : Formula.Display) : Quiet (Bench.math kit source display) :=
  (notifyAll _).bind fun _ => .pure _

theorem inline (s : Text) : Quiet (Bench.inline kit s) := by
  refine (notifyAll _).bind fun _ => ?_
  split
  · exact .pure _
  · exact .throw _

theorem paragraphs (s : Text) : Quiet (Bench.paragraphs kit s) := by
  refine (mapM fun chunk => ?_).bind fun _ => .pure _
  split
  · exact .pure _
  · exact (inline kit chunk).bind fun _ => .pure _

theorem keywordsFragment (body : Text) : Quiet (Extract.Abstract.keywordsFragment kit body) :=
  (inline kit _).bind fun _ => .pure _

theorem abstractFragment (body : Text) : Quiet (Extract.Abstract.abstractFragment kit body) :=
  (paragraphs kit body).bind fun _ => .pure _

/-! ### Tables -/

theorem readOrFault {source : Text} (r : Except Unclosed α) : Quiet (Extract.Table.readOrFault source r) := by
  cases r with
  | ok a => exact .pure a
  | error u => exact .throw _

theorem threeArguments? (name cell : Text) : Quiet (Extract.Table.threeArguments? name cell) := by
  unfold Extract.Table.threeArguments?
  split
  · exact .pure none
  · exact (readOrFault _).bind fun _ => .pure _

theorem cellFragment (cell : Text) : Quiet (Extract.Table.cellFragment kit cell) := by
  refine (threeArguments? _ cell).bind fun args => ?_
  split
  · exact (inline kit _).bind fun _ => .pure _
  · refine (threeArguments? _ cell).bind fun args => ?_
    split
    · exact (inline kit _).bind fun _ => .pure _
    · exact (inline kit cell).bind fun _ => .pure _

theorem rowsFragment (body : Text) : Quiet (Extract.Table.rowsFragment kit body) :=
  (mapM fun _ => (mapM (cellFragment kit)).bind fun _ => .pure _).bind fun _ => .pure _

theorem tabularFragment? (name body : Text) : Quiet (Extract.Table.tabularFragment? kit name body) := by
  refine (attempt ((readOrFault _).bind (rowsFragment kit))).bind fun r => ?_
  split
  · exact .pure _
  · exact (notify _).bind fun _ => .pure none

/-- The table of a float, or the note that there is none. -/
theorem shownTable (table : Option Text) (caption : Text) : Quiet (do
    let table ← match table with
      | some t => Pure.pure t
      | none => do
        Bench.notify .tableEmpty
        Pure.pure "<div class=\"table-error\">[Table Body - Parse Failed]</div>".toList
    Pure.pure ("<div class=\"table-wrapper\">" ++ caption ++ table ++ "</div>") : Bench Text) := by
  cases table with
  | some t => exact .pure _
  | none => exact (notify _).bind fun _ => .pure _

theorem floatTable (inner : Option Environment) (caption : Text) : Quiet (do
    let table ← match inner with
      | some e => Extract.Table.tabularFragment? kit e.name e.body
      | none => Pure.pure none
    let table ← match table with
      | some t => Pure.pure t
      | none => do
        Bench.notify .tableEmpty
        Pure.pure "<div class=\"table-error\">[Table Body - Parse Failed]</div>".toList
    Pure.pure ("<div class=\"table-wrapper\">" ++ caption ++ table ++ "</div>") : Bench Text) := by
  cases inner with
  | some e => exact (tabularFragment? kit _ _).bind fun table => shownTable table caption
  | none => exact shownTable none caption

theorem tableFloat (body : Text) : Quiet (Extract.Table.floatFragment kit body) := by
  unfold Extract.Table.floatFragment
  split
  · exact (inline kit _).bind fun _ => floatTable kit _ _
  · exact floatTable kit _ _

theorem tabularBlock (name body : Text) : Quiet (Extract.Table.tabularBlock kit name body) := by
  refine (tabularFragment? kit name body).bind fun table => ?_
  split
  · exact .pure _
  · exact .pure _

/-! ### Lists, boxes and theorems -/

theorem descriptionEntry (item : Option Text × Text) : Quiet (Extract.List.descriptionEntry kit item) :=
  (inline kit _).bind fun _ => (inline kit _).bind fun _ => .pure _

theorem listEntry (item : Option Text × Text) : Quiet (Extract.List.listEntry kit item) := by
  obtain ⟨label, s⟩ := item
  refine (inline kit s).bind fun _ => ?_
  cases label with
  | some label => exact (inline kit label).bind fun _ => .pure _
  | none => exact .pure _

theorem listFragment (name body : Text) : Quiet (Extract.List.fragment kit name body) := by
  unfold Extract.List.fragment
  dsimp only
  split
  · exact (mapM (descriptionEntry kit)).bind fun _ => .pure _
  · exact (mapM (listEntry kit)).bind fun _ => .pure _

theorem boxFragment (layout : Extract.Box.Layout) : Quiet (Extract.Box.environmentFragment kit layout) := by
  cases layout with
  | column width body => exact (paragraphs kit body).bind fun _ => .pure _
  | frame title body =>
    cases title with
    | some title => exact (inline kit title).bind fun _ => (paragraphs kit body).bind fun _ => .pure _
    | none => exact (paragraphs kit body).bind fun _ => .pure _

theorem proofFragment (body : Text) : Quiet (Extract.Theorem.proofFragment kit body) := by
  unfold Extract.Theorem.proofFragment
  dsimp only
  split
  · exact (inline kit _).bind fun _ => (paragraphs kit _).bind fun _ => .pure _
  · exact (paragraphs kit _).bind fun _ => .pure _

/-- A theorem behind its label: its title, its body. -/
theorem theoremBody (title : Option Text) (label body classes : Text) : Quiet (do
    let suffix ← match title with
      | some (c :: t) => do Pure.pure (" (" ++ (← Bench.inline kit (c :: t)) ++ ")")
      | _ => Pure.pure []
    let head := "<strong class=\"theorem-head\">" ++ label ++ "</strong>" ++ suffix ++ ". "
    let body ← Bench.paragraphs kit body
    Pure.pure ("<div class=\"latex-theorem latex-" ++ classes ++ "\">" ++
      Extract.Theorem.withHead head body ++ "</div>") : Bench Text) := by
  split
  · exact (inline kit _).bind fun _ => (paragraphs kit body).bind fun _ => .pure _
  · exact (paragraphs kit body).bind fun _ => .pure _

theorem theoremFragment (kinds : List (Text × Text)) (name body : Text) :
    Quiet (Extract.Theorem.theoremFragment kit kinds name body) := by
  unfold Extract.Theorem.theoremFragment
  dsimp only
  split
  · exact theoremBody kit _ _ _ _
  · exact (nextTheorem _).bind fun _ => theoremBody kit _ _ _ _

theorem theoremLike (kinds : List (Text × Text)) (name body : Text) :
    Quiet (Extract.Theorem.fragment kit kinds name body) := by
  unfold Extract.Theorem.fragment
  split
  · exact (paragraphs kit body).bind fun _ => .pure _
  · split
    · exact (paragraphs kit body).bind fun _ => .pure _
    · split
      · exact proofFragment kit body
      · exact theoremFragment kit kinds name body

/-! ### Algorithms -/

theorem format (s : Text) : Quiet (Extract.Algorithm.format kit s) := by
  unfold Extract.Algorithm.format
  split
  · exact inline kit _
  · exact .throw _

/-- A line with its comment. -/
theorem commented (comment : Option Text) (line : Text) : Quiet (match comment with
    | some c => do
      let c ← Extract.Algorithm.format kit c
      Pure.pure (Text.strip (line ++ " <span class=\"latex-alg-comment\">&#9655; " ++ c ++ "</span>"))
    | none => Pure.pure (Text.strip line) : Bench Text) := by
  cases comment with
  | some c => exact (format kit c).bind fun _ => .pure _
  | none => exact .pure _

/-- A line from its parameters on. -/
theorem parameters (k : Pseudocode.Keyword) (args : List Text) (comment : Option Text) (rest cond : Text) : Quiet (do
    let params ← match k, args with
      | .function, _ :: p :: _ => Extract.Algorithm.format kit (Text.strip p)
      | .procedure, _ :: p :: _ => Extract.Algorithm.format kit (Text.strip p)
      | _, _ => Pure.pure []
    let line := Extract.Algorithm.lineHead k rest cond params
    let line := if k.isStatement || rest.isEmpty then line else line ++ " " ++ rest
    match comment with
    | some c => do
      let c ← Extract.Algorithm.format kit c
      Pure.pure (Text.strip (line ++ " <span class=\"latex-alg-comment\">&#9655; " ++ c ++ "</span>"))
    | none => Pure.pure (Text.strip line) : Bench Text) := by
  dsimp only
  split
  · exact (format kit _).bind fun _ => commented kit comment _
  · exact (format kit _).bind fun _ => commented kit comment _
  · exact commented kit comment _

theorem lineContent (k : Pseudocode.Keyword) (args : List Text) (s : Text) :
    Quiet (Extract.Algorithm.lineContent kit k args s) := by
  unfold Extract.Algorithm.lineContent
  refine (format kit _).bind fun rest => ?_
  dsimp only
  split
  · exact (format kit _).bind fun cond => parameters kit k _ _ rest cond
  · exact parameters kit k _ _ rest []

theorem lines (level : Nat) (commands : List (Pseudocode.Command × Text)) :
    Quiet (Extract.Algorithm.lines kit level commands) := by
  induction commands generalizing level with
  | nil => exact .pure []
  | cons c commands ih =>
    obtain ⟨_ | ⟨k, args⟩, s⟩ := c
    · exact .throw _
    · exact (lineContent kit k args s).bind fun _ => (ih _).bind fun _ => .pure _

theorem bodyFragment (body : Text) : Quiet (Extract.Algorithm.bodyFragment kit body) :=
  (lines kit 0 _).bind fun _ => .pure _

theorem algorithmFloat (body : Text) : Quiet (Extract.Algorithm.floatFragment kit body) := by
  unfold Extract.Algorithm.floatFragment
  generalize Extract.Algorithm.takeCaption body = p
  obtain ⟨caption, rest⟩ := p
  have hrest := paragraphs kit (Extract.Algorithm.dropOption (rest.removeAll (Command.simpleArgument "label")))
  cases caption with
  | none =>
    simp only [pure_bind]
    exact hrest.bind fun _ => .pure _
  | some c =>
    dsimp only
    refine nextAlgorithm.bind fun n => (inline kit _).bind fun t => ?_
    rw [pure_bind]
    exact hrest.bind fun _ => .pure _

end Quiet

/-! ### Results that do not depend on the state -/

/-- In every state the work comes to `r`, and it changes nothing but the notices. -/
def Comes (work : Bench α) (r : Except Fault α) : Prop := ∀ b : BenchState, ∃ ns, work.run.run b = (r, { b with notices := ns })

namespace Comes

variable {work : Bench α} {r : Except Fault α}

theorem pure (a : α) : Comes (Pure.pure a) (.ok a) := fun b => ⟨b.notices, rfl⟩

theorem throw (e : Fault) : Comes (MonadExcept.throw e : Bench α) (.error e) := fun b => ⟨b.notices, rfl⟩

theorem notify (n : Notice) : Comes (Bench.notify n) (.ok ()) := fun b => ⟨b.notices ++ [n], rfl⟩

theorem notifyAll (ns : List Notice) : Comes (Bench.notifyAll ns) (.ok ()) := fun b => ⟨b.notices ++ ns, rfl⟩

/-- A fault ends the work. -/
theorem stop {e : Fault} (h : Comes work (.error e)) (next : α → Bench β) : Comes (work >>= next) (.error e) := by
  intro b
  obtain ⟨ns, hns⟩ := h b
  exact ⟨ns, by rw [run_bind, hns]⟩

theorem bind {next : α → Bench β} {f : α → Except Fault β} (h : Comes work r) (hn : ∀ a, Comes (next a) (f a)) :
    Comes (work >>= next) (r >>= f) := by
  cases r with
  | error e => exact h.stop next
  | ok a =>
    intro b
    obtain ⟨ns, hns⟩ := h b
    obtain ⟨ns', hns'⟩ := hn a { b with notices := ns }
    exact ⟨ns', by rw [run_bind, hns]; exact hns'⟩

theorem mapM {f : β → Bench α} {g : β → Except Fault α} (h : ∀ x, Comes (f x) (g x)) (l : List β) :
    Comes (l.mapM f) (l.mapM g) := by
  induction l with
  | nil => exact .pure []
  | cons x l ih =>
    rw [List.mapM_cons, List.mapM_cons]
    exact (h x).bind fun a => ih.bind fun as => .pure (a :: as)

theorem inline (kit : Kit) (s : Text) : Comes (Bench.inline kit s) (Inline.format kit.settings kit.engine s) := by
  unfold Bench.inline
  generalize Inline.format kit.settings kit.engine s = r
  refine (notifyAll _).bind (f := fun _ => r) fun _ => ?_
  cases r with
  | ok t => exact .pure t
  | error e => exact .throw e

end Comes

end Galley.Bench
