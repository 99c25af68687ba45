import Galley.Proofs.Edges
import Galley.Proofs.Quiet
import Galley.Proofs.Substitution
import Mathlib.Logic.Relation
/-!
# Trades between the text and the table

All that the stages do to a text and to the table of the fragments taken out of it comes down to three trades
(`Trade`): a fragment goes into the table and its token into the place of a construct, a piece of the text makes way
for one without tokens, or the bibliography takes its fragments out of the table. Work on the bench that does nothing
else (`Turns`, `Trading`) is put together from such work.
-/

namespace Galley

open Bench (Quiet)

/-- A token as it stands in the text: on lines of its own, or in its sentence. -/
def placed (ownLine : Bool) (token : Text) : Text := if ownLine then "\n\n" ++ token ++ "\n\n" else token

/-- One change to a text and the table of the fragments taken out of it. -/
inductive Trade : Text × Block.Table → Text × Block.Table → Prop
  /-- A token takes the place of a construct. -/
  | put {a x b : Text} {T : Block.Table} (kind : Block.Kind) (fragment : Text) (ownLine : Bool) (hx : Construct x) :
      Trade (a ++ x ++ b, T)
        (a ++ placed ownLine (T.register kind fragment).1 ++ b, (T.register kind fragment).2)
  /-- A piece of the text makes way for one with no token in it, and nothing that begins a construct. -/
  | strike {a x y b : Text} {T : Block.Table} (hx : Edged x) (hy : signs y = 0 ∧ 'W' ∉ y) :
      Trade (a ++ x ++ b, T) (a ++ y ++ b, T)
  /-- Markup outside of the text takes fragments out of the table. -/
  | fold {s : Text} {T : Block.Table} (markup : Text) : Trade (s, T) (s, (T.absorb markup).2)

/-- Trades one after the other. -/
abbrev Trades : Text × Block.Table → Text × Block.Table → Prop := Relation.ReflTransGen Trade

namespace Trades

variable {s t u v : Text} {T T' T'' : Block.Table}

/-- What stands around the text does not matter. -/
theorem frame (h : Trades (s, T) (t, T')) (a b : Text) : Trades (a ++ s ++ b, T) (a ++ t ++ b, T') := by
  refine Relation.ReflTransGen.lift (fun p : Text × Block.Table => (a ++ p.1 ++ b, p.2)) (fun p q hpq => ?_) _ _ h
  cases hpq with
  | @put a' _ b' T kind fragment ownLine hx =>
    have hput := Trade.put (a := a ++ a') (b := b' ++ b) (T := T) kind fragment ownLine hx
    simpa [Function.onFun] using hput
  | @strike a' _ _ b' T hx hy =>
    have hstrike := Trade.strike (a := a ++ a') (b := b' ++ b) (T := T) hx hy
    simpa [Function.onFun] using hstrike
  | fold markup => exact .fold markup

/-- Trades in the first part of a text, then in the second. -/
theorem append (hs : Trades (s, T) (t, T')) (hu : Trades (u, T') (v, T'')) :
    Trades (s ++ u, T) (t ++ v, T'') := by
  have hfirst := hs.frame [] u
  have hsecond := hu.frame t []
  rw [List.append_nil, List.append_nil] at hsecond
  exact hfirst.trans hsecond

/-- Tokens are only handed out. -/
theorem issued_le {p q : Text × Block.Table} (h : Trades p q) : p.2.issued ≤ q.2.issued := by
  induction h with
  | refl => exact Nat.le_refl _
  | tail _ htrade ih =>
    refine ih.trans ?_
    cases htrade with
    | put kind fragment ownLine hx => exact Nat.le_of_lt (Nat.lt_of_lt_of_eq (Nat.lt_succ_self _) (Block.Table.issued_register _ _ _).symm)
    | strike hx hy => exact Nat.le_refl _
    | fold markup => exact Nat.le_of_eq (Block.Table.absorb_subset _ _).2.symm

theorem strike {x y : Text} (hx : Edged x) (hy : signs y = 0 ∧ 'W' ∉ y) : Trades (x, T) (y, T) := by
  have h := Trade.strike (a := []) (b := []) (T := T) hx hy
  simp only [List.nil_append, List.append_nil] at h
  exact .single h

/-- Pieces of a text one after the other. -/
theorem flatMap {α : Type} {l : List α} {f g : α → Text} (h : ∀ p ∈ l, Trades (f p, T) (g p, T)) :
    Trades (l.flatMap f, T) (l.flatMap g, T) := by
  induction l with
  | nil => exact .refl
  | cons p l ih =>
    rw [List.flatMap_cons, List.flatMap_cons]
    exact (h p List.mem_cons_self).append (ih fun q hq => h q (List.mem_cons_of_mem p hq))

theorem rewriting {α : Type} {read : Reader α} {g : Piece α → Text} (hchar : ∀ c, g (.char c) = [c])
    (hhit : ∀ a before t rest, read before t = some (a, rest) →
      Trades (Text.upTo t rest, T) (g (.hit a (Text.upTo t rest)), T)) (s : Text) :
    Trades (s, T) ((s.cut read).flatMap g, T) := by
  have hpieces : Trades ((s.cut read).flatMap Piece.source, T) ((s.cut read).flatMap g, T) := by
    refine flatMap fun p hp => ?_
    rcases Text.mem_cut hp with ⟨c, -, rfl⟩ | ⟨a, before, t, rest, rfl, -, hr⟩
    · rw [hchar]
      exact .refl
    · exact hhit a before t rest hr
  have hs : (s.cut read).flatMap Piece.source = s := Text.sources_cut s
  rwa [hs] at hpieces

theorem replaceAll {α : Type} {read : Reader α} (hread : Takes Edged read) {f : α → Text}
    (hf : ∀ a, signs (f a) = 0 ∧ 'W' ∉ f a) (s : Text) : Trades (s, T) (s.replaceAll read f, T) :=
  rewriting (fun _ => rfl) (fun a _ _ _ hr => strike (hread.upTo hr) (hf a)) s

theorem removeAll {α : Type} {read : Reader α} (hread : Takes Edged read) (s : Text) :
    Trades (s, T) (s.removeAll read, T) :=
  replaceAll hread (fun _ => ⟨rfl, List.not_mem_nil⟩) s

end Trades

/-! ## Work on the bench -/

namespace Bench

variable {α β : Type}

/-- From `b` to `b'` each token that is handed out is counted, and no stage ends. -/
structure Tally (b b' : BenchState) : Prop where
  extracted : b'.extracted + b.table.issued = b.extracted + b'.table.issued
  counts : b'.counts = b.counts

theorem Tally.refl (b : BenchState) : Tally b b := ⟨rfl, rfl⟩

theorem Tally.trans {b b' b'' : BenchState} (h : Tally b b') (h' : Tally b' b'') : Tally b b'' := by
  refine ⟨?_, h'.counts.trans h.counts⟩
  have := h.extracted
  have := h'.extracted
  omega

/-- Where the work comes to a result, trades have led from the text `s` to the one that the result holds. -/
def Turns (view : α → Text) (s : Text) (work : Bench α) : Prop :=
  ∀ b a b', work.run.run b = (.ok a, b') → Trades (s, b.table) (view a, b'.table) ∧ Tally b b'

namespace Turns

variable {view : α → Text} {next : β → Bench α} {work : Bench β} {s : Text}

theorem pure {a : α} (h : view a = s) : Turns view s (pure a) := by
  intro b c b' hrun
  cases hrun
  rw [h]
  exact ⟨.refl, .refl b⟩

theorem bind {viewed : β → Text} (hw : Turns viewed s work) (hn : ∀ a, Turns view (viewed a) (next a)) :
    Turns view s (work >>= next) := by
  intro b c b'' hrun
  obtain ⟨a, b', hwork, hnext⟩ := run_bind_ok hrun
  obtain ⟨hfirst, htally⟩ := hw b a b' hwork
  obtain ⟨hsecond, htally'⟩ := hn a b' c b'' hnext
  exact ⟨hfirst.trans hsecond, htally.trans htally'⟩

/-- Work that leaves the table alone may come first. -/
theorem after (hw : Quiet work) (hn : ∀ a, Turns view s (next a)) : Turns view s (work >>= next) := by
  intro b c b'' hrun
  obtain ⟨a, b', hwork, hnext⟩ := run_bind_ok hrun
  have hkept := hw b
  rw [hwork] at hkept
  obtain ⟨htrades, htally⟩ := hn a b' c b'' hnext
  have htable : b'.table = b.table := hkept.table
  rw [htable] at htrades
  refine ⟨htrades, Tally.trans ⟨?_, hkept.counts⟩ htally⟩
  rw [htable, hkept.extracted]

theorem frame {view : β → Text} (hw : Turns view s work) (a b : Text) : Turns (fun r => a ++ view r ++ b) (a ++ s ++ b) work :=
  fun b₀ r b' hrun => ⟨(hw b₀ r b' hrun).1.frame a b, (hw b₀ r b' hrun).2⟩

/-- Texts that are turned one after the other. -/
theorem mapM {γ : Type} {f : γ → Bench Text} {source : γ → Text} {l : List γ} (h : ∀ p ∈ l, Turns id (source p) (f p)) :
    Turns List.flatten (l.flatMap source) (l.mapM f) := by
  induction l with
  | nil => exact .pure rfl
  | cons p l ih =>
    rw [List.mapM_cons, List.flatMap_cons]
    have hfirst := (h p List.mem_cons_self).frame [] (l.flatMap source)
    refine hfirst.bind fun t => ?_
    have hrest := (ih fun q hq => h q (List.mem_cons_of_mem p hq)).frame t []
    rw [List.append_nil] at hrest
    refine hrest.bind fun ts => .pure ?_
    simp

theorem rounds {construct : Text} {cap : Int} {step : α → Bench (Option α)}
    (hstep : ∀ a, Turns (fun r => view (r.getD a)) (view a) (step a)) (a : α) :
    Turns view (view a) (Bench.rounds construct cap step a) := by
  have main (k : Nat) (a : α) : Turns view (view a) (Bench.rounds.go construct cap step k a) := by
    induction k generalizing a with
    | zero => exact .after (.notify _) fun _ => .pure rfl
    | succ k ih =>
      refine (hstep a).bind fun r => ?_
      cases r with
      | none => exact .pure rfl
      | some c => exact ih c
  exact main _ a

end Turns

/-- The work gives a token for a construct. -/
def Puts (work : Bench Text) : Prop := ∀ x, Construct x → Turns id x work

theorem puts_register (kind : Block.Kind) (fragment : Text) (ownLine : Bool) :
    Puts (Bench.register kind fragment ownLine) := by
  intro x hx b t b' hrun
  cases hrun
  have hput := Trade.put (a := []) (b := []) (T := b.table) kind fragment ownLine hx
  simp only [List.nil_append, List.append_nil] at hput
  refine ⟨.single hput, ?_, rfl⟩
  have hissued := b.table.issued_register kind fragment
  change b.extracted + 1 + b.table.issued = b.extracted + (b.table.register kind fragment).2.issued
  omega

theorem Puts.after {work : Bench β} {next : β → Bench Text} (hw : Quiet work) (hn : ∀ a, Puts (next a)) :
    Puts (work >>= next) := fun x hx => .after hw fun a => hn a x hx

end Bench

open Bench (Turns Puts puts_register)

/-- Where the stage comes to a result, it has done nothing to the text and the table but trades. -/
def Trading (stage : Text → Bench Text) : Prop := ∀ s, Turns id s (stage s)

/-- A token takes the place of an environment. -/
theorem turns_put {s : Text} {e : Environment} (he : e.Splits s) (hx : Construct e.source) {work : Bench Text}
    (hw : Puts work) : Turns (·.getD s) s (do pure (some (e.replaceBy (← work)))) := by
  have hframed := (hw e.source hx).frame e.before e.after
  rw [show e.before ++ e.source ++ e.after = s from he] at hframed
  exact hframed.bind fun t => .pure rfl

/-- A fragment that is rendered first takes the place of an environment. -/
theorem turns_replaceBy {s : Text} {e : Environment} (he : e.Splits s) (hx : Construct e.source) (kind : Block.Kind)
    {render : Bench Text} (hr : Quiet render) : Turns (·.getD s) s (do
      let token ← Bench.register kind (← render)
      pure (some (e.replaceBy token))) :=
  .after hr fun fragment => turns_put he hx (puts_register kind fragment true)

/-- A token takes the place of what stands from an opening marker to a closing one. -/
theorem turns_marked {α β : Type} {s rest : Text} {f : Text.Found α} {e : Text.Found β} (hf : f.Splits s)
    (hopening : Construct f.source) (hrest : rest <:+ f.after) (he : e.Splits rest) (hclosing : Construct e.source)
    {work : Bench Text} (hw : Puts work) :
    Turns (·.getD s) s (do pure (some (f.before ++ (← work) ++ e.after))) := by
  obtain ⟨options, hoptions⟩ := hrest
  have hs : f.before ++ (f.source ++ (options ++ e.before) ++ e.source) ++ e.after = s := by
    rw [← show f.before ++ f.source ++ f.after = s from hf, ← hoptions, ← show e.before ++ e.source ++ e.after = rest from he]
    simp only [List.append_assoc]
  have hframed := (hw _ (hopening.between (options ++ e.before) hclosing.last)).frame f.before e.after
  rw [hs] at hframed
  exact hframed.bind fun t => .pure rfl

namespace Trading

variable {f g : Text → Bench Text}

theorem bind (hf : Trading f) (hg : Trading g) : Trading fun s => f s >>= g := fun s => (hf s).bind hg

theorem foldlM {α : Type} {l : List α} {f : Text → α → Bench Text} (hf : ∀ x ∈ l, Trading fun s => f s x) :
    Trading fun s => l.foldlM f s := by
  induction l with
  | nil => exact fun s => .pure rfl
  | cons x l ih =>
    intro s
    dsimp only
    rw [List.foldlM_cons]
    exact (hf x List.mem_cons_self s).bind (ih fun y hy => hf y (List.mem_cons_of_mem x hy))

theorem rounds {construct : Text} {cap : Int} {step : Text → Bench (Option Text)}
    (hstep : ∀ s, Turns (·.getD s) s (step s)) : Trading (Bench.rounds construct cap step) :=
  Turns.rounds hstep

/-- Rounds that take the first environment `name` out. -/
theorem environments {construct name : Text} {cap : Int} {unclosed : Unclosed → Text → Bench (Option Text)}
    {take : Environment → Bench (Option Text)} (hunclosed : ∀ u s, Turns (·.getD s) s (unclosed u s))
    (htake : ∀ s e, e.Splits s → Construct e.source → Turns (·.getD s) s (take e)) :
    Trading (Bench.rounds construct cap fun s =>
      match Environment.find name s with
      | .error u => unclosed u s
      | .ok none => pure none
      | .ok (some e) => take e) := by
  refine rounds fun s => ?_
  split
  · exact hunclosed _ s
  · exact .pure rfl
  · rename_i he
    exact htake s _ (Environment.find_splits he) (Environment.construct_find he)

/-- Rounds that take the first environment of some names out that holds no other of them. -/
theorem leaves {construct : Text} {cap : Int} {names : List Text} {take : Environment → Bench (Option Text)}
    (htake : ∀ s e, e.Splits s → Construct e.source → Turns (·.getD s) s (take e)) :
    Trading (Bench.rounds construct cap fun s =>
      match Environment.leaf? names s with
      | none => pure none
      | some e => take e) := by
  refine rounds fun s => ?_
  split
  · exact .pure rfl
  · rename_i he
    exact htake s _ (Environment.leaf?_splits he) (Environment.construct_leaf? he)

/-- Work on the pieces of a text that keeps its characters. -/
theorem pieces {α : Type} {read : Reader α} {f : Piece α → Bench Text} (hchar : ∀ c, f (.char c) = pure [c])
    (hhit : ∀ a before t rest, read before t = some (a, rest) →
      Turns id (Text.upTo t rest) (f (.hit a (Text.upTo t rest)))) :
    Trading fun s => (s.cut read).mapM f >>= fun parts => pure parts.flatten := by
  intro s
  have hsources : (s.cut read).flatMap Piece.source = s := Text.sources_cut s
  have hparts : Turns List.flatten ((s.cut read).flatMap Piece.source) ((s.cut read).mapM f) := by
    refine .mapM fun p hp => ?_
    rcases Text.mem_cut hp with ⟨c, -, rfl⟩ | ⟨a, before, t, rest, rfl, -, hr⟩
    · rw [hchar]
      exact .pure rfl
    · exact hhit a before t rest hr
  rw [hsources] at hparts
  exact hparts.bind fun parts => .pure rfl

/-- Texts in the places of constructs. -/
theorem replaceAllM {α : Type} {read : Reader α} {f : α → Bench Text}
    (h : ∀ a before t rest, read before t = some (a, rest) → Turns id (Text.upTo t rest) (f a)) :
    Trading (Text.replaceAllM read f) :=
  pieces (fun _ => rfl) h

end Trading

end Galley
