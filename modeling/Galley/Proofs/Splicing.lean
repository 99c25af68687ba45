import Galley.Assembly
import Galley.Proofs.Trees
/-!
# What the spliced tree is made of

Splicing runs in step with splicing blanks in the place of the fragments: the same tokens are found and the
same elements are replaced. So `P` holds of every node of a spliced tree just if it does with blanks for
the fragments, and in every fragment that was put in (`everyOf_spliceTree`).
-/

namespace Galley.Assembly

open Html (Node EveryOf everyOf_append everyOf_cons everyOf_nil)

/-! ## Blanks for fragments -/

/-- A space in the place of a fragment, and nothing where the fragment shows nothing. -/
def blank (fragment : Text) : Text := if (Html.parse fragment).isEmpty then [] else [' ']

def blanked (table : Block.Table) : Block.Table :=
  { table with entries := table.entries.map fun e => (e.1, blank e.2) }

theorem get?_blanked (table : Block.Table) (token : Text) :
    (blanked table).get? token = (table.get? token).map blank := by
  simp only [Block.Table.get?, blanked]
  induction table.entries with
  | nil => rfl
  | cons e es ih =>
    obtain ⟨k, f⟩ := e
    simp only [List.map_cons, List.lookup_cons]
    cases token == k with
    | true => rfl
    | false => exact ih

theorem contains_blanked (table : Block.Table) (token : Text) :
    (blanked table).contains token = table.contains token := by
  simp only [Block.Table.contains, get?_blanked, Option.isSome_map]

theorem parse_nil : Html.parse [] = [] := by
  simp [Html.parse, Html.tokens, Html.tokensFrom, Html.plainText, Html.Build.finish, Html.Build.flush, Html.Build.popAll]

theorem parse_space : Html.parse [' '] = [.text [' ']] := by
  have htokens : Html.tokens [' '] = [.text [' ']] := by
    rw [Html.tokens, Html.tokensFrom]
    rfl
  rw [Html.parse, htokens]
  rfl

/-! ## Runs in step -/

/-- From every progress both runs come to the same progress, with some more tokens replaced, and their
    results are related. -/
def InStep {α : Type} (R : List Text → α → α → Prop) (w w' : Work α) : Prop :=
  ∀ p : Progress, ∃ tokens, (w.run p).2.tokens = p.tokens ++ tokens ∧ (w'.run p).2 = (w.run p).2 ∧
    R tokens (w.run p).1 (w'.run p).1

namespace InStep

variable {α β : Type} {R : List Text → α → α → Prop} {S : List Text → β → β → Prop}

theorem pure {a a' : α} (h : R [] a a') : InStep R (Pure.pure a) (Pure.pure a') :=
  fun p => ⟨[], (List.append_nil p.tokens).symm, rfl, h⟩

theorem bind {w w' : Work α} {f f' : α → Work β} (hw : InStep R w w')
    (hf : ∀ js a a', R js a a' → InStep (fun ks => S (js ++ ks)) (f a) (f' a')) : InStep S (w >>= f) (w' >>= f') := by
  intro p
  obtain ⟨js, htokens, hsame, hr⟩ := hw p
  obtain ⟨ks, htokens', hsame', hs⟩ := hf js _ _ hr (w.run p).2
  have hrun : (w' >>= f').run p = (f' (w'.run p).1).run (w.run p).2 := by rw [← hsame]; rfl
  refine ⟨js ++ ks, ?_, ?_, ?_⟩
  · rw [← List.append_assoc, ← htokens]
    exact htokens'
  · rw [hrun, hsame']
    rfl
  · rw [hrun]
    exact hs

end InStep

/-! ## The same nodes with and without fragments -/

section Same

variable (table : Block.Table) (P : Node → Prop)

/-- `P` holds in all fragments of the tokens. -/
def Shown (tokens : List Text) : Prop :=
  ∀ token ∈ tokens, ∀ fragment, table.get? token = some fragment → EveryOf P (Html.parse fragment)

/-- The nodes are those of `ns'` with the fragments of the tokens put in. -/
def Same (tokens : List Text) (ns ns' : List Node) : Prop :=
  ns.isEmpty = ns'.isEmpty ∧ (EveryOf P ns ↔ EveryOf P ns' ∧ Shown table P tokens)

/-- The outcomes are of one sort; nothing is left of the children before an element that is replaced. -/
def SameOutcome (isFirst : Bool) (tokens : List Text) : Outcome → Outcome → Prop
  | .children ns, .children ns' => Same table P tokens ns ns'
  | .replaced ns, .replaced ns' => Same table P tokens ns ns' ∧ isFirst = true
  | _, _ => False

/-- `P` does not depend on the children of the node. -/
def Steady : Node → Prop
  | .element name attributes _ => ∀ cs cs', P (.element name attributes cs) → P (.element name attributes cs')
  | _ => True

end Same

variable {table : Block.Table} {P : Node → Prop} {js ks : List Text} {a a' b b' : List Node}

theorem shown_append : Shown table P (js ++ ks) ↔ Shown table P js ∧ Shown table P ks := by
  simp only [Shown, List.mem_append]
  constructor
  · intro h
    exact ⟨fun k hk => h k (.inl hk), fun k hk => h k (.inr hk)⟩
  · rintro ⟨hj, hk⟩ k (h | h)
    · exact hj k h
    · exact hk k h

theorem shown_nil : Shown table P [] := fun _ h => absurd h List.not_mem_nil

namespace Same

theorem refl (ns : List Node) : Same table P [] ns ns := ⟨rfl, by simp [shown_nil]⟩

theorem append (h : Same table P js a a') (h' : Same table P ks b b') : Same table P (js ++ ks) (a ++ b) (a' ++ b') := by
  constructor
  · have ha := h.1
    have hb := h'.1
    cases a <;> cases a' <;> simp_all
  · rw [everyOf_append, everyOf_append, h.2, h'.2, shown_append, and_and_and_comm]

/-- Where nothing is left, nothing was put in that shows anything. -/
theorem shown_of_isEmpty (h : Same table P js a a') (he : a.isEmpty = true) : Shown table P js := by
  rw [List.isEmpty_iff] at he
  subst he
  exact (h.2.1 trivial).2

end Same

/-- What comes behind nodes that are done. -/
theorem SameOutcome.after {isFirst : Bool} {o o' : Outcome} (h : Same table P js a a')
    (ho : SameOutcome table P (isFirst && a.isEmpty) ks o o') :
    SameOutcome table P isFirst (js ++ ks) (o.after a) (o'.after a') := by
  match o, o', ho with
  | .children ns, .children ns', ho => exact h.append ho
  | .replaced ns, .replaced ns', ⟨ho, hf⟩ =>
    rw [Bool.and_eq_true] at hf
    have hshown := h.shown_of_isEmpty hf.2
    refine ⟨⟨ho.1, ?_⟩, hf.1⟩
    rw [ho.2, shown_append, and_iff_right hshown]

theorem isEmpty_parse_blank (fragment : Text) :
    (Html.parse fragment).isEmpty = (Html.parse (blank fragment)).isEmpty := by
  unfold blank
  split
  · rename_i h
    rw [h, parse_nil]
    rfl
  · rename_i h
    rw [parse_space, Bool.eq_false_iff.2 h]
    rfl

section Texts

variable (hspace : P (.text [' ']))

include hspace

theorem everyOf_parse_blank (fragment : Text) : EveryOf P (Html.parse (blank fragment)) := by
  unfold blank
  split
  · rw [parse_nil]
    trivial
  · rw [parse_space]
    exact ⟨hspace, trivial⟩

theorem tokenNodes_inStep (token : Text) :
    InStep (Same table P) (tokenNodes table token) (tokenNodes (blanked table) token) := by
  intro p
  unfold tokenNodes
  rw [get?_blanked]
  cases h : table.get? token with
  | none => exact ⟨[], by simp; rfl, rfl, .refl _⟩
  | some fragment =>
    refine ⟨[token], rfl, rfl, isEmpty_parse_blank fragment, ?_⟩
    constructor
    · intro he
      refine ⟨everyOf_parse_blank hspace fragment, ?_⟩
      intro k hk f hf
      rw [List.mem_singleton.1 hk, h] at hf
      rwa [← Option.some.inj hf]
    · rintro ⟨-, hs⟩
      exact hs token (List.mem_singleton_self token) fragment h

theorem cutText_inStep (s : Text) : InStep (Same table P) (cutText table s) (cutText (blanked table) s) := by
  unfold cutText
  generalize Text.sections (s.cut Block.Token.reader) = sections
  obtain ⟨first, more⟩ := sections
  have parts : InStep (fun ks ps ps' => Same table P ks ps.flatten ps'.flatten)
      (more.mapM fun part => do pure ((← tokenNodes table part.1) ++ textNodes part.2))
      (more.mapM fun part => do pure ((← tokenNodes (blanked table) part.1) ++ textNodes part.2)) := by
    induction more with
    | nil => exact .pure (.refl [])
    | cons part more ih =>
      simp only [List.mapM_cons]
      refine InStep.bind (R := Same table P) ?_ fun js a a' ha => ?_
      · refine (tokenNodes_inStep hspace part.1).bind fun js a a' ha => .pure ?_
        exact ha.append (.refl (textNodes part.2))
      · refine ih.bind fun ks ps ps' hps => .pure ?_
        simpa using ha.append hps
  refine parts.bind fun ks ps ps' hps => .pure ?_
  simpa using (Same.refl (textNodes first)).append hps

theorem spliceText_inStep (alone isFirst : Bool) (halone : alone = true → isFirst = true) (n : Node) (s : Text) :
    InStep (SameOutcome table P isFirst) (spliceText table alone n s) (spliceText (blanked table) alone n s) := by
  have cut : InStep (SameOutcome table P isFirst) (do pure (.children (← cutText table s)))
      (do pure (.children (← cutText (blanked table) s))) :=
    (cutText_inStep hspace s).bind fun js a a' ha => .pure (by rwa [List.append_nil])
  unfold spliceText
  split
  · rename_i token ht
    rw [contains_blanked]
    have hfirst : isFirst = true := by
      cases alone with
      | true => exact halone rfl
      | false => cases ht
    split
    · exact (tokenNodes_inStep hspace token).bind fun js a a' ha => .pure ⟨by rwa [List.append_nil], hfirst⟩
    · exact cut
  · split
    · exact .pure (Same.refl [n])
    · exact cut

end Texts

/-! ## Whole trees in step -/

/-- A text or note, and then the children behind it. -/
theorem texts_inStep {isFirst : Bool} {w w' : Work Outcome} {rest rest' : Bool → Work Outcome}
    (hw : InStep (SameOutcome table P isFirst) w w')
    (hrest : ∀ isFirst', InStep (SameOutcome table P isFirst') (rest isFirst') (rest' isFirst')) :
    InStep (SameOutcome table P isFirst)
      (do match ← w with
        | .replaced ns => pure (.replaced ns)
        | .children ns => pure ((← rest (isFirst && ns.isEmpty)).after ns))
      (do match ← w' with
        | .replaced ns => pure (.replaced ns)
        | .children ns => pure ((← rest' (isFirst && ns.isEmpty)).after ns)) := by
  refine hw.bind fun js o o' ho => ?_
  match o, o', ho with
  | .replaced ns, .replaced ns', ho => exact .pure (by rwa [List.append_nil])
  | .children ns, .children ns', ho =>
    simp only [← ho.1]
    refine (hrest (isFirst && ns.isEmpty)).bind fun ks o o' ho' => .pure ?_
    rw [List.append_nil]
    exact SameOutcome.after ho ho'

mutual

theorem spliceNode_inStep (hspace : P (.text [' '])) : ∀ n : Node, n.Every (Steady P) →
    InStep (Same table P) (spliceNode table n) (spliceNode (blanked table) n)
  | .text s, _ => by
    rw [spliceNode, spliceNode]
    exact .pure (.refl _)
  | .note kind s, _ => by
    rw [spliceNode, spliceNode]
    exact .pure (.refl _)
  | .element name attributes children, h => by
    rw [spliceNode, spliceNode]
    refine (spliceChildren_inStep hspace children true true h.2).bind fun js o o' ho => ?_
    match o, o', ho with
    | .children ns, .children ns', ho =>
      refine .pure ⟨rfl, ?_⟩
      have hsteady : P (.element name attributes ns) ↔ P (.element name attributes ns') := ⟨h.1 ns ns', h.1 ns' ns⟩
      simp only [everyOf_cons, Node.Every, everyOf_nil, and_true, List.append_nil, hsteady, ho.2, and_assoc]
    | .replaced ns, .replaced ns', ⟨ho, _⟩ => exact .pure (by simpa using ho)

theorem spliceChildren_inStep (hspace : P (.text [' '])) : ∀ (ns : List Node) (replaceable isFirst : Bool), EveryOf (Steady P) ns →
    InStep (SameOutcome table P isFirst) (spliceChildren table replaceable isFirst ns)
      (spliceChildren (blanked table) replaceable isFirst ns)
  | [], replaceable, isFirst, _ => by
    rw [spliceChildren, spliceChildren]
    exact .pure (Same.refl [])
  | .element name attributes children :: rest, replaceable, isFirst, h => by
    rw [spliceChildren, spliceChildren]
    refine (spliceNode_inStep hspace _ h.1).bind fun js a a' ha => ?_
    rw [← ha.1]
    refine (spliceChildren_inStep hspace rest replaceable (isFirst && a.isEmpty) h.2).bind fun ks o o' ho => .pure ?_
    simpa using SameOutcome.after ha ho
  | .text s :: rest, replaceable, isFirst, h => by
    rw [spliceChildren, spliceChildren]
    have halone : (replaceable && isFirst && rest.isEmpty) = true → isFirst = true := by simp_all
    exact texts_inStep (spliceText_inStep hspace _ isFirst halone _ s) fun isFirst' =>
      spliceChildren_inStep hspace rest replaceable isFirst' h.2
  | .note kind s :: rest, replaceable, isFirst, h => by
    rw [spliceChildren, spliceChildren]
    have halone : (replaceable && isFirst && rest.isEmpty) = true → isFirst = true := by simp_all
    exact texts_inStep (spliceText_inStep hspace _ isFirst halone _ s) fun isFirst' =>
      spliceChildren_inStep hspace rest replaceable isFirst' h.2

end

theorem spliceRoot_inStep (hspace : P (.text [' '])) {children : List Node} (h : EveryOf (Steady P) children) :
    InStep (Same table P) (spliceRoot table children) (spliceRoot (blanked table) children) := by
  refine (spliceChildren_inStep hspace children false true h).bind fun js o o' ho => ?_
  match o, o', ho with
  | .children ns, .children ns', ho => exact .pure (by rwa [List.append_nil])
  | .replaced ns, .replaced ns', ⟨ho, _⟩ => exact .pure (by rwa [List.append_nil])

/-! ## What splicing keeps -/

/-- From every progress the result is in `Q`. -/
def Yields {α : Type} (w : Work α) (Q : α → Prop) : Prop := ∀ p : Progress, Q (w.run p).1

namespace Yields

variable {α β : Type} {w : Work α} {Q : α → Prop} {R : β → Prop}

theorem pure {a : α} (h : Q a) : Yields (Pure.pure a) Q := fun _ => h

theorem bind {next : α → Work β} (hw : Yields w Q) (hn : ∀ a, Q a → Yields (next a) R) : Yields (w >>= next) R :=
  fun p => hn _ (hw p) _

end Yields

def Outcome.Every (P : Node → Prop) : Outcome → Prop
  | .children ns => EveryOf P ns
  | .replaced ns => EveryOf P ns

theorem Outcome.Every.after {o : Outcome} {ns : List Node} (ho : o.Every P) (hns : EveryOf P ns) : (o.after ns).Every P := by
  cases o with
  | children ms => exact everyOf_append.2 ⟨hns, ho⟩
  | replaced ms => exact ho

section Kept

variable (htext : ∀ s, P (.text s))
  (hfragments : ∀ token fragment, table.get? token = some fragment → EveryOf P (Html.parse fragment))

include htext

theorem everyOf_textNodes (s : Text) : EveryOf P (textNodes s) := by
  unfold textNodes
  split
  · trivial
  · exact ⟨htext s, trivial⟩

include hfragments

theorem yields_tokenNodes (token : Text) : Yields (tokenNodes table token) (EveryOf P) := by
  intro p
  unfold tokenNodes
  cases h : table.get? token with
  | none => exact ⟨htext token, trivial⟩
  | some fragment => exact hfragments token fragment h

theorem yields_cutText (s : Text) : Yields (cutText table s) (EveryOf P) := by
  unfold cutText
  generalize Text.sections (s.cut Block.Token.reader) = sections
  obtain ⟨first, more⟩ := sections
  have parts : Yields (more.mapM fun part => do pure ((← tokenNodes table part.1) ++ textNodes part.2))
      fun ps => EveryOf P ps.flatten := by
    induction more with
    | nil => exact .pure trivial
    | cons part more ih =>
      simp only [List.mapM_cons]
      refine Yields.bind (Q := EveryOf P) ?_ fun ns hns => ih.bind fun ps hps => .pure ?_
      · refine (yields_tokenNodes htext hfragments part.1).bind fun ns hns => .pure ?_
        exact everyOf_append.2 ⟨hns, everyOf_textNodes htext part.2⟩
      · simpa using ⟨hns, hps⟩
  exact parts.bind fun ps hps => .pure (everyOf_append.2 ⟨everyOf_textNodes htext first, hps⟩)

theorem yields_spliceText (alone : Bool) {n : Node} (hn : n.Every P) (s : Text) :
    Yields (spliceText table alone n s) (Outcome.Every P) := by
  unfold spliceText
  split
  · split
    · exact (yields_tokenNodes htext hfragments _).bind fun ns hns => .pure hns
    · exact (yields_cutText htext hfragments s).bind fun ns hns => .pure hns
  · split
    · exact .pure ⟨hn, trivial⟩
    · exact (yields_cutText htext hfragments s).bind fun ns hns => .pure hns

omit htext hfragments

/-- A text or note, and then the children behind it. -/
theorem yields_texts {isFirst : Bool} {w : Work Outcome} {rest : Bool → Work Outcome} (hw : Yields w (Outcome.Every P))
    (hrest : ∀ isFirst', Yields (rest isFirst') (Outcome.Every P)) :
    Yields (do match ← w with
        | .replaced ns => pure (.replaced ns)
        | .children ns => pure ((← rest (isFirst && ns.isEmpty)).after ns)) (Outcome.Every P) := by
  refine hw.bind fun o ho => ?_
  cases o with
  | replaced ns => exact .pure ho
  | children ns => exact (hrest _).bind fun o ho' => .pure (ho'.after ho)

/-- Splicing the children of an element, where splicing any text or note of the children keeps `P` and every element
    does, whatever it comes to hold. -/
theorem yields_children {R : Node → Prop} (htext : ∀ alone s, R (.text s) → Yields (spliceText table alone (.text s) s) (Outcome.Every P))
    (hnote : ∀ alone kind s, R (.note kind s) → Yields (spliceText table alone (.note kind s) s) (Outcome.Every P))
    (helement : ∀ name attributes children, R (.element name attributes children) → ∀ cs, P (.element name attributes cs)) :
    ∀ (ns : List Node) (replaceable isFirst : Bool), EveryOf R ns →
      Yields (spliceChildren table replaceable isFirst ns) (Outcome.Every P)
  | [], replaceable, isFirst, _ => by
    rw [spliceChildren]
    exact .pure trivial
  | .element name attributes children :: rest, replaceable, isFirst, h => by
    rw [spliceChildren, spliceNode]
    have hinside : Yields (do match ← spliceChildren table true true children with
        | .children ns => pure [.element name attributes ns]
        | .replaced ns => pure ns : Work (List Node)) (EveryOf P) := by
      refine (yields_children htext hnote helement children true true h.1.2).bind fun o ho => ?_
      cases o with
      | children ns => exact .pure ⟨⟨helement name attributes children h.1.1 ns, ho⟩, trivial⟩
      | replaced ns => exact .pure ho
    refine hinside.bind fun ns hns => ?_
    exact (yields_children htext hnote helement rest replaceable _ h.2).bind fun o ho => .pure (ho.after hns)
  | .text s :: rest, replaceable, isFirst, h => by
    rw [spliceChildren]
    exact yields_texts (htext _ s h.1) fun isFirst' => yields_children htext hnote helement rest replaceable isFirst' h.2
  | .note kind s :: rest, replaceable, isFirst, h => by
    rw [spliceChildren]
    exact yields_texts (hnote _ kind s h.1) fun isFirst' => yields_children htext hnote helement rest replaceable isFirst' h.2

theorem yields_root {children : List Node} (h : Yields (spliceChildren table false true children) (Outcome.Every P)) :
    Yields (spliceRoot table children) (EveryOf P) := by
  refine h.bind fun o ho => ?_
  cases o with
  | children ns => exact .pure ho
  | replaced ns => exact .pure ho

theorem yields_spliceRoot (htext : ∀ s, P (.text s))
    (hfragments : ∀ token fragment, table.get? token = some fragment → EveryOf P (Html.parse fragment))
    {children : List Node} (h : EveryOf P children) (hs : EveryOf (Steady P) children) :
    Yields (spliceRoot table children) (EveryOf P) := by
  refine yields_root (yields_children (R := fun n => P n ∧ Steady P n) ?_ ?_ ?_ children false true (h.and hs))
  · exact fun alone s hn => yields_spliceText htext hfragments alone (n := .text s) hn.1 s
  · exact fun alone kind s hn => yields_spliceText htext hfragments alone (n := .note kind s) hn.1 s
  · exact fun name attributes children hn cs => hn.2 _ cs hn.1

end Kept

mutual

theorem every_smooth (htext : ∀ s, P (.text s)) : ∀ n : Node, n.Every P → n.Every (Steady P) → (smooth n).Every P
  | .text s, _, _ => htext s
  | .note kind s, hn, _ => hn
  | .element name attributes children, hn, hs => by
    rw [smooth]
    exact ⟨hs.1 _ _ hn.1, everyOf_smoothAll htext children hn.2 hs.2⟩

/-- Joining texts keeps what does not depend on the texts. -/
theorem everyOf_smoothAll (htext : ∀ s, P (.text s)) : ∀ ns : List Node, EveryOf P ns → EveryOf (Steady P) ns →
    EveryOf P (smoothAll ns)
  | [], _, _ => by
    rw [smoothAll]
    trivial
  | n :: ns, hn, hs => by
    have hhead := every_smooth htext n hn.1 hs.1
    have hrest := everyOf_smoothAll htext ns hn.2 hs.2
    rw [smoothAll]
    unfold joinTexts
    split
    · rename_i hns
      rw [hns] at hrest
      exact ⟨htext _, hrest.2⟩
    · exact ⟨hhead, hrest⟩

end

/-! ## The whole page -/

/-- The tokens whose fragments are put into a tree. -/
def spliced (table : Block.Table) (tree : List Node) : List Text :=
  match splitRoot? (smoothAll tree) with
  | none => []
  | some (_, (_, _, children), _) => ((spliceRoot table children).run {}).2.tokens

theorem splitRoot?_eq {tree before after : List Node} {root : Text × List Html.Attribute × List Node}
    (h : splitRoot? tree = some (before, root, after)) :
    tree = before ++ .element root.1 root.2.1 root.2.2 :: after := by
  have next {n : Node} {rest start : List Node} (ih : ∀ {b}, splitRoot? rest = some (b, root, after) →
      rest = b ++ .element root.1 root.2.1 root.2.2 :: after)
      (h : ((splitRoot? rest).map fun page => (n :: page.1, page.2.1, page.2.2)) = some (start, root, after)) :
      n :: rest = start ++ .element root.1 root.2.1 root.2.2 :: after := by
    obtain ⟨⟨b, r, a⟩, hb, he⟩ := Option.map_eq_some_iff.1 h
    simp only [Prod.mk.injEq] at he
    obtain ⟨rfl, rfl, rfl⟩ := he
    rw [ih hb, List.cons_append]
  induction tree generalizing before with
  | nil => cases h
  | cons n tree ih =>
    cases n with
    | element name attributes children =>
      simp only [splitRoot?, Option.some.injEq, Prod.mk.injEq] at h
      obtain ⟨rfl, rfl, rfl⟩ := h
      rfl
    | text s => exact next ih h
    | note kind s => exact next ih h

/-- A page holds `P` as it does without what was put into its root and added to it. -/
theorem everyOf_page {name : Text} {attributes : List Html.Attribute} {before after cs cs' script : List Node} {shown : Prop}
    (hroot : ∀ xs ys, P (.element name attributes xs) ↔ P (.element name attributes ys))
    (hsame : EveryOf P cs ↔ EveryOf P cs' ∧ shown) (entries : List Node) :
    EveryOf P (before ++ .element name attributes (cs ++ entries ++ script) :: after) ↔
      EveryOf P (before ++ .element name attributes (cs' ++ [] ++ script) :: after) ∧ shown ∧ EveryOf P entries := by
  simp only [everyOf_append, everyOf_cons, Node.Every, everyOf_nil, and_true, hsame, hroot _ (cs' ++ [] ++ script)]
  constructor
  · rintro ⟨hbefore, ⟨hp, ⟨⟨hcs, hshown⟩, hentries⟩, hscript⟩, hafter⟩
    exact ⟨⟨hbefore, ⟨hp, hcs, hscript⟩, hafter⟩, hshown, hentries⟩
  · rintro ⟨⟨hbefore, ⟨hp, hcs, hscript⟩, hafter⟩, hshown, hentries⟩
    exact ⟨hbefore, ⟨hp, ⟨⟨hcs, hshown⟩, hentries⟩, hscript⟩, hafter⟩

/-- `P` holds of every node of a page with its fragments just if it does with blanks in their place, in
    every fragment that is put in, and in the bibliography. -/
theorem everyOf_spliceTree (hspace : P (.text [' '])) {bibliography : Option Text} {typeset tree : List Node}
    {notices : List Notice} (hsteady : EveryOf (Steady P) (smoothAll typeset))
    (h : spliceTree table bibliography typeset = (.ok tree, notices)) :
    ∃ page, (spliceTree (blanked table) none typeset).1 = .ok page ∧
      (EveryOf P tree ↔ EveryOf P page ∧ Shown table P (spliced table typeset) ∧
        ∀ html, bibliography = some html → html ≠ [] → (bibliographySection html).Every P) := by
  simp only [spliceTree, spliced] at h ⊢
  cases hroot : splitRoot? (smoothAll typeset) with
  | none => rw [hroot] at h; simp at h
  | some parts =>
    obtain ⟨before, ⟨name, attributes, children⟩, after⟩ := parts
    rw [hroot] at h
    have hsplit := splitRoot?_eq hroot
    rw [hsplit, everyOf_append, everyOf_cons] at hsteady
    have hstep := @spliceRoot_inStep table P hspace _ hsteady.2.1.2 {}
    dsimp only at h ⊢
    generalize (spliceRoot table children).run {} = run at h hstep ⊢
    generalize (spliceRoot (blanked table) children).run {} = run' at hstep ⊢
    obtain ⟨cs, p⟩ := run
    obtain ⟨cs', p'⟩ := run'
    obtain ⟨tokens, htokens, hprogress, -, hsame⟩ := hstep
    dsimp only at hprogress htokens hsame h ⊢
    subst hprogress
    rw [List.nil_append] at htokens
    subst htokens
    obtain ⟨rfl, -⟩ := by simpa only [Prod.mk.injEq, Except.ok.injEq] using h
    refine ⟨_, rfl, ?_⟩
    have hroot (xs ys : List Node) : P (.element name attributes xs) ↔ P (.element name attributes ys) :=
      ⟨hsteady.2.1.1 xs ys, hsteady.2.1.1 ys xs⟩
    rcases bibliography with _ | _ | ⟨c, html⟩
    · exact (everyOf_page hroot hsame []).trans (by simp)
    · exact (everyOf_page hroot hsame []).trans (by simp)
    · exact (everyOf_page hroot hsame [bibliographySection (c :: html)]).trans (by simp)

end Galley.Assembly
