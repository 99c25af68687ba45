import Galley.Proofs.Characters
import Galley.Proofs.Splicing
import Galley.Proofs.Tokens
/-!
# Splicing as a recursion over the typeset tree

`place` puts fragments into a tree by what the typeset tree holds: an element that holds one known token and
nothing else gives way to the fragment, other texts are cut at their tokens, and all else stays. Splicing looks at
the tree while it changes. Where all that stood before a token has left nothing, the token is alone in its element
by then, and the element gives way although it held more. So the two agree just if no element is left alone with a
token (`spliceTree_eq_place_iff`); they always do if no fragment is empty.
-/

namespace Galley.Assembly

open Html (Node EveryOf everyOf_append everyOf_cons everyOf_nil)

/-! ## The recursion -/

/-- The nodes in the place of a token: those of its fragment, or the token as text. -/
def tokenPlace (table : Block.Table) (token : Text) : List Node :=
  match table.get? token with
  | some fragment => Html.parse fragment
  | none => [.text token]

def textPlace (table : Block.Table) (s : Text) : List Node :=
  if (Block.Token.all s).isEmpty then [.text s]
  else
    let (first, more) := Text.sections (s.cut Block.Token.reader)
    textNodes first ++ more.flatMap fun (token, after) => tokenPlace table token ++ textNodes after

/-- The known token that is all that an element holds. -/
def onlyToken? (table : Block.Table) : List Node → Option Text
  | [.text s] => (soleToken? s).filter table.contains
  | _ => none

mutual

/-- The nodes in the place of a node below the root. -/
def place (table : Block.Table) : Node → List Node
  | .text s => textPlace table s
  | .note kind s => [.note kind s]
  | .element name attributes children =>
    match onlyToken? table children with
    | some token => tokenPlace table token
    | none => [.element name attributes (placeAll table children)]

def placeAll (table : Block.Table) : List Node → List Node
  | [] => []
  | n :: ns => place table n ++ placeAll table ns

end

/-! ## Elements that are left alone with a token -/

/-- The last child holds a known token and nothing else, and those before it leave nothing. -/
def TokenLast (table : Block.Table) (children : List Node) : Prop :=
  ∃ init s token, children = init ++ [.text s] ∧ onlyToken? table [.text s] = some token ∧ placeAll table init = []

mutual

/-- No element that holds more than a token is left alone with it. -/
def Settled (table : Block.Table) : Node → Prop
  | .element _ _ children =>
    (onlyToken? table children).isSome = true ∨ (¬TokenLast table children ∧ SettledAll table children)
  | _ => True

def SettledAll (table : Block.Table) : List Node → Prop
  | [] => True
  | n :: ns => Settled table n ∧ SettledAll table ns

end

mutual

def size : Node → Nat
  | .text _ => 1
  | .note _ _ => 1
  | .element _ _ children => sizeAll children + 1

def sizeAll : List Node → Nat
  | [] => 0
  | n :: ns => size n + sizeAll ns

end

@[simp] theorem sizeAll_append (a b : List Node) : sizeAll (a ++ b) = sizeAll a + sizeAll b := by
  induction a with
  | nil => simp [sizeAll]
  | cons n a ih => simp [sizeAll, ih, Nat.add_assoc]

section Recursion

variable {table : Block.Table}

theorem placeAll_append (a b : List Node) : placeAll table (a ++ b) = placeAll table a ++ placeAll table b := by
  induction a with
  | nil => rfl
  | cons n a ih => simp [placeAll, ih]

theorem settledAll_append {a b : List Node} : SettledAll table (a ++ b) ↔ SettledAll table a ∧ SettledAll table b := by
  induction a with
  | nil => simp [SettledAll]
  | cons n a ih => simp [SettledAll, ih, and_assoc]

theorem onlyToken?_eq_some {children : List Node} {token : Text} (h : onlyToken? table children = some token) :
    ∃ s, children = [.text s] ∧ soleToken? s = some token ∧ table.contains token = true := by
  unfold onlyToken? at h
  split at h
  · rename_i s
    rw [Option.filter_eq_some_iff] at h
    exact ⟨s, rfl, h⟩
  · cases h

theorem onlyToken?_eq_none {children : List Node} (h : 1 < children.length) : onlyToken? table children = none := by
  cases hr : onlyToken? table children with
  | none => rfl
  | some token =>
    obtain ⟨s, rfl, -⟩ := onlyToken?_eq_some hr
    exact absurd h (by simp)

/-! ## Tokens of a text -/

theorem fst_sections (ps : List (Piece Text)) : (Text.sections ps).2.map Prod.fst = ps.filterMap Piece.value? := by
  induction ps with
  | nil => rfl
  | cons p ps ih => cases p <;> simp [Text.sections, Piece.value?, ih, List.filterMap_cons]

/-- A text with one token and white space: what is cut out of it. -/
theorem sections_of_soleToken? {s token : Text} (h : soleToken? s = some token) :
    ∃ first last, Text.sections (s.cut Block.Token.reader) = (first, [(token, last)]) := by
  unfold soleToken? at h
  split at h
  · rename_i first t last hs
    split at h
    · obtain rfl := Option.some.inj h
      exact ⟨first, last, hs⟩
    · cases h
  · cases h

theorem not_isEmpty_of_soleToken? {s token : Text} (h : soleToken? s = some token) : (Block.Token.all s).isEmpty = false := by
  obtain ⟨first, last, hs⟩ := sections_of_soleToken? h
  have hfst := fst_sections (s.cut Block.Token.reader)
  rw [hs] at hfst
  rw [Block.Token.all, Text.readAll, ← hfst]
  rfl

/-- The text with a token that stands alone gives way to the nodes of the token, with blanks around them. -/
theorem sizeAll_textPlace {s token : Text} (h : soleToken? s = some token) :
    sizeAll (tokenPlace table token) ≤ sizeAll (textPlace table s) := by
  obtain ⟨first, last, hs⟩ := sections_of_soleToken? h
  simp only [textPlace, not_isEmpty_of_soleToken? h, Bool.false_eq_true, if_false, hs, List.flatMap_cons, List.flatMap_nil,
    List.append_nil, sizeAll_append]
  omega

end Recursion

/-! ## Splicing compared with the recursion -/

/-- The nodes are those of the recursion, or else there are fewer. -/
def Matches (settled : Prop) (ns ps : List Node) : Prop := (settled ∧ ns = ps) ∨ (¬settled ∧ sizeAll ns < sizeAll ps)

namespace Matches

variable {p q : Prop} {a b as bs : List Node}

theorem append (h : Matches p a as) (h' : Matches q b bs) : Matches (p ∧ q) (a ++ b) (as ++ bs) := by
  rcases h with ⟨hp, rfl⟩ | ⟨hp, hlt⟩
  · rcases h' with ⟨hq, rfl⟩ | ⟨hq, hlt⟩
    · exact .inl ⟨⟨hp, hq⟩, rfl⟩
    · refine .inr ⟨fun h => hq h.2, ?_⟩
      rw [sizeAll_append, sizeAll_append]
      omega
  · refine .inr ⟨fun h => hp h.1, ?_⟩
    have hle : sizeAll b ≤ sizeAll bs := by
      rcases h' with ⟨-, rfl⟩ | ⟨-, hlt⟩
      · exact Nat.le_refl _
      · omega
    rw [sizeAll_append, sizeAll_append]
    omega

theorem eq_nil (h : Matches p a []) : a = [] := by
  rcases h with ⟨-, rfl⟩ | ⟨-, hlt⟩
  · rfl
  · exact absurd hlt (Nat.not_lt_zero _)

theorem eq_iff (h : Matches p a as) : a = as ↔ p := by
  rcases h with ⟨hp, he⟩ | ⟨hp, hlt⟩
  · exact iff_of_true he hp
  · exact iff_of_false (fun he => absurd (he ▸ hlt) (Nat.lt_irrefl _)) hp

end Matches

section Compared

variable {table : Block.Table}

theorem yields_tokenPlace (token : Text) : Yields (tokenNodes table token) (· = tokenPlace table token) := by
  intro p
  unfold tokenNodes tokenPlace
  cases table.get? token <;> rfl

theorem yields_textPlace {s : Text} (h : (Block.Token.all s).isEmpty = false) :
    Yields (cutText table s) (· = textPlace table s) := by
  unfold cutText textPlace
  simp only [h, Bool.false_eq_true, if_false]
  generalize Text.sections (s.cut Block.Token.reader) = sections
  obtain ⟨first, more⟩ := sections
  have parts : Yields (more.mapM fun part => do pure ((← tokenNodes table part.1) ++ textNodes part.2))
      fun ps => ps.flatten = more.flatMap fun part => tokenPlace table part.1 ++ textNodes part.2 := by
    induction more with
    | nil => exact .pure rfl
    | cons part more ih =>
      simp only [List.mapM_cons]
      refine Yields.bind (Q := (· = tokenPlace table part.1 ++ textNodes part.2)) ?_ fun ns hns => ?_
      · exact (yields_tokenPlace part.1).bind fun ns hns => .pure (by rw [hns])
      · exact ih.bind fun ps hps => .pure (by rw [List.flatten_cons, hps, hns, List.flatMap_cons])
  exact parts.bind fun ps hps => .pure (by rw [hps])

/-- A text gives way to its pieces, or its element gives way to its only token. -/
theorem yields_spliceText_place (alone : Bool) (s : Text) :
    Yields (spliceText table alone (.text s) s) fun
      | .children ns => ns = textPlace table s ∧ ¬(alone = true ∧ (onlyToken? table [.text s]).isSome = true)
      | .replaced ns => alone = true ∧ ∃ token, onlyToken? table [.text s] = some token ∧ ns = tokenPlace table token := by
  unfold spliceText
  split
  · rename_i token ht
    have halone : alone = true ∧ soleToken? s = some token := by
      cases alone with
      | true => exact ⟨rfl, ht⟩
      | false => cases ht
    split
    · rename_i hknown
      refine (yields_tokenPlace token).bind fun ns hns => .pure ⟨halone.1, token, ?_, hns⟩
      simp [onlyToken?, halone.2, Option.filter, hknown]
    · rename_i hunknown
      refine (yields_textPlace (not_isEmpty_of_soleToken? halone.2)).bind fun ns hns => .pure ⟨hns, fun h => hunknown ?_⟩
      obtain ⟨token', ht'⟩ := Option.isSome_iff_exists.1 h.2
      obtain ⟨_, he, hsole, hknown⟩ := onlyToken?_eq_some ht'
      cases he
      rw [halone.2] at hsole
      exact (Option.some.inj hsole) ▸ hknown
  · rename_i hnone
    have hnot : ¬(alone = true ∧ (onlyToken? table [.text s]).isSome = true) := by
      rintro ⟨rfl, h⟩
      obtain ⟨token', ht'⟩ := Option.isSome_iff_exists.1 h
      obtain ⟨_, he, hsole, -⟩ := onlyToken?_eq_some ht'
      cases he
      rw [if_pos rfl, hsole] at hnone
      cases hnone
    split
    · rename_i hempty
      exact .pure ⟨by rw [textPlace, if_pos hempty], hnot⟩
    · rename_i hempty
      exact (yields_textPlace (Bool.eq_false_iff.2 hempty)).bind fun ns hns => .pure ⟨hns, hnot⟩

/-- How an outcome for some children compares with the recursion. -/
def SpliceOf (table : Block.Table) (replaceable isFirst : Bool) (children : List Node) : Outcome → Prop
  | .children ns => Matches (SettledAll table children) ns (placeAll table children) ∧
      ¬(replaceable = true ∧ isFirst = true ∧ TokenLast table children)
  | .replaced ns => replaceable = true ∧ isFirst = true ∧ ∃ init s token, children = init ++ [.text s] ∧
      onlyToken? table [.text s] = some token ∧ ns = tokenPlace table token ∧ (SettledAll table init → placeAll table init = [])

/-- One more child before children that are compared. -/
theorem SpliceOf.after {replaceable isFirst : Bool} {n : Node} {ns rest : List Node} {o : Outcome}
    (hn : Matches (Settled table n) ns (place table n)) (ho : SpliceOf table replaceable (isFirst && ns.isEmpty) rest o)
    (halone : ¬(replaceable = true ∧ isFirst = true ∧ rest = [] ∧ (onlyToken? table [n]).isSome = true)) :
    SpliceOf table replaceable isFirst (n :: rest) (o.after ns) := by
  cases o with
  | children ms =>
    obtain ⟨hmatches, hlast⟩ := ho
    refine ⟨hn.append hmatches, ?_⟩
    rintro ⟨hreplaceable, hfirst, init, s, token, hinit, htoken, hleft⟩
    cases init with
    | nil =>
      obtain ⟨rfl, rfl⟩ := List.cons.inj hinit
      exact halone ⟨hreplaceable, hfirst, rfl, by rw [htoken]; rfl⟩
    | cons m init =>
      obtain ⟨rfl, rfl⟩ := List.cons.inj hinit
      obtain ⟨hnone, hleft⟩ := List.append_eq_nil_iff.1 hleft
      rw [hnone] at hn
      refine hlast ⟨hreplaceable, ?_, init, s, token, rfl, htoken, hleft⟩
      rw [hn.eq_nil, hfirst]
      rfl
  | replaced ms =>
    obtain ⟨hreplaceable, hfirst, init, s, token, rfl, htoken, hms, hleft⟩ := ho
    rw [Bool.and_eq_true, List.isEmpty_iff] at hfirst
    refine ⟨hreplaceable, hfirst.1, n :: init, s, token, rfl, htoken, hms, ?_⟩
    rintro ⟨hsettled, hinit⟩
    rw [placeAll, hleft hinit, ← hn.eq_iff.2 hsettled, hfirst.2]
    rfl

/-- The nodes in the place of an element. -/
def Outcome.inPlace (name : Text) (attributes : List Html.Attribute) : Outcome → List Node
  | .children ns => [.element name attributes ns]
  | .replaced ns => ns

/-- An element whose children are compared. -/
theorem matches_element {name : Text} {attributes : List Html.Attribute} {children : List Node} {o : Outcome}
    (ho : SpliceOf table true true children o) :
    Matches (Settled table (.element name attributes children)) (o.inPlace name attributes)
      (place table (.element name attributes children)) := by
  cases o with
  | children ns =>
    obtain ⟨hmatches, hlast⟩ := ho
    have hnone : onlyToken? table children = none := by
      cases hr : onlyToken? table children with
      | none => rfl
      | some token =>
        obtain ⟨s, rfl, -⟩ := onlyToken?_eq_some hr
        exact absurd ⟨rfl, rfl, [], s, token, rfl, hr, rfl⟩ hlast
    have hlast : ¬TokenLast table children := fun h => hlast ⟨rfl, rfl, h⟩
    simp only [Settled, place, hnone, Option.isSome_none, Bool.false_eq_true, false_or, hlast, not_false_eq_true, true_and]
    rcases hmatches with ⟨hp, rfl⟩ | ⟨hp, hlt⟩
    · exact .inl ⟨hp, rfl⟩
    · exact .inr ⟨hp, by simpa [Outcome.inPlace, sizeAll, size] using hlt⟩
  | replaced ns =>
    obtain ⟨-, -, init, s, token, rfl, htoken, rfl, hleft⟩ := ho
    cases init with
    | nil =>
      rw [List.nil_append]
      refine .inl ⟨.inl (by rw [htoken]; rfl), ?_⟩
      rw [place, htoken]
      rfl
    | cons n init =>
      -- the element held more than the token
      have hnone : onlyToken? table (n :: init ++ [.text s]) = none := onlyToken?_eq_none (by simp)
      obtain ⟨_, he, hsole, -⟩ := onlyToken?_eq_some htoken
      cases he
      have hle := @sizeAll_textPlace table _ _ hsole
      refine .inr ⟨?_, ?_⟩
      · simp only [Settled, hnone, Option.isSome_none, Bool.false_eq_true, false_or]
        rintro ⟨hlast, hsettled⟩
        exact hlast ⟨n :: init, s, token, rfl, htoken, hleft (settledAll_append.1 hsettled).1⟩
      · simp only [Outcome.inPlace, place, hnone, sizeAll, size, placeAll_append, sizeAll_append, placeAll]
        omega

end Compared

/-- Text and elements only. -/
def IsPlain : Node → Prop
  | .note _ _ => False
  | _ => True

section Compared

variable {table : Block.Table}

theorem yields_children_place : ∀ (ns : List Node) (replaceable isFirst : Bool), EveryOf IsPlain ns →
    Yields (spliceChildren table replaceable isFirst ns) (SpliceOf table replaceable isFirst ns)
  | [], replaceable, isFirst, _ => by
    rw [spliceChildren]
    refine .pure ⟨.inl ⟨trivial, rfl⟩, ?_⟩
    rintro ⟨-, -, init, s, token, hinit, -⟩
    simp at hinit
  | .note kind s :: rest, _, _, hn => hn.1.elim
  | .element name attributes children :: rest, replaceable, isFirst, hn => by
    rw [spliceChildren, spliceNode]
    have helement : Yields (do match ← spliceChildren table true true children with
        | .children ns => pure [.element name attributes ns]
        | .replaced ns => pure ns : Work (List Node))
        (Matches (Settled table (.element name attributes children)) · (place table (.element name attributes children))) := by
      refine (yields_children_place children true true hn.1.2).bind fun o ho => ?_
      have h := @matches_element _ name attributes _ _ ho
      cases o <;> exact .pure h
    refine helement.bind fun ns hns => ?_
    refine (yields_children_place rest replaceable (isFirst && ns.isEmpty) hn.2).bind fun o ho => .pure (ho.after hns ?_)
    rintro ⟨-, -, -, h⟩
    cases h
  | .text s :: rest, replaceable, isFirst, hn => by
    rw [spliceChildren]
    refine (yields_spliceText_place _ s).bind fun o ho => ?_
    cases o with
    | replaced ns =>
      obtain ⟨halone, token, htoken, rfl⟩ := ho
      simp only [Bool.and_eq_true, List.isEmpty_iff] at halone
      obtain ⟨⟨hreplaceable, hfirst⟩, rfl⟩ := halone
      exact .pure ⟨hreplaceable, hfirst, [], s, token, rfl, htoken, rfl, fun _ => rfl⟩
    | children ns =>
      obtain ⟨rfl, hnot⟩ := ho
      refine (yields_children_place rest replaceable _ hn.2).bind fun o ho => .pure (SpliceOf.after (n := .text s) ?_ ho ?_)
      · exact .inl ⟨trivial, rfl⟩
      · rintro ⟨hreplaceable, hfirst, rfl, h⟩
        exact hnot ⟨by simp [hreplaceable, hfirst], h⟩

theorem yields_root_place {children : List Node} (h : EveryOf IsPlain children) :
    Yields (spliceRoot table children) (Matches (SettledAll table children) · (placeAll table children)) := by
  refine (yields_children_place children false true h).bind fun o ho => ?_
  cases o with
  | children ns => exact .pure ho.1
  | replaced ns => cases ho.1

end Compared

/-! ## Trees without empty fragments -/

section Filled

variable {table : Block.Table} (hfull : ∀ token fragment, table.get? token = some fragment → Html.parse fragment ≠ [])

include hfull

theorem tokenPlace_ne_nil (token : Text) : tokenPlace table token ≠ [] := by
  unfold tokenPlace
  cases h : table.get? token with
  | none => exact List.cons_ne_nil _ _
  | some fragment => exact hfull token fragment h

theorem place_ne_nil (n : Node) : place table n ≠ [] := by
  cases n with
  | note kind s => exact List.cons_ne_nil _ _
  | element name attributes children =>
    rw [place]
    split
    · exact tokenPlace_ne_nil hfull _
    · exact List.cons_ne_nil _ _
  | text s =>
    rw [place, textPlace]
    split
    · exact List.cons_ne_nil _ _
    · rename_i hall
      have hfst := fst_sections (s.cut Block.Token.reader)
      generalize Text.sections (s.cut Block.Token.reader) = sections at hfst
      obtain ⟨first, more⟩ := sections
      cases more with
      | nil => exact absurd (by rw [Block.Token.all, Text.readAll, ← hfst]; rfl) hall
      | cons part more =>
        obtain ⟨token, after⟩ := part
        simp [tokenPlace_ne_nil hfull token]

end Filled

mutual

theorem settled_of_full {table : Block.Table} (hfull : ∀ token fragment, table.get? token = some fragment → Html.parse fragment ≠ []) :
    ∀ n : Node, Settled table n
  | .text _ => trivial
  | .note _ _ => trivial
  | .element name attributes children => by
    rw [Settled]
    cases hr : onlyToken? table children with
    | some token => exact .inl rfl
    | none =>
      refine .inr ⟨?_, settledAll_of_full hfull children⟩
      rintro ⟨init, s, token, rfl, htoken, hleft⟩
      cases init with
      | nil =>
        rw [List.nil_append, htoken] at hr
        cases hr
      | cons n init => exact place_ne_nil hfull n (List.append_eq_nil_iff.1 hleft).1

theorem settledAll_of_full {table : Block.Table} (hfull : ∀ token fragment, table.get? token = some fragment → Html.parse fragment ≠ []) :
    ∀ ns : List Node, SettledAll table ns
  | [] => trivial
  | n :: ns => ⟨settled_of_full hfull n, settledAll_of_full hfull ns⟩

end

/-! ## The typesetter's texts -/

/-- A text shows no token with an entry. -/
def Unread (table : Block.Table) : Node → Prop
  | .text s => ∀ token ∈ Block.Token.all s, table.get? token = none
  | _ => True

section Unread

variable {table : Block.Table}

theorem unread_of_misses {s : Text} (h : Text.Misses Block.Token.reader s) : Unread table (.text s) := by
  intro token ht
  rw [Block.Token.all, h.readAll_eq] at ht
  cases ht

theorem unread_textNodes {s : Text} (h : Text.Misses Block.Token.reader s) : EveryOf (Unread table) (textNodes s) := by
  unfold textNodes
  split
  · trivial
  · exact ⟨unread_of_misses h, trivial⟩

/-- A token by itself holds no other token. -/
theorem all_token {s token rest : Text} {b : Option Char} (h : Block.Token.reader b s = some (token, rest)) :
    Block.Token.all token = [token] := by
  obtain ⟨x, hne, rfl, hread⟩ := Block.Token.firm_reader h
  have htoken : x = token := by
    obtain ⟨⟨name, r⟩, hr, he⟩ := Option.map_eq_some_iff.1 h
    simp only [Prod.mk.injEq] at he
    obtain ⟨rfl, rfl⟩ := he
    exact (Text.upTo_append_rest x r).symm
  subst htoken
  obtain ⟨source, hcut⟩ := Block.Token.firm_reader.cut_hit (hread none [])
  rw [List.append_nil] at hcut
  rw [Block.Token.all, Text.readAll, hcut]
  rfl

theorem all_of_mem {s token : Text} (h : token ∈ Block.Token.all s) : Block.Token.all token = [token] := by
  obtain ⟨before, t, rest, -, hr⟩ := Text.mem_readAll h
  exact all_token hr

theorem unread_space : Unread table (.text [' ']) := by
  refine unread_of_misses fun before t ht => ?_
  rcases List.suffix_cons_iff.1 ht with rfl | ht
  · rfl
  · obtain rfl := List.suffix_nil.1 ht
    rfl

theorem yields_tokenNodes_unread {token : Text} (ht : Block.Token.all token = [token]) :
    Yields (tokenNodes (blanked table) token) (EveryOf (Unread table)) := by
  intro p
  unfold tokenNodes
  rw [get?_blanked]
  cases h : table.get? token with
  | none =>
    refine ⟨fun x hx => ?_, trivial⟩
    rw [ht] at hx
    rw [List.mem_singleton.1 hx, h]
  | some fragment => exact everyOf_parse_blank unread_space fragment

theorem yields_cutText_unread (s : Text) : Yields (cutText (blanked table) s) (EveryOf (Unread table)) := by
  unfold cutText
  obtain ⟨hfirst, hmore⟩ := Block.Token.firm_reader.misses_sections s
  have htokens : ∀ p ∈ (Text.sections (s.cut Block.Token.reader)).2, Block.Token.all p.1 = [p.1] := fun p hp =>
    all_of_mem (s := s) (by
      rw [Block.Token.all, Text.readAll, ← fst_sections]
      exact List.mem_map_of_mem hp)
  generalize Text.sections (s.cut Block.Token.reader) = sections at hfirst hmore htokens
  obtain ⟨first, more⟩ := sections
  replace hfirst := @unread_textNodes table _ hfirst
  dsimp only at hfirst hmore htokens
  have parts : Yields (more.mapM fun part => do pure ((← tokenNodes (blanked table) part.1) ++ textNodes part.2))
      fun ps => EveryOf (Unread table) ps.flatten := by
    clear hfirst
    induction more with
    | nil => exact .pure trivial
    | cons part more ih =>
      obtain ⟨hmiss, hmore⟩ := List.forall_mem_cons.1 hmore
      obtain ⟨htoken, htokens⟩ := List.forall_mem_cons.1 htokens
      simp only [List.mapM_cons]
      refine Yields.bind (Q := EveryOf (Unread table)) ?_ fun ns hns => (ih hmore htokens).bind fun ps hps => .pure ?_
      · refine (yields_tokenNodes_unread htoken).bind fun ns hns => .pure ?_
        exact everyOf_append.2 ⟨hns, unread_textNodes hmiss⟩
      · simpa using ⟨hns, hps⟩
  exact parts.bind fun ps hps => .pure (everyOf_append.2 ⟨hfirst, hps⟩)

theorem yields_spliceText_unread (alone : Bool) (s : Text) :
    Yields (spliceText (blanked table) alone (.text s) s) (Outcome.Every (Unread table)) := by
  have cut : Yields (do pure (.children (← cutText (blanked table) s))) (Outcome.Every (Unread table)) :=
    (yields_cutText_unread s).bind fun ns hns => .pure hns
  unfold spliceText
  split
  · rename_i token ht
    have hmem : token ∈ Block.Token.all s := by
      cases alone with
      | false => cases ht
      | true =>
        obtain ⟨first, last, hs⟩ := sections_of_soleToken? ht
        rw [Block.Token.all, Text.readAll, ← fst_sections, hs]
        exact List.mem_singleton_self token
    split
    · exact (yields_tokenNodes_unread (all_of_mem hmem)).bind fun ns hns => .pure hns
    · exact cut
  · split
    · rename_i hnone
      refine .pure ⟨fun token ht => ?_, trivial⟩
      rw [List.isEmpty_iff.1 hnone] at ht
      cases ht
    · exact cut

/-- With blanks in the places of the fragments, no text below the root shows a token with an entry. -/
theorem yields_root_unread {children : List Node} (h : EveryOf IsPlain children) :
    Yields (spliceRoot (blanked table) children) (EveryOf (Unread table)) :=
  yields_root (yields_children (R := IsPlain) (fun alone s _ => yields_spliceText_unread alone s)
    (fun _ _ _ hn => hn.elim) (fun _ _ _ _ _ => trivial) children false true h)

end Unread

/-! ## Whole trees -/

/-- The tree with new children for its root, if no bibliography is added and no diagram. -/
theorem spliceTree_eq {table : Block.Table} {typeset before after children : List Node} {name : Text}
    {attributes : List Html.Attribute} (hroot : splitRoot? (smoothAll typeset) = some (before, (name, attributes, children), after))
    (hdiagram : ∀ token ∈ ((spliceRoot table children).run {}).2.tokens, isDiagram token = false) :
    (spliceTree table none typeset).1 =
      .ok (before ++ .element name attributes ((spliceRoot table children).run {}).1 :: after) := by
  have hnone : ((spliceRoot table children).run {}).2.tokens.any isDiagram = false := by
    rw [List.any_eq_false]
    exact fun token ht => by simp [hdiagram token ht]
  unfold spliceTree
  rw [hroot]
  dsimp only
  generalize (spliceRoot table children).run {} = run at hnone ⊢
  obtain ⟨cs, p⟩ := run
  simp [hnone]

/-- The rendered page keeps the root and all that is outside of it. Below the root it is what the recursion over the
    typeset tree gives, just if no element that holds more than a token is left alone with it; this is so if no
    fragment is empty. And in the typesetter's own texts, which are all texts if there are blanks in the places of
    the fragments, no token with an entry is left. -/
theorem render_eq_place_iff {typesetter : Typesetter} {reduced : Text} {table : Block.Table}
    {typeset before after children : List Node} {name : Text} {attributes : List Html.Attribute}
    (htypeset : typesetter.run reduced = .ok typeset)
    (hroot : splitRoot? (smoothAll typeset) = some (before, (name, attributes, children), after))
    (hplain : EveryOf IsPlain children) (hdiagram : ∀ token ∈ spliced table typeset, isDiagram token = false) :
    (∃ cs, (render typesetter table none reduced).1 = .ok (before ++ .element name attributes cs :: after)) ∧
      ((render typesetter table none reduced).1 = .ok (before ++ .element name attributes (placeAll table children) :: after) ↔
        SettledAll table children) ∧
      ((∀ token fragment, table.get? token = some fragment → Html.parse fragment ≠ []) → SettledAll table children) ∧
      ∃ cs, (render typesetter (blanked table) none reduced).1 = .ok (before ++ .element name attributes cs :: after) ∧
        EveryOf (Unread table) cs := by
  have hrender (table : Block.Table) : render typesetter table none reduced = spliceTree table none typeset := by
    rw [render, htypeset]
  have htokens : ∀ token ∈ ((spliceRoot table children).run {}).2.tokens, isDiagram token = false := by
    simpa only [spliced, hroot] using hdiagram
  -- blanks in the places of the fragments change no token that is spliced
  have hblanked : ((spliceRoot (blanked table) children).run {}).2 = ((spliceRoot table children).run {}).2 := by
    have hsteady : EveryOf (Steady fun _ => True) children := Html.everyOf_of_forall (fun n => by cases n <;> simp [Steady]) _
    obtain ⟨_, -, hsame, -⟩ := @spliceRoot_inStep table (fun _ => True) trivial children hsteady {}
    exact hsame
  have hmatches := @yields_root_place table _ hplain {}
  rw [hrender, hrender, spliceTree_eq hroot htokens, spliceTree_eq hroot (hblanked ▸ htokens)]
  refine ⟨⟨_, rfl⟩, ?_, fun hfull => settledAll_of_full hfull children, ⟨_, rfl, yields_root_unread hplain {}⟩⟩
  rw [← hmatches.eq_iff]
  simp

/-- A block in a paragraph of its own, and one in a sentence. -/
theorem render_eq_place_iff_block :
    let table : Block.Table := ⟨2, [("LATEXPREVIEWBLOCK000001".toList, "x".toList), ("LATEXPREVIEWBLOCK000002".toList, [])]⟩
    let children : List Node := [.element "p" [] [.text " LATEXPREVIEWBLOCK000001".toList],
      .element "p" [] [.text "a LATEXPREVIEWBLOCK000002 b".toList]]
    let typesetter : Typesetter := ⟨"Tree", fun _ => .ok [.element "div" [] children]⟩
    (∃ cs, (render typesetter table none []).1 = .ok [.element "div" [] cs]) ∧
      ((render typesetter table none []).1 = .ok [.element "div" [] (placeAll table children)] ↔ SettledAll table children) ∧
      ((∀ token fragment, table.get? token = some fragment → Html.parse fragment ≠ []) → SettledAll table children) ∧
      ∃ cs, (render typesetter (blanked table) none []).1 = .ok [.element "div" [] cs] ∧ EveryOf (Unread table) cs := by
  intro table children typesetter
  have hplain : EveryOf IsPlain children := by simp [children, EveryOf, Node.Every, IsPlain]
  have hroot : splitRoot? (smoothAll [.element "div" [] children]) = some ([], ("div".toList, [], children), []) := rfl
  have hdiagram : ∀ token ∈ spliced table [.element "div" [] children], isDiagram token = false := by decide +kernel
  exact @render_eq_place_iff typesetter [] table _ [] [] children _ _ rfl hroot hplain hdiagram

theorem parse_letter : Html.parse ['x'] = [.text ['x']] := by
  have htokens : Html.tokens ['x'] = [.text ['x']] := by
    rw [Html.tokens, Html.tokensFrom]
    rfl
  rw [Html.parse, htokens]
  rfl

/-- An empty fragment in an element of its own, before a token: the paragraph around both gives way to the token's
    fragment, and the recursion keeps it. -/
theorem paragraph_swallowed {table : Block.Table} {a b : Text} (ha : soleToken? a = some a) (hb : soleToken? b = some b)
    (hcut : Text.sections (b.cut Block.Token.reader) = ([], [(b, [])])) (hget : table.get? a = some [])
    (hget' : table.get? b = some ['x']) :
    let children : List Node := [.element "p" [] [.element "b" [] [.text a], .text b]]
    ((spliceRoot table children).run {}).1 = [.text ['x']] ∧ placeAll table children = [.element "p" [] [.text ['x']]] := by
  have hknown : table.contains a = true := by rw [Block.Table.contains, hget]; rfl
  have hknown' : table.contains b = true := by rw [Block.Table.contains, hget']; rfl
  have hsole : onlyToken? table [.text a] = some a := by simp [onlyToken?, ha, Option.filter, hknown]
  constructor
  · simp [spliceRoot, spliceChildren, spliceNode, spliceText, tokenNodes, ha, hb, hget, hget', hknown, hknown', parse_nil,
      parse_letter, Outcome.after]
    rfl
  · have hparagraph (name : Text) : onlyToken? table [.element name [] [.text a], .text b] = none := rfl
    simp [placeAll, place, hparagraph, hsole, tokenPlace, textPlace, not_isEmpty_of_soleToken? hb, hcut, hget, hget',
      parse_nil, parse_letter, textNodes]

theorem paragraphAround_swallowed :
    let table : Block.Table := ⟨2, [("LATEXPREVIEWBLOCK000001".toList, []), ("LATEXPREVIEWBLOCK000002".toList, "x".toList)]⟩
    let children : List Node := [.element "p" [] [.element "b" [] [.text "LATEXPREVIEWBLOCK000001".toList],
      .text "LATEXPREVIEWBLOCK000002".toList]]
    (render ⟨"Tree", fun _ => .ok [.element "div" [] children]⟩ table none []).1 =
        .ok [.element "div" [] [.text "x".toList]] ∧
      placeAll table children = [.element "p" [] [.text "x".toList]] := by
  intro table children
  have hroot : splitRoot? (smoothAll [.element "div" [] children]) = some ([], ("div".toList, [], children), []) := rfl
  have hdiagram : ∀ token ∈ ((spliceRoot table children).run {}).2.tokens, isDiagram token = false := by decide +kernel
  obtain ⟨hspliced, hplaced⟩ := @paragraph_swallowed table "LATEXPREVIEWBLOCK000001".toList "LATEXPREVIEWBLOCK000002".toList
    (by decide +kernel) (by decide +kernel) (by decide +kernel) (by decide) (by decide)
  refine ⟨?_, hplaced⟩
  change (spliceTree table none [.element "div" [] children]).1 = _
  rw [spliceTree_eq hroot hdiagram, hspliced]
  rfl

end Galley.Assembly
