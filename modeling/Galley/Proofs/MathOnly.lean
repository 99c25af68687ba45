import Galley.Formula.Sanitize
import Galley.Proofs.PrintedMarkup
/-!
# Sanitized formulas

Markup of MathML alone is left as it is. What other markup becomes is made of whole tags of MathML without active
attributes, of notes and of text (`whole_printNodes`), and so read back as that; a second time nothing changes
(`sanitize_math`). Declarations are the exception: one that is printed as an instruction ends at its first `>`, and what
stands behind that counts as markup (`hiddenTag_shown`).
-/

namespace Galley

open Html

/-- An element of MathML none of whose attributes handles an event or points somewhere; or text or a note. -/
def Html.Node.IsMath : Node → Prop
  | .element name attributes _ => name ∈ Formula.elementNames ∧
      ∀ a ∈ attributes, ¬"on".toList <+: Text.lower a.1 ∧ Text.lower a.1 ∉ Formula.linkAttributes
  | _ => True

instance : DecidablePred Html.Node.IsMath
  | .element name attributes _ => inferInstanceAs (Decidable (name ∈ Formula.elementNames ∧
      ∀ a ∈ attributes, ¬"on".toList <+: Text.lower a.1 ∧ Text.lower a.1 ∉ Formula.linkAttributes))
  | .text _ => .isTrue trivial
  | .note _ _ => .isTrue trivial

/-- A declaration that is printed as an instruction ends there, or text only follows. -/
def Html.Node.Contained : Node → Prop
  | .note kind s => kind.Contained s
  | _ => True

instance : DecidablePred Html.Node.Contained
  | .note .declaration s => inferInstanceAs (Decidable ('<' ∉ s.dropWhile (· ≠ '>')))
  | .note .comment _ | .note .doctype _ | .note .instruction _ | .note .raw _ => .isTrue trivial
  | .text _ => .isTrue trivial
  | .element _ _ _ => .isTrue trivial

/-- A node of a tree that can be printed, with nothing but MathML in it. -/
structure Html.Node.Sanitized (n : Node) : Prop where
  math : n.IsMath
  legible : n.Legible

/-- No start tag but one of MathML without active attributes. -/
def Html.Token.IsMath : Token → Prop
  | .start name attributes _ => name ∈ Formula.elementNames ∧ ∀ a ∈ attributes, Formula.isActive a.1 = false
  | _ => True

namespace Formula

/-! ## What is pure -/

theorem isActive_eq_false_iff {name : Text} :
    isActive name = false ↔ ¬"on".toList <+: Text.lower name ∧ Text.lower name ∉ linkAttributes := by
  simp [isActive, Text.startsWith, ← List.isPrefixOf_iff_prefix]

theorem isMath_element_iff {name : Text} {attributes : List Attribute} {children : List Node} :
    (Node.element name attributes children).IsMath ↔ name ∈ elementNames ∧ ∀ a ∈ attributes, isActive a.1 = false := by
  simp only [Node.IsMath, isActive_eq_false_iff]

mutual

theorem isPure_iff : ∀ n : Node, isPure n = true ↔ n.Every Node.IsMath
  | .text _ => by simp [isPure, Node.Every, Node.IsMath]
  | .note _ _ => by simp [isPure, Node.Every, Node.IsMath]
  | .element name attributes children => by
    rw [Node.Every, isMath_element_iff, isPure, Bool.and_eq_true, arePure_iff children]
    simp

theorem arePure_iff : ∀ ns : List Node, arePure ns = true ↔ EveryOf Node.IsMath ns
  | [] => by simp [arePure]
  | n :: ns => by rw [arePure, Bool.and_eq_true, isPure_iff n, arePure_iff ns, everyOf_cons]

end

/-- Markup of MathML alone is left as it is. -/
theorem sanitize_eq {s : Text} (h : EveryOf Node.IsMath (parse s)) : sanitize s = s := if_pos ((arePure_iff _).2 h)

/-! ## What is left -/

mutual

theorem sanitized_purify : ∀ {n : Node}, n.Every Node.Legible → (purify n).Every Node.Sanitized
  | .text _, _ => ⟨trivial, trivial⟩
  | .note _ _, h => ⟨trivial, h⟩
  | .element name attributes children, h => by
    rw [purify]
    split
    · rename_i hname
      refine ⟨⟨isMath_element_iff.2 ⟨List.contains_iff_mem.1 hname, fun a ha => ?_⟩, fun a ha => ?_⟩, sanitized_purifyAll h.2⟩
      · simpa using (List.mem_filter.1 ha).2
      · exact h.1 a (List.mem_filter.1 ha).1
    · exact ⟨trivial, trivial⟩

/-- Whatever is read, what is left of it can be printed and has nothing but MathML in it. -/
theorem sanitized_purifyAll : ∀ {ns : List Node}, EveryOf Node.Legible ns → EveryOf Node.Sanitized (purifyAll ns)
  | [], _ => trivial
  | _ :: _, h => ⟨sanitized_purify h.1, sanitized_purifyAll h.2⟩

end

/-! ## What is read back -/

theorem elementNames_plain : ∀ name ∈ elementNames,
    isTagName name = true ∧ Text.lower name = name ∧ name ∉ rawNames ∧ name ∉ voidNames := by
  decide +kernel

/-- A start tag of MathML is read back as one. -/
theorem reads_mathTag {name : Text} {attributes : List Attribute} {children : List Node}
    (h : (Node.element name attributes children).Sanitized) :
    Reads Token.IsMath (name ++ (printAttributes attributes ++ ['>'])) := by
  obtain ⟨hname, hactive⟩ := isMath_element_iff.1 h.math
  obtain ⟨htag, hlower, hraw, -⟩ := elementNames_plain name hname
  refine reads_startTag htag hlower hraw (fun a ha => h.legible a (List.mem_mergeSort.1 ha)) fun bs hbs => ⟨hname, fun b hb => ?_⟩
  obtain ⟨a, ha, he⟩ := hbs b hb
  rw [he]
  exact hactive a (List.mem_mergeSort.1 ha)

mutual

theorem whole_print : ∀ {n : Node}, n.Every Node.Sanitized → n.Every Node.Contained → Whole (Reads Token.IsMath) (n.printIn false)
  | .text s, _, _ => .of_not_mem (not_mem_escape s).1
  | .note kind s, h, hc => whole_note h.legible hc fun _ _ => trivial
  | .element name attributes children, h, hc => by
    obtain ⟨htag, -, hraw, hvoid⟩ := elementNames_plain name h.1.math.1
    have hcontains : rawNames.contains name = false := by simpa using hraw
    have hsource : (Node.element name attributes children).printIn false =
        '<' :: ((name ++ (printAttributes attributes ++ ['>'])) ++
          (printNodes false children ++ '<' :: (('/' :: (name ++ ['>'])) ++ []))) := by
      rw [Node.printIn, if_neg (by simp [hvoid]), hcontains]
      simp
    rw [hsource]
    exact .construct (reads_mathTag h.1) ((whole_printNodes h.2 hc.2).append
      (.construct (reads_endTag htag fun _ => trivial) .nil))

/-- What is left of a text is printed as whole tags of MathML, notes and text. -/
theorem whole_printNodes : ∀ {ns : List Node}, EveryOf Node.Sanitized ns → EveryOf Node.Contained ns →
    Whole (Reads Token.IsMath) (printNodes false ns)
  | [], _, _ => .nil
  | _ :: _, h, hc => (whole_print h.1 hc.1).append (whole_printNodes h.2 hc.2)

end

/-- Text whose constructs are read as tags of MathML is MathML. -/
theorem math_parse {s : Text} (h : Whole (Reads Token.IsMath) s) : EveryOf Node.IsMath (parse s) := by
  have htokens := h.forall_tokens (fun _ hu => hu) fun _ => trivial
  refine everyOf_parse (fun _ => trivial) (fun _ _ _ _ => trivial) fun name attributes closed ht children => ?_
  obtain ⟨hname, hactive⟩ := htokens _ ht
  refine isMath_element_iff.2 ⟨hname, fun a ha => ?_⟩
  obtain ⟨b, hb, rfl⟩ := List.mem_map.1 ha
  rw [Build.settleAttribute_fst]
  exact hactive b hb

/-- Markup of MathML alone is returned as it is. Any other becomes MathML alone and stays what it is then, if no declaration
    that is left in it goes on with a tag behind its first `>`. -/
theorem sanitize_math (s : Text) :
    (EveryOf Node.IsMath (parse s) → sanitize s = s) ∧
      (EveryOf Node.IsMath (parse s) ∨ EveryOf Node.Contained (purifyAll (parse s)) →
        EveryOf Node.IsMath (parse (sanitize s)) ∧ sanitize (sanitize s) = sanitize s) := by
  refine ⟨sanitize_eq, fun h => ?_⟩
  have hmath : EveryOf Node.IsMath (parse (sanitize s)) := by
    by_cases hpure : EveryOf Node.IsMath (parse s)
    · rwa [sanitize_eq hpure]
    · have hprint : sanitize s = Html.print (purifyAll (parse s)) := if_neg (mt (arePure_iff _).1 hpure)
      rw [hprint]
      exact math_parse (whole_printNodes (sanitized_purifyAll (legible_parse s)) (h.resolve_left hpure))
  exact ⟨hmath, sanitize_eq hmath⟩

/-- A foreign element in a row, an event handler and a declaration that holds a `>`, and a row without any of them. -/
theorem sanitize_math_row :
    sanitize "<mrow><mi>x</mi></mrow>" = "<mrow><mi>x</mi></mrow>" ∧
      ¬EveryOf Node.IsMath (parse "<mrow onclick='f()'><mi>x</mi><b>y</b></mrow><![if[a>b]]>") ∧
      EveryOf Node.IsMath (parse (sanitize "<mrow onclick='f()'><mi>x</mi><b>y</b></mrow><![if[a>b]]>")) ∧
      sanitize (sanitize "<mrow onclick='f()'><mi>x</mi><b>y</b></mrow><![if[a>b]]>") =
        sanitize "<mrow onclick='f()'><mi>x</mi><b>y</b></mrow><![if[a>b]]>" :=
  ⟨(sanitize_math "<mrow><mi>x</mi></mrow>").1 (by decide +kernel), by decide +kernel,
    (sanitize_math "<mrow onclick='f()'><mi>x</mi><b>y</b></mrow><![if[a>b]]>").2 (.inr (by decide +kernel))⟩

/-- What stands behind the first `>` of a declaration becomes markup, and the second time text. -/
theorem hiddenTag_shown :
    ¬EveryOf Node.IsMath (parse (sanitize "<b></b><![temp[><i>]]>")) ∧
      sanitize (sanitize "<b></b><![temp[><i>]]>") ≠ sanitize "<b></b><![temp[><i>]]>" := by
  decide +kernel

end Formula

end Galley
