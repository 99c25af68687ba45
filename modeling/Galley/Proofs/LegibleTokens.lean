import Galley.Proofs.Building
import Galley.Proofs.LowerCase
import Galley.Proofs.WholeConstructs
/-!
# What any markup is read as

The tokens of any text can be written down again: the names of attributes are in lower case and made of characters
that a scan for a name goes over, and no note holds what would end it (`legible_tokens`). Declarations are the exception:
what they hold is not limited by how they are written.
-/

namespace Galley.Html

/-! ## Attributes -/

/-- The name is in lower case and can be written down. -/
structure Legible (a : Attribute) : Prop where
  name : isAttributeName a.1 = true
  lower : Text.lower a.1 = a.1

theorem legible_attribute? {before b : Char} {s rest : Text} {a : Attribute} (h : attribute? before s = some (a, b, rest)) :
    Legible a := by
  have main {name : Text} (hname : isAttributeName name = true) (value : Text) : Legible (Text.lower name, value) :=
    ⟨isAttributeName_lower hname, lower_lower name⟩
  cases s with
  | nil => cases h
  | cons c s =>
    rw [attribute?] at h
    split at h
    · cases h
    split at h
    · cases h
    rename_i hc
    have hname : isAttributeName (c :: (s.span fun c => !(isBlank c || c = '/' || c = '=' || c = '>')).1) = true := by
      simp only [isAttributeName, Bool.and_eq_true, List.all_eq_true]
      refine ⟨?_, fun d hd => ?_⟩
      -- at the head of a name an equals sign is read as one of its characters
      · by_cases he : c = '='
        · simp [he]
        · simpa [isAttributeChar, he] using hc
      · rw [List.span_eq_takeWhile_dropWhile] at hd
        exact List.mem_takeWhile_imp hd
    dsimp only at h
    split at h
    · obtain ⟨rfl, -⟩ := Prod.mk.inj (Option.some.inj h)
      exact main hname _
    · obtain ⟨rfl, -⟩ := Prod.mk.inj (Option.some.inj h)
      exact main hname _

theorem legible_attributesFrom (before : Char) (s : Text) : ∀ a ∈ (attributesFrom before s).1, Legible a := by
  fun_induction attributesFrom before s with
  | case1 => simp
  | case2 before s a b rest hread hlt as rest' hrest ih =>
    rw [hrest] at ih
    exact List.forall_mem_cons.2 ⟨legible_attribute? hread, ih⟩
  | case3 before s a b rest hread hlt => simpa using legible_attribute? hread

/-! ## Notes -/

theorem forward_commentEnd : Text.Forward commentEnd := fun b b' s => by
  unfold commentEnd
  split <;> rfl

theorem forward_conditionEnd : Text.Forward conditionEnd := fun b b' s => by
  unfold conditionEnd
  split <;> rfl

theorem forward_sectionEnd : Text.Forward sectionEnd := fun b b' s => by
  unfold sectionEnd
  split <;> rfl

/-- White space and a closing angle bracket. -/
def pastGap? (s : Text) : Option (Unit × Text) :=
  match s.dropWhile isBlank with
  | '>' :: rest => some ((), rest)
  | _ => none

theorem pastGap?_eq_none_iff {s : Text} : pastGap? s = none ↔ (s.dropWhile isBlank).head? ≠ some '>' := by
  unfold pastGap?
  split
  · rename_i he
    simp [he]
  · rename_i hne
    simp only [ne_eq, true_iff]
    intro he
    obtain ⟨rest, hrest⟩ : ∃ rest, s.dropWhile isBlank = '>' :: rest := by
      cases hs : s.dropWhile isBlank with
      | nil => simp [hs] at he
      | cons c rest =>
        rw [hs, List.head?_cons, Option.some.injEq] at he
        exact ⟨rest, by rw [he]⟩
    exact hne rest hrest

/-- A gap that does not end at `>` does not do so in front of another character either. -/
theorem pastGap?_append {s : Text} (h : pastGap? s = none) {d : Char} (hblank : isBlank d = false) (hd : d ≠ '>') (w : Text) :
    pastGap? (s ++ d :: w) = none := by
  rw [pastGap?_eq_none_iff] at h ⊢
  rw [List.dropWhile_append]
  split
  · rw [List.dropWhile_cons_of_neg (by simp [hblank])]
    simpa using hd
  · rename_i hne
    cases hs : s.dropWhile isBlank with
    | nil => exact absurd (by rw [hs]; rfl) hne
    | cons c rest =>
      rw [hs] at h
      simpa using h

theorem pastGap?_of_append {s w : Text} (h : pastGap? (s ++ w) = none) : pastGap? s = none := by
  rw [pastGap?_eq_none_iff] at h ⊢
  rw [List.dropWhile_append] at h
  cases hs : s.dropWhile isBlank with
  | nil => simp
  | cons c rest =>
    rw [hs] at h
    simpa using h

theorem sectionEnd_bracket (b : Option Char) (s : Text) :
    sectionEnd b (']' :: s) = conditionEnd (some ']') (s.dropWhile isBlank) := rfl

theorem conditionEnd_of_ne {b : Option Char} {c : Char} (hc : c ≠ ']') (s : Text) : conditionEnd b (c :: s) = none := by
  unfold conditionEnd
  split
  · rename_i he
    exact absurd (List.cons.inj he).1 hc
  · rfl

theorem sectionEnd_of_ne {b : Option Char} {c : Char} (hc : c ≠ ']') (s : Text) : sectionEnd b (c :: s) = none := by
  unfold sectionEnd
  split
  · rename_i he
    exact absurd (List.cons.inj he).1 hc
  · rfl

theorem commentEnd_of_append {b : Option Char} {u w : Text} (h : commentEnd b (u ++ w) = none) : commentEnd b u = none := by
  unfold commentEnd
  split
  · exact pastGap?_of_append h
  · rfl

theorem conditionEnd_of_append {b : Option Char} {u w : Text} (h : conditionEnd b (u ++ w) = none) : conditionEnd b u = none := by
  unfold conditionEnd
  split
  · exact pastGap?_of_append h
  · rfl

theorem sectionEnd_of_append {b : Option Char} {u w : Text} (h : sectionEnd b (u ++ w) = none) : sectionEnd b u = none := by
  unfold sectionEnd
  split
  · rename_i s
    rw [List.cons_append, sectionEnd_bracket, List.dropWhile_append] at h
    cases hs : s.dropWhile isBlank with
    | nil => rfl
    | cons c rest =>
      rw [hs] at h
      exact conditionEnd_of_append h
  · rfl

/-- Where no closing bracket ends a section, no two do. -/
theorem misses_sectionEnd {s : Text} (h : Text.Misses conditionEnd s) : Text.Misses sectionEnd s := by
  intro b t ht
  cases t with
  | nil => rfl
  | cons c t =>
    by_cases hc : c = ']'
    · subst hc
      rw [sectionEnd_bracket]
      exact h _ _ ((List.dropWhile_suffix _).trans ((List.suffix_cons _ _).trans ht))
    · exact sectionEnd_of_ne hc t

theorem misses_commentEnd {s : Text} (h : '>' ∉ s) : Text.Misses commentEnd s := by
  intro b t ht
  unfold commentEnd
  split
  · rename_i u
    refine pastGap?_eq_none_iff.2 fun he => h ?_
    exact ht.subset (List.mem_cons_of_mem _ (List.mem_cons_of_mem _ ((List.dropWhile_suffix _).subset (List.mem_of_head? he))))
  · rfl

/-- What a note of a kind can hold, if it ends where it is written to end. -/
def NoteKind.Fits : NoteKind → Text → Prop
  | .comment, s => Text.Misses commentEnd s
  | .doctype, s => '>' ∉ s
  | .instruction, s => '>' ∉ s
  | .raw, s => Text.Misses sectionEnd s
  | .declaration, _ => True

theorem NoteKind.fits_of_not_mem {s : Text} (hgt : '>' ∉ s) (hbracket : ']' ∉ s) : ∀ kind : NoteKind, kind.Fits s
  | .comment => misses_commentEnd hgt
  | .doctype => hgt
  | .instruction => hgt
  | .raw => fun b t ht => by
    cases t with
    | nil => rfl
    | cons c t => exact sectionEnd_of_ne (fun hc => hbracket (ht.subset (hc ▸ List.mem_cons_self))) t
  | .declaration => trivial

/-- A note in a tree holds what it was read with, or one blank. -/
theorem NoteKind.Fits.settle {kind : NoteKind} {s : Text} (h : kind.Fits s) (b : Build) : kind.Fits (b.settle s) := by
  unfold Build.settle
  split
  · split
    · exact kind.fits_of_not_mem (by decide) (by decide)
    · exact kind.fits_of_not_mem (by decide) (by decide)
  · exact h

/-! ## Tokens -/

/-- Attributes have legible names, and notes hold nothing that ends them. -/
def Token.Legible : Token → Prop
  | .start _ attributes _ => ∀ a ∈ attributes, Html.Legible a
  | .note kind s => kind.Fits s
  | _ => True

def Reading.Legible : Reading → Prop
  | .tokens ts _ => ∀ t ∈ ts, t.Legible
  | .unfinished => True

theorem legible_startTag (s : Text) : (startTag s).Legible := by
  have hkept (before : Char) (u : Text) : ∀ a ∈ keepLast (attributesFrom before u).1, Legible a :=
    fun a ha => legible_attributesFrom before u a (mem_keepLast ha)
  have htext (t : Text) (rest : Text) : (Reading.tokens [.text t] rest).Legible := by simp [Reading.Legible, Token.Legible]
  have htag (name : Text) (closed : Bool) (before : Char) (u rest : Text) :
      (Reading.tokens [.start name (keepLast (attributesFrom before u).1) closed] rest).Legible := by
    simpa [Reading.Legible, Token.Legible] using hkept before u
  unfold startTag
  dsimp only
  split
  · split
    · exact htag _ _ _ _ _
    · exact htag _ _ _ _ _
    · exact htext _ _
  · split
    · exact htag _ _ _ _ _
    · exact htag _ _ _ _ _
    · exact htext _ _
  · trivial
  · split
    · trivial
    · exact htext _ _

theorem legible_endTag (raw : Option Text) (s : Text) : (endTag raw s).Legible := by
  unfold endTag
  split
  · trivial
  rename_i inside rest hclosed
  have hcomment : NoteKind.comment.Fits inside := misses_commentEnd (Text.closedBy_eq_some_iff.1 hclosed).1
  dsimp only
  split
  · simp [Reading.Legible, Token.Legible]
  · split <;> simp [Reading.Legible, Token.Legible]
  · simp [Reading.Legible, Token.Legible]
  · split
    · simp [Reading.Legible]
    · split
      · split
        · simp [Reading.Legible, Token.Legible]
        · trivial
      · simpa [Reading.Legible, Token.Legible] using hcomment

theorem legible_declaration (s : Text) : (declaration s).Legible := by
  have hone (kind : NoteKind) {t : Text} (ht : kind.Fits t) (rest : Text) : (Reading.tokens [.note kind t] rest).Legible := by
    simpa [Reading.Legible, Token.Legible] using ht
  unfold declaration
  split
  · split
    · rename_i f hf
      exact hone .comment (forward_commentEnd.misses_before rfl (fun _ => commentEnd_of_append) hf) _
    · trivial
  split
  · split
    · rename_i inner _ f hf
      -- a conditional section ends at one bracket already, so in front of its end no two close it
      have hraw : Text.Misses sectionEnd f.before := by
        split at hf
        · exact misses_sectionEnd (forward_conditionEnd.misses_before rfl (fun _ => conditionEnd_of_append) hf)
        · exact forward_sectionEnd.misses_before rfl (fun _ => sectionEnd_of_append) hf
      split
      · exact hone .raw (hraw.of_suffix (List.drop_suffix 6 _)) _
      · exact hone .declaration trivial _
    · trivial
  split
  · trivial
  · rename_i inside rest hclosed
    have hgt := (Text.closedBy_eq_some_iff.1 hclosed).1
    split
    · exact hone .doctype (fun hm => hgt (List.mem_of_mem_drop hm)) _
    · exact hone .comment (misses_commentEnd hgt) _

theorem legible_instruction (s : Text) : (instruction s).Legible := by
  unfold instruction
  split
  · rename_i inside rest hclosed
    have hgt : NoteKind.instruction.Fits inside := (Text.closedBy_eq_some_iff.1 hclosed).1
    simpa [Reading.Legible, Token.Legible] using hgt
  · trivial

theorem legible_construct (raw : Option Text) (s : Text) : (construct raw s).Legible := by
  unfold construct
  split
  · trivial
  · exact legible_endTag _ _
  · exact legible_declaration _
  · exact legible_instruction _
  · split
    · exact legible_startTag _
    · simp [Reading.Legible, Token.Legible]

/-- Whatever is read can be written down again. -/
theorem legible_tokens (s : Text) : ∀ t ∈ tokens s, t.Legible := by
  refine forall_tokensFrom (R := fun _ _ => True) (fun _ => trivial) (fun _ => trivial) (fun final raw s _ => ?_) false trivial
  have hone (t : Text) : ∀ x ∈ [Token.text t], x.Legible := by simp [Token.Legible]
  have hnone : ∀ x ∈ ([] : List Token), x.Legible := by simp
  have tag (s : Text) : (step final raw ('<' :: s)).Keeps Token.Legible (fun _ _ => True) raw := by
    have hlegible := legible_construct raw s
    simp only [step]
    split
    · exact ⟨hnone, trivial⟩
    · rename_i hread
      rw [hread] at hlegible
      exact ⟨hlegible, trivial⟩
    · split
      · exact ⟨hone _, trivial⟩
      · exact ⟨hnone, trivial⟩
  fun_cases step final raw s
  case case1 => exact ⟨hnone, trivial⟩
  case case2 => exact tag _
  case case3 => exact tag _
  case case4 => exact tag _
  all_goals first | exact ⟨hone _, trivial⟩ | exact ⟨hnone, trivial⟩

/-- Whatever a tree holds can be written down. -/
def Node.Legible : Node → Prop
  | .element _ attributes _ => ∀ a ∈ attributes, Html.Legible a
  | .note kind s => kind.Fits s
  | .text _ => True

theorem legible_parse (s : Text) : EveryOf Node.Legible (parse s) := by
  refine everyOf_parse (fun _ => trivial) (fun kind t ht b => ?_) fun name attributes closed ht children a ha => ?_
  · exact NoteKind.Fits.settle (legible_tokens s _ ht) b
  · obtain ⟨a', ha', rfl⟩ := List.mem_map.1 ha
    have hlegible := legible_tokens s _ ht a' ha'
    exact ⟨by rw [Build.settleAttribute_fst, hlegible.name], by rw [Build.settleAttribute_fst, hlegible.lower]⟩

end Galley.Html
