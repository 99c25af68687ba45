import Galley.Proofs.Parts
import Galley.Repair
/-!
# Unsafe commands that are left

Taking a command out of a text brings the texts on its two sides together. Between two places where something
was taken out there is no unsafe command any more (`clear_dropUnsafe`), so the repaired text is free of them just
if the texts that were brought together do not make one up (`unsafe_outside_iff`).
-/

namespace Galley

/-! ## Readers that read on -/

/-- A reader that is not put off by what follows: what can be read alone can be read in front of any text. -/
structure Steady (read : Reader Unit) : Prop where
  forward : Text.Forward read
  nil : read none [] = none
  short : ∀ {c s r rest}, read none (c :: s) = some (r, rest) → rest.length ≤ s.length
  grows : ∀ {s r}, read none s = some r → ∀ t, ∃ r', read none (s ++ t) = some r'

namespace Text

theorem afterCaseless?_grows {p s r : Text} (h : afterCaseless? p s = some r) (t : Text) :
    afterCaseless? p (s ++ t) = some (r ++ t) := by
  induction p generalizing s with
  | nil => rw [← Option.some.inj h]; rfl
  | cons a p ih =>
    cases s with
    | nil => cases h
    | cons c s =>
      simp only [afterCaseless?] at h
      split at h
      · rename_i ha
        rw [List.cons_append, afterCaseless?, if_pos ha]
        exact ih h
      · cases h

theorem afterCaseless?_short {a : Char} {p s r : Text} {c : Char} (h : afterCaseless? (a :: p) (c :: s) = some r) :
    r <:+ s := by
  simp only [afterCaseless?] at h
  split at h
  · exact suffix_afterCaseless? h
  · cases h

theorem getD_after?_suffix (p s : Text) : (after? p s).getD s <:+ s := by
  cases h : after? p s with
  | none => exact List.suffix_refl s
  | some r => exact ⟨p, (after?_eq_some_iff.1 h).symm⟩

theorem dropWhile_grows {p : Char → Bool} {s r : Text} {c : Char} (h : s.dropWhile p = c :: r) (t : Text) :
    (s ++ t).dropWhile p = c :: (r ++ t) := by
  rw [List.dropWhile_append, h]
  rfl

theorem closedBy_grows {c : Char} {s a r : Text} (h : closedBy c s = some (a, r)) (t : Text) :
    ∃ a', closedBy c (s ++ t) = some (a', r ++ t) := by
  unfold closedBy at h ⊢
  split at h
  · rename_i x rest hd
    obtain ⟨-, rfl⟩ := Prod.mk.inj (Option.some.inj h)
    rw [dropWhile_grows hd]
    exact ⟨_, rfl⟩
  · cases h

end Text

namespace Repair

/-! ## The readers of unsafe commands -/

/-- What reading a braced command passes. -/
theorem braced_eq_some {command : Text} {before : Option Char} {s rest : Text} {r : Unit}
    (h : braced command before s = some (r, rest)) :
    ∃ s₁ s₂ a, Text.afterCaseless? command s = some s₁ ∧ s₁.dropWhile isBlank = '{' :: s₂ ∧
      Text.closedBy '}' s₂ = some (a, rest) := by
  simp only [braced, Option.bind_eq_bind, Option.bind_eq_some_iff] at h
  obtain ⟨s₁, h₁, s₂, h₂, ⟨a, s₃⟩, h₃, h₄⟩ := h
  obtain ⟨-, rfl⟩ := Prod.mk.inj (Option.some.inj h₄)
  exact ⟨s₁, s₂, a, h₁, Text.after?_eq_some_iff.1 h₂, h₃⟩

theorem braced_grows {command : Text} {s rest : Text} {r : Unit} (h : braced command none s = some (r, rest)) (t : Text) :
    braced command none (s ++ t) = some (r, rest ++ t) := by
  obtain ⟨s₁, s₂, a, h₁, h₂, h₃⟩ := braced_eq_some h
  obtain ⟨a', ha⟩ := Text.closedBy_grows h₃ t
  simp only [braced, Text.afterCaseless?_grows h₁ t, Text.dropWhile_grows h₂ t, Option.bind_eq_bind, Option.bind_some]
  rw [show Text.after? "\x7b" ('{' :: (s₂ ++ t)) = some (s₂ ++ t) from rfl, Option.bind_some, ha]
  rfl

theorem braced_suffix {command : Text} {s rest : Text} {r : Unit} (h : braced command none s = some (r, rest)) :
    ∃ s₁, Text.afterCaseless? command s = some s₁ ∧ rest <:+ s₁ := by
  obtain ⟨s₁, s₂, a, h₁, h₂, h₃⟩ := braced_eq_some h
  refine ⟨s₁, h₁, ?_⟩
  have hopen : s₂ <:+ s₁ := (List.suffix_cons '{' s₂).trans (h₂ ▸ List.dropWhile_suffix isBlank)
  rw [Text.closedBy_eq h₃] at hopen
  exact ((List.suffix_cons '}' rest).trans (List.suffix_append a _)).trans hopen

theorem steady_braced (a : Char) (command : Text) : Steady (braced (a :: command)) where
  forward := fun _ _ _ => rfl
  nil := rfl
  short := fun h => by
    obtain ⟨s₁, h₁, hrest⟩ := braced_suffix h
    exact (hrest.trans (Text.afterCaseless?_short h₁)).length_le
  grows := fun {_ r} h t => by
    obtain ⟨_, rest⟩ := r
    exact ⟨_, braced_grows h t⟩

theorem steady_stream (a : Char) (command : Text) : Steady (stream (a :: command)) where
  forward := fun _ _ _ => rfl
  nil := rfl
  short := fun {c s r rest} h => by
    simp only [stream, Option.bind_eq_bind, Option.bind_eq_some_iff] at h
    obtain ⟨s₁, h₁, h₂⟩ := h
    obtain ⟨-, rfl⟩ := Prod.mk.inj (Option.some.inj h₂)
    have hnumber : ((s₁.dropWhile isBlank).dropWhile isDecimalDigit).dropWhile isBlank <:+ s₁ :=
      ((List.dropWhile_suffix _).trans (List.dropWhile_suffix _)).trans (List.dropWhile_suffix _)
    have hname (t : Text) : (((Text.after? "=" t).getD t).dropWhile isBlank).dropWhile (fun c => !(isBlank c || c = '\\')) <:+ t :=
      ((List.dropWhile_suffix _).trans (List.dropWhile_suffix _)).trans (Text.getD_after?_suffix "=" t)
    exact (((hname _).trans hnumber).trans (Text.afterCaseless?_short h₁)).length_le
  grows := fun {s r} h t => by
    simp only [stream, Option.bind_eq_bind, Option.bind_eq_some_iff] at h ⊢
    obtain ⟨s₁, h₁, -⟩ := h
    exact ⟨_, _, Text.afterCaseless?_grows h₁ t, rfl⟩

/-- What reading a change of a category code passes. -/
theorem catcode_eq_some {s rest : Text} {r : Unit} (h : catcode none s = some (r, rest)) :
    ∃ s₁ c s₂, Text.afterCaseless? "\\catcode" s = some s₁ ∧ s₁.dropWhile isBlank = c :: s₂ ∧
      (c = Char.ofNat 96 || c = '\'' || isDecimalDigit c) = true ∧ rest = s₂.dropWhile (· ≠ '\n') := by
  simp only [catcode, Option.bind_eq_bind, Option.bind_eq_some_iff] at h
  obtain ⟨s₁, h₁, h₂⟩ := h
  split at h₂
  · rename_i c s₂ hs₂
    split at h₂
    · rename_i hc
      exact ⟨s₁, c, s₂, h₁, hs₂, hc, (congrArg Prod.snd (Option.some.inj h₂)).symm⟩
    · cases h₂
  · cases h₂

theorem steady_catcode : Steady catcode where
  forward := fun _ _ _ => rfl
  nil := rfl
  short := fun h => by
    obtain ⟨s₁, c, s₂, h₁, h₂, -, rfl⟩ := catcode_eq_some h
    have hcode : s₂ <:+ s₁ := (List.suffix_cons c s₂).trans (h₂ ▸ List.dropWhile_suffix isBlank)
    exact (((List.dropWhile_suffix _).trans hcode).trans (Text.afterCaseless?_short h₁)).length_le
  grows := fun {s r} h t => by
    obtain ⟨_, rest⟩ := r
    obtain ⟨s₁, c, s₂, h₁, h₂, hc, -⟩ := catcode_eq_some h
    simp only [catcode, Text.afterCaseless?_grows h₁ t, Text.dropWhile_grows h₂ t, hc, Option.bind_eq_bind, Option.bind_some,
      if_true]
    exact ⟨_, rfl⟩

/-- What reading a shell escape passes. -/
theorem shellEscape_eq_some {s : Text} {r : Unit × Text} (h : shellEscape none s = some r) :
    (∃ s₁, Text.afterCaseless? "\\immediate" s = some s₁ ∧ braced "\\write18" none (s₁.dropWhile isBlank) = some r) ∨
      braced "\\write18" none s = some r := by
  unfold shellEscape at h
  split at h
  · rename_i s₁ h₁
    exact .inl ⟨s₁, h₁, h⟩
  · exact .inr h

theorem not_immediate_of_write {s r : Text} (h : Text.afterCaseless? "\\write18" s = some r) :
    Text.afterCaseless? "\\immediate" s = none := by
  change Text.afterCaseless? ('\\' :: 'w' :: "rite18".toList) s = some r at h
  change Text.afterCaseless? ('\\' :: 'i' :: "mmediate".toList) s = none
  match s with
  | [] => rfl
  | [c] =>
    simp only [Text.afterCaseless?]
    split <;> rfl
  | c :: c' :: s =>
    -- the second letters differ
    simp only [Text.afterCaseless?, Option.ite_none_right_eq_some] at h ⊢
    obtain ⟨hc, hc', -⟩ := h
    rw [if_pos hc, ← hc', if_neg (by decide)]

theorem steady_shellEscape : Steady shellEscape where
  forward := fun _ _ _ => rfl
  nil := rfl
  short := fun {c s r rest} h => by
    rcases shellEscape_eq_some h with ⟨s₁, h₁, h₂⟩ | h₂
    · obtain ⟨s₂, h₃, hrest⟩ := braced_suffix h₂
      have hwrite := (hrest.trans (Text.suffix_afterCaseless? h₃)).trans (List.dropWhile_suffix isBlank)
      exact (hwrite.trans (Text.afterCaseless?_short h₁)).length_le
    · exact (steady_braced '\\' "write18").short h₂
  grows := fun {s r} h t => by
    obtain ⟨_, rest⟩ := r
    rcases shellEscape_eq_some h with ⟨s₁, h₁, h₂⟩ | h₂
    · -- the command behind the blanks begins in the first text
      have hcons : ∃ c s₂, s₁.dropWhile isBlank = c :: s₂ := by
        cases hs : s₁.dropWhile isBlank with
        | nil =>
          rw [hs] at h₂
          cases h₂
        | cons c s₂ => exact ⟨c, s₂, rfl⟩
      obtain ⟨c, s₂, hs⟩ := hcons
      rw [hs] at h₂
      have hread := braced_grows h₂ t
      simp only [shellEscape, Text.afterCaseless?_grows h₁ t, Text.dropWhile_grows hs t]
      exact ⟨_, hread⟩
    · have hread := braced_grows h₂ t
      obtain ⟨s₁, hs₁, -⟩ := braced_suffix hread
      rw [shellEscape, not_immediate_of_write hs₁]
      exact ⟨_, hread⟩

theorem steady_unsafe : ∀ p ∈ unsafeCommands, Steady p.2 := by
  intro p hp
  simp only [unsafeCommands, List.mem_cons, List.not_mem_nil, or_false] at hp
  rcases hp with rfl | rfl | rfl | rfl | rfl | rfl | rfl
  · exact steady_shellEscape
  · exact steady_braced _ _
  · exact steady_braced _ _
  · exact steady_stream _ _
  · exact steady_stream _ _
  · exact steady_braced _ _
  · exact steady_catcode

/-! ## Text with the places where something was taken out -/

/-- What is left of a piece when constructs are taken out. -/
def left : Piece Unit → Text
  | .char c => [c]
  | .hit _ _ => []

theorem removeAll_eq (read : Reader Unit) (s : Text) : s.removeAll read = (s.cut read).flatMap left := by
  unfold Text.removeAll Text.replaceAll
  congr 1
  funext p
  cases p <;> rfl

theorem removeAll_of_sources_nil {read : Reader Unit} {s : Text} (h : sources read s = []) : s.removeAll read = s := by
  have hkeep : ∀ p ∈ s.cut read, left p = p.source := by
    intro p hp
    cases p with
    | char c => rfl
    | hit a source =>
      rw [sources, List.filterMap_eq_nil_iff] at h
      cases h _ hp
  rw [removeAll_eq, List.flatMap_def, List.map_congr_left hkeep, ← List.flatMap_def]
  exact Text.sources_cut s

theorem dropUnsafe_of_none {s : Text} (h : ∀ p ∈ unsafeCommands, sources p.2 s = []) : dropUnsafe s = { content := s } := by
  unfold dropUnsafe
  generalize unsafeCommands = commands at h
  induction commands with
  | nil => rfl
  | cons p commands ih =>
    obtain ⟨hp, hcommands⟩ := List.forall_mem_cons.1 h
    rw [List.foldl_cons]
    simp only [hp]
    exact ih hcommands

/-- The characters of a text, with `none` where something was taken out between them. -/
abbrev Seamed := List (Option Char)

namespace Seamed

def text (s : Seamed) : Text := s.filterMap id

/-- Takes out every construct and leaves a mark in its place; `skip` characters are taken out already. -/
def takeOut (read : Reader Unit) : (skip : Nat) → Seamed → Seamed
  | _, [] => []
  | n, none :: s => none :: takeOut read n s
  | n + 1, some _ :: s => takeOut read n s
  | 0, some c :: s =>
    match read none (c :: text s) with
    | none => some c :: takeOut read 0 s
    | some (_, rest) => none :: takeOut read ((text s).length - rest.length) s

/-- The reader reads nothing between two places where something was taken out. -/
def Clear (read : Reader Unit) (s : Seamed) : Prop := ∀ t : Text, t.map some <:+: s → read none t = none

variable {read : Reader Unit} {s : Seamed}

@[simp] theorem text_map_some (t : Text) : text (t.map some) = t := by
  rw [text, List.filterMap_map]
  exact List.filterMap_some

@[simp] theorem text_append (s t : Seamed) : text (s ++ t) = text s ++ text t := List.filterMap_append

theorem map_some_text (h : none ∉ s) : (text s).map some = s := by
  induction s with
  | nil => rfl
  | cons x s ih =>
    cases x with
    | none => exact absurd List.mem_cons_self h
    | some c => exact congrArg (some c :: ·) (ih fun hm => h (List.mem_cons_of_mem _ hm))

/-- Without the marks, this is what is left when the constructs are taken out. -/
theorem text_takeOut (h : Steady read) (n : Nat) (s : Seamed) :
    text (takeOut read n s) = (Text.cutFrom read n none (text s)).flatMap left := by
  induction s generalizing n with
  | nil => cases n <;> rfl
  | cons x s ih =>
    cases x with
    | none =>
      cases n with
      | zero => exact ih 0
      | succ n => exact ih (n + 1)
    | some c =>
      have htext : text (some c :: s) = c :: text s := rfl
      rw [htext]
      cases n with
      | succ n =>
        rw [Text.cutFrom, h.forward.cutFrom_eq n (some c) none]
        exact ih n
      | zero =>
        simp only [takeOut, Text.cutFrom]
        split
        · rename_i hread
          simp only [hread, h.forward.cutFrom_eq 0 (some c) none]
          exact congrArg (c :: ·) (ih 0)
        · rename_i r rest hread
          simp only [hread, if_pos (h.short hread), h.forward.cutFrom_eq _ (some c) none]
          exact ih _

/-! ## What is left between the marks -/

theorem nil_of_map_prefix_none {t : Text} {s : Seamed} (h : t.map some <+: none :: s) : t = [] := by
  cases t with
  | nil => rfl
  | cons c t => cases (List.cons_prefix_cons.1 h).1

theorem prefix_of_prefix_takeOut {t : Text} (h : t.map some <+: takeOut read 0 s) : t.map some <+: s := by
  induction s generalizing t with
  | nil => exact h
  | cons x s ih =>
    cases x with
    | none =>
      rw [nil_of_map_prefix_none h]
      exact List.nil_prefix
    | some c =>
      simp only [takeOut] at h
      split at h
      · cases t with
        | nil => exact List.nil_prefix
        | cons d t =>
          obtain ⟨hc, ht⟩ := List.cons_prefix_cons.1 h
          exact List.cons_prefix_cons.2 ⟨hc, ih ht⟩
      · rw [nil_of_map_prefix_none h]
        exact List.nil_prefix

/-- What stands in one piece after constructs were taken out stood in one piece before. -/
theorem infix_of_infix_takeOut {t : Text} {n : Nat} (h : t.map some <:+: takeOut read n s) : t.map some <:+: s := by
  induction s generalizing n with
  | nil => cases n <;> exact h
  | cons x s ih =>
    cases x with
    | none =>
      have h : t.map some <:+: none :: takeOut read n s := by cases n <;> exact h
      rcases List.infix_cons_iff.1 h with h | h
      · rw [nil_of_map_prefix_none h]
        exact List.nil_infix
      · exact (ih h).trans (List.suffix_cons _ s).isInfix
    | some c =>
      cases n with
      | succ n => exact (ih h).trans (List.suffix_cons _ s).isInfix
      | zero =>
        have hhead := @prefix_of_prefix_takeOut read (some c :: s) t
        simp only [takeOut] at h hhead
        split at h
        · rename_i hread
          rw [hread] at hhead
          rcases List.infix_cons_iff.1 h with h | h
          · exact (hhead h).isInfix
          · exact (ih h).trans (List.suffix_cons _ s).isInfix
        · rcases List.infix_cons_iff.1 h with h | h
          · rw [nil_of_map_prefix_none h]
            exact List.nil_infix
          · exact (ih h).trans (List.suffix_cons _ s).isInfix

theorem Clear.takeOut {other : Reader Unit} (h : Clear other s) (n : Nat) : Clear other (takeOut read n s) :=
  fun t ht => h t (infix_of_infix_takeOut ht)

/-- After its constructs were taken out, a reader reads none between the marks. -/
theorem clear_takeOut (h : Steady read) (n : Nat) (s : Seamed) : Clear read (Seamed.takeOut read n s) := by
  intro t ht
  induction s generalizing n with
  | nil =>
    have hnil : t.map some <:+: [] := by cases n <;> exact ht
    rw [List.map_eq_nil_iff.1 (List.infix_nil.1 hnil)]
    exact h.nil
  | cons x s ih =>
    cases x with
    | none =>
      have ht : t.map some <:+: none :: Seamed.takeOut read n s := by cases n <;> exact ht
      rcases List.infix_cons_iff.1 ht with ht | ht
      · rw [nil_of_map_prefix_none ht]
        exact h.nil
      · exact ih n ht
    | some c =>
      cases n with
      | succ n => exact ih n ht
      | zero =>
        simp only [Seamed.takeOut] at ht
        split at ht
        · rename_i hread
          rcases List.infix_cons_iff.1 ht with ht | ht
          · cases t with
            | nil => exact h.nil
            | cons d t =>
              -- what could be read here could have been read before
              obtain ⟨hc, hrest⟩ := List.cons_prefix_cons.1 ht
              obtain rfl : d = c := Option.some.inj hc
              obtain ⟨v, hv⟩ := prefix_of_prefix_takeOut hrest
              cases hr : read none (d :: t) with
              | none => rfl
              | some r =>
                obtain ⟨r', hr'⟩ := h.grows hr (text v)
                rw [← hv, text_append, text_map_some] at hread
                rw [List.cons_append, hread] at hr'
                cases hr'
          · exact ih 0 ht
        · rcases List.infix_cons_iff.1 ht with ht | ht
          · rw [nil_of_map_prefix_none ht]
            exact h.nil
          · exact ih _ ht

/-! ## What the marks bring together -/

/-- At no mark do a text before it and a text behind it together hold what the text before it does not, at its head,
    among the characters that `keep` allows. -/
def Apart (keep : Char → Prop) (read : Reader Unit) (s : Seamed) : Prop :=
  ∀ x y, s = x ++ none :: y → ∀ u, u ≠ [] → u <:+ text x → ∀ v, v <+: text y → (∀ c ∈ u ++ v, keep c) →
    read none u = none → read none (u ++ v) = none

theorem misses_iff_apart {keep : Char → Prop} (h : Clear read s) :
    (∀ t, t <:+: text s → (∀ c ∈ t, keep c) → read none t = none) ↔ Apart keep read s := by
  constructor
  · rintro hall x y rfl u - ⟨x', hx⟩ v ⟨y', hy⟩ hkeep -
    refine hall (u ++ v) ⟨x', y', ?_⟩ hkeep
    rw [text_append, ← hx, show text (none :: y) = text y from rfl, ← hy]
    simp only [List.append_assoc]
  · intro hapart
    -- by induction on the number of characters and marks in the piece
    have main (w : Seamed) (hw : w <:+: s) (hkeep : ∀ c ∈ text w, keep c) : read none (text w) = none := by
      induction hl : w.length using Nat.strongRecOn generalizing w with
      | ind n ih =>
        by_cases hmark : none ∈ w
        · obtain ⟨w₁, w₂, rfl⟩ := List.append_of_mem hmark
          obtain ⟨p, q, hs⟩ := hw
          have htext : text (w₁ ++ none :: w₂) = text w₁ ++ text w₂ := by
            rw [text_append]
            rfl
          rw [htext] at hkeep ⊢
          rw [List.length_append, List.length_cons] at hl
          have hfirst := ih w₁.length (by omega) w₁ ⟨p, none :: w₂ ++ q, by rw [← hs]; simp⟩
            (fun c hc => hkeep c (List.mem_append_left _ hc)) rfl
          by_cases hempty : text w₁ = []
          · rw [hempty, List.nil_append]
            exact ih w₂.length (by omega) w₂ ⟨p ++ w₁ ++ [none], q, by rw [← hs]; simp⟩
              (fun c hc => hkeep c (List.mem_append_right _ hc)) rfl
          · refine hapart (p ++ w₁) (w₂ ++ q) (by rw [← hs]; simp) _ hempty ⟨text p, (text_append p w₁).symm⟩ _
              ⟨text q, (text_append w₂ q).symm⟩ hkeep hfirst
        · exact h (text w) (by rw [map_some_text hmark]; exact hw)
    intro t ⟨p, q, ht⟩ hkeep
    obtain ⟨pw, q', hs, hpw, -⟩ := List.filterMap_eq_append_iff.1 ht.symm
    obtain ⟨p', w, rfl, -, rfl⟩ := List.filterMap_eq_append_iff.1 hpw
    exact main w ⟨p', q', hs.symm⟩ hkeep

end Seamed

/-! ## The repaired text -/

/-- The text without its unsafe commands, with marks where they were. -/
def dropSeamed (s : Text) : Seamed := unsafeCommands.foldl (fun s p => s.takeOut p.2 0) (s.map some)

theorem text_foldl_takeOut (commands : List (Text × Reader Unit)) (hsteady : ∀ p ∈ commands, Steady p.2) (r : Repaired)
    (s : Seamed) (hs : s.text = r.content) :
    (commands.foldl (fun s p => s.takeOut p.2 0) s).text = (commands.foldl (fun r (what, read) =>
      match sources read r.content with
      | [] => r
      | found =>
        { content := r.content.removeAll read
          warnings := r.warnings ++ ["Removed " ++ what ++ " command"]
          removed := r.removed ++ found }) r).content := by
  induction commands generalizing r s with
  | nil => exact hs
  | cons p commands ih =>
    obtain ⟨hp, hcommands⟩ := List.forall_mem_cons.1 hsteady
    rw [List.foldl_cons, List.foldl_cons]
    refine ih hcommands _ _ ?_
    have hout : (s.takeOut p.2 0).text = r.content.removeAll p.2 := by
      rw [Seamed.text_takeOut hp, hs, removeAll_eq, Text.cut]
    rw [hout]
    obtain ⟨what, read⟩ := p
    cases hfound : sources read r.content with
    | nil =>
      simp only [hfound]
      exact removeAll_of_sources_nil hfound
    | cons x xs => simp only [hfound]

theorem text_dropSeamed (s : Text) : (dropSeamed s).text = (dropUnsafe s).content :=
  text_foldl_takeOut unsafeCommands steady_unsafe { content := s } _ (Seamed.text_map_some s)

/-- Between the places where something was taken out there is no unsafe command. -/
theorem clear_dropSeamed (s : Text) : ∀ p ∈ unsafeCommands, (dropSeamed s).Clear p.2 := by
  have main (commands : List (Text × Reader Unit)) (hsteady : ∀ p ∈ commands, Steady p.2) (s : Seamed)
      (done : List (Text × Reader Unit)) (hdone : ∀ p ∈ done, s.Clear p.2) :
      ∀ p ∈ done ++ commands, (commands.foldl (fun s p => s.takeOut p.2 0) s).Clear p.2 := by
    induction commands generalizing s done with
    | nil => simpa using hdone
    | cons p commands ih =>
      obtain ⟨hp, hcommands⟩ := List.forall_mem_cons.1 hsteady
      rw [List.foldl_cons, List.append_cons]
      refine ih hcommands (s.takeOut p.2 0) (done ++ [p]) fun q hq => ?_
      rcases List.mem_append.1 hq with hq | hq
      · exact (hdone q hq).takeOut 0
      · rw [List.mem_singleton.1 hq]
        exact Seamed.clear_takeOut hp 0 s
  exact main unsafeCommands steady_unsafe (s.map some) [] (by simp)

/-- The repaired document with marks in the places of its code. -/
def outside (content : Text) : Text := (mend (shelter (stripFences content)).1).content

/-- The text of a document with marks for its code, all mended but the unsafe commands. -/
def beforeDrop (marked : Text) : Text :=
  let s := marked.replaceAll literalLineEnd fun _ => ['\n']
  let s := s.removeAll ghostHeader
  let s := mergePairs (mergeChain s)
  let s := dropDollars "\\[" "\\]" s
  let s := dropDollars "\\(" "\\)" s
  let s := s.replaceAll strandedSubscript joinSubscript
  s.replaceAll strandedGroup joinSubscript

/-- The repaired document with marks in the places of its code and where its unsafe commands were. -/
def seams (content : Text) : Seamed := dropSeamed (beforeDrop (shelter (stripFences content)).1)

theorem content_repair (content : Text) :
    (repair content).content = unshelter (shelter (stripFences content)).2 (outside content) := by
  cases content with
  | nil => decide +kernel
  | cons c content => simp only [repair, outside, List.isEmpty_cons, Bool.false_eq_true, if_false]

/-- A repaired document is free of unsafe commands outside of its code just if, wherever a command was taken out,
    the texts that were brought together do not make one up. -/
theorem unsafe_outside_iff (content : Text) :
    (repair content).content = unshelter (shelter (stripFences content)).2 (outside content) ∧
      (seams content).text = outside content ∧
      ((∀ t, t <:+: outside content → nul ∉ t → ∀ p ∈ unsafeCommands, p.2 none t = none) ↔
        ∀ p ∈ unsafeCommands, (seams content).Apart (· ≠ nul) p.2) := by
  have htext : (seams content).text = outside content := text_dropSeamed _
  have hpiece (p : Text × Reader Unit) (hp : p ∈ unsafeCommands) :
      (∀ t, t <:+: outside content → nul ∉ t → p.2 none t = none) ↔ (seams content).Apart (· ≠ nul) p.2 := by
    rw [seams, ← Seamed.misses_iff_apart (clear_dropSeamed _ p hp), ← seams, htext]
    refine forall_congr' fun t => imp_congr_right fun _ => imp_congr_left ?_
    exact ⟨fun h c hc hnul => h (hnul ▸ hc), fun h hnul => h nul hnul rfl⟩
  refine ⟨content_repair content, htext, ?_⟩
  constructor
  · intro h p hp
    exact (hpiece p hp).1 fun t ht hnul => h t ht hnul p hp
  · intro h t ht hnul p hp
    exact (hpiece p hp).2 (h p hp) t ht hnul

/-- Taking a command out of the middle of another one leaves a command that reads a file. -/
theorem nestedInput_left :
    let content := "\\in\\input{x}put{y}".toList
    (repair content).content = "\\input{y}".toList ∧ (repair content).removed = ["\\input{x}".toList] ∧
      outside content = "\\input{y}".toList ∧
      braced "\\input" none "\\input{y}".toList = some ((), []) ∧
      ¬∀ t, t <:+: outside content → nul ∉ t → ∀ p ∈ unsafeCommands, p.2 none t = none := by
  have hout : outside "\\in\\input{x}put{y}".toList = "\\input{y}".toList := by decide +kernel
  refine ⟨by decide +kernel, by decide +kernel, hout, by decide +kernel, fun h => ?_⟩
  have hread := h "\\input{y}".toList ⟨[], [], by rw [hout]; rfl⟩ (by decide) ("file input", braced "\\input") (by simp [unsafeCommands])
  exact absurd hread (by decide +kernel)

end Repair

end Galley
