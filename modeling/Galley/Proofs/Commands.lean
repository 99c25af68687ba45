import Galley.Markup.Command
import Galley.Proofs.Cutting
/-!
# Commands with balanced arguments

A balanced text is kept whole inside a brace group, whatever stands behind it (`Balanced`), so a command with balanced
arguments is read with these arguments (`withArguments_one`, `withArguments_two`). Rewriting goes through a text part
by part: what a part becomes does not depend on what follows it (`Becomes`).
-/

namespace Galley

namespace Group

theorem keep_keep (a b : Text) (r : Option (Text × Text)) : keep a (keep b r) = keep (a ++ b) r := by
  cases r with
  | none => rfl
  | some p => simp [keep]

theorem keep_nil (r : Option (Text × Text)) : keep [] r = r := by
  cases r with
  | none => rfl
  | some p => simp [keep]

theorem braceRest_cons {c : Char} (hb : c ≠ '\\') (d : Nat) (s : Text) : braceRest false d false (c :: s) =
    if c = '{' then keep [c] (braceRest false (d + 1) false s)
    else if c = '}' then
      match d with
      | 0 => some ([], s)
      | d + 1 => keep [c] (braceRest false d false s)
    else keep [c] (braceRest false d false s) := by
  rw [braceRest.eq_def]
  split
  · simp_all
  · simp_all
  · simp_all
  · rename_i h
    obtain ⟨rfl, rfl⟩ := List.cons.inj h
    exact (if_neg (by simp)).trans rfl

/-- No group is read where none opens. -/
theorem read_of_not_mem {d : Delimiter} {s : Text} (h : d.opener ∉ s) : read d s = .ok none := by
  rw [read]
  split
  · rfl
  · rename_i c t hs
    refine if_neg fun he => h ((List.dropWhile_suffix isGap).subset ?_)
    rw [hs, he]
    exact List.mem_cons_self

/-- Inside any number of brace groups the text is passed over. -/
def Balanced (t : Text) : Prop := ∀ d s, braceRest false d false (t ++ s) = keep t (braceRest false d false s)

namespace Balanced

variable {s t : Text}

theorem nil : Balanced [] := fun d s => (keep_nil (braceRest false d false s)).symm

theorem append (hs : Balanced s) (ht : Balanced t) : Balanced (s ++ t) := fun d u => by
  rw [List.append_assoc, hs, ht, keep_keep]

theorem char {c : Char} (hb : c ≠ '\\') (ho : c ≠ '{') (hc : c ≠ '}') : Balanced [c] := by
  intro d s
  rw [List.singleton_append, braceRest_cons hb, if_neg ho, if_neg hc]

/-- A text without backslashes and braces. -/
theorem of_not_mem (hb : '\\' ∉ t) (ho : '{' ∉ t) (hc : '}' ∉ t) : Balanced t := by
  induction t with
  | nil => exact nil
  | cons c t ih =>
    simp only [List.mem_cons, not_or] at hb ho hc
    exact (char (Ne.symm hb.1) (Ne.symm ho.1) (Ne.symm hc.1)).append (ih hb.2 ho.2 hc.2)

theorem escaped (c : Char) : Balanced ['\\', c] := fun _ _ => rfl

theorem group (h : Balanced t) : Balanced ('{' :: (t ++ ['}'])) := by
  intro d s
  have hsource : '{' :: (t ++ ['}']) ++ s = '{' :: (t ++ '}' :: s) := by simp
  rw [hsource, braceRest_cons (by decide), if_pos rfl, h, braceRest_cons (by decide), if_neg (by decide), if_pos rfl,
    keep_keep, keep_keep]
  rfl

/-- A group with a balanced content is read whole. -/
theorem read (h : Balanced t) (s : Text) : Group.read .brace ('{' :: (t ++ '}' :: s)) = .ok (some (t, s)) := by
  have hgap : ('{' :: (t ++ '}' :: s)).dropWhile isGap = '{' :: (t ++ '}' :: s) :=
    List.dropWhile_cons_of_neg (by decide)
  have hinside : inside? .brace false (t ++ '}' :: s) = some (t, s) := by
    rw [inside?, h, braceRest_cons (by decide), if_neg (by decide), if_pos rfl]
    simp [keep]
  simp [Group.read, hgap, Delimiter.opener, hinside]

end Balanced

end Group

open Galley.Group (Balanced)

namespace Arguments

variable {a s rest : Text} {parts : List Text} {n : Nat}

theorem braces_cons (ha : Balanced a) (h : braces n s = .ok (some (parts, rest))) :
    braces (n + 1) ('{' :: (a ++ '}' :: s)) = .ok (some (a :: parts, rest)) := by
  rw [braces, ha.read]
  change (braces n s >>= _) = _
  rw [h]
  rfl

theorem read?_of_braces (h : braces n s = .ok (some (parts, rest))) : read? n false s = some (⟨none, parts⟩, rest) := by
  have hread : read n false s = .ok (some (⟨none, parts⟩, rest)) := by
    change (braces n s >>= _) = _
    rw [h]
    rfl
  rw [read?, hread]

end Arguments

namespace Command

variable {a b s : Text}

/-- A name is read up to its brace. -/
theorem after?_brace (name s : Text) : after? name ('\\' :: (name ++ '{' :: s)) = some ('{' :: s) := by
  have hafter : Text.after? ('\\' :: name) ('\\' :: (name ++ '{' :: s)) = some ('{' :: s) :=
    Text.after?_append ('\\' :: name) ('{' :: s)
  rw [after?, hafter]
  rfl

theorem withArguments_one (name : Text) (ha : Balanced a) (before : Option Char) (s : Text) :
    withArguments name 1 false before ('\\' :: (name ++ '{' :: (a ++ '}' :: s))) = some (some ⟨none, [a]⟩, s) := by
  rw [withArguments, after?_brace, Option.map_some, Arguments.read?_of_braces (Arguments.braces_cons ha rfl)]

theorem withArguments_two (name : Text) (ha : Balanced a) (hb : Balanced b) (before : Option Char) (s : Text) :
    withArguments name 2 false before ('\\' :: (name ++ '{' :: (a ++ '}' :: '{' :: (b ++ '}' :: s)))) =
      some (some ⟨none, [a, b]⟩, s) := by
  rw [withArguments, after?_brace, Option.map_some,
    Arguments.read?_of_braces (Arguments.braces_cons ha (Arguments.braces_cons hb rfl))]

/-! ## Rewriting part by part -/

section Effects

variable {m : Type → Type} [Monad m] [LawfulMonad m] {name : Text} {count : Nat} {takesOption : Bool}
  {render : Arguments → m Text}

theorem forward_withArguments (name : Text) (count : Nat) (takesOption : Bool) :
    Text.Forward (withArguments name count takesOption) := fun _ _ _ => rfl

theorem replaceM_nil : replaceM name count render [] takesOption = pure [] := by
  simp [replaceM, Text.cut, Text.cutFrom]

theorem replaceM_cons {c : Char} (hr : withArguments name count takesOption none (c :: s) = none) :
    replaceM name count render (c :: s) takesOption = replaceM name count render s takesOption >>= fun t => pure (c :: t) := by
  simp only [replaceM, (forward_withArguments name count takesOption).cut_cons hr, List.mapM_cons, Piece.source, pure_bind,
    bind_assoc, List.flatten_cons, List.singleton_append]

theorem replaceM_hit {c : Char} {t rest : Text} {args : Arguments}
    (hr : withArguments name count takesOption none (c :: s) = some (some args, rest)) (hs : s = t ++ rest) :
    replaceM name count render (c :: s) takesOption =
      render args >>= fun x => replaceM name count render rest takesOption >>= fun t => pure (x ++ t) := by
  simp only [replaceM, (forward_withArguments name count takesOption).cut_hit hr hs, List.mapM_cons, pure_bind, bind_assoc,
    List.flatten_cons]

/-- A text that is one command. -/
theorem replaceM_whole {c : Char} {args : Arguments}
    (hr : withArguments name count takesOption none (c :: s) = some (some args, [])) : replaceM name count render (c :: s) takesOption = render args := by
  rw [replaceM_hit hr (List.append_nil s).symm, replaceM_nil]
  simp

theorem withArguments_char {c : Char} (hc : c ≠ '\\') (before : Option Char) (s : Text) :
    withArguments name count takesOption before (c :: s) = none := by
  rw [withArguments, after?, Text.after?, if_neg (Ne.symm hc)]
  rfl

end Effects

end Command

/-- What the work makes of the part does not depend on what follows the part. -/
def Becomes {m : Type → Type} [Monad m] (work : Text → m Text) (s s' : Text) : Prop :=
  ∀ rest, work (s ++ rest) = work rest >>= fun t => pure (s' ++ t)

namespace Becomes

variable {m : Type → Type} [Monad m] [LawfulMonad m] {work : Text → m Text} {s s' t t' : Text}

theorem nil : Becomes work [] [] := fun rest => by simp

theorem append (hs : Becomes work s s') (ht : Becomes work t t') : Becomes work (s ++ t) (s' ++ t') := fun rest => by
  rw [List.append_assoc, hs, ht]
  simp only [bind_assoc, pure_bind, List.append_assoc]

theorem run (h : Becomes work s s') (hnil : work [] = pure []) : work s = pure s' := by
  have := h []
  rwa [List.append_nil, hnil, pure_bind, List.append_nil] at this

section Commands

variable {name : Text} {count : Nat} {render : Arguments → m Text}

/-- Characters other than backslashes. -/
theorem chars (hs : '\\' ∉ s) : Becomes (Command.replaceM name count render ·) s s := by
  intro rest
  induction s with
  | nil => simp
  | cons c s ih =>
    simp only [List.mem_cons, not_or] at hs
    dsimp only at ih ⊢
    rw [List.cons_append, Command.replaceM_cons (Command.withArguments_char (Ne.symm hs.1) none _), ih hs.2]
    simp only [bind_assoc, pure_bind, List.cons_append]

/-- A command with a balanced argument. -/
theorem command {a x : Text} (ha : Balanced a) (hx : render ⟨none, [a]⟩ = pure x) :
    Becomes (Command.replaceM name 1 render ·) ('\\' :: (name ++ '{' :: (a ++ ['}']))) x := by
  intro rest
  have hsource : '\\' :: (name ++ '{' :: (a ++ ['}'])) ++ rest = '\\' :: (name ++ '{' :: (a ++ '}' :: rest)) := by simp
  have htail : name ++ '{' :: (a ++ '}' :: rest) = (name ++ '{' :: (a ++ ['}'])) ++ rest := by simp
  -- the reader takes the whole command, so what follows is rewritten on its own
  dsimp only
  rw [hsource, Command.replaceM_hit (Command.withArguments_one name ha none rest) htail, hx, pure_bind]

/-- The name of another command. -/
theorem other {other : Text} (hname : '\\' ∉ other) (hne : ∀ s, Command.after? name ('\\' :: (other ++ '{' :: s)) = none) :
    Becomes (Command.replaceM name count render ·) ('\\' :: (other ++ ['{'])) ('\\' :: (other ++ ['{'])) := by
  intro rest
  have hread : Command.withArguments name count false none ('\\' :: ((other ++ ['{']) ++ rest)) = none := by
    have := hne rest
    rw [List.append_assoc, List.singleton_append, Command.withArguments, this, Option.map_none]
  have hplain : '\\' ∉ other ++ ['{'] := by simpa using hname
  have hchars := (chars hplain : Becomes (Command.replaceM name count render ·) _ _) rest
  dsimp only at hchars ⊢
  rw [List.cons_append, Command.replaceM_cons hread, hchars]
  simp only [bind_assoc, pure_bind, List.cons_append]

end Commands

end Becomes

end Galley
