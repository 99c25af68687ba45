import Galley.Text.Cut
/-!
# Rows and cells

A table body is split into rows at row breaks and a row into cells at
ampersands, both outside braces. Generated markup often escapes twice, so two
backslashes before a special are no row break but an escaped special.
-/

namespace Galley.Rows

/-- Specials that are often escaped twice. -/
def isDoubleEscaped (c : Char) : Bool := c = '&' || c = '%' || c = '#' || c = '_'

/-- Drops the spacing in brackets that a row break may have. -/
def dropSpacing (s : Text) : Text :=
  match s.dropWhile isBlank with
  | '[' :: inner => ((Text.closedBy ']' inner).map (·.2)).getD s
  | _ => s

theorem length_dropWhile_le (p : Char → Bool) (s : Text) : (s.dropWhile p).length ≤ s.length :=
  (List.dropWhile_sublist p).length_le

theorem length_closedBy {c : Char} {s t rest : Text} (h : Text.closedBy c s = some (t, rest)) :
    rest.length < s.length := by
  have h1 := length_dropWhile_le (· ≠ c) s
  unfold Text.closedBy at h
  split at h
  · rename_i heq
    rw [heq, List.length_cons] at h1
    cases h
    exact h1
  · cases h

theorem length_dropSpacing_le (s : Text) : (dropSpacing s).length ≤ s.length := by
  unfold dropSpacing
  split
  · rename_i inner h
    have h1 := length_dropWhile_le isBlank s
    rw [h, List.length_cons] at h1
    cases h2 : Text.closedBy ']' inner with
    | none => exact Nat.le_refl _
    | some r => exact Nat.le_trans (Nat.le_of_lt (@length_closedBy _ _ r.1 r.2 h2)) (Nat.le_of_succ_le h1)
  · exact Nat.le_refl _

/-- Puts characters in front of the first part. -/
def keep (cs : Text) : List Text → List Text
  | [] => [cs]
  | part :: parts => (cs ++ part) :: parts

/-- The rows of a body in which `depth` braces are open. -/
def rowsFrom (depth : Int) : Text → List Text
  | [] => [[]]
  | '\\' :: '\\' :: s =>
    if (s.head?.map isDoubleEscaped).getD false then keep ['\\'] (rowsFrom depth s)
    else if depth = 0 then [] :: rowsFrom depth (dropSpacing s)
    else keep ['\\', '\\'] (rowsFrom depth s)
  | '\\' :: c :: s => keep ['\\', c] (rowsFrom depth s)
  | c :: s =>
    keep [c] (rowsFrom (if c = '{' then depth + 1 else if c = '}' then depth - 1 else depth) s)
termination_by s => s.length
decreasing_by
  all_goals simp only [List.length_cons]
  all_goals have := length_dropSpacing_le s
  all_goals omega

/-- Splits a table body into rows. -/
def ofBody (body : Text) : List Text := rowsFrom 0 body

/-- The cells of a row in which `depth` braces are open, not yet stripped. -/
def cellsFrom : (depth : Int) → Text → List Text
  | _, [] => [[]]
  | d, '\\' :: c :: s => keep ['\\', c] (cellsFrom d s)
  | d, c :: s =>
    if c = '&' && d = 0 then [] :: cellsFrom d s
    else keep [c] (cellsFrom (if c = '{' then d + 1 else if c = '}' then d - 1 else d) s)

/-- Splits a row into stripped cells. -/
def cellsOf (row : Text) : List Text := (cellsFrom 0 (row.replace "\\\\&" "\\&")).map Text.strip

end Galley.Rows
