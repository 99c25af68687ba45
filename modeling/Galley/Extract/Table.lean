import Galley.Extract.Bench
import Galley.Markup.Environment
import Galley.Markup.Rows
/-!
# Tables

Table floats with their caption first, then tabulars that stand alone. A table
that never closes, and one whose body cannot be read, is shown as failed.
-/

namespace Galley.Extract.Table

def tabularNames : List Text := ["tabular", "tabularx", "longtable"]

def floatNames : List Text := ["table", "table*"]

def failure : Text := "<div class=\"table-wrapper table-error\">[Table Body - Parse Failed]</div>"

/-! ## Cells and rows -/

/-- A construct read at a place of `source`; what never closes there is a fault. -/
def readOrFault {α : Type} (source : Text) : Except Unclosed α → Bench α
  | .ok a => pure a
  | .error u => throw (.unclosed (u.message source.length))

/-- The arguments of a command with three, at the head of a cell. -/
def threeArguments? (name cell : Text) : Bench (Option Arguments) := do
  match Command.after? name cell with
  | none => pure none
  | some rest => do pure ((← readOrFault cell (Arguments.read 3 false rest)).map (·.1))

def cellFragment (kit : Kit) (cell : Text) : Bench Text := do
  match ← threeArguments? "multicolumn" cell with
  | some args => do
    pure ("<td colspan=\"" ++ Html.escapeQuoted (Text.strip args.first) ++ "\">" ++
      (← Bench.inline kit (Text.strip args.third)) ++ "</td>")
  | none =>
    match ← threeArguments? "multirow" cell with
    | some args => do pure ("<td>" ++ (← Bench.inline kit (Text.strip args.third)) ++ "</td>")
    | none => do pure ("<td>" ++ (← Bench.inline kit cell) ++ "</td>")

/-- A horizontal rule. -/
def rule : Reader Unit := fun before s =>
  match Command.readerOf ["hline", "toprule", "midrule", "bottomrule"] before s with
  | some (_, rest) => some ((), rest)
  | none =>
    match Command.simpleArgument "cline" before s with
    | some (_, rest) => some ((), rest)
    | none => do
      let s ← Text.after? "\\cmidrule" s
      let s := s.dropWhile isBlank
      let s := Text.skipEnclosed '(' ')' s
      let s ← Text.after? "\x7b" (s.dropWhile isBlank)
      let (_, s) ← Text.closedBy '}' s
      some ((), s)

def pageCommands : List Text := ["endhead", "endfirsthead", "endfoot", "endlastfoot"]

/-- A row without rules and page commands. -/
def cleanRow (row : Text) : Text :=
  (row.removeAll rule).removeAll (Command.readerOf pageCommands)

def rowFragment (kit : Kit) (row : Text) : Bench Text := do
  let cells ← (Rows.cellsOf row).mapM (cellFragment kit)
  pure ("<tr>" ++ cells.flatten ++ "</tr>")

def rowsFragment (kit : Kit) (body : Text) : Bench Text := do
  let rows := (Rows.ofBody body).map cleanRow
  let rows ← (rows.filter fun r => !(Text.strip r).isEmpty).mapM (rowFragment kit)
  pure rows.flatten

/-! ## Tabulars -/

/-- The rows of a tabular body, behind its position, width and column specification. -/
def tabularRows (name body : Text) : Except Unclosed Text := do
  let skip (d : Delimiter) (s : Text) : Except Unclosed Text := do
    match ← Group.read d s with
    | some (_, rest) => pure rest
    | none => pure s
  let s ← skip .bracket body
  let s ← if name = "tabularx" then skip .brace s else pure s
  skip .brace s

/-- The table of a tabular body, if it can be read. -/
def tabularFragment? (kit : Kit) (name body : Text) : Bench (Option Text) := do
  match ← Bench.attempt (do rowsFragment kit (← readOrFault body (tabularRows name body))) with
  | .ok rows => pure (some ("<table><tbody>" ++ rows ++ "</tbody></table>"))
  | .error message => do
    Bench.notify (.tableFailed name message)
    pure none

/-! ## Floats -/

/-- A caption: its arguments, and the text around it. -/
def caption? (body : Text) : Option (Text × Arguments × Text) := do
  let f ← body.find? fun _ s => (Command.starred? "caption" s).map ((), ·)
  let (args, rest) ← Arguments.read? 1 true f.after
  some (f.before, args, rest)

def floatFragment (kit : Kit) (body : Text) : Bench Text := do
  let caption ← match caption? body with
    | some (_, args, _) => do
      pure ("<div class=\"table-caption\">" ++ (← Bench.inline kit (Text.strip args.first)) ++ "</div>")
    | none => pure []
  let inner := do
    let name ← Environment.firstName? tabularNames body
    Environment.find? name body
  let table ← match inner with
    | some e => tabularFragment? kit e.name e.body
    | none => pure none
  let table ← match table with
    | some t => pure t
    | none => do
      Bench.notify .tableEmpty
      pure "<div class=\"table-error\">[Table Body - Parse Failed]</div>".toList
  pure ("<div class=\"table-wrapper\">" ++ caption ++ table ++ "</div>")

def tabularBlock (kit : Kit) (name body : Text) : Bench Text := do
  match ← tabularFragment? kit name body with
  | some t => pure ("<div class=\"table-wrapper\">" ++ t ++ "</div>")
  | none => pure failure

/-! ## Extraction -/

/-- Replaces the first begin marker of a table that never closes. -/
def failUnclosed (name s : Text) : Bench Text := do
  Bench.notify (.tableUnclosed name)
  match s.find? (Marker.begins name) with
  | none => pure s
  | some f => do pure (f.before ++ (← Bench.register .table failure) ++ f.after)

/-- Takes out the environments of some names, the first in the text first. -/
def environments (kit : Kit) (construct : Text) (names : List Text) (render : Text → Text → Bench Text)
    (s : Text) : Bench Text :=
  Bench.rounds construct kit.settings.environmentIterationCap (fun s => do
    match Environment.firstName? names s with
    | none => pure none
    | some name =>
      match Environment.find name s with
      | .error _ => do pure (some (← failUnclosed name s))
      | .ok none => pure none
      | .ok (some e) => do
        let token ← Bench.register .table (← render name e.body)
        pure (some (e.replaceBy token))) s

def extract (kit : Kit) (s : Text) : Bench Text := do
  let s ← environments kit "table" floatNames (fun _ body => floatFragment kit body) s
  environments kit "tabular" tabularNames (tabularBlock kit) s

end Galley.Extract.Table
