import Galley.Markup.Command
/-!
# Commands that only concern layout

References become bracketed text, footnotes are put in parentheses, and commands
for spacing and page breaks are dropped.
-/

namespace Galley.Extract.Strip

def droppedNames : List Text :=
  ["tableofcontents", "listoffigures", "listoftables", "newpage", "clearpage", "pagebreak",
    "noindent", "centering", "medskip", "bigskip", "smallskip", "FloatBarrier"]

/-- A spacing command with its length. -/
def spacing : Reader Unit := fun _ s => do
  let s ← Text.after? "\\vspace" s <|> Text.after? "\\hspace" s
  let s := (Text.after? "*" s).getD s
  let s ← Text.after? "\x7b" (s.dropWhile isBlank)
  let (_, s) ← Text.closedBy '}' s
  some ((), s)

def dropLayoutCommands (s : Text) : Text :=
  let s := s.removeAll (Command.readerOf droppedNames)
  let s := s.removeAll spacing
  let s := Command.replace "label" 1 (fun _ => []) s
  let s := Command.replace "eqref" 1 (fun a => "(" ++ Text.strip a.first ++ ")") s
  let bracketed (a : Arguments) : Text := "[" ++ Text.strip a.first ++ "]"
  let s := Command.replace "ref" 1 bracketed s
  let s := Command.replace "pageref" 1 bracketed s
  let s := Command.replace "autoref" 1 bracketed s
  Command.replace "footnote" 1 (fun a => " (" ++ Text.strip a.first ++ ")") s

end Galley.Extract.Strip
