import Galley.Article
import Galley.Assembly
import Galley.Bibliography
import Galley.Block.Table
import Galley.Block.Token
import Galley.Date
import Galley.Decimal.Exact
import Galley.Decimal.Format
import Galley.Decimal.Read
import Galley.Diagram.Frame
import Galley.Diagram.Layout
import Galley.Diagram.Options
import Galley.Diagram.Signals
import Galley.Diagram.Subset
import Galley.Extract.Abstract
import Galley.Extract.Algorithm
import Galley.Extract.Bench
import Galley.Extract.Box
import Galley.Extract.Code
import Galley.Extract.Diagram
import Galley.Extract.Formula
import Galley.Extract.Image
import Galley.Extract.List
import Galley.Extract.Strip
import Galley.Extract.Table
import Galley.Extract.Theorem
import Galley.Extract.Width
import Galley.Failure
import Galley.Fault
import Galley.Formula.Engine
import Galley.Formula.Render
import Galley.Formula.Sanitize
import Galley.Html.Entity
import Galley.Html.Fragment
import Galley.Html.Node
import Galley.Html.Reference
import Galley.Html.Tag
import Galley.Inline.Format
import Galley.Inline.Stash
import Galley.Integrity
import Galley.Json.Basic
import Galley.Json.Print
import Galley.Json.Read
import Galley.Json.Shown
import Galley.Latex.Node
import Galley.Latex.Read
import Galley.Latex.Symbol
import Galley.Latex.Token
import Galley.Markup.Command
import Galley.Markup.Environment
import Galley.Markup.Group
import Galley.Markup.KeyValue
import Galley.Markup.Pseudocode
import Galley.Markup.Rows
import Galley.Meters
import Galley.Notice
import Galley.Page
import Galley.Proofs.ArticleTokens
import Galley.Proofs.Backslashes
import Galley.Proofs.Balance
import Galley.Proofs.BalancedDocuments
import Galley.Proofs.Bearing
import Galley.Proofs.BoxesLeft
import Galley.Proofs.Building
import Galley.Proofs.Calm
import Galley.Proofs.CalmInline
import Galley.Proofs.CappedRounds
import Galley.Proofs.Carrying
import Galley.Proofs.Characters
import Galley.Proofs.Citations
import Galley.Proofs.Cleaning
import Galley.Proofs.CommandWords
import Galley.Proofs.Commands
import Galley.Proofs.Counting
import Galley.Proofs.Cutting
import Galley.Proofs.Dashes
import Galley.Proofs.Delimiters
import Galley.Proofs.DiagramFrames
import Galley.Proofs.DirectPages
import Galley.Proofs.EarlyStages
import Galley.Proofs.Edges
import Galley.Proofs.EffectiveOptions
import Galley.Proofs.Endings
import Galley.Proofs.Exactness
import Galley.Proofs.Finding
import Galley.Proofs.FirstMarkers
import Galley.Proofs.Formatting
import Galley.Proofs.FormulaCounts
import Galley.Proofs.FormulaPasses
import Galley.Proofs.Fragments
import Galley.Proofs.FramedTitles
import Galley.Proofs.FreeText
import Galley.Proofs.Glyphs
import Galley.Proofs.GroupGrammar
import Galley.Proofs.InlineRuns
import Galley.Proofs.LateStages
import Galley.Proofs.Layout
import Galley.Proofs.LeafEnvironments
import Galley.Proofs.LeafLists
import Galley.Proofs.LegibleTokens
import Galley.Proofs.Links
import Galley.Proofs.LowerCase
import Galley.Proofs.MarkedSteps
import Galley.Proofs.Markers
import Galley.Proofs.Marks
import Galley.Proofs.MatchedEnvironments
import Galley.Proofs.MathOnly
import Galley.Proofs.Mending
import Galley.Proofs.NestedFormatting
import Galley.Proofs.NestedLists
import Galley.Proofs.Nesting
import Galley.Proofs.Numbering
import Galley.Proofs.OpenGroups
import Galley.Proofs.OptionLists
import Galley.Proofs.Parts
import Galley.Proofs.Pictures
import Galley.Proofs.Placeholders
import Galley.Proofs.PlainDocuments
import Galley.Proofs.PlainFormatting
import Galley.Proofs.PlainText
import Galley.Proofs.PrintedMarkup
import Galley.Proofs.Programs
import Galley.Proofs.Quiet
import Galley.Proofs.RateWindows
import Galley.Proofs.RenderRuns
import Galley.Proofs.RepairParts
import Galley.Proofs.ResolvedTables
import Galley.Proofs.Restoring
import Galley.Proofs.RestoringEnds
import Galley.Proofs.Rewriting
import Galley.Proofs.Row
import Galley.Proofs.RowSpacing
import Galley.Proofs.Runs
import Galley.Proofs.SafePages
import Galley.Proofs.SafeSubset
import Galley.Proofs.Search
import Galley.Proofs.Series
import Galley.Proofs.SettingAside
import Galley.Proofs.Sheltering
import Galley.Proofs.Shrinking
import Galley.Proofs.Signs
import Galley.Proofs.SoundMarkup
import Galley.Proofs.SoundPages
import Galley.Proofs.SpelledInline
import Galley.Proofs.Splicing
import Galley.Proofs.StageTrades
import Galley.Proofs.Stages
import Galley.Proofs.StrippedBraces
import Galley.Proofs.Strokes
import Galley.Proofs.StructuredFormulas
import Galley.Proofs.Styles
import Galley.Proofs.Substitution
import Galley.Proofs.Supply
import Galley.Proofs.SurfaceRuns
import Galley.Proofs.Surgery
import Galley.Proofs.TableRuns
import Galley.Proofs.TableWriting
import Galley.Proofs.Tags
import Galley.Proofs.TheoremNumbers
import Galley.Proofs.TokenSeams
import Galley.Proofs.Tokens
import Galley.Proofs.TokensAround
import Galley.Proofs.Trades
import Galley.Proofs.Trees
import Galley.Proofs.UnclosedListings
import Galley.Proofs.UnsafeCommands
import Galley.Proofs.VerbatimCode
import Galley.Proofs.WholeCommands
import Galley.Proofs.WholeConstructs
import Galley.Proofs.WholeTokens
import Galley.Reduction
import Galley.Rendering
import Galley.Repair
import Galley.Service.Http
import Galley.Service.Limiter
import Galley.Service.Log
import Galley.Settings.Basic
import Galley.Settings.Read
import Galley.Surface
import Galley.Text.Basic
import Galley.Text.Case
import Galley.Text.Cut
import Galley.Text.Digest
import Galley.Text.Letter
import Galley.Text.Quoted
import Galley.Typeset
