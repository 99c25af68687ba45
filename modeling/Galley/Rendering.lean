import Galley.Reduction
import Galley.Integrity
import Galley.Article
import Galley.Assembly
import Galley.Surface
/-!
# Rendering

From a raw document to a preview on a surface: the document is reduced, put into
an article, checked for being cut off, typeset, spliced and laid out. A document
that fails leaves the surface as it was.
-/

namespace Galley

/-- A document that was rendered. -/
structure Preview where
  tree : List Html.Node
  metadata : Metadata
  extraction : Reduction
  integrity : Integrity.Report
  layout : LayoutSummary

namespace Preview

def html (p : Preview) : Text := ((Assembly.root? p.tree).map Html.Node.print).getD []

def fields (p : Preview) : List (Text × Json) :=
  Json.setFields p.extraction.fields
    [("integrity", .obj p.integrity.fields), ("layout", .obj p.layout.fields),
      ("metadata", .obj p.metadata.fields), ("duration_ms", .float 0)]

end Preview

namespace Rendering

/-- What documents are rendered with. -/
structure Config where
  kit : Kit := {}
  typesetter : Typesetter := .standard
  today : Date

/-- What outlives a document. -/
structure State where
  surface : Surface := {}
  metrics : Meters := {}
  notices : List Notice := []

namespace State

def notifyAll (s : State) (ns : List Notice) : State := { s with notices := s.notices ++ ns }

/-- Records how many constructs the stages took out. -/
def recordCounts (s : State) (counts : List (Text × Nat)) : State :=
  let stages := counts.filter (·.1 ≠ "citation".toList)
  { s with metrics := stages.foldl (fun m (name, n) => m.countTaken name n) s.metrics }

def countRender (s : State) (status : Text) (blocks : Nat) : State :=
  { s with metrics := s.metrics.countRender status 0 blocks }

end State

/-- Reduces a document. A fault in a stage fails the document. -/
def extract (c : Config) (raw : Text) (s : State) : Except Failure Reduction × State :=
  let (result, bench) := (Reduction.run c.kit raw).run {}
  let s := (s.notifyAll bench.notices).recordCounts bench.counts
  match result with
  | .ok e => (.ok e, s)
  | .error fault =>
    (.error (.make .render ("Browser Render Error: " ++ fault.message)),
      s.notifyAll [.stageFailed fault.message])

/-- A reduced document in its article, without the fragments that fell out of it. -/
def prepare (c : Config) (e : Reduction) : Article.Rewritten × Reduction :=
  let rewritten := Article.rewrite c.today e.reduced
  (rewritten, { e with table := (e.table.prune rewritten.markup).2 })

/-- Checks and typesets a prepared document. -/
def typeset (c : Config) (markup : Text) (e : Reduction) :
    Except Failure (Integrity.Report × List Html.Node) × List Notice :=
  let tolerance := c.kit.settings.gatekeeperTolerance
  match Integrity.check tolerance markup with
  | .error f => (.error f, Integrity.notices tolerance markup)
  | .ok report =>
    let (tree, notices) := Assembly.render c.typesetter e.table e.bibliography markup
    (tree.map (report, ·), notices)

/-- Attaches a tree and lays it out. -/
def attach (c : Config) (tree : List Html.Node) (s : State) : List Html.Node × LayoutSummary × State :=
  let (surface, ticket) := s.surface.attach tree
  let settings := c.kit.settings
  let (surface, report, shrinks) := surface.layOut settings (.ofSettings settings) ticket
  (surface.tree?.getD [], report, { s with surface, metrics := s.metrics.countShrinks shrinks })

def tooLarge (settings : Settings) (length : Nat) : Failure :=
  .make .validation ("Document too large (" ++ Text.ofNat length ++ " characters)")
    [("max_document_chars", .nat settings.maxDocumentChars)]

/-- Renders a document. -/
def render (c : Config) (raw : Text) (s : State) : Except Failure Preview × State :=
  if raw.length > c.kit.settings.maxDocumentChars then
    (.error (tooLarge c.kit.settings raw.length), s)
  else
    match extract c raw s with
    | (.error f, s) => (.error f, s.countRender "error" 0)
    | (.ok e, s) =>
      let (rewritten, pruned) := prepare c e
      let s := s.notifyAll (Article.notices e.reduced)
      match typeset c rewritten.markup pruned with
      | (.error f, notices) => (.error f, (s.notifyAll notices).countRender "error" 0)
      | (.ok (integrity, tree), notices) =>
        let (tree, layout, s) := attach c tree (s.notifyAll notices)
        let preview : Preview :=
          { tree, metadata := rewritten.metadata, extraction := pruned, integrity, layout }
        (.ok preview, s.countRender "success" e.table.issued)

/-! ## Outcomes -/

/-- The outcome of a document: a failure is shown in a panel. -/
structure Outcome where
  html : Text
  failure : Option Failure := none
  warnings : List Text := []
  stats : List (Text × Json) := []

namespace Outcome

def isOk (o : Outcome) : Bool := o.failure.isNone

def fields (o : Outcome) : List (Text × Json) :=
  [("html", .str o.html),
    ("error", match o.failure with
      | some f => .obj f.body
      | none => .null),
    ("warnings", .strs o.warnings), ("stats", .obj o.stats)]

end Outcome

/-- Renders a document in every case. -/
def outcome (c : Config) (raw : Text) (s : State) : Outcome × State :=
  match render c raw s with
  | (.ok p, s) =>
    ({ html := p.html, warnings := p.extraction.warnings, stats := p.fields }, s)
  | (.error f, s) =>
    ({ html := f.panel, failure := some f }, s.notifyAll [.previewFailed f.kind.code f.message])

end Rendering

end Galley
