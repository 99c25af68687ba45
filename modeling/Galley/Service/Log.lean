import Galley.Notice
import Galley.Settings.Read
/-!
# Log lines

A line carries the fields of its event and, under them, the bound context. Lines
below the level that was set up are not written. Without JSON, a line is plain
text.
-/

namespace Galley

namespace Level

def name : Level → Text
  | debug => "debug"
  | info => "info"
  | warning => "warning"
  | error => "error"
  | critical => "critical"

def rank : Level → Nat
  | debug => 10
  | info => 20
  | warning => 30
  | error => 40
  | critical => 50

def all : List Level := [debug, info, warning, error, critical]

/-- The level of a method name. -/
def ofName? (t : Text) : Option Level :=
  if t = "warn" then some warning else all.find? (·.name = t)

/-- The lowest rank that a level name lets through; unknown names mean that of information. -/
def threshold (t : Text) : Nat :=
  let t := Text.lower t
  if t = "notset" then 0
  else if t = "fatal" then 50
  else ((ofName? t).map rank).getD 20

end Level

/-- How lines are written. -/
structure Log where
  threshold : Nat := 0
  json : Bool := false
  context : List (Text × Json) := []

namespace Log

def bind (l : Log) (fields : List (Text × Json)) : Log :=
  { l with context := Json.setFields l.context fields }

/-- Forgets the context, the name of the service included. -/
def clear (l : Log) : Log := { l with context := [] }

def setUp (l : Log) (level : Text) (json : Bool) (service : Text) : Log :=
  ({ l with threshold := Level.threshold level, json }).bind [("service", .str service)]

/-- A line, as an object or as text. -/
inductive Line where
  | fields (fs : List (Text × Json))
  | text

/-- The lines that an event writes. -/
def write (l : Log) (level : Level) (event : Text) (fields : List (Text × Json)) : List Line :=
  if level.rank < l.threshold then []
  else if l.json then
    [.fields (Json.setFields (Json.setFields l.context fields)
      [("event", .str event), ("level", .str level.name)])]
  else [.text]

/-- The version of the service. -/
def version : Text := "0.1.0"

/-- The lines from the start to the end of the service. -/
def lifespan (s : Settings) : List Line :=
  let l := ({} : Log).setUp s.logLevel s.logJson "texpreview"
  l.write .info "Texpreview API starting"
      [("version", .str version), ("environment", .str s.environment.name)] ++
    l.write .info "Texpreview API stopped" []

end Log

end Galley
