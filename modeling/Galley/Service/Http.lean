import Galley.Json.Read
import Galley.Rendering
import Galley.Service.Limiter
import Galley.Service.Log
/-!
# The HTTP service

Probes, metrics and previews. A request passes the count, the rate limit and the
rules for other origins before it reaches a route; each layer may answer itself.
Probes are not limited, and monitoring is not counted.
-/

namespace Galley.Http

/-! ## Messages -/

inductive Body where
  | empty
  | json (j : Json)
  /-- Text as it was sent. -/
  | text (t : Text)

structure Request where
  method : Text
  path : Text
  headers : List (Text × Text) := []
  body : Body := .empty
  /-- The time on a clock that only goes forward. -/
  now : Float := 0

/-- A header by its name in lower case. -/
def Request.header? (r : Request) (name : Text) : Option Text :=
  (r.headers.find? fun h => Text.lower h.1 = name).map Prod.snd

structure Response where
  status : Nat
  type : Text := "application/json"
  body : Body
  hasRequestId : Bool := true
  allowOrigin : Option Text := none

/-- The service: its settings if they can be read, the converter and the day. -/
structure App where
  settings : Except (List Settings.Problem) Settings
  engine : Formula.Engine
  today : Date

structure State where
  metrics : Meters := {}
  limiter : Limiter Float := {}
  notices : List Notice := []

abbrev Work := StateM State

def notify (n : Notice) : Work Unit := modify fun s => { s with notices := s.notices ++ [n] }

/-! ## Answers -/

def ofFailure (f : Failure) : Response := { status := f.kind.status, body := .json (.obj f.body) }

def detail (status : Nat) (what : Text) : Response := { status, body := .json (.obj [("detail", .str what)]) }

def notFound : Response := detail 404 "Not Found"

def methodNotAllowed : Response := detail 405 "Method Not Allowed"

/-- The answer to a body with a problem at a place. -/
def invalid (type : Text) (place : List Text) (message : Text) (input : Json) : Response :=
  { status := 422
    body := .json (.obj [("detail", .arr [.obj
      [("type", .str type), ("loc", .strs place), ("msg", .str message), ("input", input)]])]) }

def internalError : Response :=
  { status := 500
    body := .json (.obj [("error", .str "INTERNAL_ERROR"), ("message", .str "An unexpected error occurred"),
      ("details", .obj [])])
    hasRequestId := false }

/-- The answer to a failure, with its notice. -/
def failureAnswer (f : Failure) : Work Response := do
  notify (.requestFailed f.kind.code f.message)
  pure (ofFailure f)

/-- The answer to what nobody expected, with its notice. -/
def unexpectedAnswer (message : Text) : Work Response := do
  notify (.unhandled message)
  pure internalError

/-! ## Routes -/

def health (settings : Settings) : Response :=
  { status := 200
    body := .json (.obj [("status", .str "healthy"), ("version", .str Log.version),
      ("environment", .str settings.environment.name)]) }

/-- Whether the converter can convert. -/
def probeEngine (engine : Formula.Engine) : Work Bool := do
  match engine "x^2" .inline with
  | .ok mathml => pure !mathml.isEmpty
  | .error message => do
    notify (.probeFailed message)
    pure false

def ready (engine : Formula.Engine) : Work Response := do
  let converts ← probeEngine engine
  pure {
    status := 200
    body := .json (.obj [("status", .str (if converts then "ready" else "not_ready")),
      ("checks", .obj [("api", .bool true), ("templates", .bool true), ("math_engine", .bool converts)])]) }

def metersPage : Work Response := do
  pure { status := 200, type := "text/plain; version=0.0.4; charset=utf-8"
         body := .text (← get).metrics.exposition }

def metersList : Work Response := do
  pure { status := 200, body := .json (.obj (← get).metrics.fields) }

/-- Whether a content type names JSON or a format built on it; parameters do not matter. -/
def isJsonType (type : Text) : Bool :=
  match Text.after? "application/" (Text.strip (Text.lower (type.takeWhile (· ≠ ';')))) with
  | some subtype => subtype = "json" || subtype.endsWith "+json"
  | none => false

/-- The value of a body, nothing if there is none. A text counts as JSON unless its type says otherwise. -/
def bodyValue (r : Request) : Except Response (Option Json) :=
  match r.body with
  | .empty | .text [] => .ok none
  | .json .null => .ok none
  | .json j => .ok (some j)
  | .text t =>
    if ((r.header? "content-type").map isJsonType).getD true then
      match Json.parse? t with
      | some .null => .ok none
      | some j => .ok (some j)
      | none => .error (invalid "json_invalid" ["body"] "JSON decode error" (.obj []))
    else .ok (some (.str t))

/-- The document in a body. -/
def document (r : Request) : Except Response Text := do
  match ← bodyValue r with
  | none => throw (invalid "missing" ["body"] "Field required" .null)
  | some (.obj fields) =>
    match fields.lookup ("latex" : Text) with
    | none => throw (invalid "missing" ["body", "latex"] "Field required" (.obj fields))
    | some (.str latex) => pure latex
    | some j => throw (invalid "string_type" ["body", "latex"] "Input should be a valid string" j)
  | some j =>
    throw (invalid "model_attributes_type" ["body"]
      "Input should be a valid dictionary or object to extract fields from" j)

/-- Renders a document with the metrics of the service. -/
def preview (app : App) (settings : Settings) (latex : Text) : Work Response := do
  let config : Rendering.Config := { kit := { settings, engine := app.engine }, today := app.today }
  let s ← get
  let (result, p) := Rendering.render config latex { metrics := s.metrics, notices := s.notices }
  set { s with metrics := p.metrics, notices := p.notices }
  match result with
  | .error f => failureAnswer f
  | .ok preview =>
    pure {
      status := 200
      body := .json (.obj [("html", .str preview.html), ("blocks", .nat preview.extraction.table.size),
        ("has_bibliography", .bool preview.extraction.bibliography.isSome),
        ("warnings", .strs preview.extraction.warnings), ("stats", .obj preview.fields)]) }

def route (app : App) (settings : Settings) (r : Request) : Work Response := do
  let isGet := r.method = "GET"
  if r.path = "/health" then pure (if isGet then health settings else methodNotAllowed)
  else if r.path = "/ready" then if isGet then ready app.engine else pure methodNotAllowed
  else if r.path = "/metrics" then if isGet then metersPage else pure methodNotAllowed
  else if r.path = "/metrics/json" then if isGet then metersList else pure methodNotAllowed
  else if r.path = "/preview" then
    if r.method = "POST" then
      match document r with
      | .ok latex => preview app settings latex
      | .error answer => pure answer
    else pure methodNotAllowed
  else pure notFound

/-! ## Layers -/

def allowedMethods : List Text := ["GET", "POST"]

/-- Answers whether another origin may ask, and lets every origin read the answers. -/
def withOrigins (r : Request) (inner : Work Response) : Work Response := do
  match r.header? "origin" with
  | none => inner
  | some _ =>
    match if r.method = "OPTIONS" then r.header? "access-control-request-method" else none with
    | some method =>
      let allowed := allowedMethods.contains method
      pure {
        status := if allowed then 200 else 400
        type := "text/plain; charset=utf-8"
        body := .text (if allowed then "OK" else "Disallowed CORS method")
        allowOrigin := some ['*'] }
    | none => do pure { ← inner with allowOrigin := some ['*'] }

def probePaths : List Text := ["/health", "/ready"]

/-- The name that all clients share. -/
def client : Text := "testclient"

def tooMany (settings : Settings) : Failure :=
  .make .rateLimit "Too many preview requests. Please wait and try again."
    [("retry_after_seconds", .nat settings.rateLimitWindowSeconds)]

/-- Refuses a client that asks too often. -/
def withLimit (settings : Settings) (r : Request) (inner : Work Response) : Work Response := do
  if probePaths.contains r.path then inner
  else
    let s ← get
    let (allowed, limiter) := s.limiter.allow r.now client settings.rateLimitRequests
      settings.rateLimitWindowSeconds.toFloat
    set { s with limiter }
    if allowed then inner
    else do
      notify (.rateExceeded client r.path)
      pure (ofFailure (tooMany settings))

def uncountedPaths : List Text := ["/health", "/ready", "/metrics"]

/-- Counts an answer. -/
def withCount (r : Request) (inner : Work Response) : Work Response := do
  let answer ← inner
  if !uncountedPaths.contains r.path then
    modify fun s => { s with metrics := s.metrics.countRequest r.method r.path (Text.ofNat answer.status) 0 }
  pure answer

/-- An answer to a question for the head of an answer has no body. -/
def withoutBody (r : Request) (answer : Response) : Response :=
  if r.method = "HEAD" then { answer with body := .text [] } else answer

/-- Answers a request. -/
def respond (app : App) (r : Request) : Work Response := do
  match app.settings with
  | .error _ => pure (withoutBody r (← unexpectedAnswer "invalid settings"))
  | .ok settings =>
    let answer ← withCount r (withLimit settings r (withOrigins r (route app settings r)))
    pure (withoutBody r answer)

end Galley.Http
