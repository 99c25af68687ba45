import Galley.Text.Basic
/-!
# The rate limit

Each client may make a number of requests within a sliding window. A request
that is refused does not count.
-/

namespace Galley

/-- The times of the requests that were let through, by client. -/
structure Limiter (τ : Type) where
  hits : List (Text × List τ) := []

namespace Limiter

variable {τ : Type}

def hitsOf (l : Limiter τ) (client : Text) : List τ := (l.hits.lookup client).getD []

def setHits (l : Limiter τ) (client : Text) (times : List τ) : Limiter τ :=
  ⟨(client, times) :: l.hits.filter (·.1 ≠ client)⟩

/-- Whether a request at a time is let through; leading hits that left the window are forgotten. -/
def allow [Sub τ] [LE τ] [DecidableLE τ] (l : Limiter τ) (now : τ) (client : Text) (limit : Int)
    (window : τ) : Bool × Limiter τ :=
  let recent := (l.hitsOf client).dropWhile fun t => t <= now - window
  if (recent.length : Int) ≥ limit then (false, l.setHits client recent)
  else (true, l.setHits client (recent ++ [now]))

end Limiter

end Galley
