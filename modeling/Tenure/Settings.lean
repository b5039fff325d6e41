/-!
# Settings

What a program may choose about its heap, with the values that it gets otherwise.
-/

namespace Tenure

/-- The choices. Sizes are in bytes. -/
structure Settings where
  nurserySize : Nat := 64 * 1024
  /-- The size of each half of the semispace. -/
  semispaceSize : Nat := 4 * 1024 * 1024
  /-- The percentage of the active half in use from which a collection cycle scavenges it. -/
  threshold : Nat := 75
  /-- Print statistics at the end. -/
  showStatistics : Bool := false
  /-- Allocate all tails inline. -/
  inlineTails : Bool := false
  /-- Move tails inline when their owner is copied. -/
  compactTails : Bool := false
  /-- Round object sizes up to an even number of words. -/
  padding : Bool := false
  /-- Report every collection at the information level. -/
  verbose : Bool := false
  deriving DecidableEq, Repr

namespace Settings

private def flag (b : Bool) : String := if b then "true" else "false"

/-- The settings as diagnostics show them. -/
def text (s : Settings) : String :=
  "GcConfig \x7b " ++
    s!"nursery_size: {s.nurserySize}, semispace_size: {s.semispaceSize}, " ++
    s!"concurrent_threshold: {s.threshold}, gc_stats: {flag s.showStatistics}, " ++
    s!"tail_copy: {flag s.inlineTails}, tail_compact: {flag s.compactTails}, " ++
    s!"padding: {flag s.padding}, verbose: {flag s.verbose}" ++
    " \x7d"

end Settings

end Tenure
