import Tenure.Fault

/-!
# Events

What the heap does is told as a list of events, and each event is one line of a log. A fatal error
is not an event, as the operation already ends with it; it has a line all the same.
-/

namespace Tenure

/-- How much a log line matters. -/
inductive LogLevel
  | error
  | info
  | debug
  deriving DecidableEq, Repr

/-- The level's name in logs. -/
def LogLevel.text : LogLevel → String
  | .error => "ERROR"
  | .info => "INFO"
  | .debug => "DEBUG"

/-- One line of a log. -/
structure LogLine where
  level : LogLevel
  text : String
  deriving DecidableEq, Repr

/-- The parts of a collection that are reported on. -/
inductive Phase
  | nurseryEpoch
  | concurrentScavenge
  | scavenge
  deriving DecidableEq, Repr

/-- The phase's name in messages. -/
def Phase.text : Phase → String
  | .nurseryEpoch => "nursery epoch"
  | .concurrentScavenge => "concurrent scavenge"
  | .scavenge => "scavenge"

/-- Something that happened to the heap. -/
inductive Event
  | created (nurseryBytes halfBytes types : Nat)
  | epochBegun (words remembered : Nat)
  | scavengeSkipped (used capacity : Nat)
  | scavenged (objects words before : Nat)
  /-- The end of a phase, with the bytes in use and the size of the active half if the program
  wants to know them. -/
  | finished (phase : Phase) (objects bytes : Nat) (occupancy : Option (Nat × Nat))
  deriving DecidableEq, Repr

/-- The event as a log line. -/
def Event.logLine : Event → LogLine
  | .created nurseryBytes halfBytes types =>
    ⟨.debug, s!"runtime: nursery {nurseryBytes} bytes, semispace 2 x {halfBytes} bytes, " ++
      s!"{types} descriptors"⟩
  | .epochBegun words remembered =>
    ⟨.debug, s!"nursery epoch: {words} words used, {remembered} remembered"⟩
  | .scavengeSkipped used capacity =>
    ⟨.debug, s!"concurrent scavenge skipped: {used}/{capacity} words in use"⟩
  | .scavenged objects words before =>
    ⟨.debug, s!"scavenge: {objects} objects, {words} of {before} words survived"⟩
  | .finished phase objects bytes none =>
    ⟨.debug, s!"{phase.text}: {objects} objects, {bytes} bytes"⟩
  | .finished phase objects bytes (some (used, capacity)) =>
    ⟨.info, s!"{phase.text}: {objects} objects, {bytes} bytes; " ++
      s!"semispace {used}/{capacity} bytes"⟩

/-- The log line of a fault, if it has one: only a fatal error is logged. -/
def Fault.logLine? : Fault → Option LogLine
  | .fatal error => some ⟨.error, error.message⟩
  | .refused _ => none
  | .violation _ => none

/-- The line that a program gets which sets up a log although there is one. -/
def LogLine.alreadySetUp : LogLine :=
  ⟨.error, "failed to init logger, probably already initialized: SetLoggerError(())"⟩

end Tenure
