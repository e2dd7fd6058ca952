import LiveC.Source.Location

/-!
Diagnostics: what a stage of the pipeline has to say about a source or an object, with
the place in the source where it is known.
-/

namespace LiveC

/-- The stage that reports. -/
inductive Stage where
  | parse | compile | link | execute
  deriving DecidableEq, Repr

def Stage.name : Stage → String
  | parse => "parse"
  | compile => "compile"
  | link => "link"
  | execute => "execute"

inductive Severity where
  | warning | error
  deriving DecidableEq, Repr

def Severity.name : Severity → String
  | warning => "warning"
  | error => "error"

structure Diagnostic where
  stage : Stage
  severity : Severity
  message : String
  location : Option Location := none
  deriving DecidableEq, Repr

namespace Diagnostic

def isError (d : Diagnostic) : Bool := d.severity == .error

/-- The written form: the location if there is one, then stage, severity and message. -/
def render (d : Diagnostic) : String :=
  let text := d.stage.name ++ " " ++ d.severity.name ++ ": " ++ d.message
  match d.location with
  | some loc => loc.render ++ ": " ++ text
  | none => text

end Diagnostic

end LiveC
