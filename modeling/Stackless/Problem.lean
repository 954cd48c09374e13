import Stackless.Fault
import Stackless.Script.Span

/-!
# Problems and diagnostics

A problem is a mistake in a script. It is reported and compilation goes on. Its text begins with
its location; its message is what follows the location. A diagnostic is what a user sees of a
problem.
-/

namespace Stackless

inductive Problem where
  /-- A name is declared again in the scope where it was declared first. -/
  | redeclared (name : String) (first span : Span)
  /-- The kind says what was defined: a type or a function. -/
  | redefined (kind name : String) (span : Span)
  | illegalRecursion (caller callee : String) (span : Span)
  | unknownType (name : String) (span : Span)
  | invalidBase (name reason : String) (span : Span)
  | circularInheritance (name : String) (span : Span)
  | unknownFunction (name : String) (span : Span)
  | unknownVariable (name : String) (span : Span)
  | argumentCount (name : String) (expected got : Nat) (span : Span)
  /-- A function allows itself to be re-entered but never calls itself. -/
  | unusedMarker (name : String) (span : Span)
  deriving DecidableEq

inductive Severity where
  | warning
  | error
  deriving DecidableEq

def Severity.text : Severity → String
  | .warning => "warning"
  | .error => "error"

namespace Problem

def span : Problem → Span
  | .redeclared _ _ span | .redefined _ _ span | .illegalRecursion _ _ span
  | .unknownType _ span | .invalidBase _ _ span | .circularInheritance _ span
  | .unknownFunction _ span | .unknownVariable _ span | .argumentCount _ _ _ span
  | .unusedMarker _ span => span

def severity : Problem → Severity
  | .unusedMarker .. => .warning
  | _ => .error

/-- The full text, which begins with the location. -/
def text : Problem → String
  | .redeclared name first span =>
    "at " ++ span.text ++ ": '" ++ name ++ "' is already defined in this scope (first defined at " ++
      first.text ++ ")"
  | .redefined kind name span =>
    "at " ++ span.text ++ ": a " ++ kind ++ " named '" ++ name ++ "' already exists"
  | .illegalRecursion caller callee span =>
    "at " ++ span.text ++ ": recursion is not allowed here ('" ++ caller ++ "' calling '" ++
      callee ++ "')"
  | .unknownType name span => "at " ++ span.text ++ ": unknown type '" ++ name ++ "'"
  | .invalidBase name reason span =>
    "at " ++ span.text ++ ": cannot extend '" ++ name ++ "': " ++ reason
  | .circularInheritance name span =>
    "at " ++ span.text ++ ": circular inheritance for '" ++ name ++ "'"
  | .unknownFunction name span => "at " ++ span.text ++ ": unknown function '" ++ name ++ "'"
  | .unknownVariable name span => "at " ++ span.text ++ ": unknown variable '" ++ name ++ "'"
  | .argumentCount name expected got span =>
    "at " ++ span.text ++ ": '" ++ name ++ "' expects " ++ toString expected ++
      " argument(s), got " ++ toString got
  | .unusedMarker name span =>
    "at " ++ span.text ++ ": '" ++ name ++ "' is marked recursive but never calls itself"

/-- What follows the first colon that has a blank after it. -/
def afterColon : List Char → Option (List Char)
  | [] => none
  | ':' :: ' ' :: rest => some rest
  | _ :: rest => afterColon rest

/-- The text without its location. -/
def message (p : Problem) : String :=
  match afterColon p.text.toList with
  | some rest => String.ofList rest
  | none => p.text

end Problem

/-- What a user sees of a problem. -/
structure Diagnostic where
  severity : Severity
  message : String
  span : Span
  deriving DecidableEq

namespace Diagnostic

def ofProblem (p : Problem) : Diagnostic := ⟨p.severity, p.message, p.span⟩

def text (d : Diagnostic) : String :=
  d.severity.text ++ " at " ++ d.span.text ++ ": " ++ d.message

def isError (d : Diagnostic) : Bool := d.severity = .error

def isWarning (d : Diagnostic) : Bool := d.severity = .warning

end Diagnostic

/-- Why a declaration was refused. -/
inductive Refusal where
  | problem (p : Problem)
  | fault (f : Fault)
  deriving DecidableEq

def Refusal.text : Refusal → String
  | .problem p => p.text
  | .fault f => f.message

end Stackless
