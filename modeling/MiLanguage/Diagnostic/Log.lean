import MiLanguage.Diagnostic.Fault

set_option autoImplicit false

namespace MiLanguage

inductive Severity where
  | error | warning
  deriving DecidableEq, Repr

/-- A line and a column of zero, and no span, if it belongs to no place in a text. -/
structure Diagnostic where
  severity : Severity
  kind : DiagnosticKind
  message : String
  hints : List String := []
  line : Nat := 0
  column : Nat := 0
  span : Option Span := none
  deriving DecidableEq, Repr

namespace Diagnostic

def isError (d : Diagnostic) : Bool := d.severity = .error

def located (d : Diagnostic) (place : Token) : Diagnostic :=
  { d with line := place.line, column := place.column, span := some place.span }

def ofFault (severity : Severity) (f : Fault) (place : Token) : Diagnostic :=
  located { severity, kind := f.kind, message := f.message, hints := f.hints } place

def text (d : Diagnostic) : String :=
  let level := match d.severity with
    | .error => "error"
    | .warning => "warning"
  s!"{level} at {d.line}:{d.column}: {d.message}"

@[simp] theorem isError_ofFault (severity : Severity) (f : Fault) (place : Token) :
    (ofFault severity f place).isError = decide (severity = .error) := rfl

end Diagnostic

/-- The diagnostics of one analysis in the order in which they arose. Errors beyond `maxErrors`
are only counted; zero stands for no limit. -/
structure DiagnosticLog where
  maxErrors : Nat
  entries : List Diagnostic := []
  failed : Bool := false
  suppressed : Nat := 0
  deriving DecidableEq, Repr

namespace DiagnosticLog

def errors (log : DiagnosticLog) : List Diagnostic := log.entries.filter (·.isError)
def warnings (log : DiagnosticLog) : List Diagnostic := log.entries.filter (!·.isError)
def errorCount (log : DiagnosticLog) : Nat := log.errors.length

def isFull (log : DiagnosticLog) : Bool := log.maxErrors ≠ 0 && log.maxErrors ≤ log.errorCount

def report (log : DiagnosticLog) (d : Diagnostic) : DiagnosticLog :=
  if d.isError then
    if log.isFull then { log with failed := true, suppressed := log.suppressed + 1 }
    else { log with failed := true, entries := log.entries ++ [d] }
  else { log with entries := log.entries ++ [d] }

-- An analysis that failed counts one error at the least.
def summary (log : DiagnosticLog) : String :=
  s!"analysis failed with {max 1 log.errorCount} error(s)"

@[simp] theorem failed_report (log : DiagnosticLog) (d : Diagnostic) :
    (log.report d).failed = (log.failed || d.isError) := by
  unfold report
  cases h : d.isError <;> simp
  split <;> rfl

@[simp] theorem maxErrors_report (log : DiagnosticLog) (d : Diagnostic) :
    (log.report d).maxErrors = log.maxErrors := by
  unfold report
  split <;> (try split) <;> rfl

end DiagnosticLog

end MiLanguage
