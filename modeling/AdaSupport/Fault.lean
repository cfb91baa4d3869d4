/-!
# Faults and diagnostics

* `Fault`: an error that ends a program, with its category and message.
* `Diagnostic.line`: a line of debugging output.
-/

namespace AdaSupport

/-- The categories of faults. -/
inductive Fault.Category where
  | runtime
  | constraint
  | program
  deriving DecidableEq, Repr

/-- The name of a category. -/
def Fault.Category.label : Fault.Category → String
  | .runtime => "RUNTIME ERROR"
  | .constraint => "CONSTRAINT ERROR"
  | .program => "PROGRAM ERROR"

/-- An error that ends a program. -/
structure Fault where
  category : Fault.Category
  message : String
  deriving DecidableEq, Repr

namespace Fault

/-- The status of a program that a fault ended. -/
def exitCode : Nat := 1

/-- The report of a fault. -/
def report (f : Fault) : String := f.category.label ++ ": " ++ f.message

end Fault

namespace Diagnostic

/-- A message, and the value it is about when there is one. -/
def line (message : String) (value : Option String) : String :=
  match value with
  | some v => "[DEBUG] " ++ message ++ ": " ++ v
  | none => "[DEBUG] " ++ message

end Diagnostic

end AdaSupport
