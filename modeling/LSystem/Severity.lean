/-!
# Severity of reports

Reports are values: a function that has something to report returns it with its result. Each report has
a severity, by which a reader may leave some of them out.
-/
namespace LSystem

inductive Severity where
  | trace
  | debug
  | warning
  deriving DecidableEq, Repr

end LSystem
