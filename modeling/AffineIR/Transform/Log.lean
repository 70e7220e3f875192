/-
  Log entries that transformations leave behind.

  Key definitions include:
    * `LogEntry`
-/

namespace AffineIR

inductive Level where
  | error
  | warn
  | info
  | debug
deriving DecidableEq, Inhabited, Repr

def Level.name : Level → String
  | .error => "error"
  | .warn => "warn"
  | .info => "info"
  | .debug => "debug"

structure LogEntry where
  level : Level
  text : String
deriving DecidableEq, Inhabited, Repr

end AffineIR
