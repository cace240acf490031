/-!
Codes of diagnostics. The first digit tells the stage: 1 the reload gate, 2 the generators, 9 the
pipeline itself; the letter tells errors from warnings.
-/

namespace HotReload

/-- The code of a diagnostic. -/
inductive Code where
  /-- A full reload is needed. -/
  | reloadDeclined
  /-- A classification worker failed. -/
  | classificationFailed
  /-- An error that a generator reports. -/
  | generatorError
  /-- A warning that a generator reports. -/
  | generatorWarning
  /-- A generator crashed. -/
  | generatorCrashed
  deriving DecidableEq, Repr

namespace Code

/-- All codes, in order. -/
def all : List Code :=
  [reloadDeclined, classificationFailed, generatorError, generatorWarning, generatorCrashed]

/-- The text of the code. -/
def text : Code → String
  | reloadDeclined => "E1001"
  | classificationFailed => "E1002"
  | generatorError => "E2001"
  | generatorWarning => "W2001"
  | generatorCrashed => "E9001"

/-- Reported by the gate. -/
def isGate : Code → Bool
  | reloadDeclined | classificationFailed => true
  | _ => false

/-- Reported by generators. -/
def isGenerator : Code → Bool
  | generatorError | generatorWarning => true
  | _ => false

/-- Reported about the pipeline itself. -/
def isInternal : Code → Bool
  | generatorCrashed => true
  | _ => false

/-- Reported as a warning. -/
def isWarning : Code → Bool
  | generatorWarning => true
  | _ => false

/-- The code with a text, in either case. No character beyond ASCII has an upper case that occurs in
codes. -/
def ofText? (s : String) : Option Code := all.find? fun c => c.text = s.toUpper

/-- The position of a code in the order of codes. -/
def rank : Code → Nat
  | reloadDeclined => 0
  | classificationFailed => 1
  | generatorError => 2
  | generatorWarning => 3
  | generatorCrashed => 4

instance : Ord Code := ⟨compareOn rank⟩

end Code

/-- How serious a diagnostic is. -/
inductive Severity where
  | error
  | warning
  | note
  deriving DecidableEq, Repr

namespace Severity

/-- The text of the severity. -/
def text : Severity → String
  | error => "error"
  | warning => "warning"
  | note => "note"

/-- The position of a severity in their order, most serious first. -/
def rank : Severity → Nat
  | error => 0
  | warning => 1
  | note => 2

instance : Ord Severity := ⟨compareOn rank⟩

end Severity

end HotReload
