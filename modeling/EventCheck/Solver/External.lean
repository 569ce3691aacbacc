import EventCheck.Solver.Basic
import EventCheck.SmtLib.Model

/-!
A solver that asks another program in the SMT-LIB language. The program is a function from its
input to its output, without a value where it cannot be run.
-/

namespace EventCheck

namespace External

/-- The output up to the first line break, and what follows it. -/
def firstLine (output : List Char) : List Char × List Char :=
  (output.takeWhile (· ≠ '\n'), (output.dropWhile (· ≠ '\n')).drop 1)

/-- The answer in the first line of the output, and the rest of the output. -/
def query (run : String → Option String) (f : Formula) (commands : String) : SatResult × String :=
  match run (SmtLib.script f ++ commands) with
  | none => (.unknown, "")
  | some output =>
    let (first, rest) := firstLine output.toList
    let answer := String.ofList (Text.trim first)
    (if answer = "unsat" then .unsat else if answer = "sat" then .sat else .unknown,
      String.ofList rest)

def check (run : String → Option String) (f : Formula) : SatResult :=
  if f.isFalse then .unsat
  else if f.isTrue then .sat
  else (query run f "").1

def model (run : String → Option String) (f : Formula) : Option Model :=
  if f.isFalse then none
  else if f.isTrue then some ∅
  else
    match query run f "(get-model)\n" with
    | (.sat, output) => SmtLib.readModel output f.variables
    | _ => none

end External

/-- The solver that asks the given program. -/
def Solver.external (run : String → Option String) : Solver where
  check := External.check run
  model := External.model run

end EventCheck
