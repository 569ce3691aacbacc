import EventCheck.Lattice.Formula

/-!
Formulas as scripts of the SMT-LIB language.
-/

namespace EventCheck.SmtLib

def sort : DataType → String
  | .int => "Int"
  | .bool => "Bool"
  | .string => "String"

/-- The name of a variable between the bars of a quoted symbol, which cannot hold a bar. -/
def symbolName (v : Variable) : String :=
  String.ofList (v.identifier.toList.map fun c => if c = '|' then '_' else c)

def symbol (v : Variable) : String := "|" ++ symbolName v ++ "|"

/-- The operator as SMT-LIB names it. -/
def operator : BinaryOp → String
  | .add => "+"
  | .sub => "-"
  | .mul => "*"
  | .div => "div"
  | .mod => "mod"
  | .eq => "="
  | .lt => "<"
  | .and => "and"
  | .or => "or"

/-- A text literal; a quote inside is written twice. -/
def stringLiteral (text : String) : String :=
  "\"" ++ String.join (text.toList.map fun c => if c = '"' then "\"\"" else c.toString) ++ "\""

/-- A constant as a term; there are no negative numerals. -/
def constantTerm : Constant → String
  | .int n => if n < 0 then "(- " ++ toString (-n) ++ ")" else toString n
  | .bool true => "true"
  | .bool false => "false"
  | .str text => stringLiteral text

/-- An expression as a term. -/
def term : Expression → String
  | .var v => symbol v
  | .const c => constantTerm c
  | .not operand => "(not " ++ term operand ++ ")"
  | .binary op lhs rhs => "(" ++ operator op ++ " " ++ term lhs ++ " " ++ term rhs ++ ")"

/-- The script that asks whether the formula is satisfiable. -/
def script (f : Formula) : String :=
  String.join (("(set-logic ALL)" :: f.variables.toList.map (fun v =>
    "(declare-const " ++ symbol v ++ " " ++ sort v.dataType ++ ")")
    ++ ["(assert " ++ term f.toExpression ++ ")", "(check-sat)"]).map (· ++ "\n"))

end EventCheck.SmtLib
