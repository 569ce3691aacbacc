import EventCheck.Program.Expression.Order

/-!
The statements of a program, the properties that they can report as violated, and operations,
which are statements under a number.
-/

namespace EventCheck

/-- The name of a behaviour that the program owes. -/
structure Property where
  name : String
deriving DecidableEq, Repr, Inhabited

namespace Property

instance : Ord Property := ⟨compareOn name⟩

instance : Std.TransOrd Property := inferInstanceAs (Std.TransCmp (compareOn name))

instance : Std.LawfulEqOrd Property where
  compare_self := cmp_self (compareOn name)
  eq_of_compare {a b} same := by
    have names : a.name = b.name := Std.LawfulEqOrd.eq_of_compare (α := String) same
    cases a; cases b; simp_all

end Property

/-- A statement of the program. -/
inductive Statement where
  /-- The variable from now on holds the default of its type. -/
  | declare (v : Variable)
  | assign (v : Variable) (e : Expression)
  /-- Only runs on which the condition holds continue. -/
  | assume (condition : Expression)
  /-- Runs a method of the executing actor and may keep its result. -/
  | call (method : String) (arguments : List Expression) (result : Option Variable)
  | return (value : Option Expression)
  | broadcast (message : Expression)
  | broadcastAndWait (message : Expression)
  | waitUntil (condition : Expression)
  | waitSecs (seconds : Expression)
  /-- Reports that the properties are violated. -/
  | signalFailure (properties : SortedSet Property)
  | nop
deriving DecidableEq, Inhabited

namespace Statement

/-- Whether only the scheduler gives the statement a meaning. -/
def isControl : Statement → Bool
  | call .. | .return _ => true
  | _ => false

def text : Statement → String
  | declare v => "declare " ++ v.text ++ " as " ++ v.dataType.text
  | assign v e => v.text ++ " := " ++ e.text
  | assume condition => "assume " ++ condition.text
  | call method arguments result =>
    result.elim "" (fun v => v.text ++ " := ")
      ++ method ++ "(" ++ ", ".intercalate (arguments.map (·.text)) ++ ")"
  | .return (some e) => "return " ++ e.text
  | .return none => "return"
  | broadcast message => "broadcast " ++ message.text
  | broadcastAndWait message => "broadcast " ++ message.text ++ " and wait"
  | waitUntil condition => "wait until " ++ condition.text
  | waitSecs seconds => "wait " ++ seconds.text ++ " seconds"
  | signalFailure properties =>
    "signal failure [" ++ ", ".intercalate (properties.toList.map (·.name)) ++ "]"
  | nop => "nop"

/-! ### Order -/

def rank : Statement → Nat
  | declare _ => 0
  | assign .. => 1
  | assume _ => 2
  | call .. => 3
  | .return _ => 4
  | broadcast _ => 5
  | broadcastAndWait _ => 6
  | waitUntil _ => 7
  | waitSecs _ => 8
  | signalFailure _ => 9
  | nop => 10

/-- The variable that the statement writes first, if its form names one. -/
def target? : Statement → Option Variable
  | declare v | assign v _ => some v
  | _ => none

/-- The expression that the statement is about. -/
def expression? : Statement → Option Expression
  | assign _ e | assume e | broadcast e | broadcastAndWait e | waitUntil e | waitSecs e => some e
  | .return e => e
  | _ => none

/-- The method, the arguments and the variable for the result of a call. -/
def method? : Statement → Option String
  | call method _ _ => some method
  | _ => none

def arguments : Statement → List Expression
  | call _ arguments _ => arguments
  | _ => []

def result? : Statement → Option Variable
  | call _ _ result => result
  | _ => none

/-- The properties that the statement reports as violated. -/
def violations : Statement → SortedSet Property
  | signalFailure properties => properties
  | _ => ∅

/-- By form in the order of declaration, then by parts from left to right. -/
def order : Statement → Statement → Ordering :=
  compareLex (compareOn rank) (compareLex (compareOn target?) (compareLex (compareOn expression?)
    (compareLex (compareOn method?) (compareLex (compareOn arguments)
      (compareLex (compareOn result?) (compareOn violations))))))

instance : Ord Statement := ⟨order⟩

instance : Std.TransOrd Statement := by
  show Std.TransCmp order
  unfold order
  infer_instance

instance : Std.LawfulEqOrd Statement where
  compare_self :=
    cmp_self (compare : Statement → Statement → Ordering)
  eq_of_compare {a b} same := by
    have same : order a b = .eq := same
    simp only [order, compareLex, compareOn, Ordering.then_eq_eq] at same
    obtain ⟨ranks, targets, expressions, methods, arguments, results, violations⟩ := same
    have ranks := Std.LawfulEqOrd.eq_of_compare (α := Nat) ranks
    have targets := Std.LawfulEqOrd.eq_of_compare (α := Option Variable) targets
    have expressions := Std.LawfulEqOrd.eq_of_compare (α := Option Expression) expressions
    have methods := Std.LawfulEqOrd.eq_of_compare (α := Option String) methods
    have arguments := Std.LawfulEqOrd.eq_of_compare (α := List Expression) arguments
    have results := Std.LawfulEqOrd.eq_of_compare (α := Option Variable) results
    have violations := Std.LawfulEqOrd.eq_of_compare (α := SortedSet Property) violations
    cases a <;> cases b <;> simp only [rank, reduceCtorEq, Nat.reduceEqDiff] at ranks <;>
      simp_all [target?, expression?, method?, Statement.arguments, result?, Statement.violations]

end Statement

/-- A statement with the number by which transitions refer to it. -/
structure Operation where
  id : Nat
  statement : Statement
deriving DecidableEq, Inhabited

/-- The number with at least two digits, then the statement. -/
def Operation.text (operation : Operation) : String :=
  (if operation.id < 10 then "0" else "") ++ toString operation.id ++ " "
    ++ operation.statement.text

end EventCheck
