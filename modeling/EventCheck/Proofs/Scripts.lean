import EventCheck.Proofs.Theories

/-!
What terms and scripts say. The text of an expression is read as a term, and the term has the value
that evaluation gives unless a division rounds the other way. So a formula that holds where no
division does so has a script that is satisfiable.
-/

namespace EventCheck.SmtLib

open Expression

/-! ### Texts that are read as trees -/

/-- In front of anything that it does not run on into, the text is read as the trees. -/
def Writes (text : List Char) (forest : List Tree) : Prop :=
  ∃ tokens, (∀ more rest, Spells more rest → Spells (forest ++ more) (tokens ++ rest)) ∧
    ∀ rest after, Separated after → Spaced rest after → Spaced (tokens ++ rest) (text ++ after)

namespace Writes

variable {text more : List Char} {forest others : List Tree}

theorem nil : Writes [] [] :=
  ⟨[], fun _ _ spells => spells, fun _ _ _ spaced => spaced⟩

theorem word (text : String) (formed : isWord text.toList = true) :
    Writes text.toList [.atom text] :=
  ⟨[.word text], fun _ _ spells => .word spells, fun _ _ separated spaced =>
    .cons (t := .word text) formed separated spaced⟩

theorem symbol (v : Variable) : Writes (SmtLib.symbol v).toList [.atom (symbolName v)] :=
  ⟨[.symbol (symbolName v)], fun _ _ spells => .symbol spells, fun _ _ separated spaced =>
    .cons_symbol v separated spaced⟩

theorem constant (c : Constant) : Writes (constantTerm c).toList [constantTree c] :=
  ⟨constantTokens c, fun _ _ spells => .constant c spells, fun _ _ separated spaced =>
    .constant c separated spaced⟩

theorem blank {c : Char} (blank : Text.isBlank c = true) (first : Writes text forest)
    (second : Writes more others) : Writes (text ++ c :: more) (forest ++ others) := by
  obtain ⟨tokens, spells, spaced⟩ := first
  obtain ⟨tokens', spells', spaced'⟩ := second
  refine ⟨tokens ++ tokens', ?_, ?_⟩
  · intro last rest later
    rw [List.append_assoc, List.append_assoc]
    exact spells _ _ (spells' _ _ later)
  · intro rest after separated later
    rw [List.append_assoc, List.append_assoc]
    have broken : Separated (c :: (more ++ after)) := isBreak_iff.2 (Or.inl blank)
    exact spaced _ _ broken ((spaced' _ _ separated later).blank blank)

theorem list (inside : Writes text forest) : Writes ('(' :: (text ++ [')'])) [.list forest] := by
  obtain ⟨tokens, spells, spaced⟩ := inside
  refine ⟨.opening :: (tokens ++ [.closing]), ?_, ?_⟩
  · intro last rest later
    have items := spells [] [] .nil
    rw [List.append_nil, List.append_nil] at items
    simpa using items.list later
  · intro rest after _ later
    have closed := spaced _ (')' :: after) rfl later.closing
    simpa using closed.opening

theorem trees_eq (writes : Writes text forest) : trees text = some forest := by
  obtain ⟨tokens, spells, spaced⟩ := writes
  have gap : ([] : List Char).all Text.isBlank = true := rfl
  have whole := spaced [] [] trivial (.done gap)
  rw [List.append_nil, List.append_nil] at whole
  have spelled := spells [] [] .nil
  rw [List.append_nil, List.append_nil] at spelled
  exact trees_of_spaced spelled whole

end Writes

theorem isWord_operator (op : BinaryOp) : isWord (operator op).toList = true := by
  cases op <;> decide

theorem writes_term (e : Expression) : Writes (term e).toList [termTree e] := by
  induction e with
  | var v => exact .symbol v
  | const c => exact .constant c
  | not operand ih =>
    have inside := (Writes.word "not" (by decide)).blank (c := ' ') (by decide) ih
    have text : (term (.not operand)).toList =
        '(' :: (("not".toList ++ ' ' :: (term operand).toList) ++ [')']) := by
      simp [term]
    rw [text]
    exact inside.list
  | binary op lhs rhs left right =>
    have inside := (Writes.word (operator op) (isWord_operator op)).blank (c := ' ') (by decide)
      (left.blank (c := ' ') (by decide) right)
    have text : (term (.binary op lhs rhs)).toList =
        '(' :: (((operator op).toList ++ ' ' :: ((term lhs).toList ++ ' ' :: (term rhs).toList))
          ++ [')']) := by
      simp [term]
    rw [text]
    exact inside.list

/-! ### Scripts -/

/-- What a command demands of an interpretation: a declared symbol has a value of its sort, and what
is asserted is true. -/
def Interpretation.Satisfies (i : Interpretation) : Tree → Prop
  | .list [.atom "declare-const", .atom name, .atom kind] =>
    ∃ c, i.constant name = some c ∧ sort c.dataType = kind
  | .list [.atom "assert", condition] => i.value condition = some (.bool true)
  | _ => True

/-- The text is a list of commands that some interpretation satisfies. -/
def Satisfiable (text : String) : Prop :=
  ∃ commands, trees text.toList = some commands ∧
    ∃ i : Interpretation, ∀ command ∈ commands, i.Satisfies command

def declaration (v : Variable) : Tree :=
  .list [.atom "declare-const", .atom (symbolName v), .atom (sort v.dataType)]

/-- The commands of a formula's script. -/
def commands (f : Formula) : List Tree :=
  .list [.atom "set-logic", .atom "ALL"] :: (f.variables.toList.map declaration ++
    [.list [.atom "assert", termTree f.toExpression], .list [.atom "check-sat"]])

def declarationText (v : Variable) : String :=
  "(declare-const " ++ symbol v ++ " " ++ sort v.dataType ++ ")"

/-- The lines of a formula's script, each with its command. -/
def commandLines (f : Formula) : List (String × Tree) :=
  ("(set-logic ALL)", .list [.atom "set-logic", .atom "ALL"]) ::
    (f.variables.toList.map (fun v => (declarationText v, declaration v)) ++
      [("(assert " ++ term f.toExpression ++ ")", .list [.atom "assert", termTree f.toExpression]),
        ("(check-sat)", .list [.atom "check-sat"])])

theorem script_eq (f : Formula) :
    script f = String.join ((commandLines f).map fun line => line.1 ++ "\n") := by
  unfold script commandLines
  simp only [List.cons_append, List.map_cons, List.map_append, List.map_map, List.map_nil]
  rfl

theorem commands_eq (f : Formula) : commands f = (commandLines f).map (·.2) := by
  simp [commands, commandLines, Function.comp_def]

theorem writes_declaration (v : Variable) : Writes (declarationText v).toList [declaration v] := by
  have inside := (Writes.word "declare-const" (by decide)).blank (c := ' ') (by decide)
    ((Writes.symbol v).blank (c := ' ') (by decide)
      (.word (sort v.dataType) (wellFormed_sort v.dataType)))
  have text : (declarationText v).toList =
      '(' :: (("declare-const".toList ++ ' ' :: ((symbol v).toList ++ ' ' ::
        (sort v.dataType).toList)) ++ [')']) := by
    unfold declarationText
    simp
  rw [text]
  exact inside.list

theorem writes_assertion (e : Expression) :
    Writes ("(assert " ++ term e ++ ")").toList [.list [.atom "assert", termTree e]] := by
  have inside := (Writes.word "assert" (by decide)).blank (c := ' ') (by decide) (writes_term e)
  have text : ("(assert " ++ term e ++ ")").toList =
      '(' :: (("assert".toList ++ ' ' :: (term e).toList) ++ [')']) := by
    simp
  rw [text]
  exact inside.list

theorem writes_commandLines {f : Formula} : ∀ line ∈ commandLines f,
    Writes line.1.toList [line.2] := by
  intro line member
  simp only [commandLines, List.mem_cons, List.mem_append, List.mem_map, List.not_mem_nil,
    or_false] at member
  rcases member with rfl | ⟨v, _, rfl⟩ | rfl | rfl
  · exact ((Writes.word "set-logic" (by decide)).blank (c := ' ') (by decide)
      (.word "ALL" (by decide))).list
  · exact writes_declaration v
  · exact writes_assertion f.toExpression
  · exact (Writes.word "check-sat" (by decide)).list

theorem writes_lines {lines : List (String × Tree)}
    (each : ∀ line ∈ lines, Writes line.1.toList [line.2]) :
    Writes (String.join (lines.map fun line => line.1 ++ "\n")).toList (lines.map (·.2)) := by
  induction lines with
  | nil => exact .nil
  | cons line rest ih =>
    have first := each line List.mem_cons_self
    have later := ih fun line member => each line (List.mem_cons_of_mem _ member)
    have text : (String.join ((line :: rest).map fun line => line.1 ++ "\n")).toList =
        line.1.toList ++ '\n' :: (String.join (rest.map fun line => line.1 ++ "\n")).toList := by
      simp
    rw [text]
    exact first.blank (by decide) later

theorem trees_script (f : Formula) : trees (script f).toList = some (commands f) := by
  rw [script_eq, commands_eq]
  exact (writes_lines writes_commandLines).trees_eq

/-! ### Formulas -/

variable {i : Interpretation}

/-- A term that is true or false. -/
def Interpretation.Decides (i : Interpretation) (e : Expression) : Prop :=
  ∃ b, i.value (termTree e) = some (.bool b)

def Interpretation.Affirms (i : Interpretation) (e : Expression) : Prop :=
  i.value (termTree e) = some (.bool true)

theorem decides_connective {op : BinaryOp} (connective : op = .and ∨ op = .or)
    {lhs rhs : Expression} (first : i.Decides lhs) (second : i.Decides rhs) :
    i.Decides (.binary op lhs rhs) := by
  obtain ⟨p, left⟩ := first
  obtain ⟨q, right⟩ := second
  unfold Interpretation.Decides
  rw [termTree, value_binary, left, right]
  rcases connective with rfl | rfl
  · exact ⟨p && q, rfl⟩
  · exact ⟨p || q, rfl⟩

theorem decides_foldl {op : BinaryOp} (connective : op = .and ∨ op = .or) {first : Expression}
    {rest : List Expression} (decided : ∀ e ∈ first :: rest, i.Decides e) :
    i.Decides (rest.foldl (.binary op) first) := by
  induction rest generalizing first with
  | nil => exact decided first List.mem_cons_self
  | cons e rest ih =>
    obtain ⟨one, two, later⟩ := by simpa only [List.forall_mem_cons] using decided
    apply ih
    rw [List.forall_mem_cons]
    exact ⟨decides_connective connective one two, later⟩

theorem affirms_and {lhs rhs : Expression} (first : i.Affirms lhs) (second : i.Affirms rhs) :
    i.Affirms (.binary .and lhs rhs) := by
  unfold Interpretation.Affirms at first second ⊢
  rw [termTree, value_binary, first, second]
  rfl

/-- A disjunction is true if one side is and the other one is true or false. -/
theorem affirms_or {lhs rhs : Expression} (first : i.Decides lhs) (second : i.Decides rhs)
    (either : i.Affirms lhs ∨ i.Affirms rhs) : i.Affirms (.binary .or lhs rhs) := by
  obtain ⟨p, left⟩ := first
  obtain ⟨q, right⟩ := second
  unfold Interpretation.Affirms at either ⊢
  rw [left, right] at either
  rw [termTree, value_binary, left, right]
  rcases either with same | same
  · cases same
    rfl
  · cases same
    exact congrArg (some ∘ Constant.bool) (Bool.or_true p)

theorem affirms_foldl_and {first : Expression} {rest : List Expression}
    (all : ∀ e ∈ first :: rest, i.Affirms e) : i.Affirms (rest.foldl (.binary .and) first) := by
  induction rest generalizing first with
  | nil => exact all first List.mem_cons_self
  | cons e rest ih =>
    obtain ⟨one, two, later⟩ := by simpa only [List.forall_mem_cons] using all
    apply ih
    rw [List.forall_mem_cons]
    exact ⟨affirms_and one two, later⟩

theorem affirms_foldl_or {first : Expression} {rest : List Expression}
    (decided : ∀ e ∈ first :: rest, i.Decides e) (one : ∃ e ∈ first :: rest, i.Affirms e) :
    i.Affirms (rest.foldl (.binary .or) first) := by
  induction rest generalizing first with
  | nil =>
    obtain ⟨e, member, affirmed⟩ := one
    rwa [List.mem_singleton.1 member] at affirmed
  | cons e rest ih =>
    obtain ⟨left, right, later⟩ := by simpa only [List.forall_mem_cons] using decided
    have joined := decides_connective (Or.inr rfl) left right
    apply ih
    · rw [List.forall_mem_cons]
      exact ⟨joined, later⟩
    · simp only [List.mem_cons, exists_eq_or_imp] at one ⊢
      rcases one with affirmed | affirmed | affirmed
      · exact Or.inl (affirms_or left right (Or.inl affirmed))
      · exact Or.inl (affirms_or left right (Or.inr affirmed))
      · exact Or.inr affirmed

theorem value_literal {l : Literal} {b : Bool}
    (value : i.value (termTree l.atom) = some (.bool b)) :
    i.value (termTree l.toExpression) = some (.bool (b == l.positive)) := by
  unfold Literal.toExpression
  cases l.positive with
  | true => simpa using value
  | false =>
    rw [if_neg (by decide), termTree, value_unary, value]
    cases b <;> rfl

theorem decides_cube {c : Cube} (decided : ∀ l ∈ c, i.Decides l.atom) :
    i.Decides c.toExpression := by
  have literals : ∀ e ∈ c.toList.map Literal.toExpression, i.Decides e := by
    intro e member
    obtain ⟨l, inside, rfl⟩ := List.mem_map.1 member
    obtain ⟨b, value⟩ := decided l inside
    exact ⟨_, value_literal value⟩
  unfold Cube.toExpression
  split
  · exact ⟨true, rfl⟩
  · rename_i first rest some
    rw [some] at literals
    exact decides_foldl (Or.inl rfl) literals

theorem affirms_cube {c : Cube}
    (all : ∀ l ∈ c, i.value (termTree l.atom) = some (.bool l.positive)) :
    i.Affirms c.toExpression := by
  have literals : ∀ e ∈ c.toList.map Literal.toExpression, i.Affirms e := by
    intro e member
    obtain ⟨l, inside, rfl⟩ := List.mem_map.1 member
    have value := value_literal (all l inside)
    rwa [beq_self_eq_true] at value
  unfold Cube.toExpression
  split
  · rfl
  · rename_i first rest some
    rw [some] at literals
    exact affirms_foldl_and literals

/-- One cube makes the term of a formula true if all atoms are true or false. -/
theorem affirms_formula {f : Formula} (decided : f.AllAtoms i.Decides) {c : Cube}
    (member : c ∈ f.cubes) (affirmed : i.Affirms c.toExpression) : i.Affirms f.toExpression := by
  have cubes : ∀ e ∈ f.cubes.toList.map Cube.toExpression, i.Decides e := by
    intro e inside
    obtain ⟨d, given, rfl⟩ := List.mem_map.1 inside
    exact decides_cube (decided d given)
  have one : ∃ e ∈ f.cubes.toList.map Cube.toExpression, i.Affirms e :=
    ⟨_, List.mem_map_of_mem member, affirmed⟩
  unfold Formula.toExpression
  split
  · rename_i none
    rw [none] at one
    obtain ⟨e, inside, _⟩ := one
    cases inside
  · rename_i first rest some
    rw [some] at cubes one
    exact affirms_foldl_or cubes one

/-! ### Symbols -/

/-- The symbols of the variables differ, and none of them is a truth value or a number. -/
structure Nameable (symbols : SortedSet Variable) : Prop where
  distinct : ∀ v ∈ symbols, ∀ w ∈ symbols, symbolName v = symbolName w → v = w
  unreserved : ∀ v ∈ symbols, literal? (symbolName v) = none

/-- The symbols of the variables have values of their types, and those that are known. -/
def Interpretation.Interprets (i : Interpretation) (lookup : Variable → Option Constant)
    (symbols : SortedSet Variable) : Prop :=
  ∀ v ∈ symbols, ∃ c, i.constant (symbolName v) = some c ∧ c.dataType = v.dataType ∧
    ∀ d, lookup v = some d → c = d

variable {lookup : Variable → Option Constant} {symbols : SortedSet Variable}

theorem reads_of_interprets (nameable : Nameable symbols)
    (interprets : i.Interprets lookup symbols) : i.Reads lookup symbols := by
  intro v member
  obtain ⟨c, value, known⟩ := interprets v member
  refine ⟨c, ?_, known⟩
  rw [Interpretation.atom, nameable.unreserved v member]
  exact value

theorem exists_interprets
    (distinct : ∀ v ∈ symbols, ∀ w ∈ symbols, symbolName v = symbolName w → v = w)
    (typed : TypedLookup lookup) : ∃ i : Interpretation, i.Interprets lookup symbols := by
  let chosen (v : Variable) : Constant := (lookup v).getD v.dataType.default
  refine ⟨⟨fun name => (symbols.toList.find? (symbolName · = name)).map chosen, id, id⟩, ?_⟩
  intro v member
  refine ⟨chosen v, ?_, ?_, ?_⟩
  · have present : (symbols.toList.find? (symbolName · = symbolName v)).isSome = true := by
      rw [List.find?_isSome]
      exact ⟨v, member, by simp⟩
    obtain ⟨w, found⟩ := Option.isSome_iff_exists.1 present
    have name : symbolName w = symbolName v := by simpa using List.find?_some found
    have same := distinct w (List.mem_of_find?_eq_some found) v member name
    dsimp only
    rw [found, same, Option.map_some]
  · cases known : lookup v with
    | none =>
      rw [show chosen v = v.dataType.default by simp [chosen, known]]
      exact DataType.dataType_default v.dataType
    | some d =>
      rw [show chosen v = d by simp [chosen, known]]
      exact typed v d known
  · intro d known
    simp [chosen, known]

/-! ### What texts mean -/

/-- The text of the expression is a term that has the value wherever its symbols have values of
their types, among them those that are known. -/
def Means (e : Expression) (lookup : Variable → Option Constant) (c : Constant) : Prop :=
  ∃ tree, trees (term e).toList = some [tree] ∧
    (∃ i : Interpretation, i.Interprets lookup e.variables) ∧
    ∀ i : Interpretation, i.Interprets lookup e.variables → i.value tree = some c

theorem means_iff {e : Expression} {c : Constant} (nameable : Nameable e.variables)
    (typed : TypedLookup lookup) : Means e lookup c ↔
      ∀ i : Interpretation, i.Interprets lookup e.variables → i.value (termTree e) = some c := by
  constructor
  · rintro ⟨tree, read, _, value⟩
    rw [(writes_term e).trees_eq] at read
    obtain rfl := List.singleton_inj.1 (Option.some.inj read)
    exact value
  · intro value
    exact ⟨_, (writes_term e).trees_eq, exists_interprets nameable.distinct typed, value⟩

/-- A variable means its value unless its symbol is read as another truth value or number. -/
theorem means_var_iff {v : Variable} {c : Constant} (typed : TypedLookup lookup)
    (known : lookup v = some c) :
    Means (.var v) lookup c ↔ ∀ d, literal? (symbolName v) = some d → c = d := by
  constructor
  · rintro ⟨tree, read, ⟨i, interprets⟩, value⟩ d reserved
    rw [(writes_term (.var v)).trees_eq] at read
    obtain rfl := List.singleton_inj.1 (Option.some.inj read)
    have given : i.atom (symbolName v) = some c := value i interprets
    rw [atom_of_literal? reserved] at given
    exact (Option.some.inj given).symm
  · intro alone
    refine ⟨_, (writes_term (.var v)).trees_eq, ?_, ?_⟩
    · apply exists_interprets _ typed
      intro u first w second _
      rw [Expression.variables, SortedSet.mem_singleton] at first second
      rw [first, second]
    · intro i interprets
      obtain ⟨d, value, _, same⟩ := interprets v (SortedSet.mem_singleton.2 rfl)
      rw [termTree, Interpretation.value, Interpretation.atom]
      cases reserved : literal? (symbolName v) with
      | none => exact value.trans (congrArg some (same c known))
      | some r => exact congrArg some (alone r reserved).symm

theorem mem_variables_of_atom {f : Formula} {c : Cube} {l : Literal} (cube : c ∈ f.cubes)
    (literal : l ∈ c) : ∀ v ∈ l.atom.variables, v ∈ f.variables := by
  intro v member
  exact SortedSet.mem_unionMap.2
    ⟨l.atom, Formula.mem_atoms.2 ⟨c, cube, l, literal, rfl⟩, member⟩

/-- A formula of which a cube holds where its divisions round alike has a satisfiable script. -/
theorem satisfiable_script {f : Formula}
    (wellTyped : f.AllAtoms fun e => e.WellTyped ∧ e.dataType = .bool)
    (nameable : Nameable f.variables) (typed : TypedLookup lookup) {c : Cube}
    (member : c ∈ f.cubes) (holds : c.Holds lookup)
    (alike : ∀ l ∈ c, l.atom.RoundsAlike lookup) : Satisfiable (script f) := by
  obtain ⟨i, interprets⟩ := exists_interprets nameable.distinct typed
  have reads := reads_of_interprets nameable interprets
  have atomReads : ∀ d ∈ f.cubes, ∀ l ∈ d, i.Reads lookup l.atom.variables :=
    fun d cube l literal v occurs => reads v (mem_variables_of_atom cube literal v occurs)
  have decided : f.AllAtoms i.Decides := by
    intro d cube l literal
    obtain ⟨formed, boolean⟩ := wellTyped d cube l literal
    obtain ⟨r, value, type⟩ := exists_value formed (atomReads d cube l literal)
    obtain ⟨b, rfl⟩ := exists_bool (type.trans boolean)
    exact ⟨b, value⟩
  -- Only the cube that holds has to be evaluated; the other ones are true or false all the same.
  have affirmed : i.Affirms f.toExpression := by
    apply affirms_formula decided member
    apply affirms_cube
    intro l literal
    exact value_of_eval (wellTyped c member l literal).1 (atomReads c member l literal)
      (alike l literal) (holds l literal)
  refine ⟨commands f, trees_script f, i, ?_⟩
  intro command given
  simp only [commands, List.mem_cons, List.mem_append, List.mem_map, List.not_mem_nil,
    or_false] at given
  rcases given with rfl | ⟨v, occurs, rfl⟩ | rfl | rfl
  · trivial
  · obtain ⟨r, value, type, _⟩ := interprets v occurs
    exact ⟨r, value, congrArg sort type⟩
  · exact affirmed
  · trivial

/-- Terms mean what the evaluation computes if no symbol is reserved and all divisions round alike.
Variables do so only if their symbols are not reserved for other values, and divisions only if they
round alike. A formula that holds without other divisions has a satisfiable script. -/
theorem meaning_of_roundsAlike (typed : TypedLookup lookup) :
    (∀ v c, lookup v = some c →
      (Means (.var v) lookup c ↔ ∀ d, literal? (symbolName v) = some d → c = d)) ∧
    (∀ e c, e.WellTyped → Nameable e.variables → e.eval lookup = .ok (some c) →
      e.RoundsAlike lookup → Means e lookup c) ∧
    (∀ op lhs rhs m n c, op = .div ∨ op = .mod → (binary op lhs rhs).WellTyped →
      Nameable (binary op lhs rhs).variables → lhs.RoundsAlike lookup → rhs.RoundsAlike lookup →
      lhs.eval lookup = .ok (some (.int m)) → rhs.eval lookup = .ok (some (.int n)) →
      (binary op lhs rhs).eval lookup = .ok (some c) →
      (Means (binary op lhs rhs) lookup c ↔ 0 ≤ m ∨ n ∣ m)) ∧
    ∀ f : Formula, ∀ c ∈ f.cubes, (f.AllAtoms fun e => e.WellTyped ∧ e.dataType = .bool) →
      Nameable f.variables → c.Holds lookup → (∀ l ∈ c, l.atom.RoundsAlike lookup) →
      Satisfiable (script f) := by
  refine ⟨?_, ?_, ?_, ?_⟩
  · intro v c known
    exact means_var_iff typed known
  · intro e c wellTyped nameable evaluated alike
    rw [means_iff nameable typed]
    intro i interprets
    exact value_of_eval wellTyped (reads_of_interprets nameable interprets) alike evaluated
  · intro op lhs rhs m n c division wellTyped nameable left right first second evaluated
    have agrees : ∀ i : Interpretation, i.Interprets lookup (binary op lhs rhs).variables →
        (i.value (termTree (binary op lhs rhs)) = some c ↔ 0 ≤ m ∨ n ∣ m) :=
      fun i interprets => value_division_iff division wellTyped
        (reads_of_interprets nameable interprets) left right first second evaluated
    obtain ⟨i, interprets⟩ := exists_interprets nameable.distinct typed
    rw [means_iff nameable typed]
    constructor
    · intro means
      exact (agrees i interprets).1 (means i interprets)
    · intro alike j given
      exact (agrees j given).2 alike
  · intro f c member wellTyped nameable holds alike
    exact satisfiable_script wellTyped nameable typed member holds alike

/-! ### Remainders by three -/

/-- A variable without a version. -/
def dividend : Variable := { name := "x", dataType := .int }

def remainderByThree : Expression := .binary .mod (.var dividend) (.const (.int 3))

/-- The formula that the remainder by three is as given. -/
def remainderIs (n : Int) : Formula :=
  .ofLiteral ⟨.binary .eq remainderByThree (.const (.int n)), true⟩

/-- Only the value of the variable is known. -/
def dividendIs (n : Int) (v : Variable) : Option Constant :=
  if v = dividend then some (.int n) else none

theorem wellTyped_remainderByThree : remainderByThree.WellTyped := ⟨trivial, trivial, rfl, rfl⟩

theorem nameable_dividend : Nameable (.singleton dividend) := by
  constructor
  · intro v first w second _
    rw [SortedSet.mem_singleton.1 first, SortedSet.mem_singleton.1 second]
  · intro v member
    rw [SortedSet.mem_singleton.1 member]
    decide +kernel

theorem typedLookup_dividendIs (n : Int) : TypedLookup (dividendIs n) := by
  intro v c known
  unfold dividendIs at known
  split at known
  · rename_i same
    rw [same, ← Option.some.inj known]
    rfl
  · cases known

theorem wellTyped_remainderIs (n : Int) :
    (remainderIs n).AllAtoms fun e => e.WellTyped ∧ e.dataType = .bool :=
  Formula.allAtoms_ofLiteral ⟨⟨wellTyped_remainderByThree, trivial, rfl, rfl⟩, rfl⟩

theorem roundsAlike_remainderByThree {n : Int} (natural : 0 ≤ n) :
    remainderByThree.RoundsAlike (dividendIs n) := by
  refine ⟨trivial, trivial, ?_⟩
  intro _ m _ known _
  have same : dividendIs n dividend = some (.int m) :=
    Except.ok.inj ((eval_var dividend).symm.trans known)
  rw [dividendIs, if_pos rfl, Option.some.injEq, Constant.int.injEq] at same
  exact Or.inl (same ▸ natural)

/-- Seven leaves one in the evaluation, in the text of the term and in the script. -/
theorem means_remainder_of_seven : Means (.var dividend) (dividendIs 7) (.int 7) ∧
    Means remainderByThree (dividendIs 7) (.int 1) ∧
    (Means remainderByThree (dividendIs 7) (.int 1) ↔ (0 : Int) ≤ 7 ∨ (3 : Int) ∣ 7) ∧
    Satisfiable (script (remainderIs 1)) := by
  obtain ⟨symbols, terms, divisions, scripts⟩ :=
    meaning_of_roundsAlike (typedLookup_dividendIs 7)
  have evaluated : remainderByThree.eval (dividendIs 7) = .ok (some (.int 1)) := rfl
  have alike := roundsAlike_remainderByThree (n := 7) (by decide)
  refine ⟨?_, ?_, ?_, ?_⟩
  · apply (symbols _ _ rfl).2
    intro d reserved
    rw [nameable_dividend.unreserved dividend (SortedSet.mem_singleton.2 rfl)] at reserved
    cases reserved
  · exact terms _ _ wellTyped_remainderByThree nameable_dividend evaluated alike
  · exact divisions _ _ _ _ _ _ (Or.inr rfl) wellTyped_remainderByThree nameable_dividend
      trivial trivial (eval_var dividend) (eval_const _) evaluated
  · have occurring : (remainderIs 1).variables = .singleton dividend := by
      decide +kernel
    refine scripts _ _ (Formula.mem_ofLiteral _) (wellTyped_remainderIs 1)
      (occurring ▸ nameable_dividend) ?_ ?_
    · intro l inside
      rw [SortedSet.mem_singleton.1 inside]
      rfl
    · intro l inside
      rw [SortedSet.mem_singleton.1 inside]
      refine ⟨alike, trivial, ?_⟩
      rintro (division | remainder)
      · cases division
      · cases remainder

theorem sort_injective {s t : DataType} (same : sort s = sort t) : s = t := by
  cases s <;> cases t <;> first | rfl | exact absurd same (by decide)

/-- A remainder by three is never minus one in the theories. -/
theorem not_satisfies_negative (declared : i.Satisfies (declaration dividend))
    (asserted : i.Satisfies (.list [.atom "assert", termTree (remainderIs (-1)).toExpression])) :
    False := by
  obtain ⟨c, value, kind⟩ := declared
  obtain ⟨n, rfl⟩ := exists_int (sort_injective kind)
  have unreserved : literal? (symbolName dividend) = none :=
    nameable_dividend.unreserved dividend (SortedSet.mem_singleton.2 rfl)
  have first : i.value (termTree (.var dividend)) = some (.int n) := by
    rw [termTree, Interpretation.value, Interpretation.atom, unreserved]
    exact value
  have remainder : i.value (termTree remainderByThree) = some (.int (n % 3)) := by
    rw [remainderByThree, termTree, value_binary, first, termTree, value_constantTree]
    exact (binary_division i (by decide)).2
  have expression : (remainderIs (-1)).toExpression =
      .binary .eq remainderByThree (.const (.int (-1))) := rfl
  have equal : i.value (termTree (remainderIs (-1)).toExpression) = some (.bool true) := asserted
  rw [expression, termTree, value_binary, remainder, termTree, value_constantTree] at equal
  have compared : i.binary (operator .eq) (.int (n % 3)) (.int (-1)) =
      some (.bool (Constant.int (n % 3) = .int (-1))) := binary_eq i rfl
  have same : Constant.int (n % 3) = .int (-1) :=
    of_decide_eq_true (Constant.bool.inj (Option.some.inj (compared.symm.trans equal)))
  have positive := Int.emod_nonneg n (show (3 : Int) ≠ 0 by decide)
  rw [Constant.int.injEq] at same
  omega

def negativeRemainder : Expression := .binary .mod (.const (.int (-7))) (.const (.int 3))

/-- The evaluation lets minus seven leave minus one, but the term leaves two, and no script is
satisfied by a negative remainder. -/
theorem not_means_negativeRemainder :
    (negativeRemainder.WellTyped ∧ Nameable negativeRemainder.variables ∧
      TypedLookup (fun _ => none) ∧
      negativeRemainder.eval (fun _ => none) = .ok (some (.int (-1))) ∧
      ¬Means negativeRemainder (fun _ => none) (.int (-1))) ∧
    ((remainderIs (-1)).AllAtoms (fun e => e.WellTyped ∧ e.dataType = .bool) ∧
      Nameable (remainderIs (-1)).variables ∧ TypedLookup (dividendIs (-7)) ∧
      (remainderIs (-1)).Holds (dividendIs (-7)) ∧ ¬Satisfiable (script (remainderIs (-1)))) := by
  constructor
  · refine ⟨⟨trivial, trivial, rfl, rfl⟩, ?_, ?_, rfl, ?_⟩
    · constructor <;> intro v member <;> cases member
    · intro v c known
      cases known
    · rintro ⟨tree, read, ⟨i, interprets⟩, value⟩
      rw [(writes_term negativeRemainder).trees_eq] at read
      obtain rfl := List.singleton_inj.1 (Option.some.inj read)
      have given := value i interprets
      have left : i.value (termTree (.const (.int (-7)))) = some (.int (-7)) :=
        value_constantTree i _
      have right : i.value (termTree (.const (.int 3))) = some (.int 3) := value_constantTree i _
      rw [negativeRemainder, termTree, value_binary, left, right] at given
      cases given
  · refine ⟨wellTyped_remainderIs (-1), ?_, typedLookup_dividendIs (-7), ?_, ?_⟩
    · have occurring : (remainderIs (-1)).variables = .singleton dividend := by
        decide +kernel
      exact occurring ▸ nameable_dividend
    · rw [remainderIs, Formula.holds_ofLiteral]
      rfl
    · rintro ⟨given, read, i, satisfied⟩
      rw [trees_script] at read
      obtain rfl := Option.some.inj read
      have occurs : dividend ∈ (remainderIs (-1)).variables := by
        decide +kernel
      apply not_satisfies_negative (satisfied _ ?_) (satisfied _ ?_)
      · exact List.mem_cons_of_mem _ (List.mem_append_left _ (List.mem_map_of_mem occurs))
      · simp [commands]

end EventCheck.SmtLib
