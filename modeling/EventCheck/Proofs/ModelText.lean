import EventCheck.Proofs.Spelling

/-!
Models survive being printed. What a solver prints of a model, one definition for each entry, is
read back as the model, whatever the order of the definitions and the white space between tokens.
-/

namespace EventCheck.SmtLib

variable {v : Variable} {c : Constant} {m : Model} {entries : List (Variable × Constant)}
variable {wanted : SortedSet Variable}

/-! ### Printed models -/

def definitionText (v : Variable) (c : Constant) : String :=
  "(define-fun " ++ symbol v ++ " () " ++ sort v.dataType ++ " " ++ constantTerm c ++ ")"

/-- The definitions of the entries one after the other, in parentheses. -/
def modelText (entries : List (Variable × Constant)) : String :=
  "(" ++ String.join (entries.map fun entry => definitionText entry.1 entry.2) ++ ")"

def definitionTokens (v : Variable) (c : Constant) : List Token :=
  [.opening, .word "define-fun", .symbol (symbolName v), .opening, .closing,
    .word (sort v.dataType)] ++ (constantTokens c ++ [.closing])

def modelTokens (entries : List (Variable × Constant)) : List Token :=
  .opening :: (entries.flatMap (fun entry => definitionTokens entry.1 entry.2) ++ [.closing])

def definitionTree (v : Variable) (c : Constant) : Tree :=
  .list [.atom "define-fun", .atom (symbolName v), .list [], .atom (sort v.dataType),
    constantTree c]

theorem toList_definitionText (v : Variable) (c : Constant) : (definitionText v c).toList =
    '(' :: ("define-fun".toList ++ ' ' :: ((symbol v).toList ++ ' ' :: '(' :: ')' :: ' ' ::
      ((sort v.dataType).toList ++ ' ' :: ((constantTerm c).toList ++ [')'])))) := by
  unfold definitionText
  simp

theorem Spaced.definition {tokens : List Token} {text : List Char} (spaced : Spaced tokens text) :
    Spaced (definitionTokens v c ++ tokens) ((definitionText v c).toList ++ text) := by
  rw [toList_definitionText]
  simp only [definitionTokens, List.cons_append, List.nil_append, List.append_assoc]
  apply Spaced.opening
  apply Spaced.cons (t := .word "define-fun") (by decide) (by rfl)
  apply Spaced.blank (by decide)
  apply Spaced.cons_symbol v (by rfl)
  apply Spaced.blank (by decide)
  apply Spaced.opening
  apply Spaced.closing
  apply Spaced.blank (by decide)
  apply Spaced.cons (wellFormed_sort v.dataType) (by rfl)
  apply Spaced.blank (by decide)
  exact .constant c rfl spaced.closing

theorem Spaced.definitions {tokens : List Token} {text : List Char} (spaced : Spaced tokens text) :
    Spaced (entries.flatMap (fun entry => definitionTokens entry.1 entry.2) ++ tokens)
      (entries.flatMap (fun entry => (definitionText entry.1 entry.2).toList) ++ text) := by
  induction entries with
  | nil => exact spaced
  | cons entry rest ih =>
    rw [List.flatMap_cons, List.flatMap_cons, List.append_assoc, List.append_assoc]
    exact ih.definition

theorem spaced_modelText (entries : List (Variable × Constant)) :
    Spaced (modelTokens entries) (modelText entries).toList := by
  have characters : (modelText entries).toList =
      '(' :: (entries.flatMap (fun entry => (definitionText entry.1 entry.2).toList) ++ [')']) := by
    simp [modelText, List.flatMap_map]
  rw [characters]
  have gap : ([] : List Char).all Text.isBlank = true := rfl
  exact (Spaced.done gap).closing.definitions.opening

theorem Spells.definition {forest : List Tree} {tokens : List Token}
    (spells : Spells forest tokens) :
    Spells (definitionTree v c :: forest) (definitionTokens v c ++ tokens) := by
  have inside : Spells [.atom "define-fun", .atom (symbolName v), .list [], .atom (sort v.dataType),
      constantTree c] (.word "define-fun" :: .symbol (symbolName v) :: .opening :: .closing ::
        .word (sort v.dataType) :: (constantTokens c ++ [])) :=
    .word (.symbol (.list .nil (.word (.constant c .nil))))
  have whole := inside.list spells
  simpa [definitionTree, definitionTokens] using whole

theorem spells_definitions (entries : List (Variable × Constant)) :
    Spells (entries.map fun entry => definitionTree entry.1 entry.2)
      (entries.flatMap fun entry => definitionTokens entry.1 entry.2) := by
  induction entries with
  | nil => exact .nil
  | cons entry rest ih => exact ih.definition

/-! ### Definitions -/

theorem constant?_constantTree (c : Constant) : constant? (constantTree c) c.dataType = some c := by
  cases c with
  | int n =>
    simp only [constantTree, constant?, Constant.dataType]
    by_cases negative : n < 0
    · rw [if_pos negative, integer?, integer?, readInt_toString (by omega)]
      simp
    · rw [if_neg negative, integer?, readInt_toString (by omega)]
      rfl
  | bool b => cases b <;> rfl
  | str text => rfl

/-- The definition of a variable known by its symbol adds its entry. -/
theorem define_definitionTree {byName : SortedMap String Variable}
    (known : byName.get? (symbolName v) = some v) (type : c.dataType = v.dataType) :
    define byName m (definitionTree v c) = m.insert v c := by
  simp only [define, definitionTree, known, ← type, constant?_constantTree]

theorem foldl_define {byName : SortedMap String Variable}
    (known : ∀ entry ∈ entries, byName.get? (symbolName entry.1) = some entry.1 ∧
      entry.2.dataType = entry.1.dataType) (m : Model) :
    (entries.map fun entry => definitionTree entry.1 entry.2).foldl (define byName) m =
      entries.foldl (fun m entry => m.insert entry.1 entry.2) m := by
  induction entries generalizing m with
  | nil => rfl
  | cons entry rest ih =>
    obtain ⟨name, type⟩ := known entry List.mem_cons_self
    rw [List.map_cons, List.foldl_cons, List.foldl_cons, define_definitionTree name type]
    exact ih (fun entry member => known entry (List.mem_cons_of_mem _ member)) _

theorem get?_byName (distinct : ∀ w ∈ wanted, symbolName v = symbolName w → v = w)
    (member : v ∈ wanted) :
    (SortedMap.ofList (wanted.toList.map fun w => (symbolName w, w))).get? (symbolName v) =
      some v := by
  apply SortedMap.get?_ofList_of_mem
  · exact List.mem_map_of_mem member
  · intro w entry
    obtain ⟨u, inside, same⟩ := List.mem_map.1 entry
    obtain ⟨names, rfl⟩ := Prod.mk.inj same
    exact (distinct u inside names.symm).symm

/-- The text of a model over variables with different symbols is read back as the model, in any
order and with any white space between the tokens. -/
theorem readModel_of_spaced
    (distinct : ∀ v ∈ wanted, ∀ w ∈ wanted, symbolName v = symbolName w → v = w)
    (typed : ∀ v c, m.get? v = some c → v ∈ wanted ∧ c.dataType = v.dataType)
    (order : entries.Perm m.toList) :
    Spaced (modelTokens entries) (modelText entries).toList ∧
      ∀ output : String, Spaced (modelTokens entries) output.toList →
        readModel output wanted = some m := by
  refine ⟨spaced_modelText entries, ?_⟩
  intro output spaced
  have read := trees_of_spaced ((spells_definitions entries).list .nil) spaced
  have known : ∀ entry ∈ entries,
      (SortedMap.ofList (wanted.toList.map fun w => (symbolName w, w))).get?
        (symbolName entry.1) = some entry.1 ∧ entry.2.dataType = entry.1.dataType := by
    intro entry member
    obtain ⟨inside, type⟩ :=
      typed entry.1 entry.2 (SortedMap.get?_eq_some_iff.2 (order.mem_iff.1 member))
    exact ⟨get?_byName (distinct entry.1 inside) inside, type⟩
  have defined := (foldl_define known ∅).trans (SortedMap.ofList_of_perm order)
  simp only [readModel, read, Option.bind_eq_bind, Option.bind_some, List.getLast?_singleton]
  rw [defined]
  rfl

/-- Variables whose names look like structure. -/
def oddVariables : List Variable :=
  [{ name := "a|b", dataType := .int }, { name := "(", dataType := .string },
    { name := "true", dataType := .bool, version := some 2 }]

/-- Values of two of them, one of which looks like structure. -/
def oddEntries : List (Variable × Constant) :=
  [({ name := "a|b", dataType := .int }, .int (-7)),
    ({ name := "(", dataType := .string }, .str "\"|)\\")]

def oddText : String :=
  "\n((define-fun |(| () String \"\"\"|)\\\")(define-fun |a_b| () Int (- 7)))"

theorem readModel_oddText :
    readModel oddText (.ofList oddVariables) = some (.ofList oddEntries) := by
  have distinct : ∀ v ∈ oddVariables, ∀ w ∈ oddVariables, symbolName v = symbolName w → v = w := by
    decide +kernel
  have typed : ∀ entry ∈ oddEntries, entry.1 ∈ oddVariables ∧
      entry.2.dataType = entry.1.dataType := by
    decide +kernel
  have order : oddEntries.reverse.Perm (SortedMap.ofList oddEntries).toList := by
    decide +kernel
  have text : oddText = "\n" ++ modelText oddEntries.reverse := by
    decide +kernel
  have known : ∀ v c, (SortedMap.ofList oddEntries).get? v = some c →
      v ∈ SortedSet.ofList oddVariables ∧ c.dataType = v.dataType := by
    intro v c found
    simpa using typed (v, c) (SortedMap.mem_of_get?_ofList found)
  have read := readModel_of_spaced (by simpa using distinct) known order
  apply read.2
  rw [text, String.toList_append]
  exact read.1.blank (by decide)

end EventCheck.SmtLib
