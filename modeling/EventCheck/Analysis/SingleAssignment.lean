import EventCheck.Analysis.SymbolicMemory
import EventCheck.Lattice.VersionMap

/-!
Single assignment: every write to a variable takes a new version and every read is of the
current one, so the analysis inside sees each version written once. A variable that was never
written is read at version zero, of which nothing is known.

The state also keeps the block, the constraints of all operations since the last reset, whatever
the analysis inside can express of them. Where states with different versions meet, both are
first brought up to the later version of each variable by assuming that its versions are equal.
-/

namespace EventCheck

/-- The versions on a path and its constraints, around a state of the analysis inside. -/
structure SsaState (σ : Type) where
  versions : VersionMap := ∅
  /-- The variables declared on the path, without versions. -/
  declared : SortedSet Variable := ∅
  block : Formula := .top
  inner : σ
deriving DecidableEq

namespace SingleAssignment

variable {σ : Type}

/-- The expression over the current versions. -/
def renameReads (versions : VersionMap) (e : Expression) : Expression := e.rename versions.current

/-- The statement over versioned variables, and the versions and declarations after it. An
assigned expression is read at the versions from before. -/
def rename (versions : VersionMap) (declared : SortedSet Variable) :
    Statement → Statement × VersionMap × SortedSet Variable
  | .declare v =>
    let next := versions.bump v
    (.declare (next.current v), next, declared.insert v.base)
  | .assign v e =>
    let next := versions.bump v
    (.assign (next.current v) (renameReads versions e), next, declared)
  | .assume condition => (.assume (renameReads versions condition), versions, declared)
  | .call method arguments result =>
    (.call method (arguments.map (renameReads versions)) result, versions, declared)
  | .return value => (.return (value.map (renameReads versions)), versions, declared)
  | .broadcast message => (.broadcast (renameReads versions message), versions, declared)
  | .broadcastAndWait message =>
    (.broadcastAndWait (renameReads versions message), versions, declared)
  | .waitUntil condition => (.waitUntil (renameReads versions condition), versions, declared)
  | .waitSecs seconds => (.waitSecs (renameReads versions seconds), versions, declared)
  | .signalFailure properties => (.signalFailure properties, versions, declared)
  | .nop => (.nop, versions, declared)

/-- The formula of a statement over versioned variables. -/
def constraintOf (statement : Statement) : Except Error Formula := do
  match ← statement.constraint? with
  | some constraint => Formula.ofExpression constraint
  | none => return .top

/-- Follows an operation. If the block becomes contradictory there is no successor. -/
def step (a : LabeledAnalysis σ) (s : SsaState σ) (operation : LabeledOperation) :
    Except Error (List (SsaState σ)) := do
  let (statement, versions, declared) := rename s.versions s.declared operation.statement
  let block := s.block.conjunction (← constraintOf statement)
  if block.isFalse then return []
  let inner ← a.step s.inner { operation with statement := statement }
  return inner.map fun inner => { versions, declared, block, inner }

/-- Equates the later version of a variable with the one that the state is at, in the states of
the analysis inside and in the block. -/
def alignVariable (a : LabeledAnalysis σ) (versions : VersionMap)
    (aligned : List σ × Formula) (entry : Variable × Nat) :
    Except Error (List σ × Formula) := do
  let (v, version) := entry
  let old := versions.version v
  if old = version then return aligned
  let equality ← Expression.binaryChecked .eq (.var (v.atVersion version)) (.var (v.atVersion old))
  let block := aligned.2.conjunction (← Formula.ofExpression equality)
  let next ← aligned.1.mapM fun inner => a.step inner (.synthesized (.assume equality))
  return (next.flatten, block)

/-- Brings a state up to later versions: the state of the analysis inside, unless the equations
contradict it, and the block. -/
def align (a : LabeledAnalysis σ) (s : SsaState σ) (target : VersionMap) :
    Except Error (Option σ × Formula) := do
  let (inner, block) ← target.versions.toList.foldlM (alignVariable a s.versions)
    ([s.inner], s.block)
  return (inner.head?, block)

/-- Combines two states at the later versions. A state that the alignment contradicts is left
out. -/
def combine (a : LabeledAnalysis σ) (f : σ → σ → Except Error σ) (s t : SsaState σ) :
    Except Error (SsaState σ) := do
  let versions := s.versions.join t.versions
  let declared := s.declared ∪ t.declared
  let (left, leftBlock) ← align a s versions
  let (right, rightBlock) ← align a t versions
  match left, right with
  | some left, some right =>
    return { versions, declared, block := leftBlock.disjunction rightBlock, inner := ← f left right }
  | some left, none => return { versions, declared, block := leftBlock, inner := left }
  | none, some right => return { versions, declared, block := rightBlock, inner := right }
  | none, none => return { versions, declared, block := t.block, inner := t.inner }

/-- Whether one reached state covers the state: its block has to be implied, its data has to
cover that of the state, and either the versions agree or nothing is known of its data. -/
def coveredBy (a : LabeledAnalysis σ) (s r : SsaState σ) : Except Error Bool := do
  if !r.block.isTrue && !s.block.implies r.block then return false
  if !(← a.stop s.inner [r.inner]) then return false
  if s.versions = r.versions then return true
  return (← a.formula r.inner).isTrue

/-- The known values of current versions, without versions. -/
def values (a : LabeledAnalysis σ) (s : SsaState σ) : Model :=
  .ofList (((a.values s.inner).toList.filter fun (v, _) =>
    v.version == some (s.versions.version v)).map fun (v, c) => (v.base, c))

end SingleAssignment

open SingleAssignment in
/-- Renames the operations that the analysis sees into single assignment form. -/
def LabeledAnalysis.withVersions {σ : Type} (a : LabeledAnalysis σ) :
    LabeledAnalysis (SsaState σ) where
  initial := a.initial.map fun inner => { inner }
  step := SingleAssignment.step a
  successors s := do return (← a.successors s.inner).map fun inner => { s with inner }
  join := combine a a.join
  shouldMerge s t := a.shouldMerge s.inner t.inner
  merge := combine a a.merge
  stop s reached := reached.anyM (coveredBy a s)
  formula s := do return (← a.formula s.inner).conjunction s.block
  resetPath s := { s with block := .top, inner := a.resetPath s.inner }
  instantiate s := renameReads s.versions
  label s := a.label s.inner
  values := SingleAssignment.values a

end EventCheck
