import EventCheck.Analysis.Abstraction
import EventCheck.Analysis.Control
import EventCheck.Analysis.Provenance
import EventCheck.Analysis.SingleAssignment
import EventCheck.Analysis.StepLabel
import EventCheck.Lattice.Document

/-!
States of analyses as documents, for looking at a search. Formulas and keys are given by their
texts, stacks from the bottom up.
-/

namespace EventCheck

open Json

/-- The names of properties. -/
def propertyNames (properties : SortedSet Property) : Json :=
  strings (properties.toList.map (·.name))

def Transfer.toJson (t : Transfer) : Json :=
  .object [("thread", nat t.thread), ("operation", orNull nat t.operation),
    ("statement", .string t.statement.text), ("big_step", nat t.bigStep)]

def Call.toJson (c : Call) : Json :=
  .object [("from", nat c.callFrom), ("to", nat c.returnTo), ("actor", .string c.actor),
    ("method", .string c.method), ("result", orNull Variable.toJson c.result),
    ("atomic", .bool c.atomic)]

def Thread.toJson (t : Thread) : Json :=
  .object [("text", .string t.text), ("id", nat t.id), ("entry", nat t.entry),
    ("observer", .bool t.isObserver), ("code", nat t.status.code),
    ("waiting_for", nats t.waitingFor.toList), ("failed_for", propertyNames t.failedFor),
    ("calls", list Call.toJson t.calls.reverse), ("scopes", strings t.scopes.reverse),
    ("in_progress", .bool t.isInProgress), ("in_atomic", .bool t.inAtomicCall)]

section Layers

variable {σ : Type} (inner : σ → Json)

def SsaState.toJson (s : SsaState σ) : Json :=
  .object [("versions", s.versions.toJson), ("declared", list Variable.toJson s.declared.toList),
    ("block", .string s.block.text), ("data", inner s.inner)]

def LabelState.toJson (s : LabelState σ) : Json :=
  .object [("transfers", list Transfer.toJson s.transfers), ("wrapped", inner s.inner)]

def ControlState.toJson (s : ControlState σ) : Json :=
  .object [("threads", list Thread.toJson s.threads), ("target_for", propertyNames s.targets),
    ("wrapped", inner s.inner)]

def ProvenanceState.toJson (s : ProvenanceState σ) : Json :=
  .object [("id", nat s.provenance.id), ("predecessors", nats s.provenance.predecessors.toList),
    ("merge_of", nats s.provenance.mergeOf.toList), ("wrapped", inner s.inner)]

def AbstractionState.toJson (s : AbstractionState σ) : Json :=
  .object [("summary", .string s.summary.text), ("path", .string s.path.text),
    ("block_id", .string s.blockId.text),
    ("precision", strings (s.precision.toList.map (·.text))), ("wrapped", inner s.inner)]

end Layers

end EventCheck
