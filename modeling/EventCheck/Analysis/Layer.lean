/-!
The stack of analyses as a list of layers: what each of them is called and what it offers.
-/

namespace EventCheck

/-- What the innermost analysis keeps of the data. -/
inductive DataDomain where
  /-- Path formulas. -/
  | symbolic
  /-- Known values. -/
  | value
deriving DecidableEq, Repr, Inhabited

/-- Something that a layer may offer. -/
inductive Capability where
  | exportsResult
  | refinesPrecision
  | providesFormula
  | tracksProvenance
  | schedulesThreads
deriving DecidableEq, Repr, Inhabited

namespace Capability

def all : List Capability :=
  [exportsResult, refinesPrecision, providesFormula, tracksProvenance, schedulesThreads]

/-- The number under which the capability is added up with others. -/
def bit : Capability → Nat
  | exportsResult => 1
  | refinesPrecision => 2
  | providesFormula => 4
  | tracksProvenance => 8
  | schedulesThreads => 16

def name : Capability → String
  | exportsResult => "EXPORTS_RESULT"
  | refinesPrecision => "REFINES_PRECISION"
  | providesFormula => "PROVIDES_FORMULA"
  | tracksProvenance => "TRACKS_PROVENANCE"
  | schedulesThreads => "SCHEDULES_THREADS"

end Capability

/-- A layer of the stack. -/
structure Layer where
  name : String
  capabilities : List Capability := []
deriving DecidableEq, Repr, Inhabited

namespace Layer

def bits (layer : Layer) : Nat :=
  layer.capabilities.foldl (fun bits capability => bits + capability.bit) 0

/-- Whether the layer has all the capabilities. -/
def hasAll (layer : Layer) (capabilities : List Capability) : Bool :=
  capabilities.all fun c => layer.capabilities.contains c

/-- The layer that knows the data. -/
def data : DataDomain → Layer
  | .symbolic => ⟨"SymemAnalysis", [.providesFormula]⟩
  | .value => ⟨"ValueAnalysis", [.providesFormula]⟩

/-- The layers of the standard stack, outermost first. -/
def standard (domain : DataDomain) : List Layer :=
  [⟨"StatsAnalysis", [.exportsResult]⟩,
   ⟨"AbstractionAnalysis", [.refinesPrecision, .providesFormula]⟩,
   ⟨"GraphAnalysis", [.tracksProvenance, .exportsResult]⟩,
   ⟨"ControlAnalysis", [.schedulesThreads]⟩,
   ⟨"LabelAnalysis", [.exportsResult]⟩,
   ⟨"SsaAnalysis", []⟩,
   data domain]

/-- The first layer that has all the capabilities. -/
def find? (layers : List Layer) (capabilities : List Capability) : Option Layer :=
  layers.find? (·.hasAll capabilities)

end Layer

end EventCheck
