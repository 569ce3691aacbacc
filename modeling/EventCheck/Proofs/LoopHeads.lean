import EventCheck.Proofs.BackEdges
import EventCheck.Proofs.Building

/-!
The loop heads of control flows. Whatever a control flow grows by, its loop heads are those of the
depth-first walks from its entries: every loop that execution can come to passes one of them. They
depend on the entries and the edges, not on the order in which these were added.
-/

namespace EventCheck

/-! ### Graphs -/

namespace Graph

variable {ν ε : Type} {g : Graph ν ε}

/-- The graphs that can be put together. -/
inductive Built : Graph ν ε → Prop
  | empty : Built ∅
  | vertex {g next : Graph ν ε} {vertex : Nat} {label : ν} (built : Built g)
    (inserted : g.insertVertex vertex label = .ok next) : Built next
  | edge {g next : Graph ν ε} {head tail : Nat} {label : ε} (built : Built g)
    (inserted : g.insertEdge head tail label = .ok next) : Built next
  | update {g next : Graph ν ε} {head tail : Nat} {f : ε → ε} (built : Built g)
    (updated : g.updateEdge head tail f = .ok next) : Built next

theorem Built.consistent (built : g.Built) : g.Consistent := by
  induction built with
  | empty => exact consistent_empty
  | vertex _ inserted ih => exact (ih.insertVertex inserted).1
  | edge _ inserted ih => exact (ih.insertEdge inserted).1
  | update _ updated ih => exact (ih.updateEdge updated).1

theorem exists_insertVertex {v : Nat} (label : ν) (fresh : ¬g.hasVertex v = true) :
    ∃ next, g.insertVertex v label = .ok next := by
  rw [Graph.insertVertex, if_neg fresh]
  exact ⟨_, rfl⟩

theorem exists_insertEdge {head tail : Nat} (label : ε) (fresh : ¬g.hasEdge head tail = true)
    (first : g.hasVertex head = true) (second : g.hasVertex tail = true) :
    ∃ next, g.insertEdge head tail label = .ok next := by
  rw [Graph.insertEdge, if_neg fresh, first, second]
  exact ⟨_, rfl⟩

theorem exists_updateEdge {head tail : Nat} (f : ε → ε) (present : g.hasEdge head tail = true) :
    ∃ next, g.updateEdge head tail f = .ok next := by
  obtain ⟨label, found⟩ := SortedMap.contains_iff.1 present
  rw [Graph.updateEdge, found]
  exact ⟨_, rfl⟩

/-- Whether an edge is there and its label changes or it is new, afterwards it is there. -/
theorem Consistent.exists_connect {head tail : Nat} (consistent : g.Consistent) (f : ε → ε)
    (label : ε) (first : g.hasVertex head = true) (second : g.hasVertex tail = true) :
    ∃ next, (if g.hasEdge head tail then g.updateEdge head tail f
        else g.insertEdge head tail label) = .ok next ∧
      next.Consistent ∧ (∀ v, next.hasVertex v = g.hasVertex v) ∧
      ∀ h t, next.hasEdge h t = true ↔ (h = head ∧ t = tail) ∨ g.hasEdge h t = true := by
  split
  · rename_i present
    obtain ⟨next, updated⟩ := exists_updateEdge f present
    obtain ⟨after, vertices, same⟩ := consistent.updateEdge updated
    refine ⟨next, updated, after, vertices, fun h t => ?_⟩
    rw [same, or_iff_right_of_imp]
    rintro ⟨rfl, rfl⟩
    exact present
  · rename_i absent
    obtain ⟨next, inserted⟩ := exists_insertEdge label absent first second
    exact ⟨next, inserted, consistent.insertEdge inserted⟩

/-- The tails of the edges that cut the loops lie on loops themselves. -/
theorem CutsLoops.tail {roots : List Nat} {arcs : SortedSet Arc} (cuts : g.CutsLoops roots arcs)
    {head tail : Nat} (member : ⟨head, tail⟩ ∈ arcs) : g.ReachedFrom roots tail ∧
      ∃ around, g.Loop tail around ∧ Simple around := by
  obtain ⟨reached, around, ⟨way, _⟩, simple⟩ := cuts.closes ⟨head, tail⟩ member
  cases way with
  | cons edge rest =>
    refine ⟨reached.extend edge, around ++ [⟨head, tail⟩], ⟨rest.snoc edge, by simp⟩, ?_⟩
    rw [Simple, List.map_append]
    exact (List.perm_append_singleton head (around.map Arc.head)).nodup_iff.2 simple

end Graph

/-! ### Control flows -/

namespace ControlFlow

variable {flow other : ControlFlow} {location head tail : Location}

/-- What a control flow grows by. -/
inductive Addition where
  | location (location : Location)
  | entry (location : Location)
  | transition (head : Location) (operation : Nat) (tail : Location)

def add (flow : ControlFlow) : Addition → Except Error ControlFlow
  | .location location => flow.addLocation location
  | .entry location => flow.addEntry location
  | .transition head operation tail => flow.addTransition head operation tail

/-- The tables of the graph agree, execution starts at locations, and the loop heads are up to
date. -/
structure Headed (flow : ControlFlow) : Prop where
  closed : flow.Closed
  heads : flow.graph.loopHeads flow.entries.toList = .ok flow.loopHeads

theorem headed_empty : empty.Headed where
  closed := Built.empty.closed
  heads := rfl

theorem Closed.exists_loopHeads (closed : flow.Closed) :
    ∃ arcs heads, flow.graph.loopHeads flow.entries.toList = .ok heads ∧
      flow.graph.CutsLoops flow.entries.toList arcs ∧
      ∀ l, l ∈ heads ↔ ∃ arc ∈ arcs, arc.tail = l := by
  obtain ⟨arcs, found, cuts⟩ := Graph.exists_backEdges closed.graph closed.entries
  refine ⟨arcs, .ofList (arcs.toList.map Arc.tail), by rw [Graph.loopHeads, found]; rfl, cuts, ?_⟩
  intro l
  rw [SortedSet.mem_ofList, List.mem_map]
  rfl

/-- Only the entries and the edges count. -/
theorem loopHeads_congr (left : flow.Closed) (right : other.Closed)
    (entries : flow.entries = other.entries)
    (edges : ∀ head tail, flow.graph.hasEdge head tail = other.graph.hasEdge head tail) :
    flow.graph.loopHeads flow.entries.toList = other.graph.loopHeads other.entries.toList := by
  have roots : ∀ root ∈ flow.entries.toList,
      flow.graph.hasVertex root = true ∧ other.graph.hasVertex root = true := fun root member =>
    ⟨left.entries root member, right.entries root (entries ▸ member)⟩
  rw [Graph.loopHeads, Graph.loopHeads,
    Graph.backEdges_congr left.graph right.graph edges roots, entries]

theorem Closed.exists_updateLoopHeads (closed : flow.Closed) :
    ∃ next, flow.updateLoopHeads = .ok next ∧ next.Headed ∧ next.entries = flow.entries ∧
      next.graph = flow.graph := by
  obtain ⟨_, heads, found, _⟩ := closed.exists_loopHeads
  refine ⟨{ flow with loopHeads := heads }, ?_, ⟨⟨closed.graph, closed.entries⟩, found⟩, rfl, rfl⟩
  rw [ControlFlow.updateLoopHeads, found]
  rfl

/-! ### Additions -/

theorem Closed.exists_addLocation (closed : flow.Closed) (location : Location) :
    ∃ next, flow.addLocation location = .ok next ∧ next.entries = flow.entries ∧
      next.loopHeads = flow.loopHeads ∧
      (∀ l, flow.hasLocation l = true → next.hasLocation l = true) ∧
      ∀ head tail, next.graph.hasEdge head tail = flow.graph.hasEdge head tail := by
  unfold ControlFlow.addLocation
  split
  · exact ⟨flow, rfl, rfl, rfl, fun _ => id, fun _ _ => rfl⟩
  · rename_i fresh
    obtain ⟨graph, inserted⟩ := Graph.exists_insertVertex () fresh
    obtain ⟨_, vertices, edges⟩ := closed.graph.insertVertex inserted
    rw [inserted]
    refine ⟨{ flow with graph := graph }, rfl, rfl, rfl, fun l present => ?_, edges⟩
    rw [hasLocation] at present
    rw [hasLocation, vertices, present, Bool.or_true]

/-- A location on its own has no edges, so the loop heads stay. -/
theorem Headed.exists_addLocation (headed : flow.Headed) (location : Location) :
    ∃ next, flow.addLocation location = .ok next ∧ next.Headed ∧ next.entries = flow.entries ∧
      ∀ head tail, next.graph.hasEdge head tail = flow.graph.hasEdge head tail := by
  obtain ⟨next, added, entries, heads, _, edges⟩ := headed.closed.exists_addLocation location
  have closed := (headed.closed.addLocation added).1
  refine ⟨next, added, ⟨closed, ?_⟩, entries, edges⟩
  rw [loopHeads_congr closed headed.closed entries edges, headed.heads, heads]

theorem Headed.exists_addEntry (headed : flow.Headed) (location : Location) :
    ∃ next, flow.addEntry location = .ok next ∧ next.Headed ∧
      next.entries = flow.entries.insert location ∧
      ∀ head tail, next.graph.hasEdge head tail = flow.graph.hasEdge head tail := by
  obtain ⟨middle, added, entries, _, _, edges⟩ := headed.closed.exists_addLocation location
  obtain ⟨closed, present⟩ := headed.closed.addLocation added
  obtain ⟨next, updated, headed, same, graph⟩ :=
    (closed.insertEntry present).exists_updateLoopHeads
  refine ⟨next, bind_eq_ok_iff.2 ⟨middle, added, updated⟩, headed, ?_, fun head tail => ?_⟩
  · rw [same, entries]
  · rw [graph]
    exact edges head tail

theorem Headed.exists_addTransition (headed : flow.Headed) (head : Location) (operation : Nat)
    (tail : Location) :
    ∃ next, flow.addTransition head operation tail = .ok next ∧ next.Headed ∧
      next.entries = flow.entries ∧
      ∀ h t, next.graph.hasEdge h t = true ↔
        (h = head ∧ t = tail) ∨ flow.graph.hasEdge h t = true := by
  obtain ⟨first, headAdded, firstEntries, _, _, firstEdges⟩ :=
    headed.closed.exists_addLocation head
  obtain ⟨between, headPresent⟩ := headed.closed.addLocation headAdded
  obtain ⟨second, tailAdded, entries, _, kept, secondEdges⟩ := between.exists_addLocation tail
  obtain ⟨closed, tailPresent⟩ := between.addLocation tailAdded
  have entries := entries.trans firstEntries
  have edges : ∀ h t, second.graph.hasEdge h t = flow.graph.hasEdge h t := fun h t =>
    (secondEdges h t).trans (firstEdges h t)
  obtain ⟨graph, changed, consistent, vertices, grown⟩ := closed.graph.exists_connect
    (fun operations =>
      if operations.contains operation then operations else operations ++ [operation])
    [operation] (kept head headPresent) tailPresent
  have connected : ControlFlow.Closed { second with graph } :=
    ⟨consistent, fun entry member => (vertices entry).trans (closed.entries entry member)⟩
  obtain ⟨next, updated, headed, sameEntries, sameGraph⟩ := connected.exists_updateLoopHeads
  refine ⟨next, ?_, headed, sameEntries.trans entries, fun h t => ?_⟩
  · refine bind_eq_ok_iff.2 ⟨first, headAdded, bind_eq_ok_iff.2 ⟨second, tailAdded, ?_⟩⟩
    dsimp only
    split at changed
    · rename_i present
      rw [if_pos present]
      exact bind_eq_ok_iff.2 ⟨graph, changed, updated⟩
    · rename_i absent
      rw [if_neg absent]
      exact bind_eq_ok_iff.2 ⟨graph, changed, updated⟩
  · rw [sameGraph, grown, edges]

/-- An addition never fails. It makes one location an entry, or adds one edge, or none of this. -/
theorem Headed.exists_add (headed : flow.Headed) (addition : Addition) :
    ∃ next, flow.add addition = .ok next ∧ next.Headed ∧
      (∀ l, l ∈ next.entries ↔ addition = .entry l ∨ l ∈ flow.entries) ∧
      ∀ head tail, next.graph.hasEdge head tail = true ↔
        (∃ operation, addition = .transition head operation tail) ∨
          flow.graph.hasEdge head tail = true := by
  cases addition with
  | location location =>
    obtain ⟨next, added, headed, entries, edges⟩ := headed.exists_addLocation location
    refine ⟨next, added, headed, fun l => ?_, fun head tail => ?_⟩
    · simp [entries]
    · simp [edges]
  | entry location =>
    obtain ⟨next, added, headed, entries, edges⟩ := headed.exists_addEntry location
    refine ⟨next, added, headed, fun l => ?_, fun head tail => ?_⟩
    · simp [entries, eq_comm]
    · simp [edges]
  | transition head operation tail =>
    obtain ⟨next, added, headed, entries, edges⟩ := headed.exists_addTransition head operation tail
    refine ⟨next, added, headed, fun l => ?_, fun h t => ?_⟩
    · simp [entries]
    · rw [edges]
      refine or_congr_left ⟨?_, ?_⟩
      · rintro ⟨rfl, rfl⟩
        exact ⟨operation, rfl⟩
      · rintro ⟨_, same⟩
        cases same
        exact ⟨rfl, rfl⟩

/-- Any additions can be made one after the other. -/
theorem Headed.exists_foldlM (headed : flow.Headed) (additions : List Addition) :
    ∃ last, additions.foldlM add flow = .ok last ∧ last.Headed ∧
      (∀ l, l ∈ last.entries ↔ .entry l ∈ additions ∨ l ∈ flow.entries) ∧
      ∀ head tail, last.graph.hasEdge head tail = true ↔
        (∃ operation, .transition head operation tail ∈ additions) ∨
          flow.graph.hasEdge head tail = true := by
  induction additions generalizing flow with
  | nil => exact ⟨flow, rfl, headed, by simp, by simp⟩
  | cons addition rest ih =>
    obtain ⟨next, added, between, entries, edges⟩ := headed.exists_add addition
    obtain ⟨last, later, headed, lastEntries, lastEdges⟩ := ih between
    refine ⟨last, bind_eq_ok_iff.2 ⟨next, added, later⟩, headed, fun l => ?_, fun head tail => ?_⟩
    · rw [lastEntries, entries, List.mem_cons, or_assoc.symm, or_comm (a := _ ∈ rest), eq_comm]
    · rw [lastEdges, edges]
      simp only [List.mem_cons, exists_or, eq_comm]
      exact or_left_comm.trans or_assoc.symm

/-! ### Loops -/

/-- The loop heads lie on loops, and every loop has one of them, where loops count that can be
reached from an entry. -/
structure HeadsCutLoops (flow : ControlFlow) : Prop where
  cuts : ∀ location around, flow.graph.ReachedFrom flow.entries.toList location →
    flow.graph.Loop location around → ∃ arc ∈ around, flow.isLoopHead arc.tail = true
  lies : ∀ location, flow.isLoopHead location = true →
    flow.graph.ReachedFrom flow.entries.toList location ∧
      ∃ around, flow.graph.Loop location around ∧ Graph.Simple around

theorem Headed.headsCutLoops (headed : flow.Headed) : flow.HeadsCutLoops := by
  obtain ⟨arcs, heads, found, cuts, members⟩ := headed.closed.exists_loopHeads
  obtain rfl := Except.ok.inj (found.symm.trans headed.heads)
  constructor
  · intro location around reached loop
    obtain ⟨arc, inside, member⟩ := cuts.cuts location around reached loop
    exact ⟨arc, inside, SortedSet.contains_iff.2 ((members _).2 ⟨arc, member, rfl⟩)⟩
  · intro location head
    obtain ⟨arc, member, rfl⟩ := (members location).1 (SortedSet.contains_iff.1 head)
    exact cuts.tail member

theorem Headed.loopHeads_congr (headed : flow.Headed) (also : other.Headed)
    (entries : flow.entries = other.entries)
    (edges : ∀ head tail, flow.graph.hasEdge head tail = other.graph.hasEdge head tail) :
    flow.loopHeads = other.loopHeads := by
  have same := ControlFlow.loopHeads_congr headed.closed also.closed entries edges
  rw [headed.heads, also.heads] at same
  exact Except.ok.inj same

/-- In every graph the back edges from any roots cut the loops that can be reached. So whatever is
added to a control flow, in any order, no addition fails and its loop heads cut the loops that
execution can come to; and control flows with the same entries and edges have the same ones. -/
theorem loopHeads_cut_loops :
    (∀ {ν ε : Type} (g : Graph ν ε) (roots : List Nat), g.Built →
      (∀ root ∈ roots, g.hasVertex root = true) →
        ∃ arcs, g.backEdges roots = .ok arcs ∧ g.CutsLoops roots arcs) ∧
      ∀ additions : List Addition, ∃ flow, additions.foldlM add .empty = .ok flow ∧
        (∀ l, l ∈ flow.entries ↔ .entry l ∈ additions) ∧
        (∀ head tail, flow.graph.hasEdge head tail = true ↔
          ∃ operation, .transition head operation tail ∈ additions) ∧
        flow.HeadsCutLoops ∧
        ∀ (others : List Addition) (other : ControlFlow), others.foldlM add .empty = .ok other →
          flow.entries = other.entries →
          (∀ head tail, flow.graph.hasEdge head tail = other.graph.hasEdge head tail) →
            flow.loopHeads = other.loopHeads := by
  refine ⟨fun g roots built vertices => Graph.exists_backEdges built.consistent vertices, ?_⟩
  intro additions
  obtain ⟨flow, added, headed, entries, edges⟩ := headed_empty.exists_foldlM additions
  refine ⟨flow, added, fun l => ?_, fun head tail => ?_, headed.headsCutLoops, ?_⟩
  · rw [entries]
    exact or_iff_left (SortedSet.not_mem_empty l)
  · rw [edges]
    exact or_iff_left nofun
  · intro others other otherAdded sameEntries sameEdges
    obtain ⟨last, found, also, _⟩ := headed_empty.exists_foldlM others
    obtain rfl := Except.ok.inj (found.symm.trans otherAdded)
    exact headed.loopHeads_congr also sameEntries sameEdges

/-- A vertex with an edge to itself. -/
def selfLoop : Graph Unit Unit where
  vertices := .ofList [(0, ())]
  edges := .ofList [(⟨0, 0⟩, ())]
  successors := .ofList [(0, .singleton 0)]
  predecessors := .ofList [(0, .singleton 0)]

/-- Two locations lead to each other, and each can be entered without the other one. -/
def twoWaysIn : List Addition :=
  [.entry 0, .transition 0 1 1, .transition 0 2 2, .transition 1 3 2, .transition 2 4 1]

/-- One of the two locations is a loop head, the same one whatever is added first. -/
theorem loopHeads_twoWaysIn :
    (∃ arcs, selfLoop.backEdges [0] = .ok arcs ∧ ⟨0, 0⟩ ∈ arcs) ∧
      ∃ flow other, twoWaysIn.foldlM add .empty = .ok flow ∧
        twoWaysIn.reverse.foldlM add .empty = .ok other ∧
        (flow.isLoopHead 1 = true ∨ flow.isLoopHead 2 = true) ∧
        flow.loopHeads = other.loopHeads := by
  obtain ⟨graphs, flows⟩ := loopHeads_cut_loops
  constructor
  · have built : selfLoop.Built := by
      have single : (∅ : Graph Unit Unit).insertVertex 0 () = .ok
          ⟨.ofList [(0, ())], ∅, .ofList [(0, ∅)], .ofList [(0, ∅)]⟩ := rfl
      exact .edge (.vertex .empty single) (show Graph.insertEdge _ 0 0 () = .ok selfLoop from rfl)
    obtain ⟨arcs, found, cuts⟩ := graphs selfLoop [0] built (by decide)
    refine ⟨arcs, found, ?_⟩
    obtain ⟨arc, around, member⟩ := cuts.cuts 0 [⟨0, 0⟩] ⟨0, by simp, [], .nil 0⟩
      ⟨.cons rfl (.nil 0), by simp⟩
    rwa [List.mem_singleton.1 around] at member
  · obtain ⟨flow, added, entries, edges, heads, unique⟩ := flows twoWaysIn
    obtain ⟨other, also, others, tails, _⟩ := flows twoWaysIn.reverse
    refine ⟨flow, other, added, also, ?_, unique _ other also ?_ fun head tail => ?_⟩
    · have entry : (0 : Location) ∈ flow.entries.toList := (entries 0).2 (by simp [twoWaysIn])
      have first : flow.graph.hasEdge 0 1 = true := (edges 0 1).2 ⟨1, by simp [twoWaysIn]⟩
      have there : flow.graph.hasEdge 1 2 = true := (edges 1 2).2 ⟨3, by simp [twoWaysIn]⟩
      have back : flow.graph.hasEdge 2 1 = true := (edges 2 1).2 ⟨4, by simp [twoWaysIn]⟩
      obtain ⟨arc, around, head⟩ := heads.cuts 1 [⟨1, 2⟩, ⟨2, 1⟩]
        ⟨0, entry, [⟨0, 1⟩], .cons first (.nil 1)⟩ ⟨.cons there (.cons back (.nil 1)), by simp⟩
      simp only [List.mem_cons, List.not_mem_nil, or_false] at around
      rcases around with rfl | rfl
      · exact Or.inr head
      · exact Or.inl head
    · refine SortedSet.ext_mem fun l => ?_
      rw [entries, others, List.mem_reverse]
    · refine Bool.eq_iff_iff.2 ((edges head tail).trans ?_)
      simp only [tails, List.mem_reverse]

end ControlFlow

end EventCheck
