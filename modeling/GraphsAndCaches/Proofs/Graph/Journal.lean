import GraphsAndCaches.Proofs.Graph.Roots

/-!
# The journal of a detection

A traversal writes an entry whenever it closes a component, long before it is known how many
there will be. The entry names the root, counts the members and says whether the component is
a vertex with an edge to itself; nothing else in a traversal writes. At every turn the journal
therefore tells of the components closed so far, in their order, and each entry can be read off
its component, since the root is the member that was popped last. Closed components do not
change, and so the entries agree with what the detection reports in the end. The report adds
the values of the vertices and one entry that sums up the run.
-/

namespace GraphsAndCaches

universe u
variable {α : Type u} {graph : Graph α}

/-- A diagnostic as it is displayed: its severity, its text and its measurements. -/
def Diagnostic.display (diagnostic : Diagnostic) :
    String × String × List (String × Measurement) :=
  (diagnostic.severity.label, diagnostic.message, diagnostic.measurements)

/-- The entry for a closed component, whose root is its last member. -/
def Component.announcement? (component : Component VertexId) : Option Diagnostic :=
  component.root?.map fun root => .componentClosed root component.size component.selfLoop

theorem Component.announcement?_concat (above : List VertexId) (root : VertexId)
    (selfLoop : Bool) :
    Component.announcement? { members := above ++ [root], selfLoop } =
      some (.componentClosed root (above ++ [root]).length selfLoop) := by
  rw [announcement?, root?, List.getLast?_concat, Option.map_some, size]

namespace Progress

/-- The journal has the entries of the closed components, in their order. -/
def Journaled (progress : Progress) : Prop :=
  progress.journal.toList = progress.closed.toList.filterMap Component.announcement?

variable {progress : Progress}

theorem journaled_start (size : Nat) : (start size).Journaled := rfl

theorem Journaled.discover (journaled : progress.Journaled) (vertex : VertexId) :
    (progress.discover vertex).Journaled := journaled

theorem Journaled.lower (journaled : progress.Journaled) (vertex : VertexId) (bound : Nat) :
    (progress.lower vertex bound).Journaled := journaled

/-- A component and its entry are added together. -/
theorem Journaled.close (journaled : progress.Journaled) {root : VertexId}
    {above below : List VertexId} (stacked : progress.stack = above ++ root :: below)
    (absent : root ∉ above) : (progress.close graph root).Journaled := by
  rw [Journaled, close_eq stacked absent, Array.toList_push, Array.toList_push,
    List.filterMap_append, List.filterMap_cons_some (Component.announcement?_concat ..),
    List.filterMap_nil, journaled]

theorem Journaled.handOver (journaled : progress.Journaled) (frames : List Frame) (bound : Nat) :
    (progress.handOver frames bound).Journaled := by
  cases frames with
  | nil => exact journaled
  | cons parent frames => exact journaled.lower parent.vertex bound

end Progress

/-- Every turn adds as many entries as it closes components. -/
theorem Search.Turn.journaled {before after : Search} (turn : Turn graph before after)
    (coherent : Coherent graph before) (journaled : before.progress.Journaled) :
    after.progress.Journaled := by
  cases turn with
  | @descend progress frames vertex target next found fresh => exact journaled.discover target
  | @bound progress frames vertex target next found isOpen => exact journaled.lower vertex _
  | skip found met isClosed => exact journaled
  | @leave progress frames vertex next exhausted =>
      apply Progress.Journaled.handOver
      rw [Progress.finish]
      split
      · obtain ⟨above, below, stacked, absent⟩ := coherent.stack_split List.mem_cons_self
        exact journaled.close stacked absent
      · exact journaled

namespace Graph

theorem journaled_traverse (wellFormed : graph.WellFormed) : graph.traverse.Journaled := by
  have turn : ∀ before after : Search, Search.Coherent graph before →
      Search.Turn graph before after →
        before.progress.Journaled → after.progress.Journaled :=
    fun before after coherent turn journaled => turn.journaled coherent journaled
  exact traverse_invariant wellFormed turn
    (fun root inside progress coherent fresh journaled => journaled.discover root)
    (Progress.journaled_start graph.size)

/-! ## Roots -/

/-- The vertices that were popped last of their components, in the order of the report. -/
def roots (graph : Graph α) : List VertexId := graph.popped.filterMap List.getLast?

/-- Every popped list has a root, since none is empty. -/
theorem map_some_roots (wellFormed : graph.WellFormed) :
    graph.roots.map some = graph.popped.map List.getLast? := by
  have nonempty : ∀ members ∈ graph.popped, members ≠ [] :=
    fun members listed => ne_nil_of_mem_popped wellFormed listed
  rw [roots]
  generalize graph.popped = lists at nonempty ⊢
  induction lists with
  | nil => rfl
  | cons members rest inductionHypothesis =>
      obtain ⟨root, last⟩ := Option.isSome_iff_exists.mp
        (List.getLast?_isSome.mpr (nonempty members List.mem_cons_self))
      rw [List.filterMap_cons_some last, List.map_cons, List.map_cons, last,
        inductionHypothesis fun other member => nonempty other (List.mem_cons_of_mem _ member)]

theorem length_roots (wellFormed : graph.WellFormed) :
    graph.roots.length = graph.detect.components.size := by
  have counted := congrArg List.length (map_some_roots wellFormed)
  have reported := congrArg List.length (members_detect wellFormed)
  simp only [List.length_map] at counted reported
  rw [counted, ← reported, Components.size]

/-- The root at a position is the last of the vertices that were popped there. -/
theorem getElem?_roots (wellFormed : graph.WellFormed) {position : Nat} {root : VertexId}
    (found : graph.roots[position]? = some root) :
    ∃ members, graph.popped[position]? = some members ∧ members.getLast? = some root := by
  have paired := congrArg (·[position]?) (map_some_roots wellFormed)
  rw [List.getElem?_map, List.getElem?_map, found, Option.map_some] at paired
  exact Option.map_eq_some_iff.mp paired.symm

/-- A root belongs to its own component and to no other. -/
theorem nodup_roots (wellFormed : graph.WellFormed) : graph.roots.Nodup := by
  have reported : ∀ position root, graph.roots[position]? = some root →
      graph.ReportedAt position root := by
    intro position root found
    obtain ⟨members, listed, last⟩ := getElem?_roots wellFormed found
    exact ⟨members, listed, List.mem_of_getLast? last⟩
  rw [List.nodup_iff_getElem?_ne_getElem?]
  intro earlier later before inside same
  have found : graph.roots[later]? = some graph.roots[later] := List.getElem?_eq_getElem inside
  have twice := (reported earlier _ (same.trans found)).unique wellFormed (reported later _ found)
  omega

/-! ## The report -/

/-- Values take the place of the members one by one. -/
theorem size_valuesOf {component : Component VertexId}
    (inside : ∀ vertex ∈ component.members, vertex < graph.size) :
    (graph.valuesOf component).size = component.size := by
  have lengths := congrArg List.length (map_some_valuesOf component inside)
  simpa only [List.length_map, Component.size] using lengths

/-- The sizes of the reported components are those of the popped lists, which hold every vertex
once. -/
theorem sum_sizes (wellFormed : graph.WellFormed) :
    (graph.detect.components.toList.map Component.size).sum = graph.size := by
  have lengths := congrArg (List.map List.length) (members_detect wellFormed)
  simp only [List.map_map, Function.comp_def, List.length_map] at lengths
  calc (graph.detect.components.toList.map Component.size).sum
      = (graph.popped.map List.length).sum := congrArg List.sum lengths
    _ = graph.popped.flatten.length := List.length_flatten.symm
    _ = graph.vertexIds.length := (popped_perm wellFormed).length_eq
    _ = graph.size := List.length_range

/-- Entry by entry, what was journaled of the closed components agrees with the roots and with
the components that are reported in their place. -/
theorem journal_traverse_eq (wellFormed : graph.WellFormed) :
    graph.traverse.journal.toList =
      List.zipWith (fun root component =>
          Diagnostic.componentClosed root component.size component.selfLoop)
        graph.roots graph.detect.components.toList := by
  have reported : graph.detect.components.toList =
      graph.traverse.closed.toList.map graph.valuesOf := rfl
  have nonempty : ∀ component ∈ graph.traverse.closed.toList, component.members ≠ [] :=
    (traverse_complete wellFormed).1.settled.nonempty
  have inside : ∀ component ∈ graph.traverse.closed.toList, ∀ vertex ∈ component.members,
      vertex < graph.size :=
    fun component closed vertex => lt_size_of_mem_popped wellFormed (List.mem_map_of_mem closed)
  rw [journaled_traverse wellFormed, reported, roots, popped]
  generalize graph.traverse.closed.toList = closed at nonempty inside ⊢
  induction closed with
  | nil => rfl
  | cons component rest inductionHypothesis =>
      obtain ⟨root, last⟩ := Option.isSome_iff_exists.mp
        (List.getLast?_isSome.mpr (nonempty component List.mem_cons_self))
      have announced : component.announcement? =
          some (.componentClosed root component.size component.selfLoop) := by
        rw [Component.announcement?, Component.root?, last, Option.map_some]
      rw [List.filterMap_cons_some announced, List.map_cons, List.map_cons,
        List.filterMap_cons_some last, List.zipWith_cons_cons,
        size_valuesOf (inside component List.mem_cons_self),
        inductionHypothesis (fun other member => nonempty other (List.mem_cons_of_mem _ member))
          fun other member => inside other (List.mem_cons_of_mem _ member)]
      rfl

/-- The journal of a detection. It displays one trace for each reported component, in the order
of the report, with the root, the size and the mark of the component, and in the end one summary
with the numbers of vertices, of components and of components with two or more members. The
root is the vertex behind the last member of the component, the only one of its vertices whose
lowlink is its index. The sizes add up to the number of vertices, and no root occurs twice. -/
theorem detect_journal (built : graph.Built) :
    graph.detect.journal.toList.map Diagnostic.display =
        List.zipWith (fun root component =>
            ("TRACE", "component closed",
              [("root", .count root), ("size", .count component.members.length),
                ("self_loop", .flag component.selfLoop)]))
          graph.roots graph.detect.components.toList ++
        [("DEBUG", "strongly connected components resolved",
          [("vertices", .count graph.size),
            ("components", .count graph.detect.components.toList.length),
            ("cycles", .count (graph.detect.components.toList.countP fun component =>
              decide (2 ≤ component.members.length)))])] ∧
      graph.roots.length = graph.detect.components.toList.length ∧
      (∀ (position : Nat) (root : VertexId) (component : Component α),
        graph.roots[position]? = some root →
        graph.detect.components.toList[position]? = some component →
          ∃ members, graph.popped[position]? = some members ∧
            component.members.map some = members.map graph.value? ∧
            members.getLast? = some root ∧ component.root? = graph.value? root ∧
            ∀ vertex ∈ members,
              graph.detect.graph.lowlink? vertex = graph.detect.graph.index? vertex ↔
                vertex = root) ∧
      (graph.detect.components.toList.map fun component => component.members.length).sum =
        graph.size ∧
      graph.roots.Nodup := by
  have wellFormed : graph.WellFormed := built.wellFormed
  refine ⟨?displayed, length_roots wellFormed, ?rooted, sum_sizes wellFormed,
    nodup_roots wellFormed⟩
  case displayed =>
    have recorded : graph.detect.journal.toList = graph.traverse.journal.toList ++
        [.componentsResolved graph.size graph.detect.components.size
          graph.detect.components.cycles.length] := Array.toList_push
    rw [recorded, journal_traverse_eq wellFormed, List.map_append, List.map_zipWith,
      List.countP_eq_length_filter]
    rfl
  case rooted =>
    intro position root component rootFound reported
    obtain ⟨members, found, last⟩ := getElem?_roots wellFormed rootFound
    have paired := component_at wellFormed position
    rw [reported, found, Option.map_some, Option.map_some, Option.some.injEq] at paired
    have listed : members ∈ graph.popped := List.mem_of_getElem? found
    refine ⟨members, found, paired, last, root?_eq paired last, fun vertex member => ?_⟩
    rw [(rooted_of_mem_popped wellFormed listed last).lowlink_eq_iff vertex member, last,
      Option.some.injEq]
    exact eq_comm

/-- The loop of the sample graph is journaled first, then the ring by its first vertex, and last
the vertex that leads into the ring. -/
theorem ringAndLoop_journal :
    ringAndLoop.Built ∧ ringAndLoop.roots = [2, 0, 3] ∧ ringAndLoop.roots.Nodup ∧
      ringAndLoop.detect.journal.toList.map Diagnostic.display =
        [("TRACE", "component closed",
            [("root", .count 2), ("size", .count 1), ("self_loop", .flag true)]),
          ("TRACE", "component closed",
            [("root", .count 0), ("size", .count 2), ("self_loop", .flag false)]),
          ("TRACE", "component closed",
            [("root", .count 3), ("size", .count 1), ("self_loop", .flag false)]),
          ("DEBUG", "strongly connected components resolved",
            [("vertices", .count 4), ("components", .count 3), ("cycles", .count 1)])] := by
  obtain ⟨displayed, _, _, _, nodup⟩ := detect_journal built_ringAndLoop
  have rooted : ringAndLoop.roots = [2, 0, 3] := by decide +kernel
  refine ⟨built_ringAndLoop, rooted, nodup, displayed.trans ?_⟩
  rw [rooted]
  decide +kernel

end Graph

end GraphsAndCaches
