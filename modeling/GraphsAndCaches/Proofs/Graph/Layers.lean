import GraphsAndCaches.Proofs.Graph.Progress

/-!
# The stack in layers

The frames of a search cut its stack into layers, one for each frame. The vertex of
a frame is the lowest of its layer. What lies above it in the layer was met from
there and has been left, but could not be closed, because it reaches down again:
every vertex of a layer and the vertex of its frame reach one another.

Every edge that has been followed from a layer leads to a vertex that was met. If
that vertex is still open, then it was met no earlier than the lowlink of the frame
says. And the lowlink is not too low either: it is the index of an open vertex, at
or below that of the frame, which the frame reaches. When a frame is left with its
own index for a lowlink, these two bounds meet, and no edge leaves the layer except
to closed vertices.

Since each frame was entered along an edge from the one before, every vertex on the
stack reaches the vertex of the top frame.
-/

namespace GraphsAndCaches

universe u
variable {α : Type u}

namespace Progress

/-- The state of the target of an edge that has been followed: it was met, and, if it
is still open, no earlier than `bound`. -/
def Followed (progress : Progress) (bound : Nat) (target : VertexId) : Prop :=
  progress.Met target ∧ (progress.Open target → bound ≤ progress.index target)

theorem Followed.weaken {progress : Progress} {bound lower : Nat} {target : VertexId}
    (followed : progress.Followed bound target) (le : lower ≤ bound) :
    progress.Followed lower target :=
  ⟨followed.1, fun isOpen => Nat.le_trans le (followed.2 isOpen)⟩

/-- A change that leaves the marks on a stack alone, and opens nothing that was met. -/
structure Keeps (before after : Progress) (stack : List VertexId) : Prop where
  index : ∀ vertex ∈ stack, after.index vertex = before.index vertex
  lowlink : ∀ vertex ∈ stack, after.lowlink vertex = before.lowlink vertex
  followed : ∀ bound target, before.Followed bound target → after.Followed bound target

/-- What was followed before a lowlink is lowered was followed. -/
theorem Followed.lower {progress : Progress} {bound : Nat} {target : VertexId}
    (followed : progress.Followed bound target) (vertex : VertexId) (low : Nat) :
    (progress.lower vertex low).Followed bound target := by
  simpa only [Followed, met_lower, open_lower, index_lower] using followed

/-- Lowering a lowlink leaves a stack alone that is without its vertex, or when the
lowlink is no greater than the bound. -/
theorem keeps_lower {progress : Progress} {vertex : VertexId} {bound : Nat}
    {stack : List VertexId}
    (unchanged : vertex ∈ stack → progress.lowlink vertex ≤ bound) :
    progress.Keeps (progress.lower vertex bound) stack := by
  refine ⟨fun other _ => index_lower other, ?_, fun low target followed => followed.lower _ _⟩
  intro other member
  rw [lowlink_lower]
  split
  · next same =>
      subst same
      exact Nat.min_eq_left (unchanged member)
  · rfl

/-- Closing a component leaves the rest of the stack alone. -/
theorem keeps_close {progress : Progress} {graph : Graph α} {root : VertexId}
    {above below : List VertexId} (stacked : progress.stack = above ++ root :: below)
    (absent : root ∉ above) : progress.Keeps (progress.close graph root) below := by
  refine ⟨?_, ?_, ?_⟩
  · exact fun other _ => index_close stacked absent other
  · exact fun other _ => lowlink_close stacked absent other
  · intro bound other followed
    refine ⟨(met_close stacked absent).mpr followed.1, fun isOpen => ?_⟩
    rw [index_close stacked absent]
    exact followed.2 ((open_close stacked absent).mp isOpen).1

theorem Keeps.subset {before after : Progress} {stack part : List VertexId}
    (keeps : Keeps before after stack) (subset : part ⊆ stack) : Keeps before after part where
  index vertex member := keeps.index vertex (subset member)
  lowlink vertex member := keeps.lowlink vertex (subset member)
  followed := keeps.followed

end Progress

namespace Search

/-- The last edge that the first of the frames has followed leads to the vertex. -/
def EnteredFrom (graph : Graph α) (frames : List Frame) (vertex : VertexId) : Prop :=
  ∀ parent ∈ frames.head?, ∃ position,
    parent.next = position + 1 ∧ graph.target? parent.vertex position = some vertex

/-- What holds of a frame and the vertices above and below its own on the stack. -/
structure Layer (graph : Graph α) (progress : Progress) (frame : Frame)
    (above below : List VertexId) : Prop where
  together : ∀ vertex ∈ above, graph.Mutual frame.vertex vertex
  followedAbove : ∀ vertex ∈ above, ∀ target, graph.Edge vertex target →
    progress.Followed (progress.lowlink frame.vertex) target
  followed : ∀ position target, position < frame.next →
    graph.target? frame.vertex position = some target →
    progress.Followed (progress.lowlink frame.vertex) target
  attained : ∃ vertex ∈ frame.vertex :: below,
    progress.index vertex = progress.lowlink frame.vertex ∧
      graph.Reaches frame.vertex vertex

/-- The frames cut the stack into layers. -/
inductive Layers (graph : Graph α) (progress : Progress) :
    List Frame → List VertexId → Prop where
  | empty : Layers graph progress [] []
  | push {frame : Frame} {frames : List Frame} {above below : List VertexId}
      (rest : Layers graph progress frames below)
      (layer : Layer graph progress frame above below)
      (entered : EnteredFrom graph frames frame.vertex) :
      Layers graph progress (frame :: frames) (above ++ frame.vertex :: below)

/-- A vertex is entered along an edge. -/
theorem EnteredFrom.edge {graph : Graph α} {parent : Frame} {frames : List Frame}
    {vertex : VertexId} (entered : EnteredFrom graph (parent :: frames) vertex) :
    graph.Edge parent.vertex vertex := by
  obtain ⟨position, _, found⟩ := entered parent rfl
  exact Graph.edge_of_target? found

/-- Once a frame has no more edges to follow, every edge of its layer was followed. -/
theorem Layer.followed_edge {graph : Graph α} {progress : Progress} {frame : Frame}
    {above below : List VertexId} (layer : Layer graph progress frame above below)
    (exhausted : graph.target? frame.vertex frame.next = none) {source target : VertexId}
    (member : source ∈ above ++ [frame.vertex]) (edge : graph.Edge source target) :
    progress.Followed (progress.lowlink frame.vertex) target := by
  rcases List.mem_append.mp member with upper | last
  · exact layer.followedAbove source upper target edge
  · rw [List.mem_singleton.mp last] at edge
    obtain ⟨position, found⟩ := edge.exists_target?
    have beyond := Graph.target?_eq_none_iff.mp exhausted
    have earlier : position < frame.next := by
      by_contra late
      have none := Graph.target?_eq_none_iff.mpr (Nat.le_trans beyond (Nat.le_of_not_lt late))
      exact nomatch found.symm.trans none
    exact layer.followed position target earlier found

/-- A layer depends on the indices at and below its frame, and on one lowlink. -/
theorem Layer.keep {graph : Graph α} {before after : Progress} {frame : Frame}
    {above below : List VertexId} (layer : Layer graph before frame above below)
    (index : ∀ vertex ∈ frame.vertex :: below, after.index vertex = before.index vertex)
    (lowlink : after.lowlink frame.vertex = before.lowlink frame.vertex)
    (followed : ∀ bound target, before.Followed bound target → after.Followed bound target) :
    Layer graph after frame above below := by
  refine ⟨layer.together, ?_, ?_, ?_⟩
  · intro vertex member target edge
    rw [lowlink]
    exact followed _ _ (layer.followedAbove vertex member target edge)
  · intro position target earlier found
    rw [lowlink]
    exact followed _ _ (layer.followed position target earlier found)
  · obtain ⟨vertex, member, attained, reached⟩ := layer.attained
    refine ⟨vertex, member, ?_, reached⟩
    rw [lowlink, index vertex member, attained]

namespace Layers

variable {graph : Graph α} {progress : Progress}

/-- Layers are a matter of the marks on their own stack. -/
theorem keep {before after : Progress} {frames : List Frame} {stack : List VertexId}
    (layers : Layers graph before frames stack) (keeps : before.Keeps after stack) :
    Layers graph after frames stack := by
  induction layers with
  | empty => exact .empty
  | @push frame frames above below rest layer entered inductionHypothesis =>
      have lower : frame.vertex :: below ⊆ above ++ frame.vertex :: below :=
        List.subset_append_right above _
      have lowest : below ⊆ above ++ frame.vertex :: below :=
        fun _ member => lower (List.mem_cons_of_mem _ member)
      refine .push (inductionHypothesis (keeps.subset lowest)) (layer.keep ?_ ?_ ?_) entered
      · exact (keeps.subset lower).index
      · exact keeps.lowlink frame.vertex (lower List.mem_cons_self)
      · exact keeps.followed

/-- The vertices of the frames are on the stack, in the same order. -/
theorem sublist {frames : List Frame} {stack : List VertexId}
    (layers : Layers graph progress frames stack) :
    (frames.map Frame.vertex).Sublist stack := by
  induction layers with
  | empty => exact List.Sublist.refl []
  | @push frame frames above below rest layer entered inductionHypothesis =>
      exact (inductionHypothesis.cons_cons frame.vertex).trans
        (List.sublist_append_right above _)

/-- The edges of a vertex on the stack that has no frame were all followed. -/
theorem met_of_edge {frames : List Frame} {stack : List VertexId}
    (layers : Layers graph progress frames stack) {source target : VertexId}
    (member : source ∈ stack) (noFrame : source ∉ frames.map Frame.vertex)
    (edge : graph.Edge source target) : progress.Met target := by
  induction layers with
  | empty => exact absurd member List.not_mem_nil
  | @push frame frames above below rest layer entered inductionHypothesis =>
      rw [List.map_cons, List.mem_cons, not_or] at noFrame
      rcases List.mem_append.mp member with upper | lower
      · exact (layer.followedAbove source upper target edge).1
      · exact inductionHypothesis ((List.mem_cons.mp lower).resolve_left noFrame.1) noFrame.2

/-- Every vertex on the stack reaches the vertex of the top frame.

Within the top layer this is part of what a layer is. Below it the vertex reaches
the next frame, and the top frame was entered from there. -/
theorem reaches_top {frame : Frame} {frames : List Frame} {stack : List VertexId}
    (layers : Layers graph progress (frame :: frames) stack) {vertex : VertexId}
    (member : vertex ∈ stack) : graph.Reaches vertex frame.vertex := by
  induction frames generalizing frame stack with
  | nil =>
      cases layers with
      | push rest layer entered =>
          cases rest with
          | empty =>
              rcases List.mem_append.mp member with inside | last
              · exact (layer.together vertex inside).2
              · rw [List.mem_singleton.mp last]
                exact .refl graph frame.vertex
  | cons parent frames inductionHypothesis =>
      cases layers with
      | push rest layer entered =>
          rcases List.mem_append.mp member with inside | lower
          · exact (layer.together vertex inside).2
          · rcases List.mem_cons.mp lower with rfl | lowest
            · exact .refl graph frame.vertex
            · exact (inductionHypothesis rest lowest).trans (.ofEdge entered.edge)

/-- The vertex of a frame was entered from that of the next one. -/
theorem edge_of_parent {frame parent : Frame} {frames : List Frame} {stack : List VertexId}
    (layers : Layers graph progress (frame :: parent :: frames) stack) :
    graph.Edge parent.vertex frame.vertex := by
  cases layers with
  | push rest layer entered => exact entered.edge

/-- A frame may go on to its next edge once the target of the present one was met. -/
theorem advance {vertex target : VertexId} {next : Nat} {frames : List Frame}
    {stack : List VertexId}
    (layers : Layers graph progress ({ vertex, next } :: frames) stack)
    (found : graph.target? vertex next = some target)
    (followed : progress.Followed (progress.lowlink vertex) target) :
    Layers graph progress ({ vertex, next := next + 1 } :: frames) stack := by
  cases layers with
  | push rest layer entered =>
      refine .push rest ⟨layer.together, layer.followedAbove, ?_, layer.attained⟩ entered
      intro position other earlier foundThere
      rcases Nat.lt_succ_iff_lt_or_eq.mp earlier with before | rfl
      · exact layer.followed position other before foundThere
      · have same : target = other := Option.some.inj (found.symm.trans foundThere)
        exact same ▸ followed

/-- A vertex that has just been met is a layer of its own. -/
theorem enter {frames : List Frame} {stack : List VertexId} {vertex : VertexId}
    (layers : Layers graph progress frames stack)
    (attained : progress.index vertex = progress.lowlink vertex)
    (entered : EnteredFrom graph frames vertex) :
    Layers graph progress ({ vertex } :: frames) (vertex :: stack) := by
  have layer : Layer graph progress { vertex } [] stack := by
    refine ⟨?_, ?_, ?_, ?_⟩
    · exact fun other member => absurd member List.not_mem_nil
    · exact fun other member => absurd member List.not_mem_nil
    · exact fun position _ impossible => absurd impossible (Nat.not_lt_zero position)
    · exact ⟨vertex, List.mem_cons_self, attained, .refl graph vertex⟩
  exact .push layers layer entered

/-- The lowlink of the top frame may be lowered to the index of a vertex on the stack
that the frame reaches. If this changes the lowlink, that vertex lies at or below the
frame, because all vertices above it have greater indices than its own. -/
theorem lower {frame : Frame} {frames : List Frame} {stack : List VertexId}
    (layers : Layers graph progress (frame :: frames) stack)
    (sorted : stack.Pairwise fun later earlier => progress.index earlier < progress.index later)
    (bounded : progress.lowlink frame.vertex ≤ progress.index frame.vertex)
    {target : VertexId} (member : target ∈ stack)
    (reached : graph.Reaches frame.vertex target) :
    Layers graph (progress.lower frame.vertex (progress.index target)) (frame :: frames)
      stack := by
  cases layers with
  | @push _ _ above below rest layer entered =>
      obtain ⟨_, sortedBelow, across⟩ := List.pairwise_append.mp sorted
      have smaller := (List.pairwise_cons.mp sortedBelow).1
      have lowered : (progress.lower frame.vertex (progress.index target)).lowlink frame.vertex =
          min (progress.lowlink frame.vertex) (progress.index target) := by
        rw [Progress.lowlink_lower, if_pos rfl]
      have keptBelow : progress.Keeps (progress.lower frame.vertex (progress.index target))
          below :=
        Progress.keeps_lower fun member =>
          absurd (smaller frame.vertex member) (Nat.lt_irrefl _)
      refine .push (rest.keep keptBelow) ⟨layer.together, ?_, ?_, ?_⟩ entered
      · intro vertex upper other edge
        rw [lowered]
        have before := layer.followedAbove vertex upper other edge
        exact (before.weaken (Nat.min_le_left _ _)).lower _ _
      · intro position other earlier found
        rw [lowered]
        have before := layer.followed position other earlier found
        exact (before.weaken (Nat.min_le_left _ _)).lower _ _
      · rw [lowered]
        by_cases lowers : progress.index target < progress.lowlink frame.vertex
        · have lower : target ∈ frame.vertex :: below := by
            rcases List.mem_append.mp member with upper | rest
            · have above := across target upper frame.vertex List.mem_cons_self
              omega
            · exact rest
          refine ⟨target, lower, ?_, reached⟩
          rw [Progress.index_lower]
          omega
        · obtain ⟨vertex, lower, attained, path⟩ := layer.attained
          refine ⟨vertex, lower, ?_, path⟩
          rw [Progress.index_lower]
          omega

/-- A layer whose frame has no more edges to follow may become part of the next one,
when it reaches the frame of that one and its lowlink has been taken over. -/
theorem merge {frame parent : Frame} {frames : List Frame} {stack : List VertexId}
    (layers : Layers graph progress (frame :: parent :: frames) stack)
    (exhausted : graph.target? frame.vertex frame.next = none)
    (takenOver : progress.lowlink parent.vertex ≤ progress.lowlink frame.vertex)
    (back : graph.Reaches frame.vertex parent.vertex) :
    Layers graph progress (parent :: frames) stack := by
  cases layers with
  | @push _ _ above below rest layer entered =>
      cases rest with
      | @push _ _ middle lowest lowerRest parentLayer parentEntered =>
          have together : graph.Mutual parent.vertex frame.vertex := ⟨.ofEdge entered.edge, back⟩
          rw [List.append_cons, ← List.append_assoc]
          refine .push lowerRest ⟨?_, ?_, parentLayer.followed, parentLayer.attained⟩ parentEntered
          · intro vertex member
            rcases List.mem_append.mp member with upper | inMiddle
            · rcases List.mem_append.mp upper with top | last
              · exact together.trans (layer.together vertex top)
              · exact List.mem_singleton.mp last ▸ together
            · exact parentLayer.together vertex inMiddle
          · intro vertex member target edge
            rcases List.mem_append.mp member with upper | inMiddle
            · exact (layer.followed_edge exhausted upper edge).weaken takenOver
            · exact parentLayer.followedAbove vertex inMiddle target edge

end Layers

end Search

end GraphsAndCaches
