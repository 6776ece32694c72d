import Copycat.Bitcoin.Requests

/-!
# Who is whose neighbor

A topology file lists pipes, pairs of nodes. `get_neighbors` reads off it the
neighbors of one node, `get_topology` those of all nodes of a machine
(`src/src/utils/parse_topo.rs`); without a file, every node is everybody's
neighbor (`fully_connected_topology`). A network is made of processes that have
each read the file for themselves, so it matters that they agree
(`getTopology_eq`) and that the neighbors they find are each other's
(`neighbors_symm`).
-/

namespace Copycat.Gossip

open Bitcoin (Topology)

/-- What a topology file lists. -/
abbrev Pipes := List (NodeId × NodeId)

/-- The body of the loop of `get_neighbors`. -/
def addNeighbor (me : NodeId) (neighbors : Finset NodeId) (pipe : NodeId × NodeId) :
    Finset NodeId :=
  if pipe.1 = me then insert pipe.2 neighbors
  else if pipe.2 = me then insert pipe.1 neighbors
  else neighbors

/-- `get_neighbors`, on the pipes read from the file. -/
def getNeighbors (me : NodeId) (pipes : Pipes) : Finset NodeId :=
  pipes.foldl (addNeighbor me) ∅

/-- The neighbors of the nodes that have an entry. -/
abbrev NeighborMap := NodeId → Option (Finset NodeId)

/-- `get_mut` of a node, and `insert` if it has an entry. -/
def NeighborMap.addTo (neighborMap : NeighborMap) (node neighbor : NodeId) : NeighborMap :=
  match neighborMap node with
  | some neighbors => Function.update neighborMap node (some (insert neighbor neighbors))
  | none => neighborMap

/-- `get_topology`, on the pipes read from the file. -/
def getTopology (localNodes : List NodeId) (pipes : Pipes) : NeighborMap :=
  let neighborMap : NeighborMap :=
    localNodes.foldl (fun m node => Function.update m node (some ∅)) fun _ => none
  pipes.foldl (fun m pipe => (m.addTo pipe.1 pipe.2).addTo pipe.2 pipe.1) neighborMap

/-- `fully_connected_topology`. -/
def fullyConnectedTopology (localNodes : List NodeId) (allNodes : Finset NodeId) : NeighborMap :=
  localNodes.foldl (fun m node => Function.update m node (some (allNodes.filter (· ≠ node))))
    fun _ => none

/-- The argument `--topology` of the cluster: none, or the pipes of the file. -/
inductive TopologyArg where
  | fullyConnected
  | file (pipes : Pipes)
deriving Repr

/-- The map that a machine of the cluster makes for the nodes it hosts. -/
def TopologyArg.neighborMap (arg : TopologyArg) (localNodes : List NodeId)
    (allNodes : Finset NodeId) : NeighborMap :=
  match arg with
  | fullyConnected => fullyConnectedTopology localNodes allNodes
  | file pipes => getTopology localNodes pipes

/-! ## What the maps say -/

theorem mem_addNeighbor {me n : NodeId} {neighbors : Finset NodeId} {pipe : NodeId × NodeId} :
    n ∈ addNeighbor me neighbors pipe ↔
      n ∈ neighbors ∨ (me, n) = pipe ∨ (n, me) = pipe := by
  obtain ⟨src, dst⟩ := pipe
  unfold addNeighbor
  simp only [Prod.mk.injEq]
  split
  · grind
  · split
    · grind
    · grind

theorem mem_foldl_addNeighbor {me n : NodeId} (pipes : Pipes) : ∀ {neighbors : Finset NodeId},
    n ∈ pipes.foldl (addNeighbor me) neighbors ↔
      n ∈ neighbors ∨ (me, n) ∈ pipes ∨ (n, me) ∈ pipes := by
  induction pipes with
  | nil => simp
  | cons pipe pipes ih =>
    intro neighbors
    rw [List.foldl_cons, ih, mem_addNeighbor, List.mem_cons, List.mem_cons]
    tauto

/-- The neighbors of a node are those it shares a pipe with. -/
theorem mem_getNeighbors {me n : NodeId} {pipes : Pipes} :
    n ∈ getNeighbors me pipes ↔ (me, n) ∈ pipes ∨ (n, me) ∈ pipes := by
  unfold getNeighbors
  rw [mem_foldl_addNeighbor]
  simp

theorem NeighborMap.addTo_apply (m : NeighborMap) (node neighbor n : NodeId) :
    m.addTo node neighbor n = if n = node then (m n).map (insert neighbor) else m n := by
  unfold addTo
  by_cases hn : n = node
  · rw [if_pos hn, hn]
    cases hnode : m node with
    | none => exact hnode
    | some neighbors => exact Function.update_self ..
  · rw [if_neg hn]
    cases hnode : m node with
    | none => rfl
    | some neighbors => exact Function.update_of_ne hn ..

/-- A pipe adds to the entry of a node what it adds to the neighbors of that
node. -/
theorem addPipe_apply (m : NeighborMap) (pipe : NodeId × NodeId) (n : NodeId) :
    (m.addTo pipe.1 pipe.2).addTo pipe.2 pipe.1 n = (m n).map fun nb => addNeighbor n nb pipe := by
  obtain ⟨src, dst⟩ := pipe
  rw [NeighborMap.addTo_apply, NeighborMap.addTo_apply]
  unfold addNeighbor
  cases m n with
  | none => simp
  | some neighbors => grind

theorem foldl_addPipe (pipes : Pipes) (n : NodeId) : ∀ (m : NeighborMap),
    pipes.foldl (fun m pipe => (m.addTo pipe.1 pipe.2).addTo pipe.2 pipe.1) m n =
      (m n).map fun nb => pipes.foldl (addNeighbor n) nb := by
  induction pipes with
  | nil => exact fun m => (Option.map_id' (x := m n)).symm
  | cons pipe pipes ih =>
    intro m
    rw [List.foldl_cons, ih, addPipe_apply, Option.map_map]
    rfl

/-- The entries that a loop over the local nodes makes. -/
theorem foldl_entries (entry : NodeId → Finset NodeId) (n : NodeId) (localNodes : List NodeId) :
    ∀ (m : NeighborMap),
      localNodes.foldl (fun m node => Function.update m node (some (entry node))) m n =
        if n ∈ localNodes then some (entry n) else m n := by
  induction localNodes with
  | nil => exact fun m => (if_neg (List.not_mem_nil)).symm
  | cons node localNodes ih =>
    intro m
    rw [List.foldl_cons, ih]
    by_cases hn : n = node
    · simp [hn]
    · simp [hn]

/-- A machine finds for its nodes what each of them would find by itself. -/
theorem getTopology_eq (localNodes : List NodeId) (pipes : Pipes) (n : NodeId) :
    getTopology localNodes pipes n =
      if n ∈ localNodes then some (getNeighbors n pipes) else none := by
  unfold getTopology
  rw [foldl_addPipe, foldl_entries]
  split
  · rfl
  · rfl

/-! ## The machines of a cluster -/

/-- The nodes of a cluster, with for each of them the node list of the machine
that hosts it. The pipes of a topology file are between nodes. -/
structure Cluster where
  nodes : Finset NodeId
  localNodes : NodeId → List NodeId
  hosted : ∀ n, n ∈ localNodes n ↔ n ∈ nodes
  topology : TopologyArg
  inside : ∀ pipes, topology = .file pipes → ∀ pipe ∈ pipes, pipe.1 ∈ nodes ∧ pipe.2 ∈ nodes

/-- What a node is started with: `topology.remove` of its id, `unwrap_or` the
empty set. -/
def Cluster.neighbors (c : Cluster) (n : NodeId) : Finset NodeId :=
  (c.topology.neighborMap (c.localNodes n) c.nodes n).getD ∅

theorem Cluster.mem_neighbors (c : Cluster) {n m : NodeId} : m ∈ c.neighbors n ↔
    match c.topology with
    | .fullyConnected => n ∈ c.nodes ∧ m ∈ c.nodes ∧ m ≠ n
    | .file pipes => (n, m) ∈ pipes ∨ (m, n) ∈ pipes := by
  unfold neighbors TopologyArg.neighborMap
  cases htop : c.topology with
  | fullyConnected =>
    dsimp only
    unfold fullyConnectedTopology
    rw [foldl_entries fun node => c.nodes.filter (· ≠ node)]
    simp only [c.hosted]
    split
    · rename_i hn
      simp [hn]
    · rename_i hn
      simp [hn]
  | file pipes =>
    dsimp only
    rw [getTopology_eq]
    simp only [c.hosted]
    split
    · exact mem_getNeighbors
    · rename_i hn
      refine iff_of_false (Finset.notMem_empty m) fun h => ?_
      rcases h with h | h
      · exact hn (c.inside pipes htop _ h).1
      · exact hn (c.inside pipes htop _ h).2

/-- Neighbors are each other's. -/
theorem Cluster.neighbors_symm (c : Cluster) {n m : NodeId} (h : m ∈ c.neighbors n) :
    n ∈ c.neighbors m := by
  rw [c.mem_neighbors] at h ⊢
  cases htop : c.topology with
  | fullyConnected =>
    rw [htop] at h
    obtain ⟨hn, hm, hne⟩ := h
    exact ⟨hm, hn, hne.symm⟩
  | file pipes =>
    rw [htop] at h
    exact h.symm

/-- The neighbors of the nodes, as all of them together see it. -/
def Cluster.net (c : Cluster) : Topology where
  nodes := c.nodes
  neighbors := c.neighbors
  inside n m hm := by
    rw [c.mem_neighbors] at hm
    cases htop : c.topology with
    | fullyConnected =>
      rw [htop] at hm
      exact hm.2.1
    | file pipes =>
      rw [htop] at hm
      rcases hm with hm | hm
      · exact (c.inside pipes htop _ hm).2
      · exact (c.inside pipes htop _ hm).1

end Copycat.Gossip
