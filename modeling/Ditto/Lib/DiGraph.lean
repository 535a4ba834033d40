-- Directed graphs with attributes on their nodes and edges. A second edge
-- between two nodes takes the place of the first, and both ends of an edge are
-- nodes in every graph that can be built. A library of graphs, such as
-- networkx, is a parameter: with the behaviour that is documented, its graphs
-- hold the nodes and edges of the graphs here.
import Ditto.Lib.PyDict

structure DiGraph (κ ν ε : Type) where
  nodes : PyDict κ ν
  edges : PyDict (κ × κ) ε
  closed : ∀ e ∈ edges.keys, e.1 ∈ nodes.keys ∧ e.2 ∈ nodes.keys

namespace DiGraph

variable {κ ν ε : Type}

def empty : DiGraph κ ν ε := ⟨.empty, .empty, by simp⟩

variable [DecidableEq κ]

def add_node (g : DiGraph κ ν ε) (k : κ) (a : ν) : DiGraph κ ν ε where
  nodes := g.nodes.set k a
  edges := g.edges
  closed := by
    intro e he
    rw [PyDict.mem_keys_set, PyDict.mem_keys_set]
    exact ⟨Or.inr (g.closed e he).1, Or.inr (g.closed e he).2⟩

def add_edge (g : DiGraph κ ν ε) (e : κ × κ) (h : e.1 ∈ g.nodes.keys ∧ e.2 ∈ g.nodes.keys)
    (a : ε) : DiGraph κ ν ε where
  nodes := g.nodes
  edges := g.edges.set e a
  closed := by
    intro e' he'
    rcases PyDict.mem_keys_set.mp he' with rfl | he'
    · exact h
    · exact g.closed e' he'

/-- The edges into a node, oldest first. -/
def in_edges (g : DiGraph κ ν ε) (k : κ) : List ((κ × κ) × ε) :=
  g.edges.entries.filter fun e => e.1.2 = k

/-- New attributes for the nodes. -/
def mapNodes {ν' : Type} (f : κ → ν → ν') (g : DiGraph κ ν ε) : DiGraph κ ν' ε where
  nodes := g.nodes.mapVal f
  edges := g.edges
  closed := by simpa using g.closed

/-- New attributes for the edges. -/
def mapEdges {ε' : Type} (f : κ × κ → ε → ε') (g : DiGraph κ ν ε) : DiGraph κ ν ε' where
  nodes := g.nodes
  edges := g.edges.mapVal f
  closed := by simpa using g.closed

/-- New attributes for the edges, by a loop that can fail. -/
def mapEdgesM {ε' : Type} (f : κ × κ → ε → Except PyError ε') (g : DiGraph κ ν ε) :
    Except PyError (DiGraph κ ν ε') :=
  match h : g.edges.mapM f with
  | .ok edges => .ok ⟨g.nodes, edges, by rw [PyDict.keys_mapM h]; exact g.closed⟩
  | .error err => .error err

/-- The graph without the edges that fail a test. -/
def filterEdges (p : κ × κ → ε → Bool) (g : DiGraph κ ν ε) : DiGraph κ ν ε where
  nodes := g.nodes
  edges := g.edges.filter p
  closed := by
    intro e he
    obtain ⟨x, hx, rfl⟩ := List.mem_map.mp he
    exact g.closed x.1 (List.mem_map_of_mem (List.mem_of_mem_filter hx))

theorem mapEdgesM_spec {ε' : Type} {f : κ × κ → ε → Except PyError ε'} {g : DiGraph κ ν ε}
    {g' : DiGraph κ ν ε'} (h : g.mapEdgesM f = .ok g') :
    g'.nodes = g.nodes ∧ g.edges.mapM f = .ok g'.edges := by
  unfold mapEdgesM at h
  split at h
  · rename_i edges hedges
    cases h
    exact ⟨rfl, hedges⟩
  · cases h

theorem mapEdgesM_ok {ε' : Type} {f : κ × κ → ε → Except PyError ε'} {g : DiGraph κ ν ε}
    {edges : PyDict (κ × κ) ε'} (h : g.edges.mapM f = .ok edges) :
    ∃ g', g.mapEdgesM f = .ok g' := by
  unfold mapEdgesM
  split
  · exact ⟨_, rfl⟩
  · rename_i err herr
    rw [herr] at h
    cases h

end DiGraph

/-! ## Libraries of graphs -/

/-- What is used of a library to build a graph, and to read its attributes. -/
structure GraphLib (κ ν ε : Type) where
  Graph : Type
  new : Graph
  add_node : Graph → κ → ν → Graph
  add_edge : Graph → κ → κ → ε → Graph
  nodes : Graph → κ → Option ν
  edges : Graph → κ × κ → Option ε

namespace GraphLib

variable {κ ν ε : Type} [DecidableEq κ]

/-- What the library documents. A node or an edge that is added again has the new attributes, and
an edge between two nodes brings no node with it. -/
structure Documented (lib : GraphLib κ ν ε) : Prop where
  nodes_new : ∀ k, lib.nodes lib.new k = none
  edges_new : ∀ e, lib.edges lib.new e = none
  nodes_add_node : ∀ g k a k',
    lib.nodes (lib.add_node g k a) k' = if k' = k then some a else lib.nodes g k'
  edges_add_node : ∀ g k a e, lib.edges (lib.add_node g k a) e = lib.edges g e
  nodes_add_edge : ∀ g u v a k, lib.nodes g u ≠ none → lib.nodes g v ≠ none →
    lib.nodes (lib.add_edge g u v a) k = lib.nodes g k
  edges_add_edge : ∀ g u v a e, lib.nodes g u ≠ none → lib.nodes g v ≠ none →
    lib.edges (lib.add_edge g u v a) e = if e = (u, v) then some a else lib.edges g e

/-- The graph of the library has the nodes and the edges of `d`. -/
structure Holds (lib : GraphLib κ ν ε) (g : lib.Graph) (d : DiGraph κ ν ε) : Prop where
  nodes : ∀ k, lib.nodes g k = d.nodes.get? k
  edges : ∀ e, lib.edges g e = d.edges.get? e

/-- The graphs of this module as a library. -/
@[reducible] def values : GraphLib κ ν ε where
  Graph := DiGraph κ ν ε
  new := .empty
  add_node := DiGraph.add_node
  add_edge g u v a :=
    if h : u ∈ g.nodes.keys ∧ v ∈ g.nodes.keys then g.add_edge (u, v) h a else g
  nodes g := g.nodes.get?
  edges g := g.edges.get?

theorem documented_values : (values : GraphLib κ ν ε).Documented where
  nodes_new _ := rfl
  edges_new _ := rfl
  nodes_add_node d k a k' := by
    by_cases hk : k' = k
    · rw [if_pos hk, hk]
      exact PyDict.get?_set_self d.nodes k a
    · rw [if_neg hk]
      exact PyDict.get?_set_of_ne d.nodes a hk
  edges_add_node _ _ _ _ := rfl
  nodes_add_edge d u v a k _ _ := by
    dsimp only
    split <;> rfl
  edges_add_edge d u v a e hu hv := by
    have hin : u ∈ d.nodes.keys ∧ v ∈ d.nodes.keys := by
      constructor
      · by_contra hnot
        exact hu (PyDict.get?_eq_none_iff.mpr hnot)
      · by_contra hnot
        exact hv (PyDict.get?_eq_none_iff.mpr hnot)
    dsimp only
    rw [dif_pos hin]
    by_cases he : e = (u, v)
    · rw [if_pos he, he]
      exact PyDict.get?_set_self d.edges (u, v) a
    · rw [if_neg he]
      exact PyDict.get?_set_of_ne d.edges a he

variable {lib : GraphLib κ ν ε} {g : lib.Graph} {d : DiGraph κ ν ε}

theorem holds_new (hlib : lib.Documented) : lib.Holds lib.new .empty where
  nodes k := hlib.nodes_new k
  edges e := hlib.edges_new e

theorem Holds.add_node (h : lib.Holds g d) (hlib : lib.Documented) (k : κ) (a : ν) :
    lib.Holds (lib.add_node g k a) (d.add_node k a) where
  nodes k' := by
    rw [hlib.nodes_add_node, h.nodes]
    unfold DiGraph.add_node
    by_cases hk : k' = k
    · rw [if_pos hk, hk, PyDict.get?_set_self]
    · rw [if_neg hk, PyDict.get?_set_of_ne _ _ hk]
  edges e := by
    rw [hlib.edges_add_node, h.edges]
    rfl

theorem Holds.add_edge (h : lib.Holds g d) (hlib : lib.Documented) {u v : κ}
    (hin : u ∈ d.nodes.keys ∧ v ∈ d.nodes.keys) (a : ε) :
    lib.Holds (lib.add_edge g u v a) (values.add_edge d u v a) := by
  have hne : ∀ k ∈ d.nodes.keys, lib.nodes g k ≠ none := by
    intro k hk hnone
    rw [h.nodes, PyDict.get?_eq_none_iff] at hnone
    exact hnone hk
  have hvalues : values.add_edge d u v a = d.add_edge (u, v) hin a := dif_pos hin
  rw [hvalues]
  constructor
  · intro k
    rw [hlib.nodes_add_edge g u v a k (hne u hin.1) (hne v hin.2), h.nodes]
    rfl
  · intro e
    rw [hlib.edges_add_edge g u v a e (hne u hin.1) (hne v hin.2), h.edges]
    unfold DiGraph.add_edge
    by_cases he : e = (u, v)
    · rw [if_pos he, he, PyDict.get?_set_self]
    · rw [if_neg he, PyDict.get?_set_of_ne _ _ he]

end GraphLib
