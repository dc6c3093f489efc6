import Mathlib.Data.List.Basic

/-!
# The internal graph of the layer meta-operation

`associate` in `layer.c` builds seven nodes and five connections, and `prepare` sets node
properties and may connect one more edge. `gegl_node_connect` is not in the sources, so the graph
is built for a given reading of it; what the graph computes is a term over the nodes' operations.
-/

namespace Gegl
namespace Layer

/-- The nodes of the internal graph, by the `Priv` fields that point at them. -/
inductive Member
  | input
  | aux
  | output
  | compositeOp
  | shift
  | opacity
  | load
  deriving DecidableEq, Repr

/-- A connection: the input pad `pad` of `sink` reads the `"output"` pad of `source`. -/
structure Edge where
  sink : Member
  pad : String
  source : Member
  deriving DecidableEq, Repr

/-- Why a connection was refused. -/
inductive ConnectError
  | cycle
  | alreadyConnected
  deriving DecidableEq, Repr

/-- The internal graph: its connections and the node properties that `prepare` sets. -/
structure Internal (Buffer : Type) where
  edges : List Edge
  /-- `operation` of the composite node. -/
  compositeOperation : String
  /-- `value` of the opacity node. -/
  opacityValue : Float
  /-- `x` of the shift node. -/
  shiftX : Float
  /-- `y` of the shift node. -/
  shiftY : Float
  /-- `buffer` of the load node, a `buffer` source operation. -/
  loadBuffer : Option Buffer

/-- What a node computes, as a term over the operations of the graph. -/
inductive Image (Buffer : Type)
  /-- The layer's `input` pad. -/
  | input
  /-- The layer's `aux` pad. -/
  | aux
  /-- The output of a `buffer` source node holding this buffer (`none` is NULL). -/
  | buffer (buffer : Option Buffer)
  | opacity (value : Float) (image : Image Buffer)
  | shift (x y : Float) (image : Image Buffer)
  | composite (operation : String) (input aux : Image Buffer)
  /-- What an input pad with no connection reads. -/
  | unconnected

variable {Buffer : Type}

namespace Internal

/-- The node an input pad reads, if it is connected. -/
def sourceOf (internal : Internal Buffer) (sink : Member) (pad : String) : Option Member :=
  (internal.edges.find? fun edge => edge.sink = sink ∧ edge.pad = pad).map Edge.source

/-- Some path of connections leads from the output of `upstream` to `downstream`, within
`fuel` nodes. -/
def feeds (internal : Internal Buffer) : Nat → Member → Member → Bool
  | 0, _, _ => false
  | fuel + 1, upstream, downstream =>
    decide (upstream = downstream) ||
      internal.edges.any fun edge => decide (edge.source = upstream) &&
        internal.feeds fuel edge.sink downstream

/-- The spec's `gegl_node_connect`, not in the sources: it refuses a pad that already has a source
(`AlreadyConnectedError`) and an edge that would close a cycle (`CycleError`). -/
def connect (internal : Internal Buffer) (sink : Member) (pad : String) (source : Member) :
    Except ConnectError (Internal Buffer) :=
  if (internal.sourceOf sink pad).isSome then .error .alreadyConnected
  else if internal.feeds 7 sink source then .error .cycle
  else .ok { internal with edges := internal.edges ++ [⟨sink, pad, source⟩] }

/-- `gegl_node_connect` with its result ignored, as `layer.c` calls it. -/
def link (internal : Internal Buffer) (sink : Member) (pad : String) (source : Member) :
    Internal Buffer :=
  ((internal.connect sink pad source).toOption).getD internal

/-- The claim's reading of `gegl_node_connect`: the pad's connection, if any, is replaced by the
new one; an edge that would close a cycle is still refused. -/
def rewire (internal : Internal Buffer) (sink : Member) (pad : String) (source : Member) :
    Internal Buffer :=
  let detached := { internal with
    edges := internal.edges.filter fun edge => !decide (edge.sink = sink ∧ edge.pad = pad) }
  if detached.feeds 7 sink source then internal
  else { detached with edges := detached.edges ++ [⟨sink, pad, source⟩] }

/-- What `member` computes, following connections through at most `fuel` nodes. -/
def render (internal : Internal Buffer) : Nat → Member → Image Buffer
  | 0, _ => .unconnected
  | fuel + 1, member =>
    let read := fun pad =>
      match internal.sourceOf member pad with
      | some source => internal.render fuel source
      | none => .unconnected
    match member with
    | .input => .input
    | .aux => .aux
    | .output => read "input"
    | .compositeOp => .composite internal.compositeOperation (read "input") (read "aux")
    | .shift => .shift internal.shiftX internal.shiftY (read "input")
    | .opacity => .opacity internal.opacityValue (read "input")
    | .load => .buffer internal.loadBuffer

/-- What the graph's output proxy computes: the layer's result. Seven nodes bound every path. -/
def result (internal : Internal Buffer) : Image Buffer :=
  internal.render 7 .output

end Internal

/-- A reading of `gegl_node_connect` as `layer.c` calls it, its result ignored. -/
abbrev Connect (Buffer : Type) := Internal Buffer → Member → String → Member → Internal Buffer

/-- The reading changes the connections and nothing else of the graph. -/
def Connect.EdgesOnly (connect : Connect Buffer) : Prop :=
  ∀ graph sink pad source,
    { graph with edges := (connect graph sink pad source).edges } = connect graph sink pad source

theorem Internal.rewire_edgesOnly : Connect.EdgesOnly (Internal.rewire : Connect Buffer) := by
  intro graph sink pad source
  dsimp only [Internal.rewire]
  split <;> rfl

/-- The graph `associate` builds: the created nodes, then its five `gegl_node_connect` calls in
order. The shift and opacity nodes start from their operations' defaults. -/
def associateGraphVia (connect : Connect Buffer) (compositeOp : String) : Internal Buffer :=
  let created : Internal Buffer :=
    { edges := []
      compositeOperation := compositeOp
      opacityValue := 1.0
      shiftX := 0.0
      shiftY := 0.0
      loadBuffer := none }
  connect (connect (connect (connect (connect created .opacity "input" .load) .shift "input"
    .opacity) .compositeOp "aux" .shift) .compositeOp "input" .input) .output "input" .compositeOp

/-- The graph `associate` builds over the spec's `gegl_node_connect`. -/
def associateGraph (compositeOp : String) : Internal Buffer :=
  associateGraphVia Internal.link compositeOp

/-- The five connections of the layer's graph, all accepted. -/
def layerEdges : List Edge :=
  [⟨.opacity, "input", .load⟩, ⟨.shift, "input", .opacity⟩, ⟨.compositeOp, "aux", .shift⟩,
    ⟨.compositeOp, "input", .input⟩, ⟨.output, "input", .compositeOp⟩]

/-- The layer's connections once the opacity node reads `aux` in place of the load node. -/
def auxEdges : List Edge :=
  [⟨.shift, "input", .opacity⟩, ⟨.compositeOp, "aux", .shift⟩, ⟨.compositeOp, "input", .input⟩,
    ⟨.output, "input", .compositeOp⟩, ⟨.opacity, "input", .aux⟩]

theorem associateGraph_edges (compositeOp : String) :
    (associateGraph compositeOp : Internal Buffer).edges = layerEdges := by
  simp [associateGraph, associateGraphVia, Internal.link, Internal.connect, Internal.sourceOf,
    Internal.feeds, layerEdges, Except.toOption]

/-- Every pad `associate` connects is free at that point, so replacing builds the same graph. -/
theorem associateGraphVia_rewire (compositeOp : String) :
    (associateGraphVia Internal.rewire compositeOp : Internal Buffer) =
      associateGraph compositeOp := by
  simp [associateGraph, associateGraphVia, Internal.rewire, Internal.link, Internal.connect,
    Internal.sourceOf, Internal.feeds, Except.toOption]

@[simp]
theorem associateGraph_loadBuffer (compositeOp : String) :
    (associateGraph compositeOp : Internal Buffer).loadBuffer = none := by
  simp [associateGraph, associateGraphVia, Internal.link, Internal.connect, Internal.sourceOf,
    Internal.feeds, Except.toOption]

namespace Internal

/-- Replacing the opacity node's source by `aux`, from either set of connections. -/
theorem rewire_opacity_aux {internal : Internal Buffer}
    (edges : internal.edges = layerEdges ∨ internal.edges = auxEdges) :
    internal.rewire .opacity "input" .aux = { internal with edges := auxEdges } := by
  rcases edges with edges | edges <;> simp only [rewire, edges] <;> rfl

/-- Over the layer's five connections, the output is the composite of the layer's input with
the shifted, faded output of the load node. -/
theorem result_of_layerEdges {internal : Internal Buffer} (edges : internal.edges = layerEdges) :
    internal.result =
      .composite internal.compositeOperation .input
        (.shift internal.shiftX internal.shiftY
          (.opacity internal.opacityValue (.buffer internal.loadBuffer))) := by
  simp [result, render, sourceOf, edges, layerEdges]

/-- Once the opacity node reads `aux`, the load node no longer reaches the output. -/
theorem result_of_auxEdges {internal : Internal Buffer} (edges : internal.edges = auxEdges) :
    internal.result =
      .composite internal.compositeOperation .input
        (.shift internal.shiftX internal.shiftY (.opacity internal.opacityValue .aux)) := by
  simp [result, render, sourceOf, edges, auxEdges]

end Internal

end Layer
end Gegl
