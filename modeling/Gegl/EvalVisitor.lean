import Mathlib.Data.List.Nodup
import Mathlib.Logic.Function.Basic

/-!
# The evaluation visitor

`visit_pad` runs once per pad of a pass: at an output pad it calls `process`, at an input pad it
copies the source pad's buffer, decrements the source node's `refs` and drops the producer's
reference when the counter reaches zero. A pass is the fold of `visitPad` over a visit order.
-/

namespace Gegl
namespace EvalVisitor

/-- A pad is named by its node and its property name: GEGL makes one pad per operation
property, so a name is unique within a node. -/
structure Pad (Node Name : Type) where
  /-- `gegl_pad_get_node`. -/
  node : Node
  /-- `gegl_pad_get_name`. -/
  name : Name
  deriving DecidableEq

/-- What `visit_pad` asks of the graph. -/
structure Graph (Node Name : Type) where
  /-- `gegl_pad_is_output`; every other pad is an input pad. -/
  isOutput : Pad Node Name → Bool
  /-- `gegl_pad_get_real_connected_to`: the pad an input pad reads, through graph proxies. -/
  realConnectedTo : Pad Node Name → Option (Pad Node Name)
  /-- `g_object_get_data (source_node, "graph")`: the node is a graph proxy. -/
  isGraph : Node → Bool

/-- One `g_object_unref` of a producer reference: the input pad at whose visit it happened,
the source pad it read, and the buffer released. -/
structure Release (Node Name Buffer : Type) where
  consumer : Pad Node Name
  source : Pad Node Name
  buffer : Buffer
  deriving DecidableEq

/-- The state an evaluation pass changes. -/
structure State (Node Name Buffer : Type) where
  /-- The operations' pad properties, read and written with `g_object_get_property` and
  `g_object_set_property`; `none` is a NULL buffer. -/
  prop : Pad Node Name → Option Buffer
  /-- `node->refs`. -/
  refs : Node → Int
  /-- The producer references dropped so far, oldest first. -/
  unrefs : List (Release Node Name Buffer)
  /-- Source pads of the NULL-buffer warnings, oldest first. -/
  warnings : List (Pad Node Name)

/-- The pass's initial state: nothing released and nothing warned about yet. -/
def State.start {Node Name Buffer : Type} (prop : Pad Node Name → Option Buffer)
    (refs : Node → Int) : State Node Name Buffer :=
  ⟨prop, refs, [], []⟩

variable {Node Name Buffer : Type} [DecidableEq Node] [DecidableEq Name]

namespace Graph

variable (graph : Graph Node Name)

/-- The pad an input pad reads, or `none` at an output pad and an unconnected input pad. -/
def source? (pad : Pad Node Name) : Option (Pad Node Name) :=
  if graph.isOutput pad then none else graph.realConnectedTo pad

/-- The pad is an input pad whose source lies on `node`: its visit decrements `node->refs`. -/
def reads (node : Node) (pad : Pad Node Name) : Bool :=
  (graph.source? pad).any fun source => decide (source.node = node)

omit [DecidableEq Name] in
theorem reads_iff {node : Node} {pad : Pad Node Name} :
    graph.reads node pad = true ↔
      ∃ source, graph.source? pad = some source ∧ source.node = node := by
  unfold reads
  cases graph.source? pad <;> simp

end Graph

section Visit

variable (graph : Graph Node Name)
  (process : Node → Name → (Name → Option Buffer) → Option Buffer)

/-- `visit_pad`. `process node name props` is `gegl_operation_process` on the output pad `name`:
the buffer it leaves in that pad's property, given the node's other properties. -/
def visitPad (state : State Node Name Buffer) (pad : Pad Node Name) : State Node Name Buffer :=
  if graph.isOutput pad then
    { state with
      prop := Function.update state.prop pad
        (process pad.node pad.name fun name => state.prop ⟨pad.node, name⟩) }
  else
    match graph.realConnectedTo pad with
    | none => state
    | some source =>
      let value := state.prop source
      let refs := state.refs source.node - 1
      { prop := Function.update state.prop pad value
        refs := Function.update state.refs source.node refs
        unrefs := state.unrefs ++
          if refs = 0 then (value.map (Release.mk pad source)).toList else []
        warnings := state.warnings ++
          if value.isNone && !graph.isGraph source.node then [source] else [] }

/-- An evaluation pass: `visit_pad` on each pad of the visit order in turn. -/
def run (state : State Node Name Buffer) (visits : List (Pad Node Name)) :
    State Node Name Buffer :=
  visits.foldl (visitPad graph process) state

@[simp]
theorem run_nil (state : State Node Name Buffer) : run graph process state [] = state := rfl

@[simp]
theorem run_cons (state : State Node Name Buffer) (pad : Pad Node Name)
    (visits : List (Pad Node Name)) :
    run graph process state (pad :: visits) =
      run graph process (visitPad graph process state pad) visits := rfl

theorem run_append (state : State Node Name Buffer) (front back : List (Pad Node Name)) :
    run graph process state (front ++ back) =
      run graph process (run graph process state front) back :=
  List.foldl_append _ _ _ _

variable {graph process}

/-- A visit writes no property but the visited pad's. -/
theorem visitPad_prop_of_ne {state : State Node Name Buffer} {pad other : Pad Node Name}
    (h : other ≠ pad) : (visitPad graph process state pad).prop other = state.prop other := by
  unfold visitPad
  split
  · exact Function.update_noteq h _ _
  · split
    · rfl
    · exact Function.update_noteq h _ _

/-- A visit of an unconnected input pad changes nothing. -/
theorem visitPad_of_unconnected {state : State Node Name Buffer} {pad : Pad Node Name}
    (input : graph.isOutput pad = false) (unconnected : graph.realConnectedTo pad = none) :
    visitPad graph process state pad = state := by
  simp [visitPad, input, unconnected]

theorem visitPad_prop_output {state : State Node Name Buffer} {pad : Pad Node Name}
    (h : graph.isOutput pad = true) :
    (visitPad graph process state pad).prop pad =
      process pad.node pad.name fun name => state.prop ⟨pad.node, name⟩ := by
  simp [visitPad, h]

theorem visitPad_prop_input {state : State Node Name Buffer} {pad source : Pad Node Name}
    (h : graph.source? pad = some source) :
    (visitPad graph process state pad).prop pad = state.prop source := by
  unfold Graph.source? at h
  split at h
  · cases h
  · simp [visitPad, *]

/-- A visit decrements `refs` of the node its pad reads from, and of no other node. -/
theorem visitPad_refs (state : State Node Name Buffer) (pad : Pad Node Name) (node : Node) :
    (visitPad graph process state pad).refs node =
      state.refs node - if graph.reads node pad then 1 else 0 := by
  unfold visitPad Graph.reads Graph.source?
  split
  · simp [*]
  · split
    · simp [*]
    · rename_i source _
      by_cases hnode : source.node = node
      · subst hnode; simp [*]
      · simp [*, Function.update_noteq (Ne.symm hnode)]

/-- The release a visit makes: at an input pad, the buffer it read, when the source node's
counter reaches zero. -/
theorem visitPad_unrefs (state : State Node Name Buffer) (pad : Pad Node Name) :
    (visitPad graph process state pad).unrefs = state.unrefs ++
      match graph.source? pad with
      | some source =>
        if state.refs source.node - 1 = 0 then
          ((state.prop source).map (Release.mk pad source)).toList
        else []
      | none => [] := by
  unfold visitPad Graph.source?
  split
  · simp [*]
  · split <;> simp [*]

theorem run_prop_of_not_mem {state : State Node Name Buffer} {visits : List (Pad Node Name)}
    {pad : Pad Node Name} (h : pad ∉ visits) :
    (run graph process state visits).prop pad = state.prop pad := by
  induction visits generalizing state with
  | nil => rfl
  | cons visited visits ih =>
    simp only [List.mem_cons, not_or] at h
    rw [run_cons, ih h.2, visitPad_prop_of_ne h.1]

/-- Over a pass, `refs` of a node falls by the number of visited pads that read from it. -/
theorem run_refs (state : State Node Name Buffer) (visits : List (Pad Node Name)) (node : Node) :
    (run graph process state visits).refs node =
      state.refs node - visits.countP (graph.reads node) := by
  induction visits generalizing state with
  | nil => simp
  | cons pad visits ih =>
    rw [run_cons, ih, visitPad_refs, List.countP_cons]
    split <;> push_cast <;> omega

variable (graph process)

/-- A visit order the traversal may take: every pad at most once, each input pad after the pad
it reads, and each output pad after every connected input pad of its node. -/
structure ValidPass (visits : List (Pad Node Name)) : Prop where
  nodup : visits.Nodup
  source_before : ∀ front pad back source, visits = front ++ pad :: back →
    graph.source? pad = some source → source ∈ front
  inputs_before : ∀ front pad back input source, visits = front ++ pad :: back →
    graph.isOutput pad = true → input.node = pad.node → graph.source? input = some source →
    input ∈ front

/-- `refs` as the pass expects to find it: the number of visited pads reading from the node. -/
def RefsCounted (state : State Node Name Buffer) (visits : List (Pad Node Name)) : Prop :=
  ∀ node, state.refs node = visits.countP (graph.reads node)

variable {graph process}

theorem takeWhile_ne_of_nodup {front back : List (Pad Node Name)} {pad : Pad Node Name}
    (nodup : (front ++ pad :: back).Nodup) :
    (front ++ pad :: back).takeWhile (· != pad) = front := by
  induction front with
  | nil => simp
  | cons other front ih =>
    have ne : other ≠ pad := fun same => (List.nodup_cons.1 nodup).1 (by simp [same])
    simp [ne, ih (List.nodup_cons.1 nodup).2]

/-- Validity read off the visits before each pad. -/
theorem ValidPass.of_takeWhile {visits : List (Pad Node Name)} (nodup : visits.Nodup)
    (sources : ∀ pad ∈ visits, ∀ source, graph.source? pad = some source →
      source ∈ visits.takeWhile (· != pad))
    (inputs : ∀ pad ∈ visits, graph.isOutput pad = true → ∀ input source,
      input.node = pad.node → graph.source? input = some source →
        input ∈ visits.takeWhile (· != pad)) :
    ValidPass graph visits where
  nodup := nodup
  source_before front pad back source split reads := by
    have front_eq := takeWhile_ne_of_nodup (split ▸ nodup)
    rw [← split] at front_eq
    exact front_eq ▸ sources pad (by simp [split]) source reads
  inputs_before front pad back input source split output same reads := by
    have front_eq := takeWhile_ne_of_nodup (split ▸ nodup)
    rw [← split] at front_eq
    exact front_eq ▸ inputs pad (by simp [split]) output input source same reads

omit [DecidableEq Node] [DecidableEq Name] in
/-- The pad an input pad reads is not visited again once the input pad is. -/
theorem ValidPass.source_not_later {visits front back : List (Pad Node Name)}
    {pad source : Pad Node Name} (valid : ValidPass graph visits)
    (split : visits = front ++ pad :: back) (reads : graph.source? pad = some source) :
    source ∉ pad :: back := by
  have nodup := valid.nodup
  rw [split] at nodup
  exact List.disjoint_of_nodup_append nodup (valid.source_before _ _ _ _ split reads)

theorem RefsCounted.visitPad {state : State Node Name Buffer} {pad : Pad Node Name}
    {visits : List (Pad Node Name)} (counted : RefsCounted graph state (pad :: visits)) :
    RefsCounted graph (visitPad graph process state pad) visits := by
  intro node
  rw [visitPad_refs, counted, List.countP_cons]
  split <;> push_cast <;> omega

/-! ## Releases -/

variable (graph)

/-- The releases read off a visit order: one at each input pad after which no visited pad reads
from the same node, of the buffer its source pad holds in `final`. -/
def lastReaderReleases (final : Pad Node Name → Option Buffer) :
    List (Pad Node Name) → List (Release Node Name Buffer)
  | [] => []
  | pad :: visits =>
    (match graph.source? pad with
      | some source =>
        if visits.any (graph.reads source.node) then []
        else ((final source).map (Release.mk pad source)).toList
      | none => []) ++ lastReaderReleases final visits

variable {graph}

theorem unrefs_run_of_sources_done {state : State Node Name Buffer}
    {visits : List (Pad Node Name)} (counted : RefsCounted graph state visits)
    (sources_done : ∀ front pad back source, visits = front ++ pad :: back →
      graph.source? pad = some source → source ∉ pad :: back) :
    (run graph process state visits).unrefs =
      state.unrefs ++ lastReaderReleases graph (run graph process state visits).prop visits := by
  induction visits generalizing state with
  | nil => simp [lastReaderReleases]
  | cons pad visits ih =>
    have done_later : ∀ front pad' back source, visits = front ++ pad' :: back →
        graph.source? pad' = some source → source ∉ pad' :: back :=
      fun front _ _ _ split => sources_done (pad :: front) _ _ _ (by rw [split]; rfl)
    rw [run_cons, ih counted.visitPad done_later, visitPad_unrefs, lastReaderReleases,
      List.append_assoc]
    congr 2
    cases reads : graph.source? pad with
    | none => rfl
    | some source =>
      have not_later := sources_done [] _ _ _ rfl reads
      have final_source :
          (run graph process (visitPad graph process state pad) visits).prop source =
            state.prop source := by
        rw [run_prop_of_not_mem (fun h => not_later (List.mem_cons_of_mem _ h)),
          visitPad_prop_of_ne (fun h => not_later (by rw [h]; exact List.mem_cons_self _ _))]
      have reads_pad : graph.reads source.node pad := graph.reads_iff.2 ⟨source, reads, rfl⟩
      dsimp only
      rw [final_source, counted, List.countP_cons, if_pos reads_pad]
      by_cases later : visits.any (graph.reads source.node) = true
      · have : 0 < visits.countP (graph.reads source.node) := by
          simpa [List.countP_pos_iff] using later
        simp only [later, if_true]
        split <;> first | rfl | omega
      · have : visits.countP (graph.reads source.node) = 0 := by
          simpa [List.countP_eq_zero, List.any_eq_false] using later
        simp [later, this]

/-- The release law of a pass: `refs` is kept per node, so a buffer is released once, at the visit
of the last pad reading any output pad of its node. -/
theorem unrefs_run_eq_lastReaderReleases {state : State Node Name Buffer}
    {visits : List (Pad Node Name)} (valid : ValidPass graph visits)
    (counted : RefsCounted graph state visits) :
    (run graph process state visits).unrefs =
      state.unrefs ++ lastReaderReleases graph (run graph process state visits).prop visits :=
  unrefs_run_of_sources_done counted fun _ _ _ _ => valid.source_not_later

/-- Node 0 has the output pads `a` and `b`; node 1 reads them through its input pads `x`
and `y`. -/
def twoOutputGraph : Graph Nat String where
  isOutput pad := decide (pad.node = 0)
  realConnectedTo pad :=
    if pad = ⟨1, "x"⟩ then some ⟨0, "a"⟩ else if pad = ⟨1, "y"⟩ then some ⟨0, "b"⟩ else none
  isGraph _ := false

/-- Node 0 makes buffer 10 on `a` and buffer 20 on `b`. -/
def twoOutputProcess (_ : Nat) (name : String) (_ : String → Option Nat) : Option Nat :=
  if name = "a" then some 10 else some 20

/-- Both output pads, then both input pads. -/
def twoOutputVisits : List (Pad Nat String) := [⟨0, "a"⟩, ⟨0, "b"⟩, ⟨1, "x"⟩, ⟨1, "y"⟩]

/-- Node 0 is read by two pads, so its counter starts at 2. -/
def twoOutputStart : State Nat String Nat :=
  State.start (fun _ => none) fun node => if node = 0 then 2 else 0

theorem twoOutput_valid : ValidPass twoOutputGraph twoOutputVisits := by
  refine ValidPass.of_takeWhile (by decide) (by decide) ?_
  intro pad _ output input source same reads
  simp only [twoOutputGraph, decide_eq_true_eq] at output
  simp [Graph.source?, twoOutputGraph, same, output] at reads

theorem twoOutput_counted : RefsCounted twoOutputGraph twoOutputStart twoOutputVisits := by
  intro node
  by_cases zero : node = 0
  · subst zero
    decide
  · simp [twoOutputStart, State.start, zero, twoOutputVisits, Graph.reads, Graph.source?,
      twoOutputGraph, Ne.symm zero]

/-- Pad `a` ends the pass holding buffer 10, and its producer reference is never dropped: node
0's counter reaches zero at `y`, which reads `b`. -/
theorem twoOutput_pad_a_never_released :
    ValidPass twoOutputGraph twoOutputVisits ∧
    RefsCounted twoOutputGraph twoOutputStart twoOutputVisits ∧
    (run twoOutputGraph twoOutputProcess twoOutputStart twoOutputVisits).prop ⟨0, "a"⟩ = some 10 ∧
    ∀ release ∈ (run twoOutputGraph twoOutputProcess twoOutputStart twoOutputVisits).unrefs,
      release.source ≠ ⟨0, "a"⟩ :=
  ⟨twoOutput_valid, twoOutput_counted, by decide, by decide⟩

theorem twoOutput_unrefs :
    ValidPass twoOutputGraph twoOutputVisits ∧
    RefsCounted twoOutputGraph twoOutputStart twoOutputVisits ∧
    (run twoOutputGraph twoOutputProcess twoOutputStart twoOutputVisits).unrefs =
      twoOutputStart.unrefs ++ lastReaderReleases twoOutputGraph
        (run twoOutputGraph twoOutputProcess twoOutputStart twoOutputVisits).prop twoOutputVisits :=
  ⟨twoOutput_valid, twoOutput_counted,
    unrefs_run_eq_lastReaderReleases twoOutput_valid twoOutput_counted⟩

/-- A release records a counter that has reached zero: at the end of the pass the released
buffer's source node has `refs ≤ 0`. -/
theorem visitPad_release_refs {state : State Node Name Buffer} {pad : Pad Node Name}
    {release : Release Node Name Buffer}
    (h : release ∈ (visitPad graph process state pad).unrefs) :
    release ∈ state.unrefs ∨ (visitPad graph process state pad).refs release.source.node ≤ 0 := by
  rw [visitPad_unrefs, List.mem_append] at h
  rcases h with h | h
  · exact .inl h
  · right
    cases reads : graph.source? pad with
    | none => simp [reads] at h
    | some source =>
      simp only [reads] at h
      split at h
      · have : release.source = source := by
          cases hprop : state.prop source <;> simp_all
        rw [this, visitPad_refs, if_pos (graph.reads_iff.2 ⟨source, reads, rfl⟩)]
        omega
      · simp at h

theorem run_release_refs {state : State Node Name Buffer} {visits : List (Pad Node Name)}
    {release : Release Node Name Buffer} (h : release ∈ (run graph process state visits).unrefs) :
    release ∈ state.unrefs ∨ (run graph process state visits).refs release.source.node ≤ 0 := by
  induction visits generalizing state with
  | nil => exact .inl h
  | cons pad visits ih =>
    rcases ih h with h | h
    · rcases visitPad_release_refs h with h | h
      · exact .inl h
      · right
        rw [run_cons, run_refs]
        omega
    · exact .inr h

/-- No visit reads from a node whose counter has already released a buffer. -/
theorem no_read_after_release {state : State Node Name Buffer}
    {visits front back : List (Pad Node Name)} {pad source : Pad Node Name}
    (counted : RefsCounted graph state visits) (split : visits = front ++ pad :: back)
    (reads : graph.source? pad = some source) :
    ∀ release ∈ (run graph process state front).unrefs,
      release ∈ state.unrefs ∨ release.source.node ≠ source.node := by
  intro release mem
  refine (run_release_refs mem).imp_right fun nonpos same => ?_
  have later : 0 < (pad :: back).countP (graph.reads source.node) := by
    rw [List.countP_cons, if_pos (graph.reads_iff.2 ⟨source, reads, rfl⟩)]
    omega
  rw [same, run_refs, counted, split, List.countP_append] at nonpos
  omega

/-! ## What a pass computes -/

variable (graph process)

/-- `process` reads only the input pads of its node, as the operation interface promises. -/
def ReadsInputsOnly : Prop :=
  ∀ node name (props props' : Name → Option Buffer),
    (∀ name', graph.isOutput ⟨node, name'⟩ = false → props name' = props' name') →
      process node name props = process node name props'

/-- The dataflow equations of a pass, the recursive composition of the process functions: a
visited input pad holds its source's buffer, an output pad what `process` makes, others keep. -/
structure Composes (init final : Pad Node Name → Option Buffer) (visits : List (Pad Node Name)) :
    Prop where
  unvisited : ∀ pad, pad ∉ visits → final pad = init pad
  unconnected : ∀ pad, graph.isOutput pad = false → graph.realConnectedTo pad = none →
    final pad = init pad
  input : ∀ pad ∈ visits, ∀ source, graph.source? pad = some source → final pad = final source
  output : ∀ pad ∈ visits, graph.isOutput pad = true →
    final pad = process pad.node pad.name fun name => final ⟨pad.node, name⟩

variable {graph process}

theorem run_prop_of_unconnected {state : State Node Name Buffer} {visits : List (Pad Node Name)}
    {pad : Pad Node Name} (input : graph.isOutput pad = false)
    (unconnected : graph.realConnectedTo pad = none) :
    (run graph process state visits).prop pad = state.prop pad := by
  induction visits generalizing state with
  | nil => rfl
  | cons visited visits ih =>
    rw [run_cons, ih]
    by_cases same : pad = visited
    · rw [← same, visitPad_of_unconnected input unconnected]
    · exact visitPad_prop_of_ne same

theorem composes_run (reads_inputs : ReadsInputsOnly graph process)
    {state : State Node Name Buffer} {visits : List (Pad Node Name)}
    (valid : ValidPass graph visits) :
    Composes graph process state.prop (run graph process state visits).prop visits where
  unvisited _ := run_prop_of_not_mem
  unconnected _ := run_prop_of_unconnected
  input pad mem source reads := by
    obtain ⟨front, back, split⟩ := List.append_of_mem mem
    have not_later := valid.source_not_later split reads
    have nodup := valid.nodup
    rw [split] at nodup
    have pad_not_back : pad ∉ back := (List.nodup_cons.1 (nodup.of_append_right)).1
    rw [split, run_append, run_prop_of_not_mem not_later, run_cons,
      run_prop_of_not_mem pad_not_back, visitPad_prop_input reads]
  output pad mem output := by
    obtain ⟨front, back, split⟩ := List.append_of_mem mem
    have nodup := valid.nodup
    rw [split] at nodup
    have pad_not_back : pad ∉ back := (List.nodup_cons.1 (nodup.of_append_right)).1
    have processed : (run graph process (run graph process state front) (pad :: back)).prop pad =
        process pad.node pad.name fun name =>
          (run graph process state front).prop ⟨pad.node, name⟩ := by
      rw [run_cons, run_prop_of_not_mem pad_not_back, visitPad_prop_output output]
    rw [split, run_append, processed]
    apply reads_inputs
    intro name input
    cases connected : graph.realConnectedTo ⟨pad.node, name⟩ with
    | none => simp only [run_prop_of_unconnected input connected]
    | some source =>
      have reads : graph.source? ⟨pad.node, name⟩ = some source := by
        simp [Graph.source?, input, connected]
      have in_front := valid.inputs_before _ _ _ ⟨pad.node, name⟩ _ split output rfl reads
      rw [run_prop_of_not_mem (List.disjoint_of_nodup_append nodup in_front)]

/-- The dataflow equations have one solution on a graph that admits a valid pass. -/
theorem Composes.unique (reads_inputs : ReadsInputsOnly graph process)
    {init first second : Pad Node Name → Option Buffer} {visits : List (Pad Node Name)}
    (valid : ValidPass graph visits) (composes_first : Composes graph process init first visits)
    (composes_second : Composes graph process init second visits) : first = second := by
  have visited : ∀ n front pad back, front.length = n → visits = front ++ pad :: back →
      first pad = second pad := by
    intro n
    induction n using Nat.strong_induction_on with
    | _ n ih =>
    intro front pad back length split
    have earlier : ∀ other ∈ front, first other = second other := by
      intro other mem
      obtain ⟨front', back', split'⟩ := List.append_of_mem mem
      exact ih front'.length (by rw [← length, split']; simp) front' other (back' ++ pad :: back)
        rfl (by rw [split, split']; simp)
    have mem : pad ∈ visits := by rw [split]; simp
    cases output : graph.isOutput pad with
    | true =>
      rw [composes_first.output pad mem output, composes_second.output pad mem output]
      apply reads_inputs
      intro name input
      cases connected : graph.realConnectedTo ⟨pad.node, name⟩ with
      | none =>
        rw [composes_first.unconnected _ input connected,
          composes_second.unconnected _ input connected]
      | some source =>
        exact earlier _ (valid.inputs_before _ _ _ ⟨pad.node, name⟩ source split output rfl
          (by simp [Graph.source?, input, connected]))
    | false =>
      cases connected : graph.realConnectedTo pad with
      | none =>
        rw [composes_first.unconnected _ output connected,
          composes_second.unconnected _ output connected]
      | some source =>
        have reads : graph.source? pad = some source := by
          simp [Graph.source?, output, connected]
        rw [composes_first.input pad mem source reads, composes_second.input pad mem source reads]
        exact earlier source (valid.source_before _ _ _ _ split reads)
  funext pad
  by_cases mem : pad ∈ visits
  · obtain ⟨front, back, split⟩ := List.append_of_mem mem
    exact visited _ front pad back rfl split
  · rw [composes_first.unvisited pad mem, composes_second.unvisited pad mem]

omit [DecidableEq Node] [DecidableEq Name] in
theorem Composes.of_perm {init final : Pad Node Name → Option Buffer}
    {visits visits' : List (Pad Node Name)} (composes : Composes graph process init final visits)
    (perm : visits'.Perm visits) : Composes graph process init final visits' where
  unvisited pad mem := composes.unvisited pad (mt perm.mem_iff.2 mem)
  unconnected := composes.unconnected
  input pad mem := composes.input pad (perm.mem_iff.1 mem)
  output pad mem := composes.output pad (perm.mem_iff.1 mem)

/-- No input pad reads from a node that has already released a buffer, the pass computes the
composition of the process functions, and every valid order of the same pads computes the same. -/
theorem run_sound (reads_inputs : ReadsInputsOnly graph process)
    {state : State Node Name Buffer} {visits : List (Pad Node Name)}
    (valid : ValidPass graph visits) (counted : RefsCounted graph state visits) :
    (∀ {front pad back source}, visits = front ++ pad :: back → graph.source? pad = some source →
      ∀ release ∈ (run graph process state front).unrefs,
        release ∈ state.unrefs ∨ release.source.node ≠ source.node) ∧
    Composes graph process state.prop (run graph process state visits).prop visits ∧
    ∀ visits', ValidPass graph visits' → visits'.Perm visits →
      (run graph process state visits').prop = (run graph process state visits).prop :=
  ⟨no_read_after_release counted, composes_run reads_inputs valid,
    fun _ valid' perm => Composes.unique reads_inputs valid
      ((composes_run reads_inputs valid').of_perm perm.symm) (composes_run reads_inputs valid)⟩

end Visit

/-- Node 0's output pads `a` and `b` feed node 1's input pads `x` and `y`, and node 1 writes
their sum on its output pad `sum`. -/
def sumGraph : Graph Nat String where
  isOutput pad := decide (pad.node = 0) || decide (pad.name = "sum")
  realConnectedTo pad :=
    if pad = ⟨1, "x"⟩ then some ⟨0, "a"⟩ else if pad = ⟨1, "y"⟩ then some ⟨0, "b"⟩ else none
  isGraph _ := false

/-- Node 0 makes buffer 10 on `a` and 20 on `b`; node 1 adds the buffers on `x` and `y`. -/
def sumProcess (node : Nat) (name : String) (props : String → Option Nat) : Option Nat :=
  if node = 0 then (if name = "a" then some 10 else some 20)
  else (props "x").bind fun x => (props "y").map (x + ·)

/-- Node 0's pads, then node 1's inputs, then its output. -/
def sumVisits : List (Pad Nat String) := [⟨0, "a"⟩, ⟨0, "b"⟩, ⟨1, "x"⟩, ⟨1, "y"⟩, ⟨1, "sum"⟩]

theorem sum_readsInputsOnly : ReadsInputsOnly sumGraph sumProcess := by
  intro node name props props' agree
  unfold sumProcess
  by_cases zero : node = 0
  · simp only [if_pos zero]
  · rw [if_neg zero, if_neg zero, agree "x" (by simp [sumGraph, zero]),
      agree "y" (by simp [sumGraph, zero])]

theorem sum_valid : ValidPass sumGraph sumVisits := by
  refine ValidPass.of_takeWhile (by decide) (by decide) ?_
  intro pad mem output input source same reads
  have input_reads : input = ⟨1, "x"⟩ ∨ input = ⟨1, "y"⟩ := by
    simp only [Graph.source?, sumGraph] at reads
    split_ifs at reads <;> simp_all
  simp only [sumVisits, List.mem_cons, List.not_mem_nil, or_false] at mem
  rcases mem with rfl | rfl | rfl | rfl | rfl <;> rcases input_reads with rfl | rfl <;>
    first | decide | exact absurd same (by decide) | exact absurd output (by decide)

theorem sum_counted : RefsCounted sumGraph twoOutputStart sumVisits := by
  intro node
  by_cases zero : node = 0
  · subst zero
    decide
  · simp [twoOutputStart, State.start, zero, sumVisits, Graph.reads, Graph.source?, sumGraph,
      Ne.symm zero]

theorem sum_run_sound :
    ReadsInputsOnly sumGraph sumProcess ∧ ValidPass sumGraph sumVisits ∧
    RefsCounted sumGraph twoOutputStart sumVisits ∧
    (run sumGraph sumProcess twoOutputStart sumVisits).prop ⟨1, "sum"⟩ = some 30 ∧
    ((∀ {front pad back source}, sumVisits = front ++ pad :: back →
      sumGraph.source? pad = some source →
      ∀ release ∈ (run sumGraph sumProcess twoOutputStart front).unrefs,
        release ∈ twoOutputStart.unrefs ∨ release.source.node ≠ source.node) ∧
    Composes sumGraph sumProcess twoOutputStart.prop
      (run sumGraph sumProcess twoOutputStart sumVisits).prop sumVisits ∧
    ∀ visits', ValidPass sumGraph visits' → visits'.Perm sumVisits →
      (run sumGraph sumProcess twoOutputStart visits').prop =
        (run sumGraph sumProcess twoOutputStart sumVisits).prop) :=
  ⟨sum_readsInputsOnly, sum_valid, sum_counted, by decide,
    run_sound sum_readsInputsOnly sum_valid sum_counted⟩

end EvalVisitor
end Gegl
