import Jumpship.Lib.Regex
import Jumpship.Py.Order

/-!
# The packet graph

`expand_dependencies` and `validate_graph` on the document that `load_json_yaml` returns. `decimal` is
the value of a decimal digit of Unicode beyond ASCII, which `\d` matches and `int` reads.
-/

namespace Packets

open Py Pattern Regex

/-! ## Identifiers -/

/-- `f"P{number:02d}"`, the number below 100. -/
def packetId (number : ℕ) : Str :=
  .text (String.ofList ['P', Nat.digitChar (number / 10), Nat.digitChar (number % 10)])

/-- `EXPECTED_NODE_IDS` -/
def expectedNodeIds : List Str := (List.range 29).map packetId ++ [str "J13", str "J19"]

/-- `EXPECTED_JOIN_OWNERS.get(node_id, node_id)` -/
def expectedOwner (nodeId : Str) : Str :=
  if nodeId = str "J13" then str "P13" else if nodeId = str "J19" then str "P19" else nodeId

/-- `LIFECYCLES` -/
def lifecycles : List Str := [str "planned", str "present", str "active"]

/-- `NODE_RE`: `^(?:P(?:0[0-9]|1[0-9]|2[0-8])|J(?:13|19))$` -/
def nodeRe : Regex :=
  .alt
    (.cat (.literal 'P') (.alt (.cat (.literal '0') (.cls [('0', '9')]))
      (.alt (.cat (.literal '1') (.cls [('0', '9')])) (.cat (.literal '2') (.cls [('0', '8')])))))
    (.cat (.literal 'J') (.alt (word "13") (word "19")))

def fullmatch (p : Regex) (s : Str) : Bool := p.expression.rmatch s.codes

/-! ## Dependencies -/

section Dependencies

inductive Field where
  | startRequires (index : ℕ)
  | completionRequires (index : ℕ)
  /-- Of a hook. -/
  | dependsOn (index : ℕ)

inductive GraphError where
  | schemaVersion
  | kind
  | nodes
  | node (index : ℕ)
  | duplicateNodes (ids : List Str)
  | nodeSet (missing extra : List Str)
  | nodeKind (index : ℕ) (nodeId expected : Str)
  | nodeOwner (index : ℕ) (nodeId expected : Str)
  | lifecycle (index : ℕ)
  | notStrings (field : Field)
  | reversedRange (field : Field) (expression : Str)
  | unknownInRange (field : Field) (expression : Str)
  | joinInRange (field : Field) (expression : Str)
  | invalidExpression (field : Field) (expression : Str)
  | unknownDependency (field : Field) (value : Str)
  | duplicateDependency (field : Field) (value : Str)
  | dependsOnItself (nodeId : Str)
  | repeats (nodeId : Str) (overlap : List Str)
  | join13
  | join19
  | cycle (ids : List Str)
  /-- `TypeError`: a lifecycle that no set can hold. -/
  | unhashable

variable (decimal : ℕ → Option ℕ)

def digit? (c : ℕ) : Option ℕ :=
  if 0x30 ≤ c ∧ c ≤ 0x39 then some (c - 0x30) else if c < 0x80 then none else decimal c

/-- `RANGE_RE`, and `int` of what its groups have behind their `P`. -/
def matchRange : List ℕ → Option (ℕ × ℕ)
  | [0x50, a, b, 0x2E, 0x2E, 0x50, c, d] => do
    let a ← digit? decimal a
    let b ← digit? decimal b
    let c ← digit? decimal c
    let d ← digit? decimal d
    some (10 * a + b, 10 * c + d)
  | _ => none

/-- `".." in expression or expression.startswith("J") and any(char in expression for char in ".-")` -/
def looksLikeJoinRange (expression : Str) : Bool :=
  (str "..").hasInfix expression ||
    (str "J").startsWith expression && expression.codes.any fun c => c = 0x2E || c = 0x2D

/-- `values` of one expression. -/
def expandExpression (field : Field) (expression : Str) : Except GraphError (List Str) :=
  match matchRange decimal expression.codes with
  | some (start, stop) =>
    if stop < start then throw (.reversedRange field expression)
    else if 28 < stop then throw (.unknownInRange field expression)
    else pure ((List.range' start (stop + 1 - start)).map packetId)
  | none =>
    if looksLikeJoinRange expression then throw (.joinInRange field expression)
    else if !fullmatch nodeRe expression then throw (.invalidExpression field expression)
    else pure [expression]

/-- One more value; `seen` holds what `expanded` does. -/
def addDependency (field : Field) (known : List Str) (expanded : List Str) (value : Str) :
    Except GraphError (List Str) :=
  if value ∉ known then throw (.unknownDependency field value)
  else if value ∈ expanded then throw (.duplicateDependency field value)
  else pure (expanded ++ [value])

/-- `_string_list` -/
def stringList (value : Value) (field : Field) : Except GraphError (List Str) :=
  match value with
  | .arr items => items.mapM fun
    | .str s => pure s
    | _ => throw (.notStrings field)
  | _ => throw (.notStrings field)

def expandDependencies (expressions : Value) (field : Field) (known : List Str) :
    Except GraphError (List Str) := do
  let items ← stringList expressions field
  items.foldlM (fun expanded expression => do
    let values ← expandExpression decimal field expression
    values.foldlM (addDependency field known) expanded) []

end Dependencies

/-! ## Nodes -/

section Nodes

structure GraphNode where
  id : Str
  kind : Str
  owner : Str
  lifecycle : Str
  startRequires : List Str
  completionRequires : List Str

/-- `(*node.start_requires, *node.completion_requires)` -/
def GraphNode.requires (node : GraphNode) : List Str := node.startRequires ++ node.completionRequires

variable (decimal : ℕ → Option ℕ)

/-- `d.get(key)` -/
def get (d : Dict) (key : String) : Value := (d.lookup (str key)).getD .null

def isStr (value : Value) (s : Str) : Bool :=
  match value with
  | .str t => t = s
  | _ => false

/-- An entry of `nodes` and its string `id`. -/
def nodeId (index : ℕ) (raw : Value) : Except GraphError (Str × Dict) :=
  match raw with
  | .obj d =>
    match get d "id" with
    | .str s => pure (s, d)
    | _ => throw (.node index)
  | _ => throw (.node index)

/-- `if value not in options: fail`, for a set or dict of strings. -/
def requireIn {ε : Type} (unhashable : ε) (options : List Str) (e : ε) (value : Value) :
    Except ε Str :=
  if !hashable value then throw unhashable
  else
    match value with
    | .str s => if s ∉ options then throw e else pure s
    | _ => throw e

def checkNode (actual : List Str) (index : ℕ) (nodeId : Str) (raw : Dict) :
    Except GraphError GraphNode := do
  let kind := if (str "J").startsWith nodeId then str "join" else str "packet"
  if !isStr (get raw "kind") kind then throw (.nodeKind index nodeId kind)
  let owner := expectedOwner nodeId
  if !isStr (get raw "owner") owner then throw (.nodeOwner index nodeId owner)
  let lifecycle ← requireIn .unhashable lifecycles (.lifecycle index) (get raw "lifecycle")
  let start ← expandDependencies decimal (get raw "start_requires") (.startRequires index) actual
  let completion ←
    expandDependencies decimal (get raw "completion_requires") (.completionRequires index) actual
  if nodeId ∈ start ∨ nodeId ∈ completion then throw (.dependsOnItself nodeId)
  let overlap := sorted (start.filter (· ∈ completion)).dedup
  if overlap ≠ [] then throw (.repeats nodeId overlap)
  pure ⟨nodeId, kind, owner, lifecycle, start, completion⟩

/-- `by_id[node_id].start_requires` -/
def startRequiresOf (nodes : List GraphNode) (nodeId : Str) : Option (List Str) :=
  (nodes.find? (·.id = nodeId)).map (·.startRequires)

/-- `raw_nodes` -/
def rawNodes (document : Dict) : Except GraphError (List Value) :=
  match get document "nodes" with
  | .arr rawNodes => pure rawNodes
  | _ => throw .nodes

/-- `validate_graph` down to `by_id`. -/
def checkNodes (document : Dict) : Except GraphError (List GraphNode) := do
  if !isStr (get document "schema_version") (str "1.0.0") then throw .schemaVersion
  if !isStr (get document "kind") (str "jumpship-mvp-packet-graph") then throw .kind
  let rawNodes ← rawNodes document
  let raws ← rawNodes.zipIdx.mapM fun (raw, index) => nodeId index raw
  let ids := raws.map Prod.fst
  let duplicates := sorted (ids.filter fun id => 1 < ids.count id).dedup
  if duplicates ≠ [] then throw (.duplicateNodes duplicates)
  let missing := sorted (expectedNodeIds.filter (· ∉ ids)).dedup
  let extra := sorted (ids.filter (· ∉ expectedNodeIds)).dedup
  if missing ≠ [] ∨ extra ≠ [] then throw (.nodeSet missing extra)
  let nodes ← raws.zipIdx.mapM fun ((id, raw), index) => checkNode decimal ids index id raw
  if startRequiresOf nodes (str "J13") ≠
      some (["P13", "P14", "P15", "P16", "P17", "P18", "P26"].map str) then
    throw .join13
  if startRequiresOf nodes (str "J19") ≠ some (["P19", "P20"].map str) then throw .join19
  pure nodes

end Nodes

/-! ## The topological order -/

section Order

/-- `indegree` and `consumers`, an absent key read as the default. -/
structure Links where
  indegree : Str → ℤ
  consumers : Str → List Str

def Links.add (nodeId : Str) (links : Links) (dependency : Str) : Links where
  indegree := Function.update links.indegree nodeId (links.indegree nodeId + 1)
  consumers := Function.update links.consumers dependency (links.consumers dependency ++ [nodeId])

def linksOf (nodes : List GraphNode) : Links :=
  nodes.foldl (fun links node => node.requires.foldl (Links.add node.id) links)
    ⟨fun _ => 0, fun _ => []⟩

structure Progress where
  indegree : Str → ℤ
  ready : List Str
  topological : List Str

/-- One round of the loop over the consumers. -/
def Progress.release (orderIndex : Str → ℕ) (progress : Progress) (consumer : Str) : Progress :=
  let count := progress.indegree consumer - 1
  { progress with
    indegree := Function.update progress.indegree consumer count
    ready :=
      if count = 0 then sortedBy orderIndex (progress.ready ++ [consumer]) else progress.ready }

/-- The `while` loop. A node becomes ready once, so as many rounds as there are nodes empty `ready`. -/
def drain (orderIndex : Str → ℕ) (consumers : Str → List Str) : ℕ → Progress → Progress
  | 0, progress => progress
  | rounds + 1, progress =>
    match progress.ready with
    | [] => progress
    | current :: ready =>
      drain orderIndex consumers rounds
        ((sortedBy orderIndex (consumers current)).foldl (Progress.release orderIndex)
          { progress with ready, topological := progress.topological ++ [current] })

/-- `validate_graph` from `indegree` on. -/
def topologicalOrder (nodes : List GraphNode) : Except GraphError (List Str) :=
  let ids := nodes.map (·.id)
  let links := linksOf nodes
  let ready := sortedBy (ids.idxOf ·) (ids.filter fun id => links.indegree id = 0)
  let progress := drain (ids.idxOf ·) links.consumers nodes.length ⟨links.indegree, ready, []⟩
  if progress.topological.length ≠ nodes.length then
    throw (.cycle (sorted (ids.filter fun id => progress.indegree id ≠ 0)))
  else pure progress.topological

end Order

def validateGraph (decimal : ℕ → Option ℕ) (document : Dict) :
    Except GraphError (List GraphNode × List Str) := do
  let nodes ← checkNodes decimal document
  let topological ← topologicalOrder nodes
  pure (nodes, topological)

end Packets
