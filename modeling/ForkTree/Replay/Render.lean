import ForkTree.Replay.Order

/-!
Pictures of a rebuilt tree: a graph in the DOT language, and nested JSON objects. The nested form is
built from the last node of the pre-order to the first, so that the children of a node are finished
when it is met, and are taken out of the finished ones to be put into it.
-/

namespace ForkTree.Replay

def graphHead : String :=
  "digraph G \x7b\n" ++
    "\tsize=\"10,7.5\";\n" ++
    "\tratio=fill;\n" ++
    "\trotate=90;\n" ++
    "\tcenter = \"true\";\n" ++
    "\tnode [style=\"filled\",width=.1,height=.1,fontname=\"Terminus\"]\n" ++
    "\tedge [arrowsize=.3]\n"

namespace Node

/-- The name of a node in a graph, after a tab. -/
def graphName (id : NodeId) : String := "\tn" ++ Text.decimal id.val.toNat

/-- A label of an id, a word and a line. -/
def graphLabel (id : NodeId) (word : String) (line : UInt64) : String :=
  ",label=\"" ++ Text.decimal id.val.toNat ++ ": " ++ word ++ "@" ++ Text.decimal line.toNat ++ "\""

/-- The attributes that tell what happened at a node: open leaves are green, faults red. -/
def graphStyle (n : Node) : String :=
  match n.reason, n.termination with
  | some reason, _ => graphLabel n.id reason.name (n.line.getD 0)
  | none, some t =>
    graphLabel n.id t.kind.name t.line ++ (if t.kind.isError then ",fillcolor=red" else "")
  | none, none => ",fillcolor=green"

/-- The lines of a node and of the edges to its children. -/
def graphLines (n : Node) : String :=
  let edge := fun (child : NodeId) =>
    graphName n.id ++ " -> n" ++ Text.decimal child.val.toNat ++ ";\n"
  graphName n.id ++ " [shape=diamond" ++ n.graphStyle ++ "];\n" ++
    (match n.children with
    | some (left, right) => edge left ++ edge right
    | none => "")

end Node

def Tree.graph (t : Tree) : String :=
  graphHead ++ String.join (t.preorder.map fun (n, _) => n.graphLines) ++ "\x7d\n"

/-! ### Nested objects -/

def Termination.toJson (t : Termination) : Json :=
  .object [("kind", t.kind.toJson), ("source_line", .nat t.line.toNat),
    ("state", .option StateId.toJson t.state)]

/-- The object of a node around those of its children. -/
def Node.nest (n : Node) (children : List Json) : Json :=
  .object ([("children", .array children), ("name", .text (Text.decimal n.id.val.toNat))] ++
    (match n.reason with
      | some reason => [("reason", reason.toJson)]
      | none => []) ++
    (match n.termination with
      | some t => [("termination", t.toJson)]
      | none => []))

/-- Finished objects by the ids of their nodes. -/
structure Finished where
  objects : List (NodeId × Json)

namespace Finished

def find? (f : Finished) (id : NodeId) : Option Json := (f.objects.find? (·.1 = id)).map Prod.snd

def erase (f : Finished) (id : NodeId) : Finished := ⟨f.objects.filter (·.1 ≠ id)⟩

/-- Take the objects of the given ids out; an id that is not finished is passed over. -/
def take (f : Finished) : List NodeId → List Json × Finished
  | [] => ([], f)
  | id :: rest =>
    let (taken, left) := (f.erase id).take rest
    (match f.find? id with
      | some j => j :: taken
      | none => taken, left)

/-- Finish a node with what is finished of its children. -/
def add (f : Finished) (n : Node) : Finished :=
  let ids := match n.children with
    | some (left, right) => [left, right]
    | none => []
  let (children, f) := f.take ids
  ⟨(n.id, n.nest children) :: (f.erase n.id).objects⟩

end Finished

/-- The nested objects of a tree; `null` without a root. -/
def Tree.nested (t : Tree) : Json :=
  let finished := t.preorder.reverse.foldl (fun (f : Finished) (n, _) => f.add n) ⟨[]⟩
  (t.root.bind finished.find?).getD .null

end ForkTree.Replay
