import ForkTree.Tree.Basic

/-!
Random choice of a path. A searcher marks with its bit every edge below which a path that it tracks
lies, so it finds one by walking down marked edges; where both children are marked, a coin decides.
-/

namespace ForkTree.Tree

/-- Mark the edges upwards from a node, up to the first that is marked already. -/
def markUp (mask : Mask) : (fuel : Nat) → Tree → NodeKey → Tree
  | 0, t, _ => t
  | fuel + 1, t, key =>
    match t.incoming? key with
    | none => t
    | some e =>
      if e.isMarked mask then t
      else
        let marked := t.modifyIncoming key (Edge.mark · mask)
        match (t.node? key).bind Node.parent with
        | some p => markUp mask fuel marked p
        | none => marked

/-- Unmark the edges upwards from a node, as long as no marked edge leads further down. -/
def unmarkUp (mask : Mask) : (fuel : Nat) → Tree → NodeKey → Tree
  | 0, t, _ => t
  | fuel + 1, t, key =>
    match t.node? key with
    | none => t
    | some n =>
      if n.left.isMarked mask || n.right.isMarked mask then t
      else
        let cleared := t.modifyIncoming key (Edge.unmark · mask)
        match n.parent with
        | some p => unmarkUp mask fuel cleared p
        | none => cleared

/-- Track the path at a leaf. A way up is no longer than the tree has nodes. -/
def mark (mask : Mask) (t : Tree) (key : NodeKey) : Tree := markUp mask t.size t key

/-- Stop tracking the path at a leaf. -/
def unmark (mask : Mask) (t : Tree) (key : NodeKey) : Tree := unmarkUp mask t.size t key

/-- Track the paths at the leaves `added`, then stop tracking those at the leaves `removed`. -/
def retrack (mask : Mask) (t : Tree) (added removed : List NodeKey) : Tree :=
  removed.foldl (unmark mask) (added.foldl (mark mask) t)

/-- Walk down from a node, of which `asked` coins were already thrown. Heads go left. -/
def descend (t : Tree) (pool : Pool) (mask : Mask) (coin : Nat → Bool) :
    (fuel : Nat) → NodeKey → (asked : Nat) → Option PathRef × Nat
  | 0, _, asked => (none, asked)
  | fuel + 1, key, asked =>
    match t.node? key with
    | none => (none, asked)
    | some n =>
      match n.path? pool with
      | some path => (some path, asked)
      | none =>
        match n.left.isMarked mask, n.right.isMarked mask with
        | true, true =>
          let e := if coin asked then n.left else n.right
          match e.target with
          | some child => t.descend pool mask coin fuel child (asked + 1)
          | none => (none, asked + 1)
        | true, false =>
          match n.left.target with
          | some child => t.descend pool mask coin fuel child asked
          | none => (none, asked)
        | false, true =>
          match n.right.target with
          | some child => t.descend pool mask coin fuel child asked
          | none => (none, asked)
        | false, false => (none, asked)

/-- A path that the searcher tracks, with the number of coins thrown; none if it tracks none. -/
def select (t : Tree) (pool : Pool) (mask : Mask) (coin : Nat → Bool) : Option PathRef × Nat :=
  if t.root.isMarked mask then
    match t.root.target with
    | some key => t.descend pool mask coin t.size key 0
    | none => (none, 0)
  else (none, 0)

end ForkTree.Tree
