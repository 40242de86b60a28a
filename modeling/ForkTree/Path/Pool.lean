import ForkTree.Path.State

/-!
The paths that an engine keeps. A path is referred to by its number in the order in which the paths
came up; numbers are not used again, so a reference to a path that the engine let go stays dead.
While it calls the tree, the engine may be reading or writing some of its paths.
-/

namespace ForkTree

/-- A reference to a path, which may have been let go. -/
structure PathRef where
  index : Nat
  deriving DecidableEq, Repr, Inhabited

/-- What the engine is doing with a path during a call. -/
inductive Use where
  | idle
  | reading
  | writing
  deriving DecidableEq, Repr, Inhabited

abbrev Uses := PathRef → Use

/-- No path is in use. -/
def Uses.none : Uses := fun _ => .idle

/-- Paths by number; one that was let go leaves an empty place. -/
structure Pool where
  places : Array (Option PathState)
  deriving Repr, Inhabited

namespace Pool

def empty : Pool := ⟨#[]⟩

def get? (p : Pool) (r : PathRef) : Option PathState := (p.places[r.index]?).join

/-- The engine still keeps the path. -/
def isAlive (p : Pool) (r : PathRef) : Bool := (p.get? r).isSome

/-- Keep one more path. -/
def add (p : Pool) (s : PathState) : PathRef × Pool :=
  (⟨p.places.size⟩, ⟨p.places.push (some s)⟩)

/-- Let a path go. -/
def drop (p : Pool) (r : PathRef) : Pool := ⟨p.places.setIfInBounds r.index none⟩

def modify (p : Pool) (r : PathRef) (change : PathState → PathState) : Pool :=
  ⟨p.places.modify r.index (Option.map change)⟩

/-- Tell a path which leaf it is at. -/
def setNode (p : Pool) (r : PathRef) (node : Option NodeKey) : Pool := p.modify r ({ · with node })

theorem get?_drop (p : Pool) (r q : PathRef) :
    (p.drop r).get? q = if q = r then none else p.get? q := by
  obtain ⟨r⟩ := r
  obtain ⟨q⟩ := q
  simp only [get?, drop, Array.getElem?_setIfInBounds, PathRef.mk.injEq]
  by_cases h : r = q
  · subst h
    by_cases hb : r < p.places.size <;> simp [hb]
  · simp [h, Ne.symm h]

theorem get?_modify (p : Pool) (r q : PathRef) (change : PathState → PathState) :
    (p.modify r change).get? q = if q = r then (p.get? q).map change else p.get? q := by
  obtain ⟨r⟩ := r
  obtain ⟨q⟩ := q
  simp only [get?, modify, Array.getElem?_modify, PathRef.mk.injEq]
  by_cases h : r = q
  · subst h
    cases p.places[r]? <;> simp
  · simp [h, Ne.symm h]

end Pool

end ForkTree
