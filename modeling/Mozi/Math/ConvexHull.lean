import Mathlib.Logic.Function.Basic
import Mozi.Foundation.Machine

/-!
# ConvexHull — hulls over their own or over foreign vertices

`math/geometry/base/convex_hull.h`: the four copying and moving operations, with the vectors that
`optimized_vertex_buf_` points to and the vertices outside of every hull.  Where the source has no
buffer of its own the view is copied, and the buffer that the target may have stays.

A step gives `none` where an object is not there or is there already, where a pointer is followed
that leads nowhere, and where a new vector would lie at an address in use.
-/

namespace Mozi
namespace Math

open Foundation

universe u

/-! ## The data -/

/-- `const Vector3<T>*` -/
inductive VertexPtr where
  | nullptr
  /-- into vertices outside of the hulls -/
  | external (e : Nat)
  /-- into the vector at an address -/
  | buffer (b : Nat)
  deriving DecidableEq, Repr

structure VertexDataSource where
  ptr_ : VertexPtr
  size_ : Nat
  deriving DecidableEq, Repr

namespace VertexDataSource

/-- `VertexDataSource()` -/
def empty : VertexDataSource :=
  { ptr_ := .nullptr
    size_ := 0 }

/-- `VertexDataSource(vec)` for the vector at `b`. -/
def ofVector {V : Type u} (b : Nat) (vec : List V) : VertexDataSource :=
  { ptr_ := .buffer b
    size_ := vec.length }

end VertexDataSource

structure ConvexHull where
  /-- the address of the vector, `none` for a null pointer -/
  optimized_vertex_buf_ : Option Nat
  vertices_ : VertexDataSource
  indices_ : List Nat
  deriving DecidableEq, Repr

/-- The members before the body of a constructor. -/
def ConvexHull.init : ConvexHull :=
  { optimized_vertex_buf_ := none
    vertices_ := .empty
    indices_ := [] }

/-- The hulls by their names, the vectors by their addresses, and the other vertices. -/
structure World (V : Type u) where
  hulls : Nat → Option ConvexHull
  buffers : Nat → Option (List V)
  external : Nat → List V

namespace World

variable {V : Type u}

/-- The first `size` vertices that a pointer leads to. -/
def firstOf (vertices : List V) (size : Nat) : Option (List V) :=
  if size ≤ vertices.length then some (vertices.take size) else none

/-- The vertices that a view presents. -/
def read (w : World V) (v : VertexDataSource) : Option (List V) :=
  match v.ptr_ with
  | .nullptr => firstOf [] v.size_
  | .external e => firstOf (w.external e) v.size_
  | .buffer b => (w.buffers b).bind fun vec => firstOf vec v.size_

/-- The vertices `getVertexBuffer()` presents. -/
def getVertexBuffer (w : World V) (i : Nat) : Option (List V) :=
  (w.hulls i).bind fun h => w.read h.vertices_

def getIndexBuffer (w : World V) (i : Nat) : Option (List Nat) :=
  (w.hulls i).map ConvexHull.indices_

/-! ## The operations -/

/-- The vectors after a `unique_ptr` has given up what it pointed to. -/
def release (buffers : Nat → Option (List V)) : Option Nat → Nat → Option (List V)
  | none => buffers
  | some old => Function.update buffers old none

/-- The body of the copy constructor and of the copy assignment; `h` is the target. -/
def copyMembers (w : World V) (target : Nat) (h other : ConvexHull) (address : Nat) :
    Option (World V) :=
  match other.optimized_vertex_buf_ with
  | some b =>
      (w.buffers b).bind fun vec =>
        if w.buffers address = none then
          some
            { w with
              hulls := Function.update w.hulls target
                (some
                  { optimized_vertex_buf_ := some address
                    vertices_ := .ofVector address vec
                    indices_ := other.indices_ })
              -- `reset` takes the new vector before it deletes the old one.
              buffers := release (Function.update w.buffers address (some vec))
                h.optimized_vertex_buf_ }
        else
          none
  | none =>
      some
        { w with
          hulls := Function.update w.hulls target
            (some { h with vertices_ := other.vertices_, indices_ := other.indices_ }) }

/-- The body of the move constructor and of the move assignment; `left` is what the assignment of
the vector leaves in `other.indices_`. -/
def moveMembers (w : World V) (target source : Nat) (h other : ConvexHull) (left : List Nat) :
    Option (World V) :=
  match other.optimized_vertex_buf_ with
  | some b =>
      (w.buffers b).map fun vec =>
        { w with
          hulls := Function.update
            (Function.update w.hulls source
              (some
                { optimized_vertex_buf_ := none
                  vertices_ := .empty
                  indices_ := left }))
            target
            (some
              { optimized_vertex_buf_ := some b
                vertices_ := .ofVector b vec
                indices_ := other.indices_ })
          buffers := release w.buffers h.optimized_vertex_buf_ }
  | none =>
      some
        { w with
          hulls := Function.update
            (Function.update w.hulls source (some { other with indices_ := left })) target
            (some { h with vertices_ := other.vertices_, indices_ := other.indices_ }) }

def copyConstruct (w : World V) (target source address : Nat) : Option (World V) :=
  if w.hulls target = none then
    (w.hulls source).bind fun other => w.copyMembers target .init other address
  else
    none

def copyAssign (w : World V) (target source address : Nat) : Option (World V) :=
  (w.hulls target).bind fun h =>
    (w.hulls source).bind fun other =>
      if source = target then some w else w.copyMembers target h other address

def moveConstruct (w : World V) (target source : Nat) (left : List Nat) : Option (World V) :=
  if w.hulls target = none then
    (w.hulls source).bind fun other => w.moveMembers target source .init other left
  else
    none

def moveAssign (w : World V) (target source : Nat) (left : List Nat) : Option (World V) :=
  (w.hulls target).bind fun h =>
    (w.hulls source).bind fun other =>
      if source = target then some w else w.moveMembers target source h other left

end World

/-! ## The machine -/

inductive HullOp where
  | copyConstruct (target source address : Nat)
  | copyAssign (target source address : Nat)
  | moveConstruct (target source : Nat) (left : List Nat)
  | moveAssign (target source : Nat) (left : List Nat)

namespace HullOp

def target : HullOp → Nat
  | copyConstruct target _ _ => target
  | copyAssign target _ _ => target
  | moveConstruct target _ _ => target
  | moveAssign target _ _ => target

def source : HullOp → Nat
  | copyConstruct _ source _ => source
  | copyAssign _ source _ => source
  | moveConstruct _ source _ => source
  | moveAssign _ source _ => source

end HullOp

def hulls (V : Type u) : Machine (World V) HullOp where
  step w
    | .copyConstruct target source address => w.copyConstruct target source address
    | .copyAssign target source address => w.copyAssign target source address
    | .moveConstruct target source left => w.moveConstruct target source left
    | .moveAssign target source left => w.moveAssign target source left

end Math
end Mozi
