import AffineLoops.AffineMap.Basic

/-!
# Types of values

Values are indices, integers, floats, memory references or vectors.  The shape of a memory
reference may leave sizes open; these dynamic sizes are given by operands where a reference
is made, one for each of them and in order.  A type refers to its element type and to its layouts
by numbers, and nothing says that the context of the type has anything under them.
-/

namespace AffineLoops

/-- The size of one dimension of a memory reference. -/
inductive Size where
  | static (size : Nat)
  | dynamic
  deriving DecidableEq, Hashable

/-- How positions of a memory reference are laid out: a map, or the number that the context of
the type has for a map, where it has none with this number yet. -/
inductive Layout where
  | map (map : AffineMap)
  | numbered (number : Nat)
  deriving DecidableEq

/-- The types of values.  An element type may be known by number only, where the context of the
type has none with this number yet. -/
inductive Ty where
  | index
  | integer (width : Nat)
  | float (width : Nat)
  | memref (shape : List Size) (element : Ty) (layouts : List Layout)
  | vector (shape : List Nat) (element : Ty)
  | numbered (number : Nat)
  deriving DecidableEq

/-- What a context has for the numbers of maps and of types. -/
structure Lookup where
  map? : Nat → Option AffineMap
  type : Nat → Ty

/-- A memory reference type taken apart. -/
structure MemRef where
  shape : List Size
  element : Ty
  layouts : List Layout
  deriving DecidableEq

namespace Layout

/-- The text of a layout. -/
def render : Layout → String
  | map layout => layout.render
  | numbered number => "#" ++ number.repr

/-- Whether positions are laid out in the order of the indices. -/
def isIdentity : Layout → Bool
  | map layout => layout.isIdentity
  | numbered _ => false

/-- The layout with a map in the place of a number for which there is one. -/
def resolve (find? : Nat → Option AffineMap) : Layout → Layout
  | map layout => map layout
  | numbered number => ((find? number).map map).getD (numbered number)

end Layout

namespace Size

/-- Whether a size is left open. -/
def isDynamic : Size → Bool
  | static _ => false
  | dynamic => true

/-- A size that is not left open. -/
def value? : Size → Option Nat
  | static size => some size
  | dynamic => none

/-- The text of a size. -/
def render : Size → String
  | static size => size.repr
  | dynamic => "?"

end Size

namespace Ty

instance : Inhabited Ty := ⟨.index⟩

/-- The text of a type. -/
def render : Ty → String
  | index => "index"
  | integer width => "i" ++ width.repr
  | float width => "f" ++ width.repr
  | memref shape element layouts =>
      "memref<" ++ String.join (shape.map fun size => size.render ++ "x") ++ element.render ++
        String.join (layouts.map fun layout => ", " ++ layout.render) ++ ">"
  | vector shape element =>
      "vector<" ++ String.join (shape.map fun size => size.repr ++ "x") ++ element.render ++ ">"
  | numbered number => "#" ++ number.repr

/-- Whether a type is the type of indices. -/
def isIndex : Ty → Bool
  | index => true
  | _ => false

/-- Whether a type is a type of vectors. -/
def isVector : Ty → Bool
  | vector _ _ => true
  | _ => false

/-- The element type of a vector type. -/
def vectorElement? : Ty → Option Ty
  | vector _ element => some element
  | _ => none

/-- The type with maps and types in the place of numbers for which there are some. -/
def resolve (lookup : Lookup) : Ty → Ty
  | memref shape element layouts =>
      memref shape (element.resolve lookup) (layouts.map (·.resolve lookup.map?))
  | vector shape element => vector shape (element.resolve lookup)
  | numbered number => lookup.type number
  | leaf => leaf

/-- The parts of a memory reference type. -/
def memref? : Ty → Option MemRef
  | memref shape element layouts => some ⟨shape, element, layouts⟩
  | _ => none

end Ty

namespace MemRef

instance : Inhabited MemRef := ⟨⟨[], .index, []⟩⟩

/-- The number of dimensions. -/
def rank (type : MemRef) : Nat := type.shape.length

/-- The type that was taken apart. -/
def toTy (type : MemRef) : Ty := .memref type.shape type.element type.layouts

/-- The number of sizes that are left open. -/
def dynamicCount (type : MemRef) : Nat := type.shape.countP Size.isDynamic

/-- Which of the open sizes is the size of a dimension. -/
def dynamicIndex? (type : MemRef) (index : Nat) : Option Nat :=
  match type.shape[index]? with
  | some .dynamic => some ((type.shape.take index).countP Size.isDynamic)
  | _ => none

/-- Whether positions are laid out in the order of the indices. -/
def hasIdentityLayout (type : MemRef) : Bool :=
  match type.layouts with
  | [] => true
  | [layout] => layout.isIdentity
  | _ => false

end MemRef

end AffineLoops
