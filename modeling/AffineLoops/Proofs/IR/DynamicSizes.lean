import AffineLoops.Identifier.Validity
import AffineLoops.Proofs.IR.Uses

/-!
# Dynamic sizes and dynamic dimensions

The shape of a memory reference leaves the sizes of some dimensions open, and an operation that
makes the reference takes one operand for each of them.  Which operand belongs to a dimension is
found by counting the open sizes before it, and how many operands come before the sizes depends on
the kind of the operation.

* `MemRef.dynamicIndex?_lt_iff` and `MemRef.lt_dynamicCount_iff`: counting numbers the dynamic
  dimensions from zero to their number, in order and without gaps;
* `Store.HasSizes` is what is known of an operation that made a reference.  Constructing it
  establishes this (`hasSizes_of_sizedMemRef`), one elementary change keeps it (`Step.hasSizes`),
  and so it holds in every later program (`Steps.hasSizes`), although types may change when their
  layouts become known;
* `dynamicSizes_lineUp` puts both together.
-/

namespace AffineLoops

theorem Size.isDynamic_iff {size : Size} : size.isDynamic ↔ size = .dynamic := by
  cases size with
  | static size => simp [isDynamic]
  | dynamic => simp [isDynamic]

namespace MemRef

variable {type : MemRef} {index index' position position' : Nat}

theorem isSome_dynamicIndex?_iff :
    (type.dynamicIndex? index).isSome ↔ type.shape[index]? = some .dynamic := by
  unfold dynamicIndex?
  split
  · rename_i hsize
    simp [hsize]
  · rename_i hsize
    simpa using hsize

/-- The number of a dimension is the number of dynamic sizes before it. -/
theorem dynamicIndex?_eq_some_iff :
    type.dynamicIndex? index = some position ↔
      ∃ h : index < type.shape.length, type.shape[index].isDynamic ∧
        type.shape.countPBefore Size.isDynamic index = position := by
  unfold dynamicIndex?
  split
  · rename_i hsize
    obtain ⟨hlt, hat⟩ := List.getElem?_eq_some_iff.mp hsize
    simp [hlt, hat, Size.isDynamic, List.countPBefore_eq_countP_take]
  · rename_i hsize
    refine ⟨nofun, ?_⟩
    rintro ⟨hlt, hdynamic, -⟩
    exact absurd (List.getElem?_eq_some_iff.mpr ⟨hlt, Size.isDynamic_iff.mp hdynamic⟩) hsize

/-- The dimension with a number is where so many dynamic sizes have been counted. -/
theorem findIdxNth_of_dynamicIndex? (h : type.dynamicIndex? index = some position) :
    type.shape.findIdxNth Size.isDynamic position = index := by
  obtain ⟨_, hdynamic, rfl⟩ := dynamicIndex?_eq_some_iff.mp h
  exact List.findIdxNth_countPBefore_of_lt_length_of_pos hdynamic

theorem lt_dynamicCount_of_dynamicIndex? (h : type.dynamicIndex? index = some position) :
    position < type.dynamicCount := by
  obtain ⟨_, hdynamic, rfl⟩ := dynamicIndex?_eq_some_iff.mp h
  exact List.countPBefore_lt_countP_of_lt_length_of_pos hdynamic

/-- Dynamic dimensions are numbered in order. -/
theorem dynamicIndex?_lt_iff (h : type.dynamicIndex? index = some position)
    (h' : type.dynamicIndex? index' = some position') : index < index' ↔ position < position' := by
  rw [← findIdxNth_of_dynamicIndex? h, ← findIdxNth_of_dynamicIndex? h']
  exact List.findIdxNth_lt_findIdxNth_iff_of_lt_countP (lt_dynamicCount_of_dynamicIndex? h)

/-- Only the shape counts. -/
theorem dynamicIndex?_congr {type' : MemRef} (hshape : type'.shape = type.shape) :
    type'.dynamicIndex? index = type.dynamicIndex? index := by
  unfold dynamicIndex?
  rw [hshape]

/-- Every number up to the count of dynamic sizes is the number of a dimension. -/
theorem lt_dynamicCount_iff :
    position < type.dynamicCount ↔ ∃ index, type.dynamicIndex? index = some position := by
  refine ⟨fun hlt => ?_, fun ⟨_, h⟩ => lt_dynamicCount_of_dynamicIndex? h⟩
  exact ⟨_, dynamicIndex?_eq_some_iff.mpr ⟨List.findIdxNth_lt_length_iff.mpr hlt,
    List.pos_findIdxNth_getElem, List.countPBefore_findIdxNth_of_lt_countP hlt⟩⟩

end MemRef

namespace Store

/-! ## Operations that make references -/

/-- An operation of a kind has the given operands and makes a reference of the given shape. -/
structure HasSizes (store : Store) (op : OpId) (kind : OpKind) (operands : List ValueId)
    (shape : List Size) : Prop where
  op_lt : op.index < store.operations.size
  kind_eq : (store.op op).kind = kind
  operands_eq : (store.op op).operands = operands
  makes : ∃ result element layouts, (store.op op).results = [result] ∧
    result.index < store.values.size ∧ store.typeOf result = .memref shape element layouts

variable {store store' : Store}

theorem type_getD_addUses (op : OpId) (index : Nat) (operands : List ValueId)
    (values : Array Value) (place : Nat) :
    ((addUses op index operands values).getD place default).type =
      (values.getD place default).type := by
  induction operands generalizing index values with
  | nil => rfl
  | cons operand rest ih =>
      rw [addUses, ih]
      exact read_modify Value.type (fun _ => by rfl) ..

theorem typeOf_resolveTypes (context : ContextId) (lookup : Lookup)
    (value : ValueId) :
    (store.resolveTypes context lookup).typeOf value = store.typeOf value ∨
      (store.resolveTypes context lookup).typeOf value = (store.typeOf value).resolve lookup := by
  simp only [typeOf, Store.value, resolveTypes, Array.getD_eq_getD_getElem?, Array.getElem?_map]
  cases store.values[value.index]? with
  | none => exact Or.inl rfl
  | some node =>
      simp only [Option.map_some, Option.getD_some]
      split
      · exact Or.inr rfl
      · exact Or.inl rfl

/-- A value keeps its type, up to layouts that become known. -/
theorem Step.typeOf_eq (hstep : Step store store') {value : ValueId}
    (hvalue : value.index < store.values.size) :
    store'.typeOf value = store.typeOf value ∨
      ∃ lookup, store'.typeOf value = (store.typeOf value).resolve lookup := by
  cases hstep with
  | addRegion context => exact Or.inl rfl
  | addBlock context types =>
      rw [addBlock_eq]
      exact Or.inl (congrArg Value.type (getD_addValues_of_lt _ _ _ _ _ hvalue))
  | appendBlock hregion hblock h =>
      obtain ⟨-, rfl⟩ := Build.appendBlock_eq_ok h
      exact Or.inl rfl
  | insertOp hblock hop h =>
      obtain ⟨-, rfl⟩ := Build.insertOp_eq_ok h
      exact Or.inl rfl
  | buildOp hoperands hregions hfits h =>
      obtain ⟨rfl, -, rfl⟩ := Build.buildOp_eq_ok h
      refine Or.inl ((type_getD_addUses ..).trans ?_)
      exact congrArg Value.type (getD_addValues_of_lt _ _ _ _ _ hvalue)
  | resolveTypes context lookup =>
      exact (typeOf_resolveTypes context lookup value).imp_right fun h => ⟨lookup, h⟩

/-- An operation that is there is at most put into a block. -/
theorem Step.op_eq (hstep : Step store store') {op : OpId}
    (hop : op.index < store.operations.size) :
    ∃ parent, store'.op op = { store.op op with parent } := by
  rcases hstep.keepsOps_or_addsOp with hkeeps | ⟨new, hadds⟩
  · exact hkeeps.operation op
  · exact ⟨_, by rw [hadds.op_eq, if_neg hop.ne]⟩

section HasSizes

variable {op : OpId} {kind : OpKind} {operands : List ValueId} {shape : List Size}

/-- One elementary change leaves the operation, its operands and the shape as they are. -/
theorem Step.hasSizes (hstep : Step store store') (h : store.HasSizes op kind operands shape) :
    store'.HasSizes op kind operands shape := by
  obtain ⟨hop, hkind, hoperands, result, element, layouts, hresults, hresult, htype⟩ := h
  obtain ⟨parent, hsame⟩ := hstep.op_eq hop
  refine ⟨hop.trans_le hstep.grows.operations, by rw [hsame, hkind], by rw [hsame, hoperands], ?_⟩
  have hresult' := hresult.trans_le hstep.grows.values
  rcases hstep.typeOf_eq hresult with hkept | ⟨lookup, hresolved⟩
  · exact ⟨result, element, layouts, by rw [hsame, hresults], hresult', hkept.trans htype⟩
  · rw [htype, Ty.resolve] at hresolved
    exact ⟨result, _, _, by rw [hsame, hresults], hresult', hresolved⟩

/-- So does every program that comes later. -/
theorem Steps.hasSizes (hsteps : Steps store store') (h : store.HasSizes op kind operands shape) :
    store'.HasSizes op kind operands shape := by
  induction hsteps with
  | refl => exact h
  | tail _ hstep ih => exact hstep.hasSizes ih

theorem hasSizes_of_buildOp {context : ContextId} {traits : List Trait} {type : MemRef}
    (h : Build.buildOp context kind traits operands [⟨context, type.toTy⟩] [] store =
      (.ok op, store')) :
    store'.HasSizes op kind operands type.shape := by
  obtain ⟨rfl, -, rfl⟩ := Build.buildOp_eq_ok h
  refine ⟨by simp, ?_, ?_, ⟨store.values.size⟩, type.element, type.layouts, ?_, ?_, ?_⟩
  · rw [Store.op, getD_push, if_pos rfl]
  · rw [Store.op, getD_push, if_pos rfl]
  · rw [Store.op, getD_push, if_pos rfl]
    rfl
  · simp [size_values_addValues]
  · refine (type_getD_addUses ..).trans ?_
    simp [addValues, addValue, MemRef.toTy]

end HasSizes

end Store

/-- A reference is made with as many sizes as its type leaves open. -/
theorem Build.of_sizedMemRef_eq_ok {context : ContextId} {kind : OpKind}
    {leading sizes : List ValueId} {type : MemRef} {store store' : Store} {op : OpId}
    (h : sizedMemRef context kind leading sizes type store = (.ok op, store')) :
    sizes.length = type.dynamicCount ∧
      buildOp context kind kind.traits (leading ++ sizes) [⟨context, type.toTy⟩] [] store =
        (.ok op, store') := by
  unfold sizedMemRef at h
  by_cases hcount : sizes.length = type.dynamicCount
  · rw [if_pos hcount] at h
    exact ⟨hcount, h⟩
  · rw [if_neg hcount] at h
    cases h

namespace Store

variable {store : Store} {op : OpId} {kind : OpKind} {leading sizes : List ValueId} {type : MemRef}

/-! ## Sizes of dimensions -/

theorem HasSizes.sizedMemRef? (h : store.HasSizes op kind (leading ++ sizes) type.shape)
    (hplace : kind.sizesPlace? = some leading.length) :
    ∃ type', store.sizedMemRef? op = some (type', sizes) ∧ type'.shape = type.shape := by
  obtain ⟨-, hkind, hoperands, result, element, layouts, hresults, -, htype⟩ := h
  refine ⟨⟨type.shape, element, layouts⟩, ?_, rfl⟩
  simp [Store.sizedMemRef?, hkind, hplace, hresults, htype, Ty.memref?, hoperands]

/-- The size of a dimension is the size operand with the number of the dimension. -/
theorem HasSizes.dynamicSize?_eq (h : store.HasSizes op kind (leading ++ sizes) type.shape)
    (hplace : kind.sizesPlace? = some leading.length) (index : Nat) :
    store.dynamicSize? op index = (type.dynamicIndex? index).bind (sizes[·]?) := by
  obtain ⟨type', hsized, hshape⟩ := h.sizedMemRef? hplace
  unfold dynamicSize?
  rw [hsized]
  dsimp only
  rw [MemRef.dynamicIndex?_congr hshape]
  cases type.dynamicIndex? index with
  | none => rfl
  | some position => rfl

/-- Where there are as many sizes as dynamic dimensions, none of them is missed. -/
theorem HasSizes.dynamicSize?_eq_some (h : store.HasSizes op kind (leading ++ sizes) type.shape)
    (hplace : kind.sizesPlace? = some leading.length) (hcount : sizes.length = type.dynamicCount)
    {index position : Nat} (hindex : type.dynamicIndex? index = some position) :
    ∃ size, sizes[position]? = some size ∧ store.dynamicSize? op index = some size := by
  have hlt : position < sizes.length := by
    rw [hcount]
    exact MemRef.lt_dynamicCount_of_dynamicIndex? hindex
  refine ⟨sizes[position], List.getElem?_eq_getElem hlt, ?_⟩
  rw [h.dynamicSize?_eq hplace, hindex, Option.bind_some, List.getElem?_eq_getElem hlt]

theorem HasSizes.isSome_dynamicSize?_iff
    (h : store.HasSizes op kind (leading ++ sizes) type.shape)
    (hplace : kind.sizesPlace? = some leading.length) (hcount : sizes.length = type.dynamicCount)
    (index : Nat) :
    (store.dynamicSize? op index).isSome ↔ type.shape[index]? = some .dynamic := by
  rw [← MemRef.isSome_dynamicIndex?_iff]
  cases hindex : type.dynamicIndex? index with
  | none => simp [h.dynamicSize?_eq hplace, hindex]
  | some position =>
      obtain ⟨size, -, hsize⟩ := h.dynamicSize?_eq_some hplace hcount hindex
      simp [hsize]

/-- The judgement of a size looks at the operand that holds it, if the size is dynamic. -/
theorem HasSizes.isFixedSize_eq (h : store.HasSizes op kind (leading ++ sizes) type.shape)
    (hplace : kind.sizesPlace? = some leading.length) (hcount : sizes.length = type.dynamicCount)
    {dim : OpId} {source : ValueId} {index : Nat} (hsource : store.dimSource? dim = some source)
    (hdefining : store.definingOp? source = some op) (hindex : store.dimIndex? dim = some index)
    (hrank : index < type.rank) (accept : ValueId → Bool) :
    store.isFixedSize accept dim =
      (store.isTopLevelOfScope source || (store.dynamicSize? op index).all accept) := by
  obtain ⟨type', hsized, hshape⟩ := h.sizedMemRef? hplace
  have hrank' : index < type'.rank := by rwa [MemRef.rank, hshape]
  unfold isFixedSize
  rw [hsource]
  dsimp only
  rw [hdefining, Option.bind_some, hsized, hindex]
  dsimp only
  rw [decide_eq_true hrank', Bool.true_and, MemRef.dynamicIndex?_congr hshape]
  cases hnumber : type.dynamicIndex? index with
  | none => simp [h.dynamicSize?_eq hplace, hnumber]
  | some position =>
      obtain ⟨size, hat, hsize⟩ := h.dynamicSize?_eq_some hplace hcount hnumber
      simp [hat, hsize]

end Store

/-- Dynamic sizes line up with dynamic dimensions.  Counting dynamic sizes gives numbers to exactly
the dynamic dimensions of a type, in order and without gaps.  If an operation makes a reference of
the type, from the operands that its kind has before the sizes and from the sizes, then in every
later program it knows the size of exactly the dynamic dimensions; the size of a dimension is the
size operand with its number, each of which belongs to one dimension; and asking whether the size of
a dimension is fixed finds this operand. -/
theorem dynamicSizes_lineUp :
    (∀ type : MemRef,
      (∀ index, (type.dynamicIndex? index).isSome ↔ type.shape[index]? = some .dynamic) ∧
      (∀ index index' position position', type.dynamicIndex? index = some position →
        type.dynamicIndex? index' = some position' → (index < index' ↔ position < position')) ∧
      ∀ position, position < type.dynamicCount ↔
        ∃ index, type.dynamicIndex? index = some position) ∧
    ∀ (store store' later : Store) (context : ContextId) (kind : OpKind)
      (leading sizes : List ValueId) (type : MemRef) (op : OpId),
      kind.sizesPlace? = some leading.length →
      Build.sizedMemRef context kind leading sizes type store = (.ok op, store') →
      store'.Steps later →
      (∃ type', later.sizedMemRef? op = some (type', sizes) ∧ type'.shape = type.shape) ∧
      (∀ index, (later.dynamicSize? op index).isSome ↔ type.shape[index]? = some .dynamic) ∧
      (∀ index position, type.dynamicIndex? index = some position →
        position < sizes.length ∧
          later.dynamicSize? op index = (later.op op).operands[leading.length + position]?) ∧
      (later.op op).operands.length = leading.length + sizes.length ∧
      (∀ position < sizes.length, ∃! index, type.dynamicIndex? index = some position) ∧
      ∀ dim source index accept, later.dimSource? dim = some source →
        later.definingOp? source = some op → later.dimIndex? dim = some index → index < type.rank →
        later.isFixedSize accept dim =
          (later.isTopLevelOfScope source || (later.dynamicSize? op index).all accept) := by
  refine ⟨fun type => ⟨fun index => MemRef.isSome_dynamicIndex?_iff, fun index index' position
    position' => MemRef.dynamicIndex?_lt_iff, fun position => MemRef.lt_dynamicCount_iff⟩, ?_⟩
  intro store store' later context kind leading sizes type op hplace hbuild hlater
  obtain ⟨hcount, hbuilt⟩ := Build.of_sizedMemRef_eq_ok hbuild
  have hsizes : later.HasSizes op kind (leading ++ sizes) type.shape :=
    hlater.hasSizes (Store.hasSizes_of_buildOp hbuilt)
  refine ⟨hsizes.sizedMemRef? hplace, hsizes.isSome_dynamicSize?_iff hplace hcount, ?_, ?_, ?_, ?_⟩
  · intro index position hindex
    obtain ⟨size, hat, hsize⟩ := hsizes.dynamicSize?_eq_some hplace hcount hindex
    refine ⟨(List.getElem?_eq_some_iff.mp hat).1, ?_⟩
    rw [hsize, hsizes.operands_eq, List.getElem?_append_right (Nat.le_add_right ..),
      Nat.add_sub_cancel_left, hat]
  · rw [hsizes.operands_eq, List.length_append]
  · intro position hposition
    rw [hcount] at hposition
    obtain ⟨index, hindex⟩ := MemRef.lt_dynamicCount_iff.mp hposition
    refine ⟨index, hindex, fun index' hindex' => ?_⟩
    rw [← MemRef.findIdxNth_of_dynamicIndex? hindex, MemRef.findIdxNth_of_dynamicIndex? hindex']
  · intro dim source index accept hsource hdefining hindex hrank
    exact hsizes.isFixedSize_eq hplace hcount hsource hdefining hindex hrank accept

/-! A view with a static dimension between two dynamic ones.  It has two operands before the sizes,
and the size of its last dimension is asked for later. -/

namespace SizedView

def constants : Store :=
  let add (value : Int) (store : Store) : Store := (Build.constant 0 value .index store).2
  add 2 (add 16 (add 8 (add 0 .empty)))

def type : MemRef := ⟨[.dynamic, .static 4, .dynamic], .float 32, []⟩

def viewed : Store := (Build.sizedMemRef 0 .view [⟨0⟩, ⟨1⟩] [⟨2⟩, ⟨3⟩] type constants).2

def later : Store := (Build.dim 0 ⟨4⟩ ⟨3⟩ viewed).2

theorem steps_later : viewed.Steps later := (Construction.dim (by decide)).steps

end SizedView

open SizedView in
theorem dynamicSizes_lineUp_view :
    OpKind.view.sizesPlace? = some 2 ∧
    Build.sizedMemRef 0 .view [⟨0⟩, ⟨1⟩] [⟨2⟩, ⟨3⟩] type constants = (.ok ⟨4⟩, viewed) ∧
    viewed.Steps later ∧
    ¬ (later.dynamicSize? ⟨4⟩ 1).isSome ∧
    later.dynamicSize? ⟨4⟩ 2 = some ⟨3⟩ ∧
    ∀ accept, later.isFixedSize accept ⟨5⟩ = accept ⟨3⟩ := by
  have hbuild : Build.sizedMemRef 0 .view [⟨0⟩, ⟨1⟩] [⟨2⟩, ⟨3⟩] type constants =
      (.ok ⟨4⟩, viewed) := rfl
  obtain ⟨-, hsome, hslot, -, -, hfixed⟩ := dynamicSizes_lineUp.2 constants viewed later 0 .view
    [⟨0⟩, ⟨1⟩] [⟨2⟩, ⟨3⟩] type ⟨4⟩ rfl hbuild steps_later
  have hsize : later.dynamicSize? ⟨4⟩ 2 = some ⟨3⟩ := (hslot 2 1 (by decide)).2.trans (by decide)
  refine ⟨rfl, hbuild, steps_later, ?_, hsize, fun accept => ?_⟩
  · exact fun h => absurd ((hsome 1).mp h) (by decide)
  · have htop : later.isTopLevelOfScope ⟨4⟩ = false := by decide
    rw [hfixed ⟨5⟩ ⟨4⟩ 2 accept (by decide) (by decide) (by decide) (by decide), htop, hsize]
    rfl

end AffineLoops
