import RustVmm.Lib.AvlTree
import RustVmm.VmAllocator.Basic

/-!
# The interval tree and the address allocator

Model of `allocation_engine/interval_tree.rs` and `address_allocator.rs`, on the trees of `Lib.AvlTree`.

* `InnerNode` — the methods of a node: searches, `insert`, `delete`, `markAsAllocated`, `findCandidate`.
* `IntervalTree` — the tree behind `&mut self`, with the state that a failing call leaves.
* `AddressAllocator` — the public interface: `new`, `allocate`, `free`.
-/

set_option autoImplicit false

namespace RustVmm.VmAllocator

open Lib

/-- What a node of the tree stores. -/
structure Slot where
  key : RangeInclusive
  nodeState : NodeState
  deriving DecidableEq, Repr

/-- An optional node with its subtrees. -/
abbrev InnerNode := AvlTree Slot

namespace InnerNode

def new (key : RangeInclusive) (nodeState : NodeState) : InnerNode := .node ⟨key, nodeState⟩ .nil .nil 1

def search (key : RangeInclusive) : InnerNode → Option Slot
  | .nil => none
  | .node v left right _ =>
    match v.key.cmp key with
    | .eq => some v
    | .lt => search key right
    | .gt => search key left

def searchSuperset (key : RangeInclusive) : InnerNode → Option Slot
  | .nil => none
  | .node v left right _ =>
    if v.key.contains key then some v
    else if key.end_ < v.key.start then searchSuperset key left
    else searchSuperset key right

/-- `InnerNode::insert`; the empty tree is the `None` branch of the caller. -/
def insert (key : RangeInclusive) (nodeState : NodeState) : InnerNode → Outcome Error InnerNode
  | .nil => .ok (new key nodeState)
  | .node v left right h =>
    if h + 1 > 50 then .err .overflow
    else if v.key.overlaps key then .err (.overlap key v.key)
    else
      match v.key.cmp key with
      | .eq => .panic
      | .lt => do
        let right' ← insert key nodeState right
        .unwrap (AvlTree.rotate (AvlTree.updateCachedHeight (.node v left right' h)))
      | .gt => do
        let left' ← insert key nodeState left
        .unwrap (AvlTree.rotate (AvlTree.updateCachedHeight (.node v left' right h)))

def markAsAllocated (key : RangeInclusive) : InnerNode → Outcome Error InnerNode
  | .nil => .err .resourceNotAvailable
  | .node v left right h =>
    match v.key.cmp key with
    | .eq =>
      if v.nodeState ≠ .free then .err (.invalidStateTransition v.key v.nodeState)
      else .ok (.node ⟨v.key, .allocated⟩ left right h)
    | .lt => do
      let right' ← markAsAllocated key right
      .ok (.node v left right' h)
    | .gt => do
      let left' ← markAsAllocated key left
      .ok (.node v left' right h)

/-- `InnerNode::delete`; `none` is a panic. -/
def delete (key : RangeInclusive) : InnerNode → Option InnerNode
  | .nil => some .nil
  | .node v left right h =>
    match v.key.cmp key with
    | .eq => AvlTree.deleteRoot (.node v left right h)
    | .lt =>
      match right with
      | .nil => some (.node v left .nil h)
      | .node rv rl rr rh => do
        let right' ← delete key (.node rv rl rr rh)
        AvlTree.rotate (AvlTree.updateCachedHeight (.node v left right' h))
    | .gt =>
      match left with
      | .nil => some (.node v .nil right h)
      | .node lv ll lr lh => do
        let left' ← delete key (.node lv ll lr lh)
        AvlTree.rotate (AvlTree.updateCachedHeight (.node v left' right h))

/-- `check_constraint`: the starting address for the memory slot. -/
def rangeStart (key : RangeInclusive) (constraint : Constraint) : Outcome Error Nat :=
  match constraint.policy with
  | .firstMatch => alignUp key.start constraint.align.toNat
  | .lastMatch => do
    let addr ← .okOr (checkedSub key.end_ constraint.size.toNat) .underflow
    let candidateAddress ← .okOr (checkedAdd addr 1) .overflow
    let alignedAddress ← alignDown candidateAddress constraint.align.toNat
    if alignedAddress < key.start then .err .unalignedAddress else .ok alignedAddress
  | .exactMatch _ => .panic

def checkConstraint (v : Slot) (constraint : Constraint) : Outcome Error RangeInclusive :=
  if !v.nodeState.isFree || v.key.len < constraint.size.toNat then .err .resourceNotAvailable
  else do
    let rangeStart ← rangeStart v.key constraint
    let key ← RangeInclusive.new rangeStart v.key.end_
    if key.len ≥ constraint.size.toNat then .ok key else .err .resourceNotAvailable

def candidate (v : Slot) (constraint : Constraint) : Outcome Error (Slot × RangeInclusive) :=
  match checkConstraint v constraint with
  | .ok range => .ok (v, range)
  | .err _ => .err .resourceNotAvailable
  | .panic => .panic

def firstMatch (constraint : Constraint) : InnerNode → Outcome Error (Slot × RangeInclusive)
  | .nil => .err .resourceNotAvailable
  | .node v left right _ =>
    match firstMatch constraint left with
    | .err .resourceNotAvailable =>
      match candidate v constraint with
      | .err .resourceNotAvailable => firstMatch constraint right
      | res => res
    | res => res

def lastMatch (constraint : Constraint) : InnerNode → Outcome Error (Slot × RangeInclusive)
  | .nil => .err .resourceNotAvailable
  | .node v left right _ =>
    match lastMatch constraint right with
    | .err .resourceNotAvailable =>
      match candidate v constraint with
      | .err .resourceNotAvailable => lastMatch constraint left
      | res => res
    | res => res

/-- The `ExactMatch` arm of `find_candidate`: the node that covers the requested address and
the one after it. -/
def exactMatch (startAddress : UInt64) (constraint : Constraint) (self : InnerNode) :
    Outcome Error (Slot × RangeInclusive) := do
  let next ← .okOr (checkedAdd startAddress.toNat 1) .overflow
  let probe ← RangeInclusive.new startAddress.toNat next
  let node ← .okOr (searchSuperset probe self) .resourceNotAvailable
  let span ← .okOr (checkedSub constraint.size.toNat 1) .underflow
  let endAddress ← .okOr (checkedAdd startAddress.toNat span) .overflow
  let range ← RangeInclusive.new startAddress.toNat endAddress
  if !node.key.contains range then .err .resourceNotAvailable else .ok (node, range)

def findCandidate (constraint : Constraint) (self : InnerNode) : Outcome Error (Slot × RangeInclusive) :=
  match constraint.policy with
  | .firstMatch => firstMatch constraint self
  | .lastMatch => lastMatch constraint self
  | .exactMatch startAddress => exactMatch startAddress constraint self

end InnerNode

/-- The tree behind `&mut self`; `AvlTree.nil` is `root: None`. -/
structure IntervalTree where
  root : InnerNode
  deriving DecidableEq, Repr

namespace IntervalTree

def new (key : RangeInclusive) : IntervalTree := ⟨InnerNode.new key .free⟩

def searchSuperset (key : RangeInclusive) (self : IntervalTree) : Option Slot := InnerNode.searchSuperset key self.root

/-- `IntervalTree::insert`: the root has been taken out when `InnerNode::insert` fails. -/
def insert (key : RangeInclusive) (nodeState : NodeState) : Exec IntervalTree Error Unit := fun self =>
    match InnerNode.insert key nodeState self.root with
    | .ok root => (.ok (), ⟨root⟩)
    | .err e => (.err e, ⟨.nil⟩)
    | .panic => (.panic, ⟨.nil⟩)

def markAsAllocated (key : RangeInclusive) : Exec IntervalTree Error Unit := fun self =>
  match self.root with
  | .nil => (.ok (), self)
  | .node v left right h =>
    match InnerNode.markAsAllocated key (.node v left right h) with
    | .ok root => (.ok (), ⟨root⟩)
    | .err e => (.err e, self)
    | .panic => (.panic, self)

def delete (key : RangeInclusive) : Exec IntervalTree Error Unit := fun self =>
  match self.root with
  | .nil => (.ok (), self)
  | .node v left right h =>
    match InnerNode.search key (.node v left right h) with
    | none => (.err .resourceNotAvailable, self)
    | some _ =>
      match InnerNode.delete key (.node v left right h) with
      | some root => (.ok (), ⟨root⟩)
      | none => (.panic, ⟨.nil⟩)

/-- Insert what is left of the candidate node before the allocated range. -/
def insertBefore (nodeKey result : RangeInclusive) : Exec IntervalTree Error Unit :=
  if result.start > nodeKey.start then do
    let last ← .lift (.okOr (checkedSub result.start 1) .overflow)
    let range ← .lift (RangeInclusive.new nodeKey.start last)
    insert range .free
  else pure ()

/-- Insert what is left of the candidate node after the allocated range. -/
def insertAfter (nodeKey result : RangeInclusive) : Exec IntervalTree Error Unit :=
  if result.end_ < nodeKey.end_ then do
    let first ← .lift (.okOr (checkedAdd result.end_ 1) .overflow)
    let range ← .lift (RangeInclusive.new first nodeKey.end_)
    insert range .free
  else pure ()

/-- The range handed out: `size` addresses from the candidate's aligned start on. -/
def resultRange (range : RangeInclusive) (constraint : Constraint) : Outcome Error RangeInclusive := do
  let addr ← .okOr (checkedAdd range.start constraint.size.toNat) .overflow
  let last ← .okOr (checkedSub addr 1) .underflow
  RangeInclusive.new range.start last

/-- The candidate node is no perfect match: replace it by up to three nodes. -/
def split (nodeKey result : RangeInclusive) : Exec IntervalTree Error RangeInclusive := do
  delete nodeKey
  insertBefore nodeKey result
  insert result .allocated
  insertAfter nodeKey result
  return result

def allocate (constraint : Constraint) : Exec IntervalTree Error RangeInclusive := do
  let self ← .get
  let root ← .lift (.okOr (AvlTree.unwrap self.root) .resourceNotAvailable)
  let (node, range) ← .lift (InnerNode.findCandidate constraint root)
  let nodeKey := node.key
  let result ← .lift (resultRange range constraint)
  if nodeKey.start = result.start ∧ nodeKey.len = constraint.size.toNat then do
    markAsAllocated nodeKey
    return nodeKey
  else split nodeKey result

/-- The left half of the merge: extend `range` over the free node that covers the two
addresses before it. -/
def mergeLeft (range : RangeInclusive) : Exec IntervalTree Error RangeInclusive :=
  if range.start > 0 then do
    let self ← .get
    let first ← .lift (.okOr (checkedSub range.start 2) .underflow)
    let last ← .lift (.okOr (checkedSub range.start 1) .underflow)
    let probe ← .lift (RangeInclusive.new first last)
    match self.searchSuperset probe with
    | some node =>
      if node.nodeState = .free then .lift (RangeInclusive.new node.key.start range.end_)
      else pure range
    | none => pure range
  else pure range

/-- The right half of the merge. -/
def mergeRight (range : RangeInclusive) : Exec IntervalTree Error RangeInclusive :=
  if range.end_ < U64_MAX then do
    let self ← .get
    let first ← .lift (.okOr (checkedAdd range.end_ 1) .overflow)
    let last ← .lift (.okOr (checkedAdd range.end_ 2) .overflow)
    let probe ← .lift (RangeInclusive.new first last)
    match self.searchSuperset probe with
    | some node =>
      if node.nodeState = .free then .lift (RangeInclusive.new range.start node.key.end_)
      else pure range
    | none => pure range
  else pure range

/-- Take out the left node that `range` has absorbed. -/
def deleteLeft (key range : RangeInclusive) : Exec IntervalTree Error Unit :=
  if range.start < key.start then do
    let last ← .lift (.okOr (checkedSub key.start 1) .underflow)
    let left ← .lift (RangeInclusive.new range.start last)
    delete left
  else pure ()

def deleteRight (key range : RangeInclusive) : Exec IntervalTree Error Unit :=
  if range.end_ > key.end_ then do
    let first ← .lift (.okOr (checkedAdd key.end_ 1) .overflow)
    let right ← .lift (RangeInclusive.new first range.end_)
    delete right
  else pure ()

def free (key : RangeInclusive) : Exec IntervalTree Error Unit := do
  delete key
  let range ← mergeLeft key
  let range ← mergeRight range
  deleteLeft key range
  deleteRight key range
  insert range .free

end IntervalTree

structure AddressAllocator where
  addressSpace : RangeInclusive
  intervalTree : IntervalTree
  deriving DecidableEq, Repr

namespace AddressAllocator

def new (base size : UInt64) : Outcome Error AddressAllocator := do
  let span ← .okOr (checkedSub size.toNat 1) .underflow
  let last ← .okOr (checkedAdd base.toNat span) .overflow
  let auxRange ← RangeInclusive.new base.toNat last
  return ⟨auxRange, IntervalTree.new auxRange⟩

def onTree {α : Type} (x : Exec IntervalTree Error α) : Exec AddressAllocator Error α := fun self =>
  let (r, tree) := x self.intervalTree
  (r, { self with intervalTree := tree })

def allocate (size alignment : UInt64) (policy : AllocPolicy) : Exec AddressAllocator Error RangeInclusive := do
  let constraint ← .lift (Constraint.new size alignment policy)
  onTree (IntervalTree.allocate constraint)

def free (key : RangeInclusive) : Exec AddressAllocator Error Unit := onTree (IntervalTree.free key)

end AddressAllocator

end RustVmm.VmAllocator
