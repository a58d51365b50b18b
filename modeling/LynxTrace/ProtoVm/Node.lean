import LynxTrace.Base.IntrusiveTree
import LynxTrace.Protozero.Decoder

/-!
# ProtoVm.Node — the nodes of an `RwProto` and their allocator (src/protovm/node.h, allocator.{h,cc})

The identity of a `Node` stands for the address of the C++ node: assigning to `node->value` keeps it, allocating a node
makes a new one, and no identity is used twice.  The `trace` of the `Allocator` is not in the source: it records the
places where a node operation decides what becomes of nodes it no longer uses.
-/

namespace LynxTrace.ProtoVm

open LynxTrace.Protozero

structure Scalar where
  wireType : ProtoWireType
  value : ℕ
  deriving DecidableEq, Repr

mutual

structure Node where
  id : ℕ
  value : NodeValue

/-- The `std::variant` of a node.  A map entry is the key and the value of a `Node::MapNode`, the holder that
hangs in the tree and owns the value node. -/
inductive NodeValue where
  | bytes (data : List UInt8)
  | empty
  | indexedRepeatedField (indexToNode : List (ℕ × Node)) (hasBeenMerged : Bool)
  | mappedRepeatedField (keyToNode : List (ℕ × Node))
  | message (fieldIdToNode : List (ℕ × Node))
  | scalar (s : Scalar)

end

/-- `IntrusiveMap`. -/
abbrev NodeMap : Type := List (ℕ × Node)

/-- The map a value holds. -/
def NodeValue.entries : NodeValue → NodeMap
  | .indexedRepeatedField m _ => m
  | .mappedRepeatedField m => m
  | .message m => m
  | .bytes _ => []
  | .empty => []
  | .scalar _ => []

def NodeValue.setEntries (m : NodeMap) : NodeValue → NodeValue
  | .indexedRepeatedField _ b => .indexedRepeatedField m b
  | .mappedRepeatedField _ => .mappedRepeatedField m
  | .message _ => .message m
  | .bytes d => .bytes d
  | .empty => .empty
  | .scalar s => .scalar s

/-- `sizeof(Node)` with 64-bit pointers: the 48 bytes of a `MapNode` and the index of the variant. -/
def sizeofNode : ℕ := 56

/-! ### Memory of a node -/

mutual

/-- Memory a node's value refers to: the blob of a `Bytes`, or the nodes of a map with their holders. -/
def NodeValue.cost : NodeValue → ℕ
  | .bytes data => data.length
  | .empty => 0
  | .indexedRepeatedField m _ => entriesCost m
  | .mappedRepeatedField m => entriesCost m
  | .message m => entriesCost m
  | .scalar _ => 0

/-- Every entry has a holder and a value node. -/
def entriesCost : List (ℕ × Node) → ℕ
  | [] => 0
  | (_, ⟨_, v⟩) :: m => 2 * sizeofNode + v.cost + entriesCost m

end

/-- An allocated node with everything it refers to. -/
def Node.cost (n : Node) : ℕ := sizeofNode + n.value.cost

@[simp] theorem Node.cost_mk (id : ℕ) (v : NodeValue) : Node.cost ⟨id, v⟩ = sizeofNode + v.cost := rfl

/-- A map entry: its holder and its node. -/
def entryCost (n : Node) : ℕ := sizeofNode + n.cost

theorem entriesCost_eq (m : NodeMap) : entriesCost m = IntrusiveTree.weight entryCost m := by
  induction m with
  | nil => rfl
  | cons e m ih =>
    obtain ⟨k, id, v⟩ := e
    rw [entriesCost, IntrusiveTree.weight_cons, ih]
    simp only [entryCost, Node.cost]
    omega

/-! ### Allocator -/

/-- How an operation on a node ends. -/
inductive OpStatus
  | kOk
  | kAbort
  /-- A null pointer is dereferenced inside the operation. -/
  | nullNode
  deriving DecidableEq, Repr

inductive Status
  | kOk
  | kError
  | kAbort
  /-- A pointer that is null, or that denotes no node of the tree, is dereferenced through a cursor. -/
  | danglingCursor
  /-- A null pointer is dereferenced inside a node operation. -/
  | nullNode
  deriving DecidableEq, Repr

def OpStatus.toStatus : OpStatus → Status
  | kOk => .kOk
  | kAbort => .kAbort
  | nullNode => .nullNode

/-- Where an operation gives up nodes without freeing them, or may: what it had in hand. -/
inductive NodeEvent
  /-- `Delete` through a cursor without holding map resets a node with this value. -/
  | resetUnheld (v : NodeValue)
  /-- An indexed repeated field with these entries is re-keyed by a subfield. -/
  | rekey (mapKeyFieldId : ℕ) (entries : NodeMap)
  /-- `Merge` has created a node for a field whose node in the destination has this value. -/
  | mergeField (dst : NodeValue)

structure Allocator where
  memoryLimitBytes : ℕ
  usedMemoryBytes : ℕ := 0
  nextId : ℕ := 0
  trace : List NodeEvent := []

/-- More bytes than this are never handed out by `malloc` and the slab allocator together. -/
def addressSpace : ℕ := 2 ^ 63

/-- `used_memory_bytes_ + size`, in `size_t`. -/
def Allocator.grown (al : Allocator) (size : ℕ) : ℕ := (al.usedMemoryBytes + size) % 2 ^ 64

/-- The check of `CreateNode` and `AllocateAndCopyBytes`, and the allocation itself. -/
def Allocator.reserve (al : Allocator) (size : ℕ) : Option Allocator :=
  if al.grown size > al.memoryLimitBytes then none
  else if al.usedMemoryBytes + size > addressSpace then none
  else some { al with usedMemoryBytes := al.grown size }

/-- `used_memory_bytes_ -= size`, in `size_t`. -/
def Allocator.release (al : Allocator) (size : ℕ) : Allocator :=
  { al with usedMemoryBytes := (al.usedMemoryBytes + (2 ^ 64 - size % 2 ^ 64)) % 2 ^ 64 }

def Allocator.record (al : Allocator) (e : NodeEvent) : Allocator := { al with trace := e :: al.trace }

/-- `CreateNode`: the identity of a new node. -/
def Allocator.createNode (al : Allocator) : Option (ℕ × Allocator) :=
  (al.reserve sizeofNode).map fun al => (al.nextId, { al with nextId := al.nextId + 1 })

/-- `AllocateAndCopyBytes` of `size` bytes. -/
def Allocator.allocateAndCopyBytes (al : Allocator) (size : ℕ) : Option Allocator := al.reserve size

mutual

/-- `DeleteReferencedData` of a node's value. -/
def Allocator.deleteReferencedData : NodeValue → Allocator → Allocator
  | .message m, al => Allocator.deleteEntries m al
  | .indexedRepeatedField m _, al => Allocator.deleteEntries m al
  | .mappedRepeatedField m, al => Allocator.deleteEntries m al
  | .bytes data, al => al.release data.length
  | .empty, al => al
  | .scalar _, al => al

/-- Deletes the holders of a map; a holder deletes its value node first. -/
def Allocator.deleteEntries : List (ℕ × Node) → Allocator → Allocator
  | [], al => al
  | (_, ⟨_, v⟩) :: m, al =>
    Allocator.deleteEntries m (((Allocator.deleteReferencedData v al).release sizeofNode).release sizeofNode)

end

/-- `Delete` of a value node. -/
def Allocator.delete (n : Node) (al : Allocator) : Allocator :=
  (Allocator.deleteReferencedData n.value al).release sizeofNode

/-- `Delete` of the holder of an entry. -/
def Allocator.deleteEntry (n : Node) (al : Allocator) : Allocator := (Allocator.delete n al).release sizeofNode

end LynxTrace.ProtoVm
