import LynxTrace.Core.BitVector
import LynxTrace.Core.StorageTypes

/-!
# Core.Column — the columns of a dataframe (src/trace_processor/core/dataframe/types.h)
-/

namespace LynxTrace.TraceProcessor.Core

/-- `Storage`.  An `Id` column has no buffer. -/
inductive Storage
  | id (size : ℕ)
  | flex (type : StorageType) (data : List Value)
  deriving DecidableEq, Repr

namespace Storage

def type : Storage → StorageType
  | id _ => .id
  | flex type _ => type

/-- The number of elements. -/
def size : Storage → ℕ
  | id size => size
  | flex _ data => data.length

/-- The element at an index. -/
def get : Storage → ℕ → Option Value
  | id size, i => if i < size then some (.int i) else none
  | flex _ data, i => data[i]?

end Storage

/-- `NullStorage::SparseNull`. -/
structure SparseNull where
  bitVector : BitVector := {}
  prefixPopcountForCellGet : List ℕ := []
  deriving DecidableEq, Repr

inductive NullStorage
  | nonNull
  | sparseNull (nulls : SparseNull)
  | sparseNullWithPopcountAlways (nulls : SparseNull)
  | sparseNullWithPopcountUntilFinalization (nulls : SparseNull)
  | denseNull (bitVector : BitVector)
  deriving DecidableEq, Repr

inductive SortState
  | idSorted | setIdSorted | sorted | unsorted
  deriving DecidableEq, Repr

inductive DuplicateState
  | noDuplicates | hasDuplicates
  deriving DecidableEq, Repr

/-- `SpecializedStorage::SmallValueEq`. -/
structure SmallValueEq where
  bitVector : BitVector
  prefixPopcount : List ℕ
  deriving DecidableEq, Repr

structure Column where
  storage : Storage
  nullStorage : NullStorage
  sortState : SortState
  duplicateState : DuplicateState
  specializedStorage : Option SmallValueEq := none
  mutations : ℕ := 0
  deriving DecidableEq, Repr

end LynxTrace.TraceProcessor.Core
