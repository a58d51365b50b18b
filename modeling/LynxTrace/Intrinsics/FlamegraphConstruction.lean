import LynxTrace.Base.PathTrie

/-!
# FlamegraphConstruction — flamegraph tables of heap profiles and of sampled callstacks

`getMergedCallsites` and the three builders follow `flamegraph_construction_algorithms.cc`; `none` is a failed check or
a lookup of a row that is not there.  Ids are row numbers, strings are ids of the string pool.  The maps keyed by merged
callsites are lists of entries; `MergedCallsite.node` is what their order compares.
-/

namespace LynxTrace.TraceProcessor.Intrinsics.Flamegraph

abbrev StringId := ℕ

/-! ### Tables -/

structure StackProfileCallsite where
  parentId : Option ℕ
  frameId : ℕ
  deriving DecidableEq, Repr

structure StackProfileFrame where
  name : StringId
  mapping : ℕ
  symbolSetId : Option ℕ
  deobfuscatedName : Option StringId
  deriving DecidableEq, Repr

structure Symbol where
  symbolSetId : ℕ
  name : StringId
  sourceFile : Option StringId
  lineNumber : Option ℕ
  deriving DecidableEq, Repr

structure TraceStorage where
  callsites : List StackProfileCallsite
  frames : List StackProfileFrame
  symbols : List Symbol
  /-- The names of the mappings. -/
  mappings : List StringId
  deriving DecidableEq, Repr

/-- The columns that are summed up. -/
structure Totals where
  size : Int64
  count : Int64
  allocSize : Int64
  allocCount : Int64
  deriving DecidableEq, Repr

instance : Zero Totals := ⟨⟨0, 0, 0, 0⟩⟩

instance : Add Totals :=
  ⟨fun a b => ⟨a.size + b.size, a.count + b.count, a.allocSize + b.allocSize, a.allocCount + b.allocCount⟩⟩

/-- A row of `ExperimentalFlamegraphTable`; its id is its row number. -/
structure Row where
  profileType : StringId
  upid : Option ℕ
  upidGroup : Option StringId
  ts : Int64
  depth : ℕ
  name : StringId
  mapName : StringId
  own : Totals
  cumulative : Totals
  parentId : Option ℕ
  sourceFile : Option StringId
  lineNumber : Option ℕ
  deriving DecidableEq, Repr

/-! ### Merging callsites -/

structure MergedCallsite where
  frameName : StringId
  mappingName : StringId
  sourceFile : Option StringId
  lineNumber : Option ℕ
  parentIdx : Option ℕ
  deriving DecidableEq, Repr

/-- The name of a frame with the name of its mapping. -/
abbrev FrameKey := StringId × StringId

def MergedCallsite.key (callsite : MergedCallsite) : FrameKey := (callsite.frameName, callsite.mappingName)

/-- What `operator<` compares. -/
def MergedCallsite.node (callsite : MergedCallsite) : TrieNode FrameKey := ⟨callsite.parentIdx, callsite.key⟩

def Row.node (row : Row) : TrieNode FrameKey := ⟨row.parentId, (row.name, row.mapName)⟩

/-- The frames of a callsite, the outermost of the inlined ones first. -/
def getMergedCallsites (storage : TraceStorage) (callstackRow : ℕ) : Option (List MergedCallsite) := do
  let callsite ← storage.callsites[callstackRow]?
  let frame ← storage.frames[callsite.frameId]?
  let mappingName ← storage.mappings[frame.mapping]?
  match frame.symbolSetId with
  | none => return [⟨frame.deobfuscatedName.getD frame.name, mappingName, none, none, none⟩]
  | some symbolSetId =>
    let _ ← storage.symbols[symbolSetId]?
    -- the id of the set is the id of its first symbol
    let symbols := (storage.symbols.drop symbolSetId).takeWhile fun symbol => symbol.symbolSetId = symbolSetId
    return (symbols.map fun symbol => ⟨symbol.name, mappingName, symbol.sourceFile, symbol.lineNumber, none⟩).reverse

/-- A `std::map` from merged callsites to rows. -/
abbrev CallsiteMap := List (MergedCallsite × ℕ)

namespace CallsiteMap

def find (m : CallsiteMap) (callsite : MergedCallsite) : Option (MergedCallsite × ℕ) :=
  List.find? (fun entry => entry.1.node = callsite.node) m

def erase (m : CallsiteMap) (callsite : MergedCallsite) : CallsiteMap :=
  List.filter (fun entry => entry.1.node ≠ callsite.node) m

/-- `m[callsite] = row`: a key that is there stays as it is. -/
def assign (m : CallsiteMap) (callsite : MergedCallsite) (row : ℕ) : CallsiteMap :=
  if (find m callsite).isSome then
    List.map (fun entry => if entry.1.node = callsite.node then (entry.1, row) else entry) m
  else m ++ [(callsite, row)]

end CallsiteMap

/-- What the rows of one table have in common. -/
structure RowArgs where
  upid : Option ℕ
  upidGroup : Option StringId
  defaultTimestamp : Int64
  profileType : StringId
  deriving DecidableEq, Repr

/-- The variables of the loop over the frames of a callsite. -/
structure Merging where
  tbl : List Row
  mergedCallsitesToTableIdx : CallsiteMap
  parentIdx : Option ℕ
  callsitesToRowid : CallsiteMap
  deriving DecidableEq, Repr

/-- A row is one level below its parent. -/
def rowDepth (tbl : List Row) : Option ℕ → Option ℕ
  | none => some 0
  | some parentIdx => tbl[parentIdx]?.map fun parent => parent.depth + 1

def newRow (args : RowArgs) (tbl : List Row) (callsite : MergedCallsite) : Option Row :=
  (rowDepth tbl callsite.parentIdx).map fun depth =>
    ⟨args.profileType, args.upid, args.upidGroup, args.defaultTimestamp, depth, callsite.frameName,
      callsite.mappingName, 0, 0, callsite.parentIdx, none, none⟩

def mergeCallsite (args : RowArgs) (m : Merging) (callsite : MergedCallsite) : Option Merging :=
  let callsite := { callsite with parentIdx := m.parentIdx }
  let idx := m.mergedCallsitesToTableIdx.length
  match m.mergedCallsitesToTableIdx.find callsite with
  | none => do
    let row ← newRow args m.tbl callsite
    if idx + 1 = (m.tbl ++ [row]).length then
      some ⟨m.tbl ++ [row], m.mergedCallsitesToTableIdx ++ [(callsite, idx)], some idx,
        m.callsitesToRowid.assign callsite idx⟩
    else none
  | some (saved, row) =>
    let sourceFile := if saved.sourceFile ≠ callsite.sourceFile then none else saved.sourceFile
    let lineNumber := if saved.lineNumber ≠ callsite.lineNumber then none else saved.lineNumber
    some { m with
      parentIdx := some row
      callsitesToRowid := (m.callsitesToRowid.erase saved).assign { saved with sourceFile, lineNumber } row }

def setSource (row : Row) (callsite : MergedCallsite) : Row :=
  { row with
    sourceFile := callsite.sourceFile.or row.sourceFile
    lineNumber := callsite.lineNumber.or row.lineNumber }

def setSources (tbl : List Row) (callsitesToRowid : CallsiteMap) : List Row :=
  callsitesToRowid.foldl (fun tbl entry => tbl.modify entry.2 fun row => setSource row entry.1) tbl

/-- The table and the merged callsites of the callsites so far. -/
structure FlamegraphTableAndMergedCallsites where
  tbl : List Row
  mergedCallsitesToTableIdx : CallsiteMap
  callsiteToMergedCallsite : List ℕ
  deriving DecidableEq, Repr

/-- The row of the parent of a callsite, which has to come before it. -/
def mergedParent (f : FlamegraphTableAndMergedCallsites) (i : ℕ) : Option ℕ → Option (Option ℕ)
  | none => some none
  | some parentId => if parentId < i then f.callsiteToMergedCallsite[parentId]?.map some else none

def addCallsite (storage : TraceStorage) (args : RowArgs) (f : FlamegraphTableAndMergedCallsites) (i : ℕ) :
    Option FlamegraphTableAndMergedCallsites := do
  let callsite ← storage.callsites[i]?
  let parentIdx ← mergedParent f i callsite.parentId
  let callsites ← getMergedCallsites storage i
  if callsites = [] then none
  else
    let m ← callsites.foldlM (mergeCallsite args) ⟨f.tbl, f.mergedCallsitesToTableIdx, parentIdx, []⟩
    let merged ← m.parentIdx
    return ⟨setSources m.tbl m.callsitesToRowid, m.mergedCallsitesToTableIdx, f.callsiteToMergedCallsite ++ [merged]⟩

/-- `BuildFlamegraphTableTreeStructure` -/
def buildTreeStructure (storage : TraceStorage) (args : RowArgs) : Option FlamegraphTableAndMergedCallsites :=
  (List.range storage.callsites.length).foldlM (addCallsite storage args) ⟨[], [], []⟩

/-! ### Sizes and counts -/

structure HeapProfileAllocation where
  callsiteId : ℕ
  count : Int64
  size : Int64
  deriving DecidableEq, Repr

/-- What an allocation or a free adds to the row of its callsite. -/
def HeapProfileAllocation.totals (a : HeapProfileAllocation) : Totals :=
  ⟨a.size, a.count, if 0 < a.size then a.size else 0, if 0 < a.count then a.count else 0⟩

/-- The sign check of an allocation. -/
def HeapProfileAllocation.Signed (a : HeapProfileAllocation) : Prop :=
  (a.size ≤ 0 ∧ a.count ≤ 0) ∨ (0 ≤ a.size ∧ 0 ≤ a.count)

instance (a : HeapProfileAllocation) : Decidable a.Signed := inferInstanceAs (Decidable (_ ∨ _))

/-- The row of a callsite changed. -/
def modifyMerged (callsiteToMergedCallsite : List ℕ) (callsiteId : ℕ) (f : Row → Row) (tbl : List Row) :
    Option (List Row) := do
  let idx ← callsiteToMergedCallsite[callsiteId]?
  let row ← tbl[idx]?
  return tbl.set idx (f row)

def addAllocation (callsiteToMergedCallsite : List ℕ) (tbl : List Row) (a : HeapProfileAllocation) : Option (List Row) :=
  if a.Signed then
    modifyMerged callsiteToMergedCallsite a.callsiteId (fun row => { row with own := row.own + a.totals }) tbl
  else none

def Row.setCumulative (row : Row) (totals : Totals) : Row := { row with cumulative := totals }

def addToParent (add : Totals → Totals → Totals) (totals : Totals) (tbl : List Row) : Option ℕ → Option (List Row)
  | none => some tbl
  | some parentId =>
    tbl[parentId]?.map fun parent => tbl.set parentId (parent.setCumulative (add parent.cumulative totals))

/-- One step of the backward pass; `add` adds the columns of the profile. -/
def propagate (add : Totals → Totals → Totals) (tbl : List Row) (idx : ℕ) : Option (List Row) :=
  tbl[idx]?.bind fun row =>
    let totals := add row.cumulative row.own
    addToParent add totals (tbl.set idx (row.setCumulative totals)) row.parentId

def backwardPass (add : Totals → Totals → Totals) (tbl : List Row) : Option (List Row) :=
  (List.range tbl.length).reverse.foldlM (propagate add) tbl

/-- `BuildFlamegraphTableHeapSizeAndCount` -/
def buildHeapSizeAndCount (tbl : List Row) (callsiteToMergedCallsite : List ℕ)
    (allocations : List HeapProfileAllocation) : Option (List Row) := do
  let tbl ← allocations.foldlM (addAllocation callsiteToMergedCallsite) tbl
  backwardPass (· + ·) tbl

structure PerfSample where
  ts : Int64
  utid : ℕ
  callsiteId : Option ℕ
  deriving DecidableEq, Repr

def addSample (callsiteToMergedCallsite utids : List ℕ) (tbl : List Row) (sample : PerfSample) : Option (List Row) :=
  if sample.utid ∈ utids then
    modifyMerged callsiteToMergedCallsite (sample.callsiteId.getD 0) (fun row =>
      { row with own := { row.own with size := row.own.size + 1, count := row.own.count + 1 }, ts := sample.ts }) tbl
  else some tbl

/-- The sum of the columns that samples have. -/
def Totals.addSizeAndCount (a b : Totals) : Totals := { a with size := a.size + b.size, count := a.count + b.count }

/-- `BuildFlamegraphTableCallstackSizeAndCount` -/
def buildCallstackSizeAndCount (tbl : List Row) (callsiteToMergedCallsite : List ℕ) (samples : List PerfSample)
    (utids : List ℕ) : Option (List Row) := do
  let tbl ← samples.foldlM (addSample callsiteToMergedCallsite utids) tbl
  backwardPass Totals.addSizeAndCount tbl

end LynxTrace.TraceProcessor.Intrinsics.Flamegraph
