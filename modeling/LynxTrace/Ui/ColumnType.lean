import Mathlib.Data.List.Defs

/-!
# Ui.ColumnType — the column types of query_result.ts
-/

namespace LynxTrace.Ui

inductive ColumnType
  | unknown | num | numNull | long | longNull | blob | blobNull | str | strNull
  deriving DecidableEq

/-- `inheritanceTree` -/
def ColumnType.extends : ColumnType → Option ColumnType
  | .unknown => none
  | .num => some .numNull
  | .long => some .longNull
  | .blob => some .blobNull
  | .str => some .strNull
  | .numNull | .longNull | .blobNull | .strNull => some .unknown

def getAncestryPath (type : ColumnType) : List ColumnType :=
  type :: match type.extends with
    | none => []
    | some parent => parent :: parent.extends.toList

def unionTypes (typeA typeB : ColumnType) : Option ColumnType :=
  if typeA = typeB then some typeA else (getAncestryPath typeA).find? fun type => type ∈ getAncestryPath typeB

end LynxTrace.Ui
