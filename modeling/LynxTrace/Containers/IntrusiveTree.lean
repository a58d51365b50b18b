import LynxTrace.Base.RedBlackTree
import Mathlib.Logic.Function.Basic

/-!
# Containers.IntrusiveTree — red-black trees through links (src/base/intrusive_tree.cc, ext/base/intrusive_tree.h)

The nodes of all entries, of those outside the tree as well, are one map from entries to nodes; an entry and its node
have one address.  A null pointer is `none`.  A function gives `none` where the code would follow a null pointer, where
a check fails and where a loop has more rounds than `fuel`.  Both halves of a function that has a left and a right one
are written out; each is an instance of one definition over the side, and this is checked by `rfl`.
-/

namespace LynxTrace.IntrusiveRBTree

open RedBlack

abbrev RBColor := RedBlack.Color

structure RBNode (P : Type*) where
  left : Option P := none
  right : Option P := none
  parent : Option P := none
  color : RBColor := .black
  deriving DecidableEq, Repr

/-- The nodes, and what `RBNode** root` points at. -/
structure Nodes (P : Type*) where
  node : P → RBNode P
  root : Option P

variable {P : Type*} [DecidableEq P]

namespace Nodes

def setNode (h : Nodes P) (p : P) (n : RBNode P) : Nodes P := { h with node := Function.update h.node p n }

def setLeft (h : Nodes P) (p : P) (v : Option P) : Nodes P := h.setNode p { h.node p with left := v }

def setRight (h : Nodes P) (p : P) (v : Option P) : Nodes P := h.setNode p { h.node p with right := v }

def setParent (h : Nodes P) (p : P) (v : Option P) : Nodes P := h.setNode p { h.node p with parent := v }

def setColor (h : Nodes P) (p : P) (c : RBColor) : Nodes P := h.setNode p { h.node p with color := c }

def setRoot (h : Nodes P) (v : Option P) : Nodes P := { h with root := v }

/-- `if (p) p->parent = v;` -/
def setParentOf (h : Nodes P) (p : Option P) (v : Option P) : Nodes P :=
  match p with
  | some p => h.setParent p v
  | none => h

/-- `if (p) p->color = RBColor::BLACK;` -/
def setBlackOf (h : Nodes P) (p : Option P) : Nodes P :=
  match p with
  | some p => h.setColor p .black
  | none => h

/-- `p && p->color == RBColor::RED` -/
def isRed (h : Nodes P) (p : Option P) : Bool :=
  match p with
  | some p => (h.node p).color = .red
  | none => false

/-- `p == nullptr || p->color == RBColor::BLACK` -/
def isBlack (h : Nodes P) (p : Option P) : Bool :=
  match p with
  | some p => (h.node p).color = .black
  | none => true

/-- `if (parent) { if (parent->left == elm) parent->left = p; else parent->right = p; } else *root = p;` -/
def replaceChild (h : Nodes P) (parent : Option P) (elm : P) (p : Option P) : Nodes P :=
  match parent with
  | some parent => if (h.node parent).left = some elm then h.setLeft parent p else h.setRight parent p
  | none => h.setRoot p

def rbSetBlackRed (h : Nodes P) (black red : P) : Nodes P := (h.setColor black .black).setColor red .red

/-! ### Rotations -/

/-- The last argument is overwritten at once. -/
def rbRotateLeft (h : Nodes P) (elm : P) (_tmp : Option P) : Option (Nodes P) := do
  let tmp ← (h.node elm).right
  let h := h.setRight elm (h.node tmp).left
  let h := h.setParentOf (h.node tmp).left (some elm)
  let h := h.setParent tmp (h.node elm).parent
  let h := h.replaceChild (h.node elm).parent elm (some tmp)
  let h := h.setLeft tmp (some elm)
  pure (h.setParent elm (some tmp))

def rbRotateRight (h : Nodes P) (elm : P) (_tmp : Option P) : Option (Nodes P) := do
  let tmp ← (h.node elm).left
  let h := h.setLeft elm (h.node tmp).right
  let h := h.setParentOf (h.node tmp).right (some elm)
  let h := h.setParent tmp (h.node elm).parent
  let h := h.replaceChild (h.node elm).parent elm (some tmp)
  let h := h.setRight tmp (some elm)
  pure (h.setParent elm (some tmp))

/-! ### `RBInsertColor` -/

/-- The branch `parent == gparent->left`, with the new `elm`. -/
def insertColorLeft (h : Nodes P) (elm parent gparent : P) : Option (Nodes P × P) :=
  let tmp := (h.node gparent).right
  if h.isRed tmp then do
    let uncle ← tmp
    pure ((h.setColor uncle .black).rbSetBlackRed parent gparent, gparent)
  else do
    let (h, elm, parent, tmp) ←
      if (h.node parent).right = some elm then do
        let h ← h.rbRotateLeft parent tmp
        pure (h, parent, elm, some parent)
      else pure (h, elm, parent, tmp)
    let h ← (h.rbSetBlackRed parent gparent).rbRotateRight gparent tmp
    pure (h, elm)

/-- The other branch. -/
def insertColorRight (h : Nodes P) (elm parent gparent : P) : Option (Nodes P × P) :=
  let tmp := (h.node gparent).left
  if h.isRed tmp then do
    let uncle ← tmp
    pure ((h.setColor uncle .black).rbSetBlackRed parent gparent, gparent)
  else do
    let (h, elm, parent, tmp) ←
      if (h.node parent).left = some elm then do
        let h ← h.rbRotateRight parent tmp
        pure (h, parent, elm, some parent)
      else pure (h, elm, parent, tmp)
    let h ← (h.rbSetBlackRed parent gparent).rbRotateLeft gparent tmp
    pure (h, elm)

def insertColorLoop : ℕ → Nodes P → P → Option (Nodes P)
  | 0, _, _ => none
  | fuel + 1, h, elm =>
    match (h.node elm).parent with
    | none => some h
    | some parent =>
      if (h.node parent).color = .red then do
        let gparent ← (h.node parent).parent
        let (h, elm) ←
          if some parent = (h.node gparent).left then h.insertColorLeft elm parent gparent
          else h.insertColorRight elm parent gparent
        insertColorLoop fuel h elm
      else some h

def rbInsertColor (fuel : ℕ) (h : Nodes P) (elm : P) : Option (Nodes P) := do
  let h ← insertColorLoop fuel h elm
  let root ← h.root
  pure (h.setColor root .black)

/-! ### `RBRemoveColor` -/

/-- How a round of the loop ends: with `elm` and `parent` one level up, or with `elm = *root` and a `break`. -/
inductive Round (P : Type*)
  | climb (h : Nodes P) (parent elm : Option P)
  | leave (h : Nodes P) (elm : Option P)

/-- The branch `parent->left == elm`. -/
def removeColorLeft (h : Nodes P) (parent : P) : Option (Round P) := do
  let tmp ← (h.node parent).right
  let (h, tmp) ←
    if (h.node tmp).color = .red then do
      let h ← (h.rbSetBlackRed tmp parent).rbRotateLeft parent (some tmp)
      let tmp ← (h.node parent).right
      pure (h, tmp)
    else pure (h, tmp)
  if h.isBlack (h.node tmp).left ∧ h.isBlack (h.node tmp).right then
    let h := h.setColor tmp .red
    pure (.climb h (h.node parent).parent (some parent))
  else do
    let (h, tmp) ←
      if h.isBlack (h.node tmp).right then do
        let oleft := (h.node tmp).left
        let h ← ((h.setBlackOf oleft).setColor tmp .red).rbRotateRight tmp oleft
        let tmp ← (h.node parent).right
        pure (h, tmp)
      else pure (h, tmp)
    let h := (h.setColor tmp (h.node parent).color).setColor parent .black
    let h := h.setBlackOf (h.node tmp).right
    let h ← h.rbRotateLeft parent (some tmp)
    pure (.leave h h.root)

/-- The other branch. -/
def removeColorRight (h : Nodes P) (parent : P) : Option (Round P) := do
  let tmp ← (h.node parent).left
  let (h, tmp) ←
    if (h.node tmp).color = .red then do
      let h ← (h.rbSetBlackRed tmp parent).rbRotateRight parent (some tmp)
      let tmp ← (h.node parent).left
      pure (h, tmp)
    else pure (h, tmp)
  if h.isBlack (h.node tmp).left ∧ h.isBlack (h.node tmp).right then
    let h := h.setColor tmp .red
    pure (.climb h (h.node parent).parent (some parent))
  else do
    let (h, tmp) ←
      if h.isBlack (h.node tmp).left then do
        let oright := (h.node tmp).right
        let h ← ((h.setBlackOf oright).setColor tmp .red).rbRotateLeft tmp oright
        let tmp ← (h.node parent).left
        pure (h, tmp)
      else pure (h, tmp)
    let h := (h.setColor tmp (h.node parent).color).setColor parent .black
    let h := h.setBlackOf (h.node tmp).left
    let h ← h.rbRotateRight parent (some tmp)
    pure (.leave h h.root)

/-- The loop, with the `elm` it is left with. -/
def removeColorLoop : ℕ → Nodes P → Option P → Option P → Option (Nodes P × Option P)
  | 0, _, _, _ => none
  | fuel + 1, h, parent, elm =>
    if h.isBlack elm ∧ elm ≠ h.root then do
      let p ← parent
      let round ← if (h.node p).left = elm then h.removeColorLeft p else h.removeColorRight p
      match round with
      | .climb h parent elm => removeColorLoop fuel h parent elm
      | .leave h elm => pure (h, elm)
    else some (h, elm)

def rbRemoveColor (fuel : ℕ) (h : Nodes P) (parent elm : Option P) : Option (Nodes P) := do
  let (h, elm) ← removeColorLoop fuel h parent elm
  pure (h.setBlackOf elm)

/-! ### `RBRemove` and `RBNext` -/

/-- `while ((left = node->left)) node = left;` -/
def leftmost : ℕ → Nodes P → P → Option P
  | 0, _, _ => none
  | fuel + 1, h, node =>
    match (h.node node).left with
    | none => some node
    | some left => leftmost fuel h left

/-- The label `color`. -/
def removeFinish (fuel : ℕ) (h : Nodes P) (color : RBColor) (parent child : Option P) : Option (Nodes P) :=
  if color = .black then h.rbRemoveColor fuel parent child else some h

/-- A node without two children: its child takes its place. -/
def removeNode (fuel : ℕ) (h : Nodes P) (elm : P) (child : Option P) : Option (Nodes P) :=
  let parent := (h.node elm).parent
  let color := (h.node elm).color
  let h := (h.setParentOf child parent).replaceChild parent elm child
  h.removeFinish fuel color parent child

/-- A node with two children: the child of its successor takes the successor's place, and then the successor takes the
place of the node. -/
def removeBetween (fuel : ℕ) (h : Nodes P) (old right : P) : Option (Nodes P) := do
  let elm ← leftmost fuel h right
  let child := (h.node elm).right
  let parent := (h.node elm).parent
  let color := (h.node elm).color
  let h := (h.setParentOf child parent).replaceChild parent elm child
  let parent := if (h.node elm).parent = some old then some elm else parent
  let h := h.setNode elm (h.node old)
  let h := h.replaceChild (h.node old).parent old (some elm)
  let left ← (h.node old).left
  let h := h.setParent left (some elm)
  let h := h.setParentOf (h.node old).right (some elm)
  h.removeFinish fuel color parent child

def rbRemove (fuel : ℕ) (h : Nodes P) (elm : P) : Option (Nodes P) :=
  match (h.node elm).left with
  | none => h.removeNode fuel elm (h.node elm).right
  | some left =>
    match (h.node elm).right with
    | none => h.removeNode fuel elm (some left)
    | some right => h.removeBetween fuel elm right

/-- `while (node->parent && node == node->parent->right) node = node->parent;` and its parent. -/
def climb : ℕ → Nodes P → P → Option (Option P)
  | 0, _, _ => none
  | fuel + 1, h, node =>
    match (h.node node).parent with
    | none => some none
    | some parent => if some node = (h.node parent).right then climb fuel h parent else some (some parent)

def rbNext (fuel : ℕ) (h : Nodes P) (node : P) : Option (Option P) :=
  match (h.node node).right with
  | some right => (leftmost fuel h right).map some
  | none =>
    match (h.node node).parent with
    | some parent => if some node = (h.node parent).left then some (some parent) else climb fuel h node
    | none => climb fuel h node

end Nodes

/-! ### The class -/

/-- `nodes.root` is `root_`; `key` is `Traits::GetKey`. -/
structure IntrusiveTree (P K : Type*) where
  nodes : Nodes P
  key : P → K
  size : ℕ

section

variable {K : Type*} [LinearOrder K]

/-- `KeyCompare`, by `std::less`. -/
def keyCompare (k1 k2 : K) : ℤ := if k1 < k2 then -1 else if k2 < k1 then 1 else 0

namespace IntrusiveTree

/-- A tree in memory of any content. -/
def empty (node : P → RBNode P) (key : P → K) : IntrusiveTree P K := ⟨⟨node, none⟩, key, 0⟩

/-- The loop of `Insert`: the entry that has the key already, or the parent and how the key compares with it. -/
def insertLoop (t : IntrusiveTree P K) (key : K) : ℕ → Option P → Option P → ℤ → Option (P ⊕ Option P × ℤ)
  | 0, _, _, _ => none
  | _ + 1, none, parent, comp => some (.inr (parent, comp))
  | fuel + 1, some tmp, _, _ =>
    let comp := keyCompare key (t.key tmp)
    if comp < 0 then t.insertLoop key fuel (t.nodes.node tmp).left (some tmp) comp
    else if 0 < comp then t.insertLoop key fuel (t.nodes.node tmp).right (some tmp) comp
    else some (.inl tmp)

/-- The links of a new entry.  The checks are the ones of debug builds. -/
def link (h : Nodes P) (entry : P) (parent : Option P) (comp : ℤ) : Option (Nodes P) :=
  let h := h.setNode entry ⟨none, none, parent, .red⟩
  match parent with
  | none => some (h.setRoot (some entry))
  | some parent =>
    if comp < 0 then if (h.node parent).left = none then some (h.setLeft parent (some entry)) else none
    else if (h.node parent).right = none then some (h.setRight parent (some entry)) else none

/-- `Insert`, with the entry that the iterator points at. -/
def insert (fuel : ℕ) (t : IntrusiveTree P K) (entry : P) : Option (IntrusiveTree P K × P × Bool) :=
  (t.insertLoop (t.key entry) fuel t.nodes.root none 0).bind fun
    | .inl tmp => some (t, tmp, false)
    | .inr (parent, comp) =>
      (link t.nodes entry parent comp).bind fun h =>
        (h.rbInsertColor fuel entry).map fun h => ({ t with nodes := h, size := t.size + 1 }, entry, true)

def findLoop (t : IntrusiveTree P K) (key : K) : ℕ → Option P → Option (Option P)
  | 0, _ => none
  | _ + 1, none => some none
  | fuel + 1, some tmp =>
    let comp := keyCompare key (t.key tmp)
    if comp < 0 then t.findLoop key fuel (t.nodes.node tmp).left
    else if 0 < comp then t.findLoop key fuel (t.nodes.node tmp).right
    else some (some tmp)

def find (fuel : ℕ) (t : IntrusiveTree P K) (key : K) : Option (Option P) := t.findLoop key fuel t.nodes.root

/-- `RBRemove(&root_, …); --size_;` -/
def unlink (fuel : ℕ) (t : IntrusiveTree P K) (entry : P) : Option (IntrusiveTree P K) :=
  (t.nodes.rbRemove fuel entry).map fun h => { t with nodes := h, size := t.size - 1 }

/-- `Remove(const Key&)` -/
def removeKey (fuel : ℕ) (t : IntrusiveTree P K) (key : K) : Option (IntrusiveTree P K × Bool) :=
  (t.find fuel key).bind fun
    | none => some (t, false)
    | some entry => (t.unlink fuel entry).map fun t => (t, true)

/-- `Remove(Iterator)`, with the iterator to the next entry. -/
def removeAt (fuel : ℕ) (t : IntrusiveTree P K) (it : Option P) : Option (IntrusiveTree P K × Option P) :=
  it.bind fun entry =>
    (t.nodes.rbNext fuel entry).bind fun next => (t.unlink fuel entry).map fun t => (t, next)

/-- `Remove(T&)` -/
def remove (fuel : ℕ) (t : IntrusiveTree P K) (entry : P) : Option (IntrusiveTree P K × Option P) :=
  t.removeAt fuel (some entry)

/-- `begin()`, with the end as `none`. -/
def begin (fuel : ℕ) (t : IntrusiveTree P K) : Option (Option P) :=
  match t.nodes.root with
  | none => some none
  | some node => (Nodes.leftmost fuel t.nodes node).map some

/-- The entries that a loop from an iterator on visits, each step of it by `RBNext`. -/
def visitFrom (fuel : ℕ) (t : IntrusiveTree P K) : ℕ → Option P → Option (List P)
  | 0, _ => none
  | _ + 1, none => some []
  | rounds + 1, some node =>
    (t.nodes.rbNext fuel node).bind fun next => (t.visitFrom fuel rounds next).map fun rest => node :: rest

/-- `for (auto it = tree.begin(); it; ++it)` -/
def visit (fuel : ℕ) (t : IntrusiveTree P K) : Option (List P) :=
  (t.begin fuel).bind fun it => t.visitFrom fuel fuel it

end IntrusiveTree

end

end LynxTrace.IntrusiveRBTree
