import LynxTrace.Containers.IntrusiveTree

/-!
# Containers.IntrusiveTreeLinks — the links of a tree, and what each group of writes does to the tree
-/

namespace LynxTrace.IntrusiveRBTree

open RedBlack RedBlack.RBTree

variable {P : Type*}

/-! ### Both sides at once -/

def RBNode.child (n : RBNode P) : Side → Option P
  | .left => n.left
  | .right => n.right

theorem child_left (n : RBNode P) : n.child .left = n.left := rfl

theorem child_right (n : RBNode P) : n.child .right = n.right := rfl

namespace Nodes

/-! ### The tree in the nodes -/

/-- The nodes of a subtree, below `par`. -/
def Linked (h : Nodes P) : Option P → RBTree P → Prop
  | _, .nil => True
  | par, .node c l p r => h.node p = ⟨l.root?, r.root?, par, c⟩ ∧ h.Linked (some p) l ∧ h.Linked (some p) r

/-- The nodes around a hole in which `hole` is linked. -/
def LinkedAbove (h : Nodes P) : List (Frame P) → Option P → Prop
  | [], hole => h.root = hole
  | f :: ctx, hole =>
    ((h.node f.entry).child f.side = hole ∧ (h.node f.entry).child f.side.other = f.sibling.root? ∧
      (h.node f.entry).parent = above ctx ∧ (h.node f.entry).color = f.color) ∧
    h.Linked (some f.entry) f.sibling ∧ h.LinkedAbove ctx (some f.entry)

/-- The tree at the root; no node is in it twice. -/
structure Represents (h : Nodes P) (t : RBTree P) : Prop where
  root : h.root = t.root?
  linked : h.Linked none t
  nodup : t.toList.Nodup

section

variable {h h' : Nodes P} {s : Side} {c d : RBColor} {p x : P} {a b t : RBTree P} {f : Frame P} {ctx : List (Frame P)}
  {par hole : Option P} {fuel : ℕ}

theorem linked_join : h.Linked par (join s c p a b) ↔
    ((h.node p).child s = a.root? ∧ (h.node p).child s.other = b.root? ∧ (h.node p).parent = par ∧
      (h.node p).color = c) ∧ h.Linked (some p) a ∧ h.Linked (some p) b := by
  cases hn : h.node p
  cases s with
  | left => simp [join, Linked, hn, child_left, child_right]
  | right =>
    simp only [join, Linked, hn, RBNode.mk.injEq, child_left, child_right, Side.other_right]
    tauto

theorem Linked.congr (hl : h.Linked par t) (hsame : ∀ x ∈ t.toList, h'.node x = h.node x) : h'.Linked par t := by
  induction t generalizing par with
  | nil => trivial
  | node c l p r ihl ihr =>
    obtain ⟨hp, hl, hr⟩ := hl
    simp only [toList, List.mem_append, List.mem_cons] at hsame
    exact ⟨(hsame p (by simp)).trans hp, ihl hl fun x hx => hsame x (by simp [hx]),
      ihr hr fun x hx => hsame x (by simp [hx])⟩

theorem LinkedAbove.congr (hl : h.LinkedAbove ctx hole) (hroot : h'.root = h.root)
    (hsame : ∀ x ∈ outside ctx, h'.node x = h.node x) : h'.LinkedAbove ctx hole := by
  induction ctx generalizing hole with
  | nil => exact hroot.trans hl
  | cons f ctx ih =>
    obtain ⟨hf, hs, hup⟩ := hl
    simp only [mem_outside_cons] at hsame
    refine ⟨?_, hs.congr fun x hx => hsame x (by simp [hx]), ih hup fun x hx => hsame x (by simp [hx])⟩
    rwa [hsame f.entry (by simp)]

theorem nodup_outside_cons : (outside (f :: ctx) ++ t.toList).Nodup ↔
    (outside ctx ++ (join f.side f.color f.entry t f.sibling).toList).Nodup := by
  rw [← toList_fill_perm.nodup_iff, ← toList_fill_perm.nodup_iff, fill_cons]

theorem represents_fill : h.Represents (fill ctx t) ↔
    h.LinkedAbove ctx t.root? ∧ h.Linked (above ctx) t ∧ (outside ctx ++ t.toList).Nodup := by
  induction ctx generalizing t with
  | nil => exact ⟨fun ⟨hr, hl, hn⟩ => ⟨hr, hl, hn⟩, fun ⟨hr, hl, hn⟩ => ⟨hr, hl, hn⟩⟩
  | cons f ctx ih =>
    rw [fill_cons, ih, nodup_outside_cons, linked_join, root?_join]
    constructor
    · rintro ⟨hup, ⟨hf, ht, hs⟩, hn⟩
      exact ⟨⟨hf, hs, hup⟩, ht, hn⟩
    · rintro ⟨⟨hf, hs, hup⟩, ht, hn⟩
      exact ⟨hup, ⟨hf, ht, hs⟩, hn⟩

/-! ### Reading the tree -/

theorem Represents.node (hr : h.Represents (fill ctx (join s c x a b))) :
    (h.node x).child s = a.root? ∧ (h.node x).child s.other = b.root? ∧ (h.node x).parent = above ctx ∧
      (h.node x).color = c :=
  (linked_join.mp (represents_fill.mp hr).2.1).1

theorem Represents.frame (hr : h.Represents (fill (f :: ctx) t)) :
    (h.node f.entry).child f.side = t.root? ∧ (h.node f.entry).child f.side.other = f.sibling.root? ∧
      (h.node f.entry).parent = above ctx ∧ (h.node f.entry).color = f.color :=
  (represents_fill.mp hr).1.1

theorem Represents.parent (hr : h.Represents (fill ctx t)) (hx : t.root? = some x) :
    (h.node x).parent = above ctx := by
  obtain ⟨c, a, b, rfl⟩ := eq_join_of_root? .left hx
  exact hr.node.2.2.1

theorem Linked.color (hl : h.Linked par t) (hx : t.root? = some x) : (h.node x).color = t.color := by
  obtain ⟨c, a, b, rfl⟩ := eq_join_of_root? .left hx
  rw [color_join]
  exact (linked_join.mp hl).1.2.2.2

theorem Linked.isRed (hl : h.Linked par t) : h.isRed t.root? = decide (t.color = .red) := by
  cases t with
  | nil => rfl
  | node c l x r => simp [Nodes.isRed, RBTree.root?, hl.color (x := x) rfl]

theorem Linked.isBlack (hl : h.Linked par t) : h.isBlack t.root? = decide (t.color = .black) := by
  cases t with
  | nil => rfl
  | node c l x r => simp [Nodes.isBlack, RBTree.root?, hl.color (x := x) rfl]

theorem Represents.below (hr : h.Represents (fill ctx t)) : h.Linked (above ctx) t := (represents_fill.mp hr).2.1

theorem Represents.not_mem_outside (hr : h.Represents (fill ctx t)) (hx : x ∈ t.toList) : x ∉ outside ctx :=
  fun hup => (List.nodup_append.mp (represents_fill.mp hr).2.2).2.2 x hup x hx rfl

theorem Represents.not_mem_children (hr : h.Represents (fill ctx (join s c x a b))) :
    x ∉ a.toList ∧ x ∉ b.toList := by
  have hn := toList_join_perm.nodup_iff.mp (List.nodup_append.mp (represents_fill.mp hr).2.2).2.1
  simp only [List.cons_append, List.nodup_cons, List.mem_append, not_or] at hn
  exact hn.1

section

variable (hr : h.Represents (fill (f :: ctx) t))

include hr

/-- A node of the hole is not one of the sibling. -/
theorem Represents.entry_ne_sibling (hx : t.root? = some x) :
    f.sibling.root? ≠ some x := fun hs => by
  have hn := (represents_fill.mp hr).2.2
  simp only [outside, List.cons_append, List.append_assoc, List.nodup_cons] at hn
  exact (List.nodup_append.mp hn.2).2.2 x (mem_of_root? hs) x (by simp [mem_of_root? hx]) rfl

/-- A test for the side of a node comes out as its side. -/
theorem Represents.child_eq_iff (hx : t.root? = some x) (s : Side) :
    (h.node f.entry).child s = some x ↔ f.side = s := by
  obtain ⟨hside, hother, -⟩ := hr.frame
  rcases Side.eq_or_eq_other f.side s with rfl | rfl
  · exact iff_of_true (hside.trans hx) rfl
  · exact iff_of_false (fun hs => hr.entry_ne_sibling hx (hother.symm.trans hs)) (Side.ne_other _)

theorem Represents.left_eq_iff (hx : t.root? = some x) :
    (h.node f.entry).left = some x ↔ f.side = .left := hr.child_eq_iff hx .left

theorem Represents.entry_ne_root : t.root? ≠ h.root := fun ht => by
  obtain ⟨r, hrup, hroot⟩ := exists_root f ctx t
  have hn := (represents_fill.mp hr).2.2
  have hrt : t.root? = some r := ht.trans (hr.root.trans hroot)
  exact (List.nodup_append.mp hn).2.2 r hrup r (mem_of_root? hrt) rfl

/-- The test for the side of a hole comes out as its side, also of an empty hole beside a node. -/
theorem Represents.left_eq_iff_of_sibling (hs : f.sibling ≠ nil) :
    (h.node f.entry).left = t.root? ↔ f.side = .left := by
  cases ht : t.root? with
  | some x => exact hr.left_eq_iff ht
  | none =>
    obtain ⟨hside, hother, -⟩ := hr.frame
    cases hf : f.side with
    | left =>
      rw [hf, ht] at hside
      exact iff_of_true hside rfl
    | right =>
      rw [hf, Side.other_right] at hother
      exact iff_of_false (fun hl => hs (root?_eq_none.mp (hother.symm.trans hl))) (by decide)

end

/-- The tests of both children do not depend on the side. -/
theorem isBlack_both (s : Side) : (h.isBlack (h.node p).left ∧ h.isBlack (h.node p).right) ↔
    h.isBlack ((h.node p).child s) ∧ h.isBlack ((h.node p).child s.other) := by
  cases s with
  | left => rfl
  | right => exact and_comm

/-- The sibling of the hole is a node. -/
theorem Represents.sibling (hr : h.Represents (fill (⟨s, c, p, join s d x a b⟩ :: ctx) t)) :
    ((h.node x).child s = a.root? ∧ (h.node x).child s.other = b.root? ∧ (h.node x).parent = some p ∧
      (h.node x).color = d) ∧ h.Linked (some x) a ∧ h.Linked (some x) b := by
  rw [fill_sibling] at hr
  exact linked_join.mp hr.below

/-- The loop of `leftmost` ends at the first entry of the subtree. -/
theorem Linked.leftmost (hl : h.Linked par t) (hx : t.root? = some x) (hfuel : t.toList.length ≤ fuel) :
    ∃ ctx c y r, leftmost fuel h x = some y ∧ t = fill ctx (join .right c y r nil) ∧ before ctx = [] := by
  induction t generalizing par x fuel with
  | nil => simp at hx
  | node c l p r ihl _ =>
    obtain rfl : p = x := Option.some.inj hx
    obtain ⟨hp, hl, -⟩ := hl
    simp only [toList, List.length_append, List.length_cons] at hfuel
    obtain ⟨fuel, rfl⟩ : ∃ k, fuel = k + 1 := Nat.exists_eq_add_one.mpr (by omega)
    cases hz : l.root? with
    | none =>
      obtain rfl := root?_eq_none.mp hz
      exact ⟨[], c, p, r, by simp [Nodes.leftmost, hp], rfl, rfl⟩
    | some z =>
      obtain ⟨ctx, d, y, u, hy, rfl, hbefore⟩ := ihl hl hz (show l.toList.length ≤ fuel by omega)
      refine ⟨ctx ++ [⟨.left, c, p, r⟩], d, y, u, by simp [Nodes.leftmost, hp, hz, hy], ?_, ?_⟩
      · rw [fill_append]
        rfl
      · rw [before_append, hbefore]
        rfl

theorem Linked.leftmost_eq_head? (hl : h.Linked par t) (hx : t.root? = some x) (hfuel : t.toList.length ≤ fuel) :
    h.leftmost fuel x = t.toList.head? := by
  obtain ⟨ctx, c, y, r, hy, rfl, hbefore⟩ := hl.leftmost hx hfuel
  rw [toList_fill, hbefore, join_right]
  exact hy

end

/-! ### Rotations by side -/

variable [DecidableEq P]

def setChild (h : Nodes P) (s : Side) (p : P) (v : Option P) : Nodes P :=
  match s with
  | .left => h.setLeft p v
  | .right => h.setRight p v

/-- `RBRotateLeft` with `s = left`, `RBRotateRight` with `s = right`. -/
def rotate (s : Side) (h : Nodes P) (elm : P) (_tmp : Option P) : Option (Nodes P) := do
  let tmp ← (h.node elm).child s.other
  let h := h.setChild s.other elm ((h.node tmp).child s)
  let h := h.setParentOf ((h.node tmp).child s) (some elm)
  let h := h.setParent tmp (h.node elm).parent
  let h := h.replaceChild (h.node elm).parent elm (some tmp)
  let h := h.setChild s tmp (some elm)
  pure (h.setParent elm (some tmp))

/-! ### Reading what was written -/

section

variable {h : Nodes P} {s s' : Side} {p q : P} {v w o : Option P} {c : RBColor} {n : RBNode P}

theorem node_setNode : (h.setNode p n).node q = if q = p then n else h.node q := Function.update_apply ..

@[simp] theorem node_setNode_self : (h.setNode p n).node p = n := by simp [node_setNode]

theorem node_setNode_of_ne (hq : q ≠ p) : (h.setNode p n).node q = h.node q := by simp [node_setNode, hq]

@[simp] theorem root_setNode : (h.setNode p n).root = h.root := rfl

@[simp] theorem root_setChild : (h.setChild s p v).root = h.root := by cases s <;> rfl

@[simp] theorem root_setParent : (h.setParent p v).root = h.root := rfl

@[simp] theorem root_setColor : (h.setColor p c).root = h.root := rfl

@[simp] theorem root_setParentOf : (h.setParentOf o v).root = h.root := by cases o <;> rfl

theorem node_setChild_of_ne (hq : q ≠ p) : (h.setChild s p v).node q = h.node q := by
  cases s <;> exact node_setNode_of_ne hq

theorem node_setParent_of_ne (hq : q ≠ p) : (h.setParent p v).node q = h.node q := node_setNode_of_ne hq

theorem node_setColor_of_ne (hq : q ≠ p) : (h.setColor p c).node q = h.node q := node_setNode_of_ne hq

theorem node_setParentOf_of_ne (hq : o ≠ some q) : (h.setParentOf o v).node q = h.node q := by
  cases o with
  | none => rfl
  | some p => exact node_setParent_of_ne fun hqp => hq (hqp ▸ rfl)

theorem child_setChild :
    ((h.setChild s p v).node q).child s' = if q = p ∧ s' = s then v else (h.node q).child s' := by
  by_cases hq : q = p
  · subst hq
    cases s <;> cases s' <;> simp [setChild, setLeft, setRight, RBNode.child]
  · simp [node_setChild_of_ne hq, hq]

@[simp] theorem child_setParent : ((h.setParent p v).node q).child s = (h.node q).child s := by
  by_cases hq : q = p
  · subst hq
    cases s <;> simp [setParent, RBNode.child]
  · rw [node_setParent_of_ne hq]

@[simp] theorem child_setColor : ((h.setColor p c).node q).child s = (h.node q).child s := by
  by_cases hq : q = p
  · subst hq
    cases s <;> simp [setColor, RBNode.child]
  · rw [node_setColor_of_ne hq]

@[simp] theorem child_setParentOf : ((h.setParentOf o v).node q).child s = (h.node q).child s := by
  cases o with
  | none => rfl
  | some p => exact child_setParent

@[simp] theorem parent_setChild : ((h.setChild s p v).node q).parent = (h.node q).parent := by
  by_cases hq : q = p
  · subst hq
    cases s <;> simp [setChild, setLeft, setRight]
  · rw [node_setChild_of_ne hq]

theorem parent_setParent : ((h.setParent p v).node q).parent = if q = p then v else (h.node q).parent := by
  by_cases hq : q = p
  · subst hq
    simp [setParent]
  · simp [node_setParent_of_ne hq, hq]

@[simp] theorem parent_setColor : ((h.setColor p c).node q).parent = (h.node q).parent := by
  by_cases hq : q = p
  · subst hq
    simp [setColor]
  · rw [node_setColor_of_ne hq]

theorem parent_setParentOf :
    ((h.setParentOf o v).node q).parent = if o = some q then v else (h.node q).parent := by
  cases o with
  | none => simp [setParentOf]
  | some p => simp [setParentOf, parent_setParent, eq_comm]

@[simp] theorem color_setChild : ((h.setChild s p v).node q).color = (h.node q).color := by
  by_cases hq : q = p
  · subst hq
    cases s <;> simp [setChild, setLeft, setRight]
  · rw [node_setChild_of_ne hq]

@[simp] theorem color_setParent : ((h.setParent p v).node q).color = (h.node q).color := by
  by_cases hq : q = p
  · subst hq
    simp [setParent]
  · rw [node_setParent_of_ne hq]

theorem color_setColor : ((h.setColor p c).node q).color = if q = p then c else (h.node q).color := by
  by_cases hq : q = p
  · subst hq
    simp [setColor]
  · simp [node_setColor_of_ne hq, hq]

@[simp] theorem color_setParentOf : ((h.setParentOf o v).node q).color = (h.node q).color := by
  cases o with
  | none => rfl
  | some p => exact color_setParent

theorem replaceChild_some : h.replaceChild (some q) p v =
    if (h.node q).child .left = some p then h.setChild .left q v else h.setChild .right q v := rfl

theorem node_replaceChild_of_ne (hq : o ≠ some q) : (h.replaceChild o p v).node q = h.node q := by
  cases o with
  | none => rfl
  | some r =>
    have hqr : q ≠ r := fun hqr => hq (hqr ▸ rfl)
    rw [replaceChild_some]
    split_ifs
    · exact node_setChild_of_ne hqr
    · exact node_setChild_of_ne hqr

end

/-! ### What the writes do to the tree -/

section

variable {h h' : Nodes P} {s s' : Side} {c d : RBColor} {p q x y : P} {a b e t u : RBTree P} {f : Frame P}
  {ctx ctx' : List (Frame P)} {par par' hole tmp v : Option P}

/-- A subtree gets another parent. -/
theorem Linked.setParentOf (hl : h.Linked par t) (hn : t.toList.Nodup) :
    (h.setParentOf t.root? par').Linked par' t := by
  cases t with
  | nil => trivial
  | node c l p r =>
    obtain ⟨hp, hl, hr⟩ := hl
    simp only [toList, List.nodup_middle, List.nodup_cons, List.mem_append, not_or] at hn
    refine ⟨?_, hl.congr fun x hx => ?_, hr.congr fun x hx => ?_⟩
    · show (h.setParent p par').node p = _
      simp [setParent, hp]
    · exact node_setParent_of_ne fun hxp => hn.1.1 (hxp ▸ hx)
    · exact node_setParent_of_ne fun hxp => hn.1.2 (hxp ▸ hx)

/-- Something else is linked in the hole. -/
theorem LinkedAbove.setChild (hl : h.LinkedAbove (f :: ctx) hole) (hn : (outside (f :: ctx)).Nodup) :
    (h.setChild f.side f.entry v).LinkedAbove (f :: ctx) v := by
  obtain ⟨⟨-, hother, hparent, hcolor⟩, hs, hup⟩ := hl
  simp only [outside, List.cons_append, List.nodup_cons, List.mem_append, not_or] at hn
  refine ⟨⟨?_, ?_, ?_, ?_⟩, hs.congr fun x hx => ?_, hup.congr root_setChild fun x hx => ?_⟩
  · simp [child_setChild]
  · simpa [child_setChild] using hother
  · simpa using hparent
  · simpa using hcolor
  · exact node_setChild_of_ne fun hxf => hn.1.1 (hxf ▸ hx)
  · exact node_setChild_of_ne fun hxf => hn.1.2 (hxf ▸ hx)

/-- The test for the side finds the hole. -/
theorem LinkedAbove.replaceChild (hl : h.LinkedAbove ctx (some p)) (hn : (p :: outside ctx).Nodup) :
    (h.replaceChild (above ctx) p v).LinkedAbove ctx v := by
  cases ctx with
  | nil => rfl
  | cons f ctx =>
    have hwrite : h.replaceChild (some f.entry) p v = h.setChild f.side f.entry v := by
      rw [replaceChild_some]
      obtain ⟨⟨hside, hother, -⟩, -⟩ := hl
      cases hf : f.side with
      | left =>
        rw [hf] at hside
        rw [if_pos hside]
      | right =>
        rw [hf, Side.other_right] at hother
        refine if_neg fun hp => ?_
        have hmem : p ∈ f.sibling.toList := mem_of_root? (hother.symm.trans hp)
        simp [outside, hmem] at hn
    rw [above_cons, hwrite]
    exact hl.setChild hn.of_cons

/-- A node gets another colour. -/
theorem Represents.setColor (hr : h.Represents (fill ctx t)) (hx : t.root? = some x) (c : RBColor) :
    (h.setColor x c).Represents (fill ctx (t.paint c)) := by
  obtain ⟨hup, hl, hn⟩ := represents_fill.mp hr
  obtain ⟨d, a, b, rfl⟩ := eq_join_of_root? .left hx
  rw [← toList_paint (c := c)] at hn
  have hn' := ((toList_join_perm.append_left _).nodup_iff.mp (paint_join (α := P) ▸ hn))
  simp only [List.cons_append, List.nodup_middle, List.nodup_cons, List.mem_append, not_or] at hn'
  obtain ⟨hf, ha, hb⟩ := linked_join.mp hl
  refine represents_fill.mpr ⟨?_, ?_, hn⟩
  · rw [root?_paint]
    exact hup.congr rfl fun y hy => node_setColor_of_ne fun hyx => hn'.1.1 (hyx ▸ hy)
  · rw [paint_join, linked_join]
    refine ⟨?_, ha.congr fun y hy => ?_, hb.congr fun y hy => ?_⟩
    · simpa [color_setColor] using ⟨hf.1, hf.2.1, hf.2.2.1⟩
    · exact node_setColor_of_ne fun hyx => hn'.1.2.1 (hyx ▸ hy)
    · exact node_setColor_of_ne fun hyx => hn'.1.2.2 (hyx ▸ hy)

theorem Represents.setColor_join (hr : h.Represents (fill ctx (join s c x a b))) (d : RBColor) :
    (h.setColor x d).Represents (fill ctx (join s d x a b)) := by
  have hpaint : (join s c x a b).paint d = join s d x a b := paint_join
  exact hpaint ▸ hr.setColor root?_join d

/-- A node above the hole gets another colour. -/
theorem Represents.setColor_frame (hr : h.Represents (fill (⟨s, c, x, b⟩ :: ctx) a)) (d : RBColor) :
    (h.setColor x d).Represents (fill (⟨s, d, x, b⟩ :: ctx) a) := by
  rw [fill_cons] at hr ⊢
  exact hr.setColor_join d

/-- A node of the sibling gets another colour. -/
theorem Represents.setColor_sibling (hr : h.Represents (fill (⟨s, c, x, b⟩ :: ctx) a)) (hy : b.root? = some y)
    (d : RBColor) : (h.setColor y d).Represents (fill (⟨s, c, x, b.paint d⟩ :: ctx) a) := by
  rw [fill_sibling] at hr ⊢
  exact hr.setColor hy d

/-- What a rotation writes. -/
theorem rotate_eq (hl : h.Linked par (join s c p a (join s d q b e))) (hb : b.root? ≠ some p) :
    h.rotate s p tmp = some ((((((h.setChild s.other p b.root?).setParentOf b.root? (some p)).setParent q
      par).replaceChild par p (some q)).setChild s q (some p)).setParent p (some q)) := by
  obtain ⟨⟨-, hother, hparent, -⟩, -, hq⟩ := linked_join.mp hl
  obtain ⟨⟨hside, -⟩, -⟩ := linked_join.mp hq
  rw [root?_join] at hother
  simp [Nodes.rotate, hother, child_setChild, hside, parent_setParentOf, hb, hparent, parent_setParent]

theorem Represents.rotate (hr : h.Represents (fill ctx (join s c p a (join s d q b e)))) (tmp : Option P) :
    ∃ h', h.rotate s p tmp = some h' ∧ h'.Represents (fill ctx (join s d q (join s c p a b) e)) := by
  obtain ⟨hup, hl, hn⟩ := represents_fill.mp hr
  rw [root?_join] at hup
  have hdiff := nodup_rotate hn
  simp only [List.nodup_cons, List.mem_cons, List.mem_append, not_or] at hdiff
  obtain ⟨⟨hpq, hpup, hpa, hpb, hpe⟩, ⟨hqup, hqa, hqb, hqe⟩, hrest⟩ := hdiff
  have hentry : ∀ {x}, x ∉ b.toList → b.root? ≠ some x := fun hx hb => hx (mem_of_root? hb)
  refine ⟨_, rotate_eq hl (hentry hpb), ?_⟩
  obtain ⟨⟨hps, -, hpp, hpc⟩, ha, hq⟩ := linked_join.mp hl
  obtain ⟨⟨-, hqo, -, hqc⟩, hb, he⟩ := linked_join.mp hq
  set h₂ := (h.setChild s.other p b.root?).setParentOf b.root? (some p) with hh₂
  set h₃ := h₂.setParent q (above ctx) with hh₃
  set h₄ := h₃.replaceChild (above ctx) p (some q) with hh₄
  have hsame₃ : ∀ x, x ≠ p → x ≠ q → x ∉ b.toList → h₃.node x = h.node x := fun x hxp hxq hxb => by
    rw [hh₃, node_setParent_of_ne hxq, hh₂, node_setParentOf_of_ne (hentry hxb), node_setChild_of_ne hxp]
  have hsame₄ : ∀ x, x ∉ outside ctx → h₄.node x = h₃.node x := fun x hx =>
    node_replaceChild_of_ne fun habove => hx (mem_outside_of_above habove)
  obtain ⟨hup_nodup, hbelow, hapart⟩ := List.nodup_append.mp hrest
  have hout : ∀ x ∈ outside ctx, x ≠ p ∧ x ≠ q ∧ x ∉ b.toList := fun x hx =>
    ⟨fun hxp => hpup (hxp ▸ hx), fun hxq => hqup (hxq ▸ hx), fun hxb => hapart x hx x (by simp [hxb]) rfl⟩
  have hup₄ : h₄.LinkedAbove ctx (some q) := by
    refine LinkedAbove.replaceChild (p := p) (hup.congr ?_ fun x hx => ?_) (List.nodup_cons.mpr ⟨hpup, hup_nodup⟩)
    · simp [hh₃, hh₂]
    · exact hsame₃ x (hout x hx).1 (hout x hx).2.1 (hout x hx).2.2
  have hsame : ∀ x, x ≠ p → x ≠ q → ((h₄.setChild s q (some p)).setParent p (some q)).node x = h₄.node x :=
    fun x hxp hxq => (node_setParent_of_ne hxp).trans (node_setChild_of_ne hxq)
  obtain ⟨ha_nodup, hbe_nodup, habe⟩ := List.nodup_append.mp hbelow
  obtain ⟨hb_nodup, -, hbe⟩ := List.nodup_append.mp hbe_nodup
  -- a subtree that the rotation leaves alone
  have hkept : ∀ {par : Option P} {t : RBTree P}, h.Linked par t → p ∉ t.toList → q ∉ t.toList →
      (∀ x ∈ t.toList, x ∉ outside ctx ∧ x ∉ b.toList) →
      ((h₄.setChild s q (some p)).setParent p (some q)).Linked par t := fun ht hp hq hx => ht.congr fun x hxt => by
    have hxp : x ≠ p := fun hxp => hp (hxp ▸ hxt)
    have hxq : x ≠ q := fun hxq => hq (hxq ▸ hxt)
    rw [hsame x hxp hxq, hsame₄ x (hx x hxt).1, hsame₃ x hxp hxq (hx x hxt).2]
  have htop : ((h₄.setChild s q (some p)).setParent p (some q)).LinkedAbove ctx (some q) :=
    hup₄.congr (by simp) fun x hx => hsame x (hout x hx).1 (hout x hx).2.1
  have hbelow' : ((h₄.setChild s q (some p)).setParent p (some q)).Linked (some p) b := by
    have hb₁ : (h.setChild s.other p b.root?).Linked (some q) b :=
      hb.congr fun x hx => node_setChild_of_ne fun hxp => hpb (hxp ▸ hx)
    have hb₂ : h₂.Linked (some p) b := hb₁.setParentOf hb_nodup
    refine hb₂.congr fun x hx => ?_
    have hxp : x ≠ p := fun hxp => hpb (hxp ▸ hx)
    have hxq : x ≠ q := fun hxq => hqb (hxq ▸ hx)
    rw [hsame x hxp hxq, hsame₄ x fun hxup => hapart x hxup x (by simp [hx]) rfl, hh₃, node_setParent_of_ne hxq]
  rw [represents_fill, linked_join, linked_join, root?_join, root?_join, toList_rotate]
  refine ⟨htop, ⟨?_, ⟨?_, hkept ha hpa hqa ?_, hbelow'⟩, hkept he hpe hqe ?_⟩, hn⟩
  · have hq₄ : h₄.node q = h₃.node q := hsame₄ q hqup
    simp [child_setChild, parent_setParent, hq₄, hh₃, hh₂, Ne.symm hpq, hqo, hqc]
  · have hp₄ : h₄.node p = h₃.node p := hsame₄ p hpup
    simp [child_setChild, parent_setParent, hp₄, hh₃, hh₂, hpq, hps, hpc]
  · exact fun x hx => ⟨fun hxup => hapart x hxup x (by simp [hx]) rfl, fun hxb => habe x hx x (by simp [hxb]) rfl⟩
  · exact fun x hx => ⟨fun hxup => hapart x hxup x (by simp [hx]) rfl, fun hxb => hbe x hxb x hx rfl⟩

/-- The child of a node without another child takes the place of the node. -/
theorem Represents.splice (hr : h.Represents (fill ctx (join s c p t nil))) :
    ((h.setParentOf t.root? (above ctx)).replaceChild (above ctx) p t.root?).Represents (fill ctx t) ∧
      ((h.setParentOf t.root? (above ctx)).replaceChild (above ctx) p t.root?).node p = h.node p := by
  obtain ⟨hup, hl, hn⟩ := represents_fill.mp hr
  rw [root?_join] at hup
  obtain ⟨-, ht, -⟩ := linked_join.mp hl
  have hdiff := (toList_join_perm.append_left _).nodup_iff.mp hn
  simp only [toList_nil, List.append_nil, List.nodup_middle, List.nodup_cons, List.mem_append, not_or] at hdiff
  obtain ⟨⟨hpup, hpt⟩, hrest⟩ := hdiff
  obtain ⟨hup_nodup, ht_nodup, hapart⟩ := List.nodup_append.mp hrest
  have hentry : ∀ {x}, x ∉ t.toList → t.root? ≠ some x := fun hx ht => hx (mem_of_root? ht)
  have hwritten : ∀ x, x ∉ outside ctx →
      ((h.setParentOf t.root? (above ctx)).replaceChild (above ctx) p t.root?).node x =
        (h.setParentOf t.root? (above ctx)).node x :=
    fun x hx => node_replaceChild_of_ne fun habove => hx (mem_outside_of_above habove)
  refine ⟨represents_fill.mpr ⟨?_, ?_, hrest⟩, ?_⟩
  · refine LinkedAbove.replaceChild (p := p) (hup.congr (by simp) fun x hx => ?_) (hup_nodup.cons hpup)
    exact node_setParentOf_of_ne (hentry fun hxt => hapart x hx x hxt rfl)
  · exact (ht.setParentOf ht_nodup).congr fun x hx => hwritten x fun hxup => hapart x hxup x hx rfl
  · rw [hwritten p hpup, node_setParentOf_of_ne (hentry hpt)]

/-- A node that is not in the tree takes the place of one that is. -/
theorem Represents.substitute (hr : h.Represents (fill ctx (join s c p a b)))
    (hy : y ∉ (fill ctx (join s c p a b)).toList) :
    ((((h.setNode y (h.node p)).replaceChild (above ctx) p (some y)).setParentOf a.root? (some y)).setParentOf
      b.root? (some y)).Represents (fill ctx (join s c y a b)) := by
  obtain ⟨hup, hl, hn⟩ := represents_fill.mp hr
  rw [root?_join] at hup
  obtain ⟨hf, ha, hb⟩ := linked_join.mp hl
  rw [mem_fill, mem_join, not_or, not_or, not_or] at hy
  obtain ⟨hyup, hyp, hya, hyb⟩ := hy
  have hdiff := (toList_join_perm.append_left _).nodup_iff.mp hn
  simp only [List.cons_append, List.nodup_middle, List.nodup_cons, List.mem_append, not_or] at hdiff
  obtain ⟨⟨hpup, hpa, hpb⟩, hrest⟩ := hdiff
  obtain ⟨hup_nodup, hab, hapart⟩ := List.nodup_append.mp hrest
  obtain ⟨ha_nodup, hb_nodup, hab'⟩ := List.nodup_append.mp hab
  set h₂ := (h.setNode y (h.node p)).replaceChild (above ctx) p (some y) with hh₂
  have hentry : ∀ {t : RBTree P} {x}, x ∉ t.toList → t.root? ≠ some x := fun hx ht => hx (mem_of_root? ht)
  have hsame : ∀ x, x ∉ outside ctx → x ≠ y → h₂.node x = h.node x := fun x hx hxy =>
    (node_replaceChild_of_ne fun habove => hx (mem_outside_of_above habove)).trans (node_setNode_of_ne hxy)
  have hnode : h₂.node y = h.node p := by
    rw [hh₂, node_replaceChild_of_ne fun habove => hyup (mem_outside_of_above habove), node_setNode_self]
  have hup₂ : h₂.LinkedAbove ctx (some y) := by
    refine LinkedAbove.replaceChild (p := p) (hup.congr rfl fun x hx => ?_) (List.nodup_cons.mpr ⟨hpup, hup_nodup⟩)
    exact node_setNode_of_ne fun hxy => hyup (hxy ▸ hx)
  have ha₂ : h₂.Linked (some p) a := ha.congr fun x hx =>
    hsame x (fun hxup => hapart x hxup x (by simp [hx]) rfl) fun hxy => hya (hxy ▸ hx)
  have hb₂ : h₂.Linked (some p) b := hb.congr fun x hx =>
    hsame x (fun hxup => hapart x hxup x (by simp [hx]) rfl) fun hxy => hyb (hxy ▸ hx)
  rw [represents_fill, linked_join, root?_join]
  refine ⟨hup₂.congr (by simp) fun x hx => ?_, ⟨?_, ?_, ?_⟩, ?_⟩
  · rw [node_setParentOf_of_ne (hentry fun hxb => hapart x hx x (by simp [hxb]) rfl),
      node_setParentOf_of_ne (hentry fun hxa => hapart x hx x (by simp [hxa]) rfl)]
  · rw [node_setParentOf_of_ne (hentry hyb), node_setParentOf_of_ne (hentry hya), hnode]
    exact hf
  · exact (ha₂.setParentOf ha_nodup).congr fun x hx => node_setParentOf_of_ne (hentry fun hxb => hab' x hx x hxb rfl)
  · refine Linked.setParentOf (hb₂.congr fun x hx => ?_) hb_nodup
    exact node_setParentOf_of_ne (hentry fun hxa => hab' x hxa x hx rfl)
  · refine (toList_join_perm.append_left _).nodup_iff.mpr ?_
    simp only [List.cons_append, List.nodup_middle, List.nodup_cons, List.mem_append, not_or]
    exact ⟨⟨hyup, hya, hyb⟩, hrest⟩

/-- A new node in an empty place. -/
theorem Represents.link (hr : h.Represents (fill (f :: ctx) nil)) (hy : y ∉ outside (f :: ctx)) :
    ((h.setNode y ⟨none, none, some f.entry, .red⟩).setChild f.side f.entry (some y)).Represents
      (fill (f :: ctx) (join s .red y nil nil)) := by
  obtain ⟨hup, -, hn⟩ := represents_fill.mp hr
  rw [toList_nil, List.append_nil] at hn
  have hup₁ : (h.setNode y ⟨none, none, some f.entry, .red⟩).LinkedAbove (f :: ctx) none :=
    hup.congr rfl fun x hx => node_setNode_of_ne fun hxy => hy (hxy ▸ hx)
  have hyf : y ≠ f.entry := fun hyf => hy (by simp [hyf])
  rw [represents_fill, linked_join, root?_join]
  refine ⟨hup₁.setChild hn, ⟨?_, trivial, trivial⟩, ?_⟩
  · rw [node_setChild_of_ne hyf, node_setNode_self]
    cases s <;> exact ⟨rfl, rfl, rfl, rfl⟩
  · refine (toList_join_perm.append_left _).nodup_iff.mpr ?_
    simp only [toList_nil, List.append_nil, List.nodup_middle]
    exact List.nodup_cons.mpr ⟨hy, hn⟩

theorem represents_link_root :
    ((h.setNode y ⟨none, none, none, .red⟩).setRoot (some y)).Represents (join s .red y nil nil) := by
  have hnode : ((h.setNode y ⟨none, none, none, .red⟩).setRoot (some y)).node y = ⟨none, none, none, .red⟩ :=
    node_setNode_self
  refine ⟨(root?_join).symm, linked_join.mpr ⟨?_, trivial, trivial⟩, ?_⟩
  · rw [hnode]
    cases s <;> exact ⟨rfl, rfl, rfl, rfl⟩
  · cases s <;> simp [join, toList]

end

end Nodes

end LynxTrace.IntrusiveRBTree
