import Mathlib.Data.List.Basic
import Mathlib.Data.List.Nodup
import Mathlib.Data.Nat.Log
import Mathlib.Tactic

/-!
# Base.RedBlackTree — red-black trees with a hole

Trees whose nodes are coloured, and the way from a hole in such a tree up to its root as a list of frames.

* `join` : a node with one child on a given side and the other child opposite; what is proved of it holds of both sides.
* `RedBlack` : black root, no red node with a red child, equal black heights.
* `Expects` : what a hole has to be filled with for the whole to be red-black (`redBlack_fill`).
* The steps of the two rebalancing loops, as trees and as what the hole expects.
-/

namespace LynxTrace.RedBlack

variable {α : Type*}

inductive Color
  | black
  | red
  deriving DecidableEq, Repr

inductive Side
  | left
  | right
  deriving DecidableEq, Repr

namespace Side

def other : Side → Side
  | left => right
  | right => left

@[simp] theorem other_left : left.other = right := rfl

@[simp] theorem other_right : right.other = left := rfl

@[simp] theorem other_ne (s : Side) : s.other ≠ s := by cases s <;> decide

@[simp] theorem ne_other (s : Side) : s ≠ s.other := by cases s <;> decide

theorem eq_or_eq_other (s t : Side) : t = s ∨ t = s.other := by cases s <;> cases t <;> decide

end Side

/-- The number of black nodes that a node of this colour adds to a path. -/
def Color.weight : Color → ℕ
  | .black => 1
  | .red => 0

@[simp] theorem weight_black : Color.black.weight = 1 := rfl

@[simp] theorem weight_red : Color.red.weight = 0 := rfl

theorem Color.ne_red {c : Color} : c ≠ .red ↔ c = .black := by cases c <;> decide

theorem Color.ne_black {c : Color} : c ≠ .black ↔ c = .red := by cases c <;> decide

inductive RBTree (α : Type*)
  | nil
  | node (color : Color) (left : RBTree α) (entry : α) (right : RBTree α)
  deriving DecidableEq, Repr

namespace RBTree

/-- The entry at the root. -/
def root? : RBTree α → Option α
  | nil => none
  | node _ _ x _ => some x

/-- A missing child counts as black. -/
def color : RBTree α → Color
  | nil => .black
  | node c _ _ _ => c

/-- The root in another colour. -/
def paint (c : Color) : RBTree α → RBTree α
  | nil => nil
  | node _ l x r => node c l x r

/-- In order. -/
def toList : RBTree α → List α
  | nil => []
  | node _ l x r => l.toList ++ x :: r.toList

/-- A node with `a` on the side `s` and `b` on the other. -/
def join (s : Side) (c : Color) (x : α) (a b : RBTree α) : RBTree α :=
  match s with
  | .left => node c a x b
  | .right => node c b x a

/-- No red node has a red child. -/
def NoRedRed : RBTree α → Prop
  | nil => True
  | node c l _ r => (c = .red → l.color = .black ∧ r.color = .black) ∧ NoRedRed l ∧ NoRedRed r

/-- Every path from the root to a missing child has `n` black nodes. -/
def BlackHeight : RBTree α → ℕ → Prop
  | nil, n => n = 0
  | node c l _ r, n => ∃ m, n = m + c.weight ∧ BlackHeight l m ∧ BlackHeight r m

def Balanced (t : RBTree α) (n : ℕ) : Prop := t.NoRedRed ∧ t.BlackHeight n

/-- A black root, no red node with a red child, and equal black heights. -/
structure IsRedBlack (t : RBTree α) : Prop where
  root_black : t.color = .black
  no_red_red : t.NoRedRed
  black_heights : ∃ n, t.BlackHeight n

/-! ### Nodes by side -/

section

variable {s : Side} {c c' : Color} {x y : α} {a b t : RBTree α} {n : ℕ}

@[simp] theorem root?_nil : (nil : RBTree α).root? = none := rfl

@[simp] theorem color_nil : (nil : RBTree α).color = .black := rfl

@[simp] theorem toList_nil : (nil : RBTree α).toList = [] := rfl

@[simp] theorem paint_nil : (nil : RBTree α).paint c = nil := rfl

@[simp] theorem root?_join : (join s c x a b).root? = some x := by cases s <;> rfl

@[simp] theorem color_join : (join s c x a b).color = c := by cases s <;> rfl

@[simp] theorem paint_join : (join s c x a b).paint c' = join s c' x a b := by cases s <;> rfl

theorem join_other : join s.other c x a b = join s c x b a := by cases s <;> rfl

/-- A node and its child on one side, seen from the other. -/
theorem join_join : join s c x (join s c' y a t) b = join s.other c x b (join s.other c' y t a) := by
  rw [join_other, join_other]

theorem join_left : join .left c x a b = node c a x b := rfl

theorem join_right : join .right c x a b = node c b x a := rfl

@[simp] theorem mem_join : y ∈ (join s c x a b).toList ↔ y = x ∨ y ∈ a.toList ∨ y ∈ b.toList := by
  cases s with
  | left => simp [join, toList, or_left_comm]
  | right =>
    simp only [join, toList, List.mem_append, List.mem_cons]
    tauto

theorem toList_join_perm : (join s c x a b).toList.Perm (x :: a.toList ++ b.toList) := by
  cases s with
  | left => exact List.perm_middle
  | right => exact List.perm_middle.trans (List.perm_append_comm.cons x)

theorem toList_rotate {d d' : Color} {u : RBTree α} :
    (join s c' y (join s c x a b) u).toList = (join s d x a (join s d' y b u)).toList := by
  cases s <;> simp [join, toList]

theorem toList_join_congr {a' b' : RBTree α} (ha : a.toList = a'.toList) (hb : b.toList = b'.toList) :
    (join s c x a b).toList = (join s c' x a' b').toList := by
  cases s <;> simp [join, toList, ha, hb]

@[simp] theorem toList_paint : (t.paint c).toList = t.toList := by cases t <;> rfl

theorem root?_paint : (t.paint c).root? = t.root? := by cases t <;> rfl

@[simp] theorem color_paint_black : (t.paint .black).color = .black := by cases t <;> rfl

theorem paint_self (h : t.color = c) : t.paint c = t := by
  subst h
  cases t <;> rfl

theorem root?_eq_none : t.root? = none ↔ t = nil := by cases t <;> simp [root?]

theorem mem_of_root? (h : t.root? = some x) : x ∈ t.toList := by
  cases t with
  | nil => simp at h
  | node c l y r =>
    obtain rfl : y = x := Option.some.inj h
    simp [toList]

/-- A red tree is a node, seen from either side. -/
theorem eq_join_of_red (s : Side) (h : t.color = .red) : ∃ x a b, t = join s .red x a b := by
  cases t with
  | nil => simp at h
  | node c l x r =>
    obtain rfl : c = .red := h
    cases s with
    | left => exact ⟨x, l, r, rfl⟩
    | right => exact ⟨x, r, l, rfl⟩

theorem eq_join_of_root? (s : Side) (h : t.root? = some x) : ∃ c a b, t = join s c x a b := by
  cases t with
  | nil => simp at h
  | node c l y r =>
    obtain rfl : y = x := Option.some.inj h
    cases s with
    | left => exact ⟨c, l, r, rfl⟩
    | right => exact ⟨c, r, l, rfl⟩

/-! ### Balance by side -/

@[simp] theorem balanced_nil : Balanced (nil : RBTree α) n ↔ n = 0 := by simp [Balanced, NoRedRed, BlackHeight]

theorem balanced_join : Balanced (join s c x a b) n ↔
    ∃ m, n = m + c.weight ∧ (c = .red → a.color = .black ∧ b.color = .black) ∧ Balanced a m ∧ Balanced b m := by
  cases s with
  | left =>
    constructor
    · rintro ⟨⟨hc, ha, hb⟩, m, hm, ha', hb'⟩
      exact ⟨m, hm, hc, ⟨ha, ha'⟩, ⟨hb, hb'⟩⟩
    · rintro ⟨m, hm, hc, ha, hb⟩
      exact ⟨⟨hc, ha.1, hb.1⟩, m, hm, ha.2, hb.2⟩
  | right =>
    constructor
    · rintro ⟨⟨hc, hb, ha⟩, m, hm, hb', ha'⟩
      exact ⟨m, hm, fun h => (hc h).symm, ⟨ha, ha'⟩, ⟨hb, hb'⟩⟩
    · rintro ⟨m, hm, hc, ha, hb⟩
      exact ⟨⟨fun h => (hc h).symm, hb.1, ha.1⟩, m, hm, hb.2, ha.2⟩

theorem balanced_join_red : Balanced (join s .red x a b) n ↔
    (a.color = .black ∧ b.color = .black) ∧ Balanced a n ∧ Balanced b n := by
  simp [balanced_join]

theorem balanced_join_black : Balanced (join s .black x a b) (n + 1) ↔ Balanced a n ∧ Balanced b n := by
  simp [balanced_join]

/-- A red root may be made black: one black node more on every path. -/
theorem Balanced.paint_black (h : Balanced t n) (hc : t.color = .red) : Balanced (t.paint .black) (n + 1) := by
  obtain ⟨x, a, b, rfl⟩ := eq_join_of_red .left hc
  rw [paint_join, balanced_join_black]
  exact (balanced_join_red.mp h).2

/-- Below a hole that is one black node short there is something. -/
theorem Balanced.eq_join (s : Side) (h : Balanced t (n + 1)) : ∃ c x a b, t = join s c x a b := by
  cases t with
  | nil => simp at h
  | node c l x r =>
    obtain ⟨c', a, b, h⟩ := eq_join_of_root? s (t := node c l x r) rfl
    exact ⟨c', x, a, b, h⟩

theorem isRedBlack_iff : IsRedBlack t ↔ t.color = .black ∧ ∃ n, Balanced t n :=
  ⟨fun ⟨hc, hr, n, hn⟩ => ⟨hc, n, hr, hn⟩, fun ⟨hc, n, hr, hn⟩ => ⟨hc, hr, n, hn⟩⟩

end

/-! ### Heights -/

/-- The number of nodes on the longest path down. -/
def height : RBTree α → ℕ
  | nil => 0
  | node _ l _ r => max l.height r.height + 1

theorem height_le_length (t : RBTree α) : t.height ≤ t.toList.length := by
  induction t with
  | nil => exact le_rfl
  | node c l x r ihl ihr =>
    rw [height, toList, List.length_append, List.length_cons]
    omega

theorem BlackHeight.two_pow_le {t : RBTree α} {n : ℕ} (h : t.BlackHeight n) : 2 ^ n ≤ t.toList.length + 1 := by
  induction t generalizing n with
  | nil =>
    obtain rfl : n = 0 := h
    exact Nat.le_refl 1
  | node c l x r ihl ihr =>
    obtain ⟨m, rfl, hl, hr⟩ := h
    have hl := ihl hl
    have hr := ihr hr
    rw [toList, List.length_append, List.length_cons]
    cases c with
    | black =>
      rw [weight_black, pow_succ]
      omega
    | red =>
      rw [weight_red, Nat.add_zero]
      omega

/-- A red node is paid for by the black one above it. -/
theorem Balanced.height_le {t : RBTree α} {n : ℕ} (h : t.Balanced n) : t.height + t.color.weight ≤ 2 * n + 1 := by
  induction t generalizing n with
  | nil => exact Nat.le_add_left 1 _
  | node c l x r ihl ihr =>
    obtain ⟨⟨hred, hnl, hnr⟩, m, rfl, hbl, hbr⟩ := h
    have hl := ihl ⟨hnl, hbl⟩
    have hr := ihr ⟨hnr, hbr⟩
    rw [height, color]
    cases c with
    | black =>
      rw [weight_black]
      omega
    | red =>
      rw [(hred rfl).1, weight_black] at hl
      rw [(hred rfl).2, weight_black] at hr
      rw [weight_red]
      omega

/-- **The height of a red-black tree** is logarithmic in the number of its nodes. -/
theorem IsRedBlack.height_le {t : RBTree α} (h : IsRedBlack t) : t.height ≤ 2 * Nat.log 2 (t.toList.length + 1) := by
  obtain ⟨n, hn⟩ := h.black_heights
  have hheight := Balanced.height_le ⟨h.no_red_red, hn⟩
  rw [h.root_black, weight_black] at hheight
  have hlog : n ≤ Nat.log 2 (t.toList.length + 1) := Nat.le_log_of_pow_le (by decide) hn.two_pow_le
  omega

end RBTree

open LynxTrace.RedBlack.RBTree

/-! ### A hole and the way up -/

/-- One step from the root towards the hole: the hole is on the side `side` of the entry. -/
structure Frame (α : Type*) where
  side : Side
  color : Color
  entry : α
  sibling : RBTree α

/-- The tree with its hole filled; the first frame is the innermost one. -/
def fill : List (Frame α) → RBTree α → RBTree α
  | [], t => t
  | f :: ctx, t => fill ctx (join f.side f.color f.entry t f.sibling)

/-- The entry above the hole. -/
def above (ctx : List (Frame α)) : Option α := ctx.head?.map Frame.entry

/-- All entries outside the hole. -/
def outside : List (Frame α) → List α
  | [] => []
  | f :: ctx => f.entry :: f.sibling.toList ++ outside ctx

/-- The entries that come before the hole in order. -/
def before : List (Frame α) → List α
  | [] => []
  | ⟨.left, _, _, _⟩ :: ctx => before ctx
  | ⟨.right, _, x, l⟩ :: ctx => before ctx ++ (l.toList ++ [x])

/-- The entries that come after the hole in order. -/
def after : List (Frame α) → List α
  | [] => []
  | ⟨.left, _, x, r⟩ :: ctx => x :: r.toList ++ after ctx
  | ⟨.right, _, _, _⟩ :: ctx => after ctx

/-- What the hole has to be filled with: a tree of colour `c` and black height `n`. -/
def Expects : List (Frame α) → Color → ℕ → Prop
  | [], c, _ => c = .black
  | f :: ctx, c, n =>
    (f.color = .red → c = .black ∧ f.sibling.color = .black) ∧ Balanced f.sibling n ∧
      Expects ctx f.color (n + f.color.weight)

section

variable {s s' : Side} {c c' : Color} {x y z : α} {a b t u : RBTree α} {f : Frame α} {ctx ctx' : List (Frame α)} {n : ℕ}

@[simp] theorem fill_nil : fill [] t = t := rfl

theorem fill_cons : fill (f :: ctx) t = fill ctx (join f.side f.color f.entry t f.sibling) := rfl

theorem fill_append : fill (ctx ++ ctx') t = fill ctx' (fill ctx t) := by
  induction ctx generalizing t with
  | nil => rfl
  | cons f ctx ih => exact ih

/-- The hole moves to the other child. -/
theorem fill_sibling : fill (⟨s, c, x, b⟩ :: ctx) a = fill (⟨s.other, c, x, a⟩ :: ctx) b := by
  rw [fill_cons, fill_cons, join_other]

@[simp] theorem above_nil : above ([] : List (Frame α)) = none := rfl

@[simp] theorem above_cons : above (f :: ctx) = some f.entry := rfl

@[simp] theorem outside_nil : outside ([] : List (Frame α)) = [] := rfl

@[simp] theorem mem_outside_cons : y ∈ outside (f :: ctx) ↔ y = f.entry ∨ y ∈ f.sibling.toList ∨ y ∈ outside ctx := by
  simp [outside]

theorem above_append_cons : above (ctx ++ f :: ctx') = some ((above ctx).getD f.entry) := by
  cases ctx <;> rfl

theorem mem_outside_of_above (h : above ctx = some x) : x ∈ outside ctx := by
  cases ctx with
  | nil => simp at h
  | cons f ctx => simp_all

/-- The root is above the hole. -/
theorem exists_root (f : Frame α) (ctx : List (Frame α)) (t : RBTree α) :
    ∃ r ∈ outside (f :: ctx), (fill (f :: ctx) t).root? = some r := by
  induction ctx generalizing f t with
  | nil => exact ⟨f.entry, by simp, by rw [fill_cons, fill_nil, root?_join]⟩
  | cons g ctx ih =>
    obtain ⟨r, hr, hroot⟩ := ih g (join f.side f.color f.entry t f.sibling)
    exact ⟨r, mem_outside_cons.mpr (Or.inr (Or.inr hr)), hroot⟩

theorem outside_append : outside (ctx ++ ctx') = outside ctx ++ outside ctx' := by
  induction ctx with
  | nil => rfl
  | cons f ctx ih => simp [outside, ih]

theorem length_le_outside : ctx.length ≤ (outside ctx).length := by
  induction ctx with
  | nil => simp
  | cons f ctx ih => simp only [outside, List.length_cons, List.length_append, List.cons_append]; omega

theorem toList_fill : (fill ctx t).toList = before ctx ++ (t.toList ++ after ctx) := by
  induction ctx generalizing t with
  | nil => simp [before, after]
  | cons f ctx ih =>
    obtain ⟨s, c, x, sibling⟩ := f
    cases s <;> simp [fill_cons, ih, join, toList, before, after]

theorem toList_fill_congr (h : t.toList = u.toList) : (fill ctx t).toList = (fill ctx u).toList := by
  rw [toList_fill, toList_fill, h]

/-- In order, an outer rotation moves nothing, -/
theorem toList_fill_outer {d d' : Color} :
    (fill (⟨s, c, y, join s c' x u b⟩ :: ctx) t).toList = (fill (⟨s, d, y, u⟩ :: ⟨s, d', x, b⟩ :: ctx) t).toList :=
  toList_fill_congr toList_rotate.symm

/-- and neither does an inner one. -/
theorem toList_fill_inner {d d' : Color} :
    (fill (⟨s, c, z, b⟩ :: ctx) (join s c' y u a)).toList =
      (fill (⟨s.other, d, y, u⟩ :: ctx) (join s d' z a b)).toList := by
  rw [fill_cons, fill_cons, join_other]
  exact toList_fill_congr toList_rotate

theorem before_append : before (ctx ++ ctx') = before ctx' ++ before ctx := by
  induction ctx with
  | nil => simp [before]
  | cons f ctx ih =>
    obtain ⟨s, c, x, sibling⟩ := f
    cases s <;> simp [before, ih]

theorem after_append : after (ctx ++ ctx') = after ctx ++ after ctx' := by
  induction ctx with
  | nil => simp [after]
  | cons f ctx ih =>
    obtain ⟨s, c, x, sibling⟩ := f
    cases s <;> simp [after, ih]

theorem toList_fill_perm : (fill ctx t).toList.Perm (outside ctx ++ t.toList) := by
  induction ctx generalizing t with
  | nil => simp
  | cons f ctx ih =>
    calc (fill (f :: ctx) t).toList.Perm (outside ctx ++ (join f.side f.color f.entry t f.sibling).toList) := ih
      List.Perm _ (outside ctx ++ (f.entry :: t.toList ++ f.sibling.toList)) := toList_join_perm.append_left _
      List.Perm _ (f.entry :: t.toList ++ f.sibling.toList ++ outside ctx) := List.perm_append_comm
      List.Perm _ (outside (f :: ctx) ++ t.toList) := by
        simp only [outside, List.cons_append, List.append_assoc]
        refine (List.perm_append_comm.trans ?_).cons _
        simp

theorem mem_fill : y ∈ (fill ctx t).toList ↔ y ∈ outside ctx ∨ y ∈ t.toList := by
  rw [toList_fill_perm.mem_iff, List.mem_append]

theorem length_lt_of_fill (hx : x ∈ t.toList) : ctx.length < (fill ctx t).toList.length := by
  have hlength : (fill ctx t).toList.length = (outside ctx ++ t.toList).length := toList_fill_perm.length_eq
  have hpos : 0 < t.toList.length := List.length_pos_of_mem hx
  have hctx : ctx.length ≤ (outside ctx).length := length_le_outside
  rw [List.length_append] at hlength
  omega

/-- Every entry is the root of what some hole is filled with. -/
theorem exists_fill_of_mem (h : x ∈ t.toList) : ∃ ctx c l r, t = fill ctx (node c l x r) := by
  induction t with
  | nil => simp at h
  | node c l y r ihl ihr =>
    simp only [toList, List.mem_append, List.mem_cons] at h
    rcases h with hl | rfl | hr
    · obtain ⟨ctx, c', l', r', rfl⟩ := ihl hl
      exact ⟨ctx ++ [⟨.left, c, y, r⟩], c', l', r', by rw [fill_append]; rfl⟩
    · exact ⟨[], c, l, r, rfl⟩
    · obtain ⟨ctx, c', l', r', rfl⟩ := ihr hr
      exact ⟨ctx ++ [⟨.right, c, y, l⟩], c', l', r', by rw [fill_append]; rfl⟩

/-- All nodes around a rotation are different. -/
theorem nodup_rotate (hn : (outside ctx ++ (join s c x a (join s c' y b u)).toList).Nodup) :
    (x :: y :: (outside ctx ++ (a.toList ++ (b.toList ++ u.toList)))).Nodup := by
  have hperm : (join s c x a (join s c' y b u)).toList.Perm (x :: a.toList ++ (y :: b.toList ++ u.toList)) :=
    toList_join_perm.trans (toList_join_perm.append_left _)
  have hy : (a.toList ++ (y :: b.toList ++ u.toList)).Perm (y :: (a.toList ++ (b.toList ++ u.toList))) :=
    List.perm_middle
  have hmoved : (outside ctx ++ (x :: a.toList ++ (y :: b.toList ++ u.toList))).Perm
      (x :: y :: (outside ctx ++ (a.toList ++ (b.toList ++ u.toList)))) :=
    List.perm_middle.trans (((hy.append_left _).trans List.perm_middle).cons x)
  exact ((hperm.append_left _).trans hmoved).nodup_iff.mp hn

/-! ### Filling -/

theorem isRedBlack_fill : IsRedBlack (fill ctx t) ↔ ∃ n, Balanced t n ∧ Expects ctx t.color n := by
  induction ctx generalizing t with
  | nil =>
    rw [fill_nil, isRedBlack_iff]
    exact ⟨fun ⟨hc, n, hn⟩ => ⟨n, hn, hc⟩, fun ⟨n, hn, hc⟩ => ⟨hc, n, hn⟩⟩
  | cons f ctx ih =>
    rw [fill_cons, ih, color_join]
    simp only [balanced_join, Expects]
    constructor
    · rintro ⟨_, ⟨n, rfl, hc, ht, hs⟩, hup⟩
      exact ⟨n, ht, hc, hs, hup⟩
    · rintro ⟨n, ht, hc, hs, hup⟩
      exact ⟨_, ⟨n, rfl, hc, ht, hs⟩, hup⟩

/-- A black tree fits wherever a red one does. -/
theorem Expects.black (h : Expects ctx c n) : Expects ctx .black n := by
  cases ctx with
  | nil => rfl
  | cons f ctx => exact ⟨fun hf => ⟨rfl, (h.1 hf).2⟩, h.2⟩

/-- Below a black node a red tree fits wherever a black one does. -/
theorem Expects.red (h : Expects (f :: ctx) c n) (hf : f.color = .black) : Expects (f :: ctx) .red n :=
  ⟨fun hr => absurd (hf.symm.trans hr) (by decide), h.2⟩

/-- The names of the entries on the way up do not matter. -/
theorem Expects.rename (h : Expects (ctx ++ ⟨s, c', x, b⟩ :: ctx') c n) :
    Expects (ctx ++ ⟨s, c', y, b⟩ :: ctx') c n := by
  induction ctx generalizing c n with
  | nil => exact h
  | cons f ctx ih => exact ⟨h.1, h.2.1, ih h.2.2⟩

/-- Above a red node whose place asks for a black one there is another node, which is black. -/
theorem Expects.eq_cons (h : Expects (f :: ctx) c n) (hf : f.color = .red) :
    ∃ g up, ctx = g :: up ∧ g.color = .black := by
  have hup := h.2.2
  rw [hf] at hup
  cases ctx with
  | nil => exact absurd hup (by simp [Expects])
  | cons g up =>
    refine ⟨g, up, rfl, ?_⟩
    by_contra hg
    exact absurd (hup.1 (Color.ne_black.mp hg)).1 (by decide)

/-! ### After an insertion

The tree in the hole is red and so may be the node above it. -/

/-- A red sibling of the parent: the colours of three nodes change, and the question is two levels higher. -/
theorem balanced_recolored (h : Expects (⟨s', .red, y, u⟩ :: ⟨s, .black, x, b⟩ :: ctx) .black n) (ht : Balanced t n)
    (hb : b.color = .red) :
    Balanced (join s .red x (join s' .black y t u) (b.paint .black)) (n + 1) ∧ Expects ctx .black (n + 1) := by
  obtain ⟨-, hu, -, hb', hup⟩ := h
  refine ⟨balanced_join_red.mpr ⟨⟨color_join, ?_⟩, balanced_join_black.mpr ⟨ht, hu⟩, hb'.paint_black hb⟩, hup⟩
  obtain ⟨_, _, _, rfl⟩ := eq_join_of_red .left hb
  simp

/-- The red tree is on the same side as its parent: the parent takes the place of the grandparent. -/
theorem expects_rotated (h : Expects (⟨s', .red, y, u⟩ :: ⟨s, .black, x, b⟩ :: ctx) .black n) (hb : b.color = .black) :
    Expects (⟨s, .black, y, join s .red x u b⟩ :: ctx) .red n := by
  obtain ⟨hred, hu, -, hb', hup⟩ := h
  exact ⟨nofun, balanced_join_red.mpr ⟨⟨(hred rfl).2, hb⟩, hu, hb'⟩, hup⟩

/-- It is on the other side: the parent and the tree change places. -/
theorem expects_swapped (h : Expects (⟨s', .red, y, u⟩ :: ctx) .black n) (ht : Balanced (join s .red z a b) n) :
    Balanced (join s .red y u a) n ∧ Expects (⟨s, .red, z, b⟩ :: ctx) .black n := by
  obtain ⟨hred, hu, hup⟩ := h
  obtain ⟨⟨hac, hbc⟩, ha, hb⟩ := balanced_join_red.mp ht
  exact ⟨balanced_join_red.mpr ⟨⟨(hred rfl).2, hac⟩, hu, ha⟩, fun _ => ⟨rfl, hbc⟩, hb, hup⟩

/-! ### After a removal

The tree in the hole is one black node short. -/

/-- A tree that is right for black height `n + 1` once its root is made black, or is one black node short of it. -/
def Short (t : RBTree α) (n : ℕ) : Prop := if t.color = .red then Balanced (t.paint .black) (n + 1) else Balanced t n

theorem RBTree.Balanced.short (h : Balanced t n) : Short t n := by
  unfold Short
  split_ifs with hc
  · exact h.paint_black hc
  · exact h

theorem Short.of_red (h : Short t n) (hc : t.color = .red) : Balanced (t.paint .black) (n + 1) := by
  rwa [Short, if_pos hc] at h

theorem Short.of_black (h : Short t n) (hc : t.color = .black) : Balanced t n := by
  rwa [Short, if_neg (by simp [hc])] at h

/-- What is left of a red-black tree without a node that has at most one child. -/
theorem expects_spliced (hrb : IsRedBlack (fill ctx (join s c x t nil))) :
    ∃ n, Balanced t n ∧ Expects ctx c (n + c.weight) ∧ (c = .red → t.color = .black) := by
  obtain ⟨m, hbal, hup⟩ := isRedBlack_fill.mp hrb
  obtain ⟨n, rfl, hred, ht, -⟩ := balanced_join.mp hbal
  rw [color_join] at hup
  exact ⟨n, ht, hup, fun hc => (hred hc).1⟩

/-- A red sibling: it takes the place of the parent, and the hole gets a black sibling. -/
theorem expects_blackSibling (h : Expects (⟨s, c, x, join s .red y a b⟩ :: ctx) .black (n + 1)) :
    c = .black ∧ a.color = .black ∧
      Expects (⟨s, .red, x, a⟩ :: ⟨s, .black, y, b⟩ :: ctx) .black (n + 1) := by
  obtain ⟨hred, hs, hup⟩ := h
  obtain ⟨⟨hac, hbc⟩, ha, hb⟩ := balanced_join_red.mp hs
  have hc : c = .black := by
    by_contra hc
    exact absurd (hred (Color.ne_black.mp hc)).2 (by simp)
  subst hc
  exact ⟨rfl, hac, fun _ => ⟨rfl, hac⟩, ha, nofun, hb, hup⟩

/-- A black sibling with black children is made red, and the question is one level higher. -/
theorem short_climbed (h : Expects (⟨s, c, x, join s .black y a b⟩ :: ctx) .black (n + 1)) (ht : Balanced t n)
    (hac : a.color = .black) (hbc : b.color = .black) :
    ∃ m, Short (join s c x t (join s .red y a b)) m ∧ Expects ctx .black (m + 1) := by
  obtain ⟨-, hs, hup⟩ := h
  obtain ⟨ha, hb⟩ := balanced_join_black.mp hs
  have hsibling : Balanced (join s .red y a b) n := balanced_join_red.mpr ⟨⟨hac, hbc⟩, ha, hb⟩
  cases c with
  | red =>
    refine ⟨n, ?_, hup.black⟩
    rw [Short, if_pos color_join, paint_join, balanced_join_black]
    exact ⟨ht, hsibling⟩
  | black => exact ⟨n + 1, RBTree.Balanced.short (balanced_join_black.mpr ⟨ht, hsibling⟩), hup⟩

/-- The near child of the sibling is red and the far one black: they change to a red far child. -/
theorem expects_redFarNephew
    (h : Expects (⟨s, c, x, join s .black y (join s .red z a u) b⟩ :: ctx) .black (n + 1)) (hbc : b.color = .black) :
    Expects (⟨s, c, x, join s .black z a (join s .red y u b)⟩ :: ctx) .black (n + 1) := by
  obtain ⟨-, hs, hup⟩ := h
  obtain ⟨hz, hb⟩ := balanced_join_black.mp hs
  obtain ⟨⟨-, huc⟩, ha, hu⟩ := balanced_join_red.mp hz
  exact ⟨fun _ => ⟨rfl, color_join⟩,
    balanced_join_black.mpr ⟨ha, balanced_join_red.mpr ⟨⟨huc, hbc⟩, hu, hb⟩⟩, hup⟩

/-- The far child of the sibling is red: the sibling takes the place and the colour of the parent, and nothing is
short any more. -/
theorem isRedBlack_rotated (h : Expects (⟨s, c, x, join s .black y a b⟩ :: ctx) .black (n + 1)) (ht : Balanced t n)
    (hbc : b.color = .red) :
    IsRedBlack (fill ctx (join s c y (join s .black x t a) (b.paint .black))) := by
  obtain ⟨-, hs, hup⟩ := h
  obtain ⟨ha, hb⟩ := balanced_join_black.mp hs
  refine isRedBlack_fill.mpr ⟨n + 1 + c.weight, balanced_join.mpr ⟨n + 1, rfl, fun _ => ⟨color_join, ?_⟩,
    balanced_join_black.mpr ⟨ht, ha⟩, hb.paint_black hbc⟩, ?_⟩
  · obtain ⟨_, _, _, rfl⟩ := eq_join_of_red .left hbc
    simp
  · rwa [color_join]

end

/-! ### Search trees -/

section

variable {K : Type*} [LinearOrder K] {key : α → K} {k : K} {a b : List α} {x : α} {t : RBTree α}

/-- The entries are in the order of their keys, and no two have one key. -/
def Ascending (key : α → K) (l : List α) : Prop := l.Pairwise fun x y => key x < key y

/-- Left of a node there are lower keys, right of it higher ones. -/
def IsSearchTree (key : α → K) : RBTree α → Prop
  | .nil => True
  | .node _ l x r =>
    (∀ y ∈ l.toList, key y < key x) ∧ (∀ y ∈ r.toList, key x < key y) ∧ IsSearchTree key l ∧ IsSearchTree key r

theorem ascending_append_cons : Ascending key (a ++ x :: b) ↔
    (∀ y ∈ a, key y < key x) ∧ (∀ y ∈ b, key x < key y) ∧ Ascending key a ∧ Ascending key b := by
  unfold Ascending
  rw [List.pairwise_append, List.pairwise_cons]
  constructor
  · rintro ⟨ha, ⟨hxb, hb⟩, hab⟩
    exact ⟨fun y hy => hab y hy x List.mem_cons_self, hxb, ha, hb⟩
  · rintro ⟨hax, hxb, ha, hb⟩
    refine ⟨ha, ⟨hxb, hb⟩, fun y hy z hz => ?_⟩
    rcases List.mem_cons.mp hz with rfl | hz
    · exact hax y hy
    · exact (hax y hy).trans (hxb z hz)

theorem isSearchTree_iff : IsSearchTree key t ↔ Ascending key t.toList := by
  induction t with
  | nil => exact iff_of_true trivial List.Pairwise.nil
  | node c l x r ihl ihr =>
    rw [toList, ascending_append_cons, ← ihl, ← ihr]
    rfl

theorem Ascending.nodup {l : List α} (h : Ascending key l) : l.Nodup :=
  h.imp fun hlt heq => absurd (heq ▸ hlt) (lt_irrefl _)

/-! The entry with a key, as a search finds it. -/

theorem Ascending.find?_of_lt (h : Ascending key (a ++ x :: b)) (hk : k < key x) :
    (a ++ x :: b).find? (fun y => key y = k) = a.find? fun y => key y = k := by
  have hxb := (ascending_append_cons.mp h).2.1
  have hrest : (x :: b).find? (fun y => key y = k) = none := by
    refine List.find?_eq_none.mpr fun y hy => ?_
    rcases List.mem_cons.mp hy with rfl | hy
    · simpa using hk.ne'
    · simpa using (hk.trans (hxb y hy)).ne'
  rw [List.find?_append, hrest, Option.or_none]

theorem Ascending.find?_of_gt (h : Ascending key (a ++ x :: b)) (hk : key x < k) :
    (a ++ x :: b).find? (fun y => key y = k) = b.find? fun y => key y = k := by
  have hax := (ascending_append_cons.mp h).1
  rw [List.find?_append, List.find?_eq_none.mpr fun y hy => by simpa using ((hax y hy).trans hk).ne, Option.none_or,
    List.find?_cons_of_neg (by simpa using hk.ne)]

theorem Ascending.find?_self (h : Ascending key (a ++ x :: b)) :
    (a ++ x :: b).find? (fun y => key y = key x) = some x := by
  have hax := (ascending_append_cons.mp h).1
  rw [List.find?_append, List.find?_eq_none.mpr fun y hy => by simpa using (hax y hy).ne, Option.none_or,
    List.find?_cons_of_pos (by simp)]

theorem Ascending.find?_eq_some_iff {l : List α} (h : Ascending key l) :
    l.find? (fun y => key y = k) = some x ↔ x ∈ l ∧ key x = k := by
  constructor
  · exact fun hx => ⟨List.mem_of_find?_eq_some hx, by simpa using List.find?_some hx⟩
  · rintro ⟨hx, rfl⟩
    obtain ⟨a, b, rfl⟩ := List.append_of_mem hx
    exact h.find?_self

/-- The first entry with a higher key is the next one. -/
theorem Ascending.find?_next (h : Ascending key (a ++ x :: b)) :
    (a ++ x :: b).find? (fun y => key x < key y) = b.head? := by
  obtain ⟨hax, hxb, -⟩ := ascending_append_cons.mp h
  rw [List.find?_append, List.find?_eq_none.mpr fun y hy => by simpa using (hax y hy).le, Option.none_or,
    List.find?_cons_of_neg (by simp)]
  cases b with
  | nil => rfl
  | cons y b => exact List.find?_cons_of_pos (by simpa using hxb y List.mem_cons_self)

theorem orderedInsert_between (ha : ∀ y ∈ a, key y < key x) (hb : ∀ y ∈ b, key x < key y) :
    (a ++ b).orderedInsert (fun y z => key y ≤ key z) x = a ++ x :: b := by
  induction a with
  | nil =>
    cases b with
    | nil => rfl
    | cons y b => exact List.orderedInsert_cons_of_le _ _ (hb y List.mem_cons_self).le
  | cons y a ih =>
    have hy : ¬ key x ≤ key y := not_le.mpr (ha y List.mem_cons_self)
    rw [List.cons_append, List.orderedInsert, if_neg hy, ih fun z hz => ha z (List.mem_cons_of_mem y hz)]
    rfl

end

end LynxTrace.RedBlack
