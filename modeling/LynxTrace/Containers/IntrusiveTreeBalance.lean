import LynxTrace.Containers.IntrusiveTreeLinks

/-!
# Containers.IntrusiveTreeBalance — the rebalancing loops
-/

namespace LynxTrace.IntrusiveRBTree

open RedBlack RedBlack.RBTree

variable {P : Type*} [DecidableEq P]

namespace Nodes

/-! ### The rounds by side -/

def insertColorAt (s : Side) (h : Nodes P) (elm parent gparent : P) : Option (Nodes P × P) :=
  let tmp := (h.node gparent).child s.other
  if h.isRed tmp then do
    let uncle ← tmp
    pure ((h.setColor uncle .black).rbSetBlackRed parent gparent, gparent)
  else do
    let (h, elm, parent, tmp) ←
      if (h.node parent).child s.other = some elm then do
        let h ← h.rotate s parent tmp
        pure (h, parent, elm, some parent)
      else pure (h, elm, parent, tmp)
    let h ← (h.rbSetBlackRed parent gparent).rotate s.other gparent tmp
    pure (h, elm)

theorem insertColorLeft_eq : insertColorLeft (P := P) = insertColorAt .left := rfl

theorem insertColorRight_eq : insertColorRight (P := P) = insertColorAt .right := rfl

/-- The part of a round for a red sibling. -/
def blackSibling (s : Side) (h : Nodes P) (parent tmp : P) : Option (Nodes P × P) :=
  if (h.node tmp).color = .red then do
    let h ← (h.rbSetBlackRed tmp parent).rotate s parent (some tmp)
    let tmp ← (h.node parent).child s.other
    pure (h, tmp)
  else pure (h, tmp)

/-- The part for a black far child of the sibling. -/
def redFarNephew (s : Side) (h : Nodes P) (parent tmp : P) : Option (Nodes P × P) :=
  if h.isBlack ((h.node tmp).child s.other) then do
    let near := (h.node tmp).child s
    let h ← ((h.setBlackOf near).setColor tmp .red).rotate s.other tmp near
    let tmp ← (h.node parent).child s.other
    pure (h, tmp)
  else pure (h, tmp)

/-- The part that is followed by the `break`. -/
def lastRotation (s : Side) (h : Nodes P) (parent tmp : P) : Option (Round P) := do
  let h := (h.setColor tmp (h.node parent).color).setColor parent .black
  let h := h.setBlackOf ((h.node tmp).child s.other)
  let h ← h.rotate s parent (some tmp)
  pure (.leave h h.root)

/-- The part that is left once the sibling is black. -/
def withBlackSibling (s : Side) (h : Nodes P) (parent tmp : P) : Option (Round P) :=
  if h.isBlack (h.node tmp).left ∧ h.isBlack (h.node tmp).right then
    let h := h.setColor tmp .red
    pure (.climb h (h.node parent).parent (some parent))
  else do
    let (h, tmp) ← redFarNephew s h parent tmp
    lastRotation s h parent tmp

def removeColorAt (s : Side) (h : Nodes P) (parent : P) : Option (Round P) := do
  let tmp ← (h.node parent).child s.other
  let (h, tmp) ← blackSibling s h parent tmp
  withBlackSibling s h parent tmp

theorem bind_ite {α β : Type*} (p : Prop) [Decidable p] (a b : Option α) (f : α → Option β) :
    ((if p then a else b).bind f) = if p then a.bind f else b.bind f := apply_ite (Option.bind · f) p a b

theorem removeColorLeft_eq : removeColorLeft (P := P) = removeColorAt .left := by
  funext h parent
  simp only [removeColorLeft, removeColorAt, blackSibling, withBlackSibling, redFarNephew, lastRotation,
    Option.bind_eq_bind, bind_ite, Option.bind_assoc, Option.pure_def, Option.bind_some]
  rfl

theorem removeColorRight_eq : removeColorRight (P := P) = removeColorAt .right := by
  funext h parent
  simp only [removeColorRight, removeColorAt, blackSibling, withBlackSibling, redFarNephew, lastRotation,
    Option.bind_eq_bind, bind_ite, Option.bind_assoc, Option.pure_def, Option.bind_some]
  rfl

/-! ### What the rounds see -/

section

variable {h h' : Nodes P} {s s' : Side} {c d : RBColor} {p q x y z elm : P} {a b e t u : RBTree P} {f g : Frame P}
  {ctx ctx' : List (Frame P)} {par tmp : Option P} {n fuel : ℕ}

theorem Represents.setBlackOf_sibling (hr : h.Represents (fill (⟨s, c, x, b⟩ :: ctx) a)) :
    (h.setBlackOf b.root?).Represents (fill (⟨s, c, x, b.paint .black⟩ :: ctx) a) := by
  cases b with
  | nil => exact hr
  | node d l y r => exact hr.setColor_sibling rfl .black

theorem Represents.setBlackOf (hr : h.Represents (fill ctx t)) :
    (h.setBlackOf t.root?).Represents (fill ctx (t.paint .black)) := by
  cases t with
  | nil => exact hr
  | node d l y r => exact hr.setColor rfl .black

/-! ### `RBInsertColor` -/

/-- All is well but that `elm` and the node above it may both be red. -/
structure InsertPending (h : Nodes P) (elm : P) (ctx : List (Frame P)) (t : RBTree P) (n : ℕ) : Prop where
  represents : h.Represents (fill ctx t)
  entry : t.root? = some elm
  red : t.color = .red
  balanced : Balanced t n
  expects : Expects ctx .black n

theorem Represents.recolor (hr : h.Represents (fill (⟨s', .red, y, u⟩ :: ⟨s, .black, x, b⟩ :: ctx) t))
    (hz : b.root? = some z) : ((h.setColor z .black).rbSetBlackRed y x).Represents
      (fill ctx (join s .red x (join s' .black y t u) (b.paint .black))) := by
  rw [fill_cons] at hr
  have hz' : (h.setColor z .black).Represents (fill (⟨s, .black, x, b.paint .black⟩ :: ctx) (join s' .red y t u)) :=
    hr.setColor_sibling hz .black
  exact (hz'.setColor_join .black).setColor_frame .red

/-- The second rotation of a round, and the only one where `elm` is on the side of its parent. -/
theorem Represents.rotate_outer (hr : h.Represents (fill (⟨s, .red, y, u⟩ :: ⟨s, .black, x, b⟩ :: ctx) t))
    (tmp : Option P) : ∃ h', (h.rbSetBlackRed y x).rotate s.other x tmp = some h' ∧
      h'.Represents (fill (⟨s, .black, y, join s .red x u b⟩ :: ctx) t) := by
  have hy : (h.setColor y .black).Represents (fill (⟨s, .black, x, b⟩ :: ctx) (join s .black y t u)) :=
    hr.setColor_frame .black
  have hx : (h.rbSetBlackRed y x).Represents (fill ctx (join s .red x (join s .black y t u) b)) :=
    hy.setColor_frame .red
  rw [join_join] at hx
  obtain ⟨h', hrotate, hr'⟩ := hx.rotate tmp
  refine ⟨h', hrotate, ?_⟩
  rw [join_other, join_other] at hr'
  exact hr'

/-- The first of two rotations. -/
theorem Represents.rotate_inner (hr : h.Represents (fill (⟨s.other, .red, y, u⟩ :: ctx) (join s .red z a b)))
    (tmp : Option P) :
    ∃ h', h.rotate s y tmp = some h' ∧ h'.Represents (fill (⟨s, .red, z, b⟩ :: ctx) (join s .red y u a)) := by
  rw [fill_cons, join_other] at hr
  exact hr.rotate tmp

/-- **A round of the loop.** -/
theorem InsertPending.round (hp : InsertPending h elm (⟨s', .red, y, u⟩ :: ⟨s, .black, x, b⟩ :: ctx) t n) :
    ∃ h' elm', insertColorAt s h elm y x = some (h', elm') ∧ ∃ ctx' t' n', InsertPending h' elm' ctx' t' n' ∧
      ctx'.length ≤ ctx.length + 1 ∧
      (fill ctx' t').toList = (fill (⟨s', .red, y, u⟩ :: ⟨s, .black, x, b⟩ :: ctx) t).toList := by
  obtain ⟨hr, helm, hred, ht, hup⟩ := hp
  have hx : h.Represents (fill (⟨s.other, .black, x, join s' .red y t u⟩ :: ctx) b) := by
    rw [← fill_sibling]
    exact hr
  have huncle : (h.node x).child s.other = b.root? := hx.frame.1
  have hb : h.isRed b.root? = decide (b.color = .red) := hx.below.isRed
  by_cases hbc : b.color = .red
  · -- the uncle is red
    obtain ⟨z, _, _, hz⟩ := eq_join_of_red .left hbc
    have hentry : b.root? = some z := by simp [hz]
    obtain ⟨ht', hup'⟩ := balanced_recolored hup ht hbc
    rw [hentry] at huncle hb
    refine ⟨_, x, by simp [insertColorAt, huncle, hb, hbc], ctx, _, n + 1, ⟨hr.recolor hentry, root?_join,
      color_join, ht', hup'⟩, by omega, ?_⟩
    exact toList_fill_congr (toList_join_congr (toList_join_congr rfl rfl) toList_paint)
  · have hbb : b.color = .black := Color.ne_red.mp hbc
    rcases Side.eq_or_eq_other s s' with rfl | rfl
    · -- `elm` is on the side of its parent
      have helse : (h.node y).child s'.other ≠ some elm := fun hs =>
        hr.entry_ne_sibling helm (hr.frame.2.1.symm.trans hs)
      obtain ⟨h', hrotate, hr'⟩ := hr.rotate_outer b.root?
      refine ⟨h', elm, ?_, _, t, n, ⟨hr', helm, hred, ht, (expects_rotated hup hbb).black⟩, by simp, ?_⟩
      · simp [insertColorAt, huncle, hb, hbc, helse, hrotate]
      · exact toList_fill_outer
    · -- it is on the other side
      obtain ⟨z, a, e, rfl⟩ := eq_join_of_red s hred
      obtain rfl : z = elm := Option.some.inj (root?_join.symm.trans helm)
      have hthen : (h.node y).child s.other = some z := hr.frame.1.trans root?_join
      obtain ⟨ht₁, hup₁⟩ := expects_swapped hup ht
      obtain ⟨h₁, hrotate₁, hr₁⟩ := hr.rotate_inner b.root?
      obtain ⟨h', hrotate, hr'⟩ := hr₁.rotate_outer (some y)
      refine ⟨h', y, ?_, _, _, n, ⟨hr', root?_join, color_join, ht₁, (expects_rotated hup₁ hbb).black⟩, by simp, ?_⟩
      · simp [insertColorAt, huncle, hb, hbc, hthen, hrotate₁, hrotate]
      · exact (toList_fill_outer (d := .red)).trans toList_fill_inner

/-- The loop ends at the root or below a black node. -/
theorem InsertPending.loop (hp : InsertPending h elm ctx t n) (hfuel : ctx.length < fuel) :
    ∃ h' t', insertColorLoop fuel h elm = some h' ∧ h'.Represents t' ∧ IsRedBlack (t'.paint .black) ∧
      t'.toList = (fill ctx t).toList := by
  induction fuel generalizing h elm ctx t n with
  | zero => omega
  | succ fuel ih =>
    have hparent : (h.node elm).parent = above ctx := hp.represents.parent hp.entry
    cases ctx with
    | nil =>
      exact ⟨h, t, by simp [insertColorLoop, hparent], hp.represents,
        isRedBlack_iff.mpr ⟨color_paint_black, _, hp.balanced.paint_black hp.red⟩, rfl⟩
    | cons f ctx =>
      obtain ⟨s', c, y, u⟩ := f
      have hcolor : (h.node y).color = c := hp.represents.frame.2.2.2
      cases c with
      | black =>
        have hrb : IsRedBlack (fill (⟨s', .black, y, u⟩ :: ctx) t) :=
          isRedBlack_fill.mpr ⟨n, hp.balanced, hp.red ▸ hp.expects.red rfl⟩
        refine ⟨h, _, by simp [insertColorLoop, hparent, hcolor], hp.represents, ?_, rfl⟩
        rwa [paint_self hrb.root_black]
      | red =>
        obtain ⟨⟨s, c, x, b⟩, ctx, rfl, rfl⟩ := hp.expects.eq_cons rfl
        have hgparent : (h.node y).parent = some x := hp.represents.frame.2.2.1
        have hr : h.Represents (fill (⟨s, .black, x, b⟩ :: ctx) (join s' .red y t u)) := hp.represents
        have hside : (h.node x).left = some y ↔ s = .left := hr.left_eq_iff root?_join
        obtain ⟨h₁, elm₁, hround, ctx₁, t₁, n₁, hp₁, hlength, hlist⟩ := hp.round
        simp only [List.length_cons] at hfuel
        obtain ⟨h', t', hloop, hr', ht', hlist'⟩ := ih hp₁ (by omega)
        refine ⟨h', t', ?_, hr', ht', hlist'.trans hlist⟩
        cases s with
        | left =>
          have hleft : (h.node x).left = some y := hside.mpr rfl
          simp [insertColorLoop, hparent, hcolor, hgparent, hleft, insertColorLeft_eq, hround, hloop]
        | right =>
          have hright : some y ≠ (h.node x).left := fun hl => absurd (hside.mp hl.symm) (by decide)
          simp [insertColorLoop, hparent, hcolor, hgparent, hright, insertColorRight_eq, hround, hloop]

/-- **`RBInsertColor`** makes the tree red-black again. -/
theorem InsertPending.rbInsertColor (hp : InsertPending h elm ctx t n) (hfuel : ctx.length < fuel) :
    ∃ h' t', h.rbInsertColor fuel elm = some h' ∧ h'.Represents t' ∧ IsRedBlack t' ∧
      t'.toList = (fill ctx t).toList := by
  obtain ⟨h₁, t₁, hloop, hr₁, ht₁, hlist⟩ := hp.loop hfuel
  have helm : elm ∈ t₁.toList := by
    rw [hlist, mem_fill]
    exact Or.inr (mem_of_root? hp.entry)
  obtain ⟨r, hroot⟩ : ∃ r, t₁.root? = some r := by
    refine Option.ne_none_iff_exists'.mp fun hnone => ?_
    simp [root?_eq_none.mp hnone] at helm
  have hr : h₁.Represents (fill [] t₁) := hr₁
  refine ⟨h₁.setColor r .black, _, ?_, hr.setColor hroot .black, ht₁, ?_⟩
  · simp [Nodes.rbInsertColor, hloop, hr₁.root, hroot]
  · rw [fill_nil, toList_paint, hlist]

/-! ### `RBRemoveColor` -/

/-- The tree in the hole, whose root is `elm`, is one black node short. -/
structure RemovePending (h : Nodes P) (parent elm : Option P) (ctx : List (Frame P)) (t : RBTree P) (n : ℕ) : Prop where
  represents : h.Represents (fill ctx t)
  parent_eq : parent = above ctx
  elm_eq : elm = t.root?
  short : Short t n
  expects : Expects ctx .black (n + 1)

/-- A red sibling is rotated up; the hole is one level lower and has a black sibling. -/
theorem Represents.blackSibling_red (hr : h.Represents (fill (⟨s, .black, x, join s .red y a b⟩ :: ctx) t))
    (hz : a.root? = some z) : ∃ h', h.blackSibling s x y = some (h', z) ∧
      h'.Represents (fill (⟨s, .red, x, a⟩ :: ⟨s, .black, y, b⟩ :: ctx) t) := by
  have hcolor : (h.node y).color = .red := hr.sibling.1.2.2.2
  have hy : (h.setColor y .black).Represents (fill (⟨s, .black, x, join s .black y a b⟩ :: ctx) t) := by
    have hpaint : (join s .red y a b).paint .black = join s .black y a b := paint_join
    exact hpaint ▸ hr.setColor_sibling root?_join .black
  have hx : (h.rbSetBlackRed y x).Represents (fill ctx (join s .red x t (join s .black y a b))) :=
    hy.setColor_frame .red
  obtain ⟨h', hrotate, hr'⟩ := hx.rotate (some y)
  have hnear : (h'.node x).child s.other = a.root? := by
    have hinner : h'.Represents (fill (⟨s, .black, y, b⟩ :: ctx) (join s .red x t a)) := hr'
    exact hinner.node.2.1
  exact ⟨h', by simp [blackSibling, hcolor, hrotate, hnear, hz], hr'⟩

theorem Represents.blackSibling_black (hr : h.Represents (fill (⟨s, c, x, join s .black y a b⟩ :: ctx) t)) :
    h.blackSibling s x y = some (h, y) := by
  have hcolor : (h.node y).color = .black := hr.sibling.1.2.2.2
  simp [blackSibling, hcolor]

/-- A red near child of the sibling is rotated up to be the sibling. -/
theorem Represents.redFarNephew_black
    (hr : h.Represents (fill (⟨s, c, x, join s .black y (join s .red z a u) b⟩ :: ctx) t)) (hb : b.color = .black) :
    ∃ h', h.redFarNephew s x y = some (h', z) ∧
      h'.Represents (fill (⟨s, c, x, join s .black z a (join s .red y u b)⟩ :: ctx) t) := by
  obtain ⟨⟨hnear, hfar, -⟩, -, hfarLinked⟩ := hr.sibling
  have hblack : h.isBlack b.root? = true := by simp [hfarLinked.isBlack, hb]
  -- the near child with the sibling and then the parent above it
  have hr₁ : h.Represents (fill (⟨s, .black, y, b⟩ :: ⟨s.other, c, x, t⟩ :: ctx) (join s .red z a u)) := by
    rw [fill_sibling] at hr
    exact hr
  have hr₂ : ((h.setColor z .black).setColor y .red).Represents
      (fill (⟨s.other, c, x, t⟩ :: ctx) (join s .red y (join s .black z a u) b)) :=
    (hr₁.setColor_join .black).setColor_frame .red
  rw [join_join] at hr₂
  obtain ⟨h', hrotate, hr'⟩ := hr₂.rotate (some z)
  rw [join_other, join_other, ← fill_sibling] at hr'
  have hsibling : (h'.node x).child s.other = some z := hr'.frame.2.1.trans root?_join
  have hnear' : (h.node y).child s = some z := hnear.trans root?_join
  exact ⟨h', by simp [redFarNephew, hfar, hblack, hnear', Nodes.setBlackOf, hrotate, hsibling], hr'⟩

theorem Represents.redFarNephew_red (hr : h.Represents (fill (⟨s, c, x, join s d y a b⟩ :: ctx) t))
    (hb : b.color = .red) : h.redFarNephew s x y = some (h, y) := by
  obtain ⟨⟨-, hfar, -⟩, -, hfarLinked⟩ := hr.sibling
  have hblack : h.isBlack b.root? = false := by simp [hfarLinked.isBlack, hb]
  simp [redFarNephew, hfar, hblack]

/-- The sibling is rotated up and takes the colour of the parent. -/
theorem Represents.lastRotation (hr : h.Represents (fill (⟨s, c, x, join s d y a b⟩ :: ctx) t)) :
    ∃ h', h.lastRotation s x y = some (.leave h' h'.root) ∧
      h'.Represents (fill ctx (join s c y (join s .black x t a) (b.paint .black))) := by
  have hcolor : (h.node x).color = c := hr.frame.2.2.2
  have hr₁ : ((h.setColor y c).setColor x .black).Represents (fill (⟨s, .black, x, join s c y a b⟩ :: ctx) t) := by
    have hpaint : (join s d y a b).paint c = join s c y a b := paint_join
    exact (hpaint ▸ hr.setColor_sibling root?_join c).setColor_frame .black
  have hfar : (((h.setColor y c).setColor x .black).node y).child s.other = b.root? := hr₁.sibling.1.2.1
  have hr₂ : (((h.setColor y c).setColor x .black).setBlackOf b.root?).Represents
      (fill ctx (join s .black x t (join s c y a (b.paint .black)))) := by
    rw [fill_sibling] at hr₁
    have hr₃ : (((h.setColor y c).setColor x .black).setBlackOf b.root?).Represents
        (fill (⟨s, c, y, b.paint .black⟩ :: ⟨s.other, .black, x, t⟩ :: ctx) a) := Represents.setBlackOf_sibling hr₁
    rw [fill_cons, ← fill_sibling] at hr₃
    exact hr₃
  obtain ⟨h', hrotate, hr'⟩ := hr₂.rotate (some y)
  exact ⟨h', by simp [Nodes.lastRotation, hcolor, hfar, hrotate], hr'⟩

/-- What a round may end with.  When it climbs, the hole is at most `k` levels below the root or the tree in it is
red, which ends the loop. -/
def Round.Sound (entries : List P) (k : ℕ) : Round P → Prop
  | .climb h parent elm => ∃ ctx t n, h.RemovePending parent elm ctx t n ∧ (t.color = .red ∨ ctx.length ≤ k) ∧
      (fill ctx t).toList = entries
  | .leave h elm => ∃ t, h.Represents t ∧ IsRedBlack t ∧ elm = t.root? ∧ t.toList = entries

/-- With a black sibling the loop climbs, or a rotation settles it. -/
theorem Represents.withBlackSibling {k : ℕ} (hr : h.Represents (fill (⟨s, c, x, join s .black y a b⟩ :: ctx) t))
    (ht : Balanced t n) (hup : Expects (⟨s, c, x, join s .black y a b⟩ :: ctx) .black (n + 1))
    (hk : c = .red ∨ ctx.length ≤ k) : ∃ round, h.withBlackSibling s x y = some round ∧
      round.Sound (fill (⟨s, c, x, join s .black y a b⟩ :: ctx) t).toList k := by
  obtain ⟨⟨hnear, hfar, -⟩, ha, hb⟩ := hr.sibling
  have hnearBlack : h.isBlack a.root? = decide (a.color = .black) := ha.isBlack
  have hfarBlack : h.isBlack b.root? = decide (b.color = .black) := hb.isBlack
  by_cases hblack : a.color = .black ∧ b.color = .black
  · obtain ⟨m, hshort, hup'⟩ := short_climbed hup ht hblack.1 hblack.2
    have hr' : (h.setColor y .red).Represents (fill (⟨s, c, x, join s .red y a b⟩ :: ctx) t) := by
      have hpaint : (join s .black y a b).paint .red = join s .red y a b := paint_join
      exact hpaint ▸ hr.setColor_sibling root?_join .red
    have hparent : (h.node x).parent = above ctx := hr.frame.2.2.1
    refine ⟨.climb (h.setColor y .red) (above ctx) (some x), ?_, ctx, _, m,
      ⟨hr', rfl, root?_join.symm, hshort, hup'⟩, by rwa [color_join], ?_⟩
    · simp [Nodes.withBlackSibling, isBlack_both s, hnear, hfar, hnearBlack, hfarBlack, hblack.1, hblack.2, hparent]
    · exact toList_fill_congr (toList_join_congr rfl (toList_join_congr rfl rfl))
  · -- the rotations
    have helse : ¬ (h.isBlack (h.node y).left ∧ h.isBlack (h.node y).right) := by
      rw [isBlack_both s, hnear, hfar, hnearBlack, hfarBlack]
      simpa using hblack
    have hround : h.withBlackSibling s x y =
        (h.redFarNephew s x y).bind fun (h, tmp) => h.lastRotation s x tmp := if_neg helse
    by_cases hbc : b.color = .black
    · have hac : a.color = .red := Color.ne_black.mp fun hac => hblack ⟨hac, hbc⟩
      obtain ⟨z, a₁, a₂, rfl⟩ := eq_join_of_red s hac
      obtain ⟨h₁, hnephew, hr₁⟩ := hr.redFarNephew_black hbc
      obtain ⟨h', hlast, hr'⟩ := hr₁.lastRotation
      have hrb := isRedBlack_rotated (expects_redFarNephew hup hbc) ht color_join
      refine ⟨.leave h' h'.root, by rw [hround, hnephew]; exact hlast, _, hr', hrb, hr'.root, ?_⟩
      refine toList_fill_congr ?_
      calc (join s c z (join s .black x t a₁) ((join s .red y a₂ b).paint .black)).toList
        _ = (join s c z (join s .black x t a₁) (join s .red y a₂ b)).toList := toList_join_congr rfl toList_paint
        _ = (join s c x t (join s .black z a₁ (join s .red y a₂ b))).toList := toList_rotate
        _ = (join s c x t (join s .black y (join s .red z a₁ a₂) b)).toList := toList_join_congr rfl toList_rotate.symm
    · have hbr : b.color = .red := Color.ne_black.mp hbc
      obtain ⟨h', hlast, hr'⟩ := hr.lastRotation
      refine ⟨.leave h' h'.root, by rw [hround, hr.redFarNephew_red hbr]; exact hlast, _, hr',
        isRedBlack_rotated hup ht hbr, hr'.root, ?_⟩
      refine toList_fill_congr ?_
      calc (join s c y (join s .black x t a) (b.paint .black)).toList
        _ = (join s c y (join s .black x t a) b).toList := toList_join_congr rfl toList_paint
        _ = (join s c x t (join s .black y a b)).toList := toList_rotate

/-- **A round of the loop.** -/
theorem RemovePending.round (hp : h.RemovePending par tmp (f :: ctx) t n) (htc : t.color = .black) :
    ∃ round, h.removeColorAt f.side f.entry = some round ∧ round.Sound (fill (f :: ctx) t).toList ctx.length := by
  obtain ⟨s, c, x, b⟩ := f
  obtain ⟨hr, -, -, hshort, hup⟩ := hp
  have ht : Balanced t n := hshort.of_black htc
  obtain ⟨d, y, a, e, rfl⟩ := hup.2.1.eq_join s
  have hsibling : (h.node x).child s.other = some y := hr.frame.2.1.trans root?_join
  cases d with
  | black =>
    obtain ⟨round, hround, hsound⟩ := hr.withBlackSibling ht hup (Or.inr le_rfl)
    exact ⟨round, by simp [removeColorAt, hsibling, hr.blackSibling_black, hround], hsound⟩
  | red =>
    obtain ⟨rfl, hac, hup'⟩ := expects_blackSibling hup
    obtain ⟨d, z, a₁, a₂, rfl⟩ := hup'.2.1.eq_join s
    rw [color_join] at hac
    subst hac
    obtain ⟨h₁, hrotate, hr₁⟩ := hr.blackSibling_red root?_join
    obtain ⟨round, hround, hsound⟩ := hr₁.withBlackSibling (k := ctx.length) ht hup' (Or.inl rfl)
    refine ⟨round, by simp [removeColorAt, hsibling, hrotate, hround], ?_⟩
    have hlist : (fill (⟨s, .red, x, join s .black z a₁ a₂⟩ :: ⟨s, .black, y, e⟩ :: ctx) t).toList =
        (fill (⟨s, .black, x, join s .red y (join s .black z a₁ a₂) e⟩ :: ctx) t).toList := toList_fill_outer.symm
    rwa [hlist] at hsound

/-- What the loop does with the end of a round. -/
def Round.resume (fuel : ℕ) : Round P → Option (Nodes P × Option P)
  | .climb h parent elm => removeColorLoop fuel h parent elm
  | .leave h elm => some (h, elm)

theorem RemovePending.removeColorLoop_succ {round : Round P} (hp : h.RemovePending par t.root? (f :: ctx) t n)
    (htb : t.color = .black) (hround : h.removeColorAt f.side f.entry = some round) (fuel : ℕ) :
    removeColorLoop (fuel + 1) h par t.root? = round.resume fuel := by
  have hblack : h.isBlack t.root? = decide (t.color = .black) := hp.represents.below.isBlack
  have hpar : par = some f.entry := hp.parent_eq
  have hne : t.root? ≠ h.root := hp.represents.entry_ne_root
  have hside : (h.node f.entry).left = t.root? ↔ f.side = .left := by
    refine hp.represents.left_eq_iff_of_sibling fun hs => ?_
    have hbal : Balanced f.sibling (n + 1) := hp.expects.2.1
    rw [hs, balanced_nil] at hbal
    omega
  cases hs : f.side with
  | left =>
    rw [hs] at hround
    have hleft : (h.node f.entry).left = t.root? := hside.mpr hs
    cases round <;>
      simp [removeColorLoop, hblack, htb, hne, hpar, hleft, removeColorLeft_eq, hround, Round.resume]
  | right =>
    rw [hs] at hround
    have hright : (h.node f.entry).left ≠ t.root? := fun hl => absurd (hs.symm.trans (hside.mp hl)) (by decide)
    cases round <;>
      simp [removeColorLoop, hblack, htb, hne, hpar, hright, removeColorRight_eq, hround, Round.resume]

theorem RemovePending.loop (hp : h.RemovePending par tmp ctx t n) (hpos : 0 < fuel)
    (hfuel : t.color = .red ∨ ctx.length < fuel) : ∃ h' elm' t', removeColorLoop fuel h par tmp = some (h', elm') ∧
      (h'.setBlackOf elm').Represents t' ∧ IsRedBlack t' ∧ t'.toList = (fill ctx t).toList := by
  induction fuel generalizing h par tmp ctx t n with
  | zero => omega
  | succ fuel ih =>
    obtain rfl := hp.elm_eq
    have hblack : h.isBlack t.root? = decide (t.color = .black) := hp.represents.below.isBlack
    by_cases htc : t.color = .red
    · -- a red root in the hole makes up for the black node
      refine ⟨h, t.root?, _, by simp [removeColorLoop, hblack, htc], hp.represents.setBlackOf, ?_, ?_⟩
      · exact isRedBlack_fill.mpr ⟨n + 1, hp.short.of_red htc, color_paint_black.symm ▸ hp.expects⟩
      · exact toList_fill_congr toList_paint
    have htb : t.color = .black := Color.ne_red.mp htc
    cases ctx with
    | nil =>
      have hroot : h.root = t.root? := hp.represents.root
      refine ⟨h, t.root?, _, by simp [removeColorLoop, hroot], hp.represents.setBlackOf, ?_, ?_⟩
      · rw [paint_self htb]
        exact isRedBlack_iff.mpr ⟨htb, n, hp.short.of_black htb⟩
      · exact toList_fill_congr toList_paint
    | cons f ctx =>
      obtain ⟨round, hround, hsound⟩ := hp.round htb
      have hturn := hp.removeColorLoop_succ htb hround
      cases round with
      | climb h₁ parent elm =>
        obtain ⟨ctx₁, t₁, n₁, hp₁, hends, hlist⟩ := hsound
        simp only [List.length_cons, htc, false_or] at hfuel
        obtain ⟨h', elm', t', hloop, hr', ht', hlist'⟩ := ih hp₁ (by omega) (hends.imp_right fun hk => by omega)
        exact ⟨h', elm', t', (hturn fuel).trans hloop, hr', ht', hlist'.trans hlist⟩
      | leave h₁ elm =>
        obtain ⟨t₁, hr₁, ht₁, rfl, hlist⟩ := hsound
        have hr₁' : h₁.Represents (fill [] t₁) := hr₁
        refine ⟨h₁, t₁.root?, t₁, hturn fuel, ?_, ht₁, hlist⟩
        simpa [paint_self ht₁.root_black] using hr₁'.setBlackOf

theorem RemovePending.rbRemoveColor (hp : h.RemovePending par tmp ctx t n) (hfuel : ctx.length < fuel) :
    ∃ h' t', h.rbRemoveColor fuel par tmp = some h' ∧ h'.Represents t' ∧ IsRedBlack t' ∧
      t'.toList = (fill ctx t).toList := by
  obtain ⟨h', elm', t', hloop, hr', ht', hlist⟩ := hp.loop (by omega) (Or.inr hfuel)
  exact ⟨_, t', by simp [Nodes.rbRemoveColor, hloop], hr', ht', hlist⟩

/-! ### `RBRemove` -/

/-- A red node is taken out without further ado; without a black one its subtree is one black node short. -/
theorem Represents.removeFinish (hr : h.Represents (fill ctx t)) (ht : Balanced t n)
    (hup : Expects ctx c (n + c.weight)) (hred : c = .red → t.color = .black) (hfuel : ctx.length < fuel) :
    ∃ h' t', h.removeFinish fuel c (above ctx) t.root? = some h' ∧ h'.Represents t' ∧ IsRedBlack t' ∧
      t'.toList = (fill ctx t).toList := by
  cases c with
  | black =>
    have hp : h.RemovePending (above ctx) t.root? ctx t n := ⟨hr, rfl, rfl, ht.short, hup⟩
    exact hp.rbRemoveColor hfuel
  | red =>
    have hrb : IsRedBlack (fill ctx t) := isRedBlack_fill.mpr ⟨n, ht, (hred rfl).symm ▸ hup.black⟩
    exact ⟨h, _, by simp [Nodes.removeFinish], hr, hrb, rfl⟩

theorem Represents.removeNode (hr : h.Represents (fill ctx (join s c p t nil)))
    (hrb : IsRedBlack (fill ctx (join s c p t nil)))
    (hfuel : (fill ctx (join s c p t nil)).toList.length ≤ fuel) :
    ∃ h' t', h.removeNode fuel p t.root? = some h' ∧ h'.Represents t' ∧ IsRedBlack t' ∧
      t'.toList = (fill ctx t).toList := by
  obtain ⟨-, -, hparent, hcolor⟩ := hr.node
  obtain ⟨n, ht, hup, hred⟩ := expects_spliced hrb
  have hlt : ctx.length < (fill ctx (join s c p t nil)).toList.length := length_lt_of_fill (mem_of_root? root?_join)
  obtain ⟨h', t', hfinish, hrest⟩ := hr.splice.1.removeFinish ht hup hred (show ctx.length < fuel by omega)
  exact ⟨h', t', by simp [Nodes.removeNode, hparent, hcolor, hfinish], hrest⟩

/-- What the writes after `*elm = *old` start from. -/
theorem Represents.substitute_writes (hr : h.Represents (fill ctx (join .left c p a b))) (hpy : p ≠ y) :
    ((h.setNode y (h.node p)).node p).parent = above ctx ∧
      ((h.setNode y (h.node p)).replaceChild (above ctx) p (some y)).node p = h.node p := by
  have hnode : (h.setNode y (h.node p)).node p = h.node p := node_setNode_of_ne hpy
  have hup : above ctx ≠ some p := fun habove =>
    hr.not_mem_outside (mem_of_root? root?_join) (mem_outside_of_above habove)
  exact ⟨by rw [hnode]; exact hr.node.2.2.1, (node_replaceChild_of_ne hup).trans hnode⟩

/-- A node with two children. -/
theorem Represents.removeBetween (hr : h.Represents (fill ctx (join .left c p a b)))
    (hrb : IsRedBlack (fill ctx (join .left c p a b))) (ha : a.root? = some z) (hb : b.root? = some x)
    (hfuel : (fill ctx (join .left c p a b)).toList.length ≤ fuel) :
    ∃ h' t', h.removeBetween fuel p x = some h' ∧ h'.Represents t' ∧ IsRedBlack t' ∧
      t'.toList = before ctx ++ (a.toList ++ (b.toList ++ after ctx)) := by
  have hbelow : h.Linked (some p) b := (linked_join.mp hr.below).2.2
  have hblength : b.toList.length ≤ fuel := by
    simp only [toList_fill, join, toList, List.length_append, List.length_cons] at hfuel
    omega
  obtain ⟨up, d, y, u, hy, rfl, hfirst⟩ := hbelow.leftmost hb hblength
  -- the successor `y` is taken out of its place
  have hwhole : fill ctx (join .left c p a (fill up (join .right d y u nil))) =
      fill (up ++ ⟨.right, c, p, a⟩ :: ctx) (join .right d y u nil) := by
    rw [fill_append]
    rfl
  have hrup : h.Represents (fill (up ++ ⟨.right, c, p, a⟩ :: ctx) (join .right d y u nil)) := hwhole ▸ hr
  obtain ⟨n, hu, hexp, hred⟩ := expects_spliced (hwhole ▸ hrb)
  obtain ⟨hychild, -, hyparent, hycolor⟩ := hrup.node
  obtain ⟨hr₁, hy₁⟩ := hrup.splice
  set h₁ := (h.setParentOf u.root? (above (up ++ ⟨.right, c, p, a⟩ :: ctx))).replaceChild
    (above (up ++ ⟨.right, c, p, a⟩ :: ctx)) y u.root? with hh₁
  -- and is put in the place of `p`
  have hr₁' : h₁.Represents (fill ctx (join .left c p a (fill up u))) := by
    rw [fill_append] at hr₁
    exact hr₁
  have hyup : y ∉ outside (up ++ ⟨.right, c, p, a⟩ :: ctx) := hrup.not_mem_outside (mem_of_root? root?_join)
  have hpy : p ≠ y := fun hpy => hyup (hpy ▸ by simp [outside_append])
  have hyout : y ∉ (fill ctx (join .left c p a (fill up u))).toList := by
    have hmem : y ∉ (fill (up ++ ⟨.right, c, p, a⟩ :: ctx) u).toList := by
      rw [mem_fill, not_or]
      exact ⟨hyup, hrup.not_mem_children.1⟩
    rw [fill_append] at hmem
    exact hmem
  obtain ⟨hpparent, hpnode⟩ := hr₁'.substitute_writes hpy
  obtain ⟨hpleft, hpright, -⟩ := hr₁'.node
  have hr₂ := hr₁'.substitute hyout
  rw [ha] at hr₂
  have hr₃ : ((((h₁.setNode y (h₁.node p)).replaceChild (above ctx) p (some y)).setParent z (some y)).setParentOf
      (fill up u).root? (some y)).Represents (fill (up ++ ⟨.right, c, y, a⟩ :: ctx) u) := by
    rw [fill_append]
    exact hr₂
  have hparent : (if above (up ++ ⟨.right, c, p, a⟩ :: ctx) = some p then some y
      else above (up ++ ⟨.right, c, p, a⟩ :: ctx)) = above (up ++ ⟨.right, c, y, a⟩ :: ctx) := by
    rw [above_append_cons, above_append_cons]
    cases hq : above up with
    | none => simp
    | some q =>
      have hqp : q ≠ p := fun hqp =>
        hr.not_mem_children.2 (mem_fill.mpr (Or.inl (mem_outside_of_above (hqp ▸ hq))))
      simp [hqp]
  have hlength : (up ++ ⟨.right, c, y, a⟩ :: ctx).length < fuel := by
    have hlt : (up ++ ⟨.right, c, p, a⟩ :: ctx).length <
        (fill (up ++ ⟨.right, c, p, a⟩ :: ctx) (join .right d y u nil)).toList.length :=
      length_lt_of_fill (mem_of_root? root?_join)
    rw [← hwhole] at hlt
    simp only [List.length_append, List.length_cons] at hlt ⊢
    omega
  obtain ⟨h', t', hfinish, hr', ht', hlist⟩ := hr₃.removeFinish hu hexp.rename hred hlength
  refine ⟨h', t', ?_, hr', ht', ?_⟩
  · have hyright : (h.node y).right = u.root? := hychild
    have hpleft' : (((h₁.setNode y (h₁.node p)).replaceChild (above ctx) p (some y)).node p).left = some z := by
      rw [hpnode]
      exact hpleft.trans ha
    have hpright' : ((((h₁.setNode y (h₁.node p)).replaceChild (above ctx) p (some y)).setParent z
        (some y)).node p).right = (fill up u).root? := by
      rw [← child_right, child_setParent, hpnode]
      exact hpright
    simp only [Nodes.removeBetween, hy, hyright, hyparent, hycolor, ← hh₁, hy₁, hpparent, hpleft', hpright', hparent,
      Option.bind_eq_bind, Option.bind_some]
    exact hfinish
  · rw [hlist, toList_fill, toList_fill, before_append, after_append, hfirst]
    simp [before, after, join, toList]

/-- **`RBRemove`** takes the node out of the order and leaves the tree red-black. -/
theorem Represents.rbRemove (hr : h.Represents (fill ctx (join .left c p a b)))
    (hrb : IsRedBlack (fill ctx (join .left c p a b)))
    (hfuel : (fill ctx (join .left c p a b)).toList.length ≤ fuel) :
    ∃ h' t', h.rbRemove fuel p = some h' ∧ h'.Represents t' ∧ IsRedBlack t' ∧
      t'.toList = before ctx ++ (a.toList ++ (b.toList ++ after ctx)) := by
  obtain ⟨hleft, hright, -⟩ := hr.node
  rw [child_left] at hleft
  rw [Side.other_left, child_right] at hright
  cases ha : a.root? with
  | none =>
    obtain rfl := root?_eq_none.mp ha
    have hjoin : join .left c p nil b = join .right c p b nil := rfl
    rw [hjoin] at hr hrb hfuel
    obtain ⟨h', t', hremove, hr', ht', hlist⟩ := hr.removeNode hrb hfuel
    exact ⟨h', t', by simp [Nodes.rbRemove, hleft, hright, hremove], hr', ht', by simpa [toList_fill] using hlist⟩
  | some z =>
    cases hb : b.root? with
    | none =>
      obtain rfl := root?_eq_none.mp hb
      obtain ⟨h', t', hremove, hr', ht', hlist⟩ := hr.removeNode hrb hfuel
      rw [ha] at hremove
      refine ⟨h', t', by simp [Nodes.rbRemove, hleft, hright, ha, hremove], hr', ht', ?_⟩
      simpa [toList_fill] using hlist
    | some x =>
      obtain ⟨h', t', hremove, hrest⟩ := hr.removeBetween hrb ha hb hfuel
      exact ⟨h', t', by simp [Nodes.rbRemove, hleft, hright, ha, hb, hremove], hrest⟩

end

end Nodes

end LynxTrace.IntrusiveRBTree
