import LynxTrace.Containers.IntrusiveTreeBalance

/-!
# Containers.IntrusiveTreeRuns — every run of an `IntrusiveTree`

* `Represents.rbNext` : `RBNext` is the next entry in order.
* `Holds` : the tree is a red-black search tree of the entries.
* `SortedEntries`, `Op.apply` : the entries as a list in the order of their keys, and what each call does to it.
* `run_sortedEntries` : every run of calls has the results that it has on the list, and leaves a red-black search tree.
-/

namespace LynxTrace.IntrusiveRBTree

open RedBlack RedBlack.RBTree

variable {P : Type*}

/-! ### The order of `RBNext` -/

namespace Nodes

section

variable [DecidableEq P] {h : Nodes P} {c : RBColor} {x : P} {a b t : RBTree P} {ctx : List (Frame P)} {fuel : ℕ}

/-- Up through right children, and once more. -/
theorem Represents.climb (hr : h.Represents (fill ctx t)) (hx : t.root? = some x) (hfuel : ctx.length < fuel) :
    h.climb fuel x = some (after ctx).head? := by
  induction fuel generalizing ctx t x with
  | zero => omega
  | succ fuel ih =>
    have hparent : (h.node x).parent = above ctx := hr.parent hx
    cases ctx with
    | nil => simp [Nodes.climb, hparent, after]
    | cons f ctx =>
      have hside : (h.node f.entry).right = some x ↔ f.side = .right := hr.child_eq_iff hx .right
      obtain ⟨s, c, y, b⟩ := f
      cases s with
      | left =>
        have hleft : some x ≠ (h.node y).right := fun hr => absurd (hside.mp hr.symm) (by simp)
        simp [Nodes.climb, hparent, hleft, after]
      | right =>
        have hright : (h.node y).right = some x := hside.mpr rfl
        rw [fill_cons] at hr
        simp only [List.length_cons] at hfuel
        simpa [Nodes.climb, hparent, hright, after] using ih hr root?_join (by omega)

/-- **`RBNext`**: the first entry after `x` in order. -/
theorem Represents.rbNext (hr : h.Represents (fill ctx (join .left c x a b)))
    (hfuel : (fill ctx (join .left c x a b)).toList.length ≤ fuel) :
    h.rbNext fuel x = some (b.toList ++ after ctx).head? := by
  obtain ⟨-, hright, hparent, -⟩ := hr.node
  rw [Side.other_left, child_right] at hright
  have hlt : ctx.length < (fill ctx (join .left c x a b)).toList.length := length_lt_of_fill (mem_of_root? root?_join)
  cases hz : b.root? with
  | some z =>
    have hlength : b.toList.length ≤ fuel := by
      simp only [toList_fill, join, toList, List.length_append, List.length_cons] at hfuel
      omega
    obtain ⟨y, l, hb⟩ := List.exists_cons_of_ne_nil (List.ne_nil_of_mem (mem_of_root? hz))
    have hbelow : h.Linked (some x) b := (linked_join.mp hr.below).2.2
    simp [Nodes.rbNext, hright, hz, hbelow.leftmost_eq_head? hz hlength, hb]
  | none =>
    obtain rfl := root?_eq_none.mp hz
    have hclimb : h.climb fuel x = some (after ctx).head? := hr.climb root?_join (by omega)
    cases ctx with
    | nil => simp [Nodes.rbNext, hright, hparent, hclimb]
    | cons f ctx =>
      have hside : (h.node f.entry).left = some x ↔ f.side = .left := hr.left_eq_iff root?_join
      obtain ⟨s, d, y, u⟩ := f
      cases s with
      | left =>
        have hleft : (h.node y).left = some x := hside.mpr rfl
        simp [Nodes.rbNext, hright, hparent, hleft, after]
      | right =>
        have hleft : some x ≠ (h.node y).left := fun hl => absurd (hside.mp hl.symm) (by simp)
        simp [Nodes.rbNext, hright, hparent, hleft, hclimb]

end

end Nodes

namespace IntrusiveTree

variable {K : Type*} [LinearOrder K]

theorem keyCompare_neg {k1 k2 : K} : keyCompare k1 k2 < 0 ↔ k1 < k2 := by
  unfold keyCompare
  split_ifs <;> simp_all

theorem keyCompare_pos {k1 k2 : K} : 0 < keyCompare k1 k2 ↔ k2 < k1 := by
  unfold keyCompare
  split_ifs with hlt hgt
  · simpa using hlt.le
  · simpa using hgt
  · simpa using hgt

/-- The tree is a red-black search tree of the entries. -/
structure Holds (t : IntrusiveTree P K) (entries : List P) : Prop where
  tree : ∃ tree, t.nodes.Represents tree ∧ IsRedBlack tree ∧ tree.toList = entries
  ascending : Ascending t.key entries
  size : t.size = entries.length

theorem empty_holds (node : P → RBNode P) (key : P → K) : (empty node key).Holds [] :=
  ⟨⟨nil, ⟨rfl, trivial, List.nodup_nil⟩, isRedBlack_iff.mpr ⟨rfl, 0, balanced_nil.mpr rfl⟩, rfl⟩,
    List.Pairwise.nil, rfl⟩

section

variable {t : IntrusiveTree P K} {entries : List P} {k : K} {x entry : P} {tree : RBTree P} {ctx : List (Frame P)}
  {par : Option P} {comp : ℤ} {fuel : ℕ}

/-! ### Searches -/

theorem findLoop_eq (hl : t.nodes.Linked par tree) (hasc : Ascending t.key tree.toList)
    (hfuel : tree.height < fuel) :
    t.findLoop k fuel tree.root? = some (tree.toList.find? fun e => t.key e = k) := by
  induction tree generalizing par fuel with
  | nil =>
    obtain ⟨fuel, rfl⟩ : ∃ m, fuel = m + 1 := Nat.exists_eq_add_one.mpr (by omega)
    rfl
  | node c l x r ihl ihr =>
    obtain ⟨hx, hl, hr⟩ := hl
    obtain ⟨fuel, rfl⟩ : ∃ m, fuel = m + 1 := Nat.exists_eq_add_one.mpr (by omega)
    rw [toList] at hasc ⊢
    obtain ⟨-, -, hascl, hascr⟩ := ascending_append_cons.mp hasc
    rw [height] at hfuel
    rw [root?, findLoop]
    simp only [keyCompare_neg, keyCompare_pos]
    split_ifs with hlt hgt
    · rw [hx, ihl hl hascl (by omega), hasc.find?_of_lt hlt]
    · rw [hx, ihr hr hascr (by omega), hasc.find?_of_gt hgt]
    · obtain rfl : k = t.key x := le_antisymm (not_lt.mp hgt) (not_lt.mp hlt)
      rw [hasc.find?_self]

theorem Holds.find (h : t.Holds entries) (k : K) (hfuel : entries.length < fuel) :
    t.find fuel k = some (entries.find? fun e => t.key e = k) := by
  obtain ⟨⟨tree, hr, -, rfl⟩, hasc, -⟩ := h
  rw [IntrusiveTree.find, hr.root]
  exact findLoop_eq hr.linked hasc (tree.height_le_length.trans_lt hfuel)

/-- The comparison with the parent tells the side. -/
def Fits (comp : ℤ) (ctx : List (Frame P)) : Prop := ∀ f ∈ ctx.head?, comp < 0 ↔ f.side = .left

/-- The descent ends at the entry with the key, or in an empty place between the lower and the higher keys. -/
theorem insertLoop_spec (hl : t.nodes.Linked (above ctx) tree) (hasc : Ascending t.key tree.toList)
    (hcomp : Fits comp ctx) (hfuel : tree.height < fuel) :
    (∃ x ∈ tree.toList, t.key x = k ∧ t.insertLoop k fuel tree.root? (above ctx) comp = some (.inl x)) ∨
    ∃ up comp', t.insertLoop k fuel tree.root? (above ctx) comp = some (.inr (above (up ++ ctx), comp')) ∧
      tree = fill up nil ∧ Fits comp' (up ++ ctx) ∧ (∀ y ∈ before up, t.key y < k) ∧ ∀ y ∈ after up, k < t.key y := by
  induction tree generalizing ctx comp fuel with
  | nil =>
    obtain ⟨fuel, rfl⟩ : ∃ m, fuel = m + 1 := Nat.exists_eq_add_one.mpr (by omega)
    exact Or.inr ⟨[], comp, rfl, rfl, hcomp, by simp [before], by simp [after]⟩
  | node c l x r ihl ihr =>
    obtain ⟨hx, hl, hr⟩ := hl
    obtain ⟨fuel, rfl⟩ : ∃ m, fuel = m + 1 := Nat.exists_eq_add_one.mpr (by omega)
    rw [toList] at hasc
    obtain ⟨hlx, hxr, hascl, hascr⟩ := ascending_append_cons.mp hasc
    rw [height] at hfuel
    rw [root?, insertLoop, hx]
    simp only [keyCompare_neg, keyCompare_pos]
    split_ifs with hlt hgt
    · -- to the left
      have hfits : Fits (keyCompare k (t.key x)) (⟨.left, c, x, r⟩ :: ctx) := by
        simp [Fits, keyCompare_neg, hlt]
      rcases @ihl (⟨.left, c, x, r⟩ :: ctx) (keyCompare k (t.key x)) fuel hl hascl hfits (by omega) with
        ⟨y, hy, hyk, hloop⟩ | ⟨up, comp', hloop, rfl, hcomp', hbefore, hafter⟩
      · exact Or.inl ⟨y, by simp [toList, hy], hyk, hloop⟩
      · refine Or.inr ⟨up ++ [⟨.left, c, x, r⟩], comp', by simpa using hloop, by rw [fill_append]; rfl,
          by simpa using hcomp', ?_, ?_⟩
        · rw [before_append]
          exact hbefore
        · rw [after_append]
          intro y hy
          simp only [after, List.append_nil, List.mem_append, List.mem_cons] at hy
          rcases hy with hy | rfl | hy
          · exact hafter y hy
          · exact hlt
          · exact hlt.trans (hxr y hy)
    · -- to the right
      have hfits : Fits (keyCompare k (t.key x)) (⟨.right, c, x, l⟩ :: ctx) := by
        simp [Fits, keyCompare_neg, hlt]
      rcases @ihr (⟨.right, c, x, l⟩ :: ctx) (keyCompare k (t.key x)) fuel hr hascr hfits (by omega) with
        ⟨y, hy, hyk, hloop⟩ | ⟨up, comp', hloop, rfl, hcomp', hbefore, hafter⟩
      · exact Or.inl ⟨y, by simp [toList, hy], hyk, hloop⟩
      · refine Or.inr ⟨up ++ [⟨.right, c, x, l⟩], comp', by simpa using hloop, by rw [fill_append]; rfl,
          by simpa using hcomp', ?_, ?_⟩
        · rw [before_append]
          intro y hy
          simp only [before, List.nil_append, List.mem_append, List.mem_singleton] at hy
          rcases hy with (hy | rfl) | hy
          · exact (hlx y hy).trans hgt
          · exact hgt
          · exact hbefore y hy
        · rw [after_append]
          simpa [after] using hafter
    · exact Or.inl ⟨x, by simp [toList], le_antisymm (not_lt.mp hlt) (not_lt.mp hgt), rfl⟩

/-! ### Iteration -/

theorem Holds.begin (h : t.Holds entries) (hfuel : entries.length ≤ fuel) : t.begin fuel = some entries.head? := by
  obtain ⟨⟨tree, hr, -, rfl⟩, -, -⟩ := h
  rw [IntrusiveTree.begin, hr.root]
  cases hx : tree.root? with
  | none =>
    obtain rfl := root?_eq_none.mp hx
    rfl
  | some x =>
    obtain ⟨y, l, hlist⟩ := List.exists_cons_of_ne_nil (List.ne_nil_of_mem (mem_of_root? hx))
    simp [hr.linked.leftmost_eq_head? hx hfuel, hlist]

variable [DecidableEq P]

theorem Holds.rbNext (h : t.Holds entries) (hx : x ∈ entries) (hfuel : entries.length ≤ fuel) :
    t.nodes.rbNext fuel x = some (entries.find? fun e => t.key x < t.key e) := by
  obtain ⟨⟨tree, hr, -, rfl⟩, hasc, -⟩ := h
  obtain ⟨ctx, c, l, r, rfl⟩ := exists_fill_of_mem hx
  have hlist : (fill ctx (join .left c x l r)).toList = (before ctx ++ l.toList) ++ x :: (r.toList ++ after ctx) := by
    rw [toList_fill]
    simp [join, toList]
  rw [← join_left] at hr hasc hfuel ⊢
  rw [hr.rbNext hfuel]
  rw [hlist] at hasc ⊢
  rw [hasc.find?_next]

theorem Holds.visitFrom (h : t.Holds entries) (hfuel : entries.length ≤ fuel) {done rest : List P}
    (hsplit : entries = done ++ rest) {rounds : ℕ} (hrounds : rest.length < rounds) :
    t.visitFrom fuel rounds rest.head? = some rest := by
  induction rounds generalizing done rest with
  | zero => omega
  | succ rounds ih =>
    cases rest with
    | nil => rfl
    | cons x rest =>
      have hasc : Ascending t.key (done ++ x :: rest) := hsplit ▸ h.ascending
      have hnext : t.nodes.rbNext fuel x = some rest.head? := by
        rw [h.rbNext (by simp [hsplit]) hfuel, hsplit, hasc.find?_next]
      simp only [List.length_cons] at hrounds
      have hrest := @ih (done ++ [x]) rest (by simp [hsplit]) (by omega)
      simp [IntrusiveTree.visitFrom, hnext, hrest]

/-- The loop over the tree visits every entry once, in the order of the keys. -/
theorem Holds.visit (h : t.Holds entries) (hfuel : entries.length < fuel) : t.visit fuel = some entries := by
  rw [IntrusiveTree.visit, h.begin hfuel.le]
  exact h.visitFrom hfuel.le (List.nil_append entries).symm hfuel

/-! ### `Insert` -/

theorem link_spec {h : Nodes P} (hr : h.Represents (fill ctx nil)) (hentry : entry ∉ outside ctx)
    (hcomp : Fits comp ctx) : ∃ h', link h entry (above ctx) comp = some h' ∧
      h'.Represents (fill ctx (join .left .red entry nil nil)) := by
  cases ctx with
  | nil => exact ⟨_, rfl, Nodes.represents_link_root⟩
  | cons f ctx =>
    have hlinked := hr.link (s := .left) hentry
    have hne : f.entry ≠ entry := fun hf => hentry (by simp [hf])
    have hnode : (h.setNode entry ⟨none, none, some f.entry, .red⟩).node f.entry = h.node f.entry :=
      Nodes.node_setNode_of_ne hne
    have hempty : (h.node f.entry).child f.side = none := hr.frame.1
    have hside : comp < 0 ↔ f.side = .left := hcomp f rfl
    refine ⟨_, ?_, hlinked⟩
    cases hs : f.side with
    | left =>
      rw [hs, child_left] at hempty
      simp [link, hside.mpr hs, hnode, hempty, Nodes.setChild]
    | right =>
      rw [hs, child_right] at hempty
      have hcomp' : ¬ comp < 0 := fun hc => by simp [hside.mp hc] at hs
      simp [link, hcomp', hnode, hempty, Nodes.setChild]

/-- `Insert` of a key that exists already changes nothing; another entry is put in its place in the order. -/
theorem Holds.insert (h : t.Holds entries) (entry : P) (hfuel : entries.length < fuel) :
    match entries.find? fun e => t.key e = t.key entry with
    | some x => t.insert fuel entry = some (t, x, false)
    | none => ∃ h', t.insert fuel entry = some ({ t with nodes := h', size := t.size + 1 }, entry, true) ∧
        Holds { t with nodes := h', size := t.size + 1 }
          (entries.orderedInsert (fun x y => t.key x ≤ t.key y) entry) := by
  obtain ⟨⟨tree, hr, hrb, rfl⟩, hasc, hsize⟩ := h
  have hroot : t.nodes.root = tree.root? := hr.root
  rcases @insertLoop_spec _ _ _ t (t.key entry) tree [] 0 fuel hr.linked hasc (by simp [Fits])
      (tree.height_le_length.trans_lt hfuel) with
    ⟨x, hx, hkey, hloop⟩ | ⟨up, comp, hloop, rfl, hcomp, hbefore, hafter⟩
  · obtain ⟨l, r, hlist⟩ := List.append_of_mem hx
    rw [← hkey, hlist, (hlist ▸ hasc : Ascending t.key (l ++ x :: r)).find?_self]
    simp only [above_nil] at hloop
    simp [IntrusiveTree.insert, hroot, hloop]
  · rw [List.append_nil] at hloop hcomp
    have hlist : (fill up nil).toList = before up ++ after up := by simp [toList_fill]
    have hother : ∀ x ∈ (fill up nil).toList, t.key x ≠ t.key entry := fun x hx => by
      rcases List.mem_append.mp (hlist ▸ hx) with hx | hx
      · exact (hbefore x hx).ne
      · exact (hafter x hx).ne'
    have hnone : (fill up nil).toList.find? (fun e => t.key e = t.key entry) = none :=
      List.find?_eq_none.mpr fun x hx => by simpa using hother x hx
    have hentry : entry ∉ outside up := fun hup => hother entry (mem_fill.mpr (Or.inl hup)) rfl
    obtain ⟨h₁, hlink, hr₁⟩ := link_spec hr hentry hcomp
    obtain ⟨n, hn, hexp⟩ := isRedBlack_fill.mp hrb
    obtain rfl := balanced_nil.mp hn
    have hp : h₁.InsertPending entry up (join .left .red entry nil nil) 0 :=
      ⟨hr₁, root?_join, color_join, balanced_join_red.mpr (by simp), hexp⟩
    have hup : up.length ≤ (fill up nil).toList.length := by
      rw [toList_fill_perm.length_eq, toList_nil, List.append_nil]
      exact length_le_outside
    obtain ⟨h', t', hcolor, hr', ht', hlist'⟩ := hp.rbInsertColor (hup.trans_lt hfuel)
    rw [hnone]
    refine ⟨h', by simp [IntrusiveTree.insert, hroot, above_nil ▸ hloop, hlink, hcolor], ?_⟩
    rw [hlist] at hasc hsize ⊢
    rw [orderedInsert_between hbefore hafter]
    obtain ⟨hascb, hasca, -⟩ := List.pairwise_append.mp hasc
    refine ⟨⟨t', hr', ht', ?_⟩, ascending_append_cons.mpr ⟨hbefore, hafter, hascb, hasca⟩, ?_⟩
    · rw [hlist', toList_fill]
      simp [join, toList]
    · simp only [hsize, List.length_append, List.length_cons]
      omega

/-! ### `Remove` -/

theorem Holds.unlink (h : t.Holds entries) (hentry : entry ∈ entries) (hfuel : entries.length ≤ fuel) :
    ∃ h', t.unlink fuel entry = some { t with nodes := h', size := t.size - 1 } ∧
      Holds { t with nodes := h', size := t.size - 1 } (entries.erase entry) := by
  obtain ⟨⟨tree, hr, hrb, rfl⟩, hasc, hsize⟩ := h
  obtain ⟨ctx, c, l, r, rfl⟩ := exists_fill_of_mem hentry
  rw [← join_left] at hr hrb hasc hsize hfuel hentry ⊢
  obtain ⟨h', t', hremove, hr', ht', hlist'⟩ := hr.rbRemove hrb hfuel
  have hlist : (fill ctx (join .left c entry l r)).toList =
      (before ctx ++ l.toList) ++ entry :: (r.toList ++ after ctx) := by
    rw [toList_fill]
    simp [join, toList]
  rw [hlist] at hasc hsize ⊢
  have hnot : entry ∉ before ctx ++ l.toList := fun hmem =>
    absurd ((ascending_append_cons.mp hasc).1 entry hmem) (lt_irrefl _)
  have herase : ((before ctx ++ l.toList) ++ entry :: (r.toList ++ after ctx)).erase entry =
      (before ctx ++ l.toList) ++ (r.toList ++ after ctx) := by
    rw [List.erase_append_right _ hnot, List.erase_cons_head]
  refine ⟨h', by simp [IntrusiveTree.unlink, hremove], ⟨t', hr', ht', ?_⟩, ?_, ?_⟩
  · rw [hlist', herase]
    simp
  · exact List.Pairwise.sublist List.erase_sublist hasc
  · rw [herase]
    simp only [hsize, List.length_append, List.length_cons]
    omega

theorem Holds.removeAt (h : t.Holds entries) (hentry : entry ∈ entries) (hfuel : entries.length ≤ fuel) :
    ∃ h', t.removeAt fuel (some entry) = some ({ t with nodes := h', size := t.size - 1 },
        entries.find? fun e => t.key entry < t.key e) ∧
      Holds { t with nodes := h', size := t.size - 1 } (entries.erase entry) := by
  obtain ⟨h', hunlink, hh'⟩ := h.unlink hentry hfuel
  exact ⟨h', by simp [IntrusiveTree.removeAt, h.rbNext hentry hfuel, hunlink], hh'⟩

/-- Outside the tree an entry may be destroyed and another one be constructed in its place. -/
def construct (t : IntrusiveTree P K) (entry : P) (key : K) : IntrusiveTree P K :=
  { t with nodes := t.nodes.setNode entry {}, key := Function.update t.key entry key }

theorem Holds.construct (h : t.Holds entries) (hentry : entry ∉ entries) (key : K) :
    (t.construct entry key).Holds entries := by
  obtain ⟨⟨tree, ⟨hroot, hlinked, hnodup⟩, hrb, rfl⟩, hasc, hsize⟩ := h
  have hne : ∀ x ∈ tree.toList, x ≠ entry := fun x hx hxe => hentry (hxe ▸ hx)
  have hkey : ∀ x ∈ tree.toList, Function.update t.key entry key x = t.key x := fun x hx =>
    Function.update_of_ne (hne x hx) key t.key
  have hlinked' : (t.nodes.setNode entry {}).Linked none tree :=
    hlinked.congr fun x hx => Nodes.node_setNode_of_ne (hne x hx)
  refine ⟨⟨tree, ⟨hroot, hlinked', hnodup⟩, hrb, rfl⟩, List.Pairwise.imp_of_mem (fun hx hy hxy => ?_) hasc, hsize⟩
  show Function.update t.key entry key _ < Function.update t.key entry key _
  rwa [hkey _ hx, hkey _ hy]

end

end IntrusiveTree

/-! ### Runs -/

/-- The calls; the two forms of `Remove` with an iterator and with an entry, and the loop over the whole tree. -/
inductive Op (P K : Type*)
  | construct (entry : P) (key : K)
  | insert (entry : P)
  | find (key : K)
  | removeKey (key : K)
  | remove (entry : P)
  | removeAt (it : Option P)
  | visit
  deriving DecidableEq, Repr

inductive Result (P : Type*)
  | constructed
  | inserted (it : P) (isNew : Bool)
  | found (it : Option P)
  | removed (wasThere : Bool)
  | next (it : Option P)
  | visited (entries : List P)
  deriving DecidableEq, Repr

section

variable [DecidableEq P] {K : Type*} [LinearOrder K]

def IntrusiveTree.step (fuel : ℕ) (t : IntrusiveTree P K) : Op P K → Option (IntrusiveTree P K × Result P)
  | .construct entry key => some (t.construct entry key, .constructed)
  | .insert entry => (t.insert fuel entry).map fun (t, it, isNew) => (t, .inserted it isNew)
  | .find key => (t.find fuel key).map fun it => (t, .found it)
  | .removeKey key => (t.removeKey fuel key).map fun (t, wasThere) => (t, .removed wasThere)
  | .remove entry => (t.remove fuel entry).map fun (t, it) => (t, .next it)
  | .removeAt it => (t.removeAt fuel it).map fun (t, it) => (t, .next it)
  | .visit => (t.visit fuel).map fun entries => (t, .visited entries)

def IntrusiveTree.run (fuel : ℕ) (t : IntrusiveTree P K) : List (Op P K) → Option (IntrusiveTree P K × List (Result P))
  | [] => some (t, [])
  | op :: ops =>
    (t.step fuel op).bind fun (t, result) => (t.run fuel ops).map fun (t, results) => (t, result :: results)

/-- The entries in the order of their keys. -/
structure SortedEntries (P K : Type*) where
  entries : List P
  key : P → K

namespace SortedEntries

/-- A call on the sorted entries. -/
def apply (s : SortedEntries P K) : Op P K → SortedEntries P K × Result P
  | .construct entry key => ({ s with key := Function.update s.key entry key }, .constructed)
  | .insert entry =>
    match s.entries.find? fun e => s.key e = s.key entry with
    | some it => (s, .inserted it false)
    | none => ({ s with entries := s.entries.orderedInsert (fun x y => s.key x ≤ s.key y) entry }, .inserted entry true)
  | .find key => (s, .found (s.entries.find? fun e => s.key e = key))
  | .removeKey key =>
    match s.entries.find? fun e => s.key e = key with
    | some it => ({ s with entries := s.entries.erase it }, .removed true)
    | none => (s, .removed false)
  | .remove entry =>
    ({ s with entries := s.entries.erase entry }, .next (s.entries.find? fun e => s.key entry < s.key e))
  | .removeAt (some entry) =>
    ({ s with entries := s.entries.erase entry }, .next (s.entries.find? fun e => s.key entry < s.key e))
  | .removeAt none => (s, .next none)
  | .visit => (s, .visited s.entries)

def applyAll (s : SortedEntries P K) : List (Op P K) → SortedEntries P K × List (Result P)
  | [] => (s, [])
  | op :: ops =>
    let (s', result) := s.apply op
    let (s'', results) := s'.applyAll ops
    (s'', result :: results)

/-- Only entries of the tree are removed, and only ones outside of it are made anew. -/
def Valid (s : SortedEntries P K) : Op P K → Prop
  | .construct entry _ => entry ∉ s.entries
  | .remove entry => entry ∈ s.entries
  | .removeAt it => ∃ entry ∈ s.entries, it = some entry
  | _ => True

def AllValid (s : SortedEntries P K) : List (Op P K) → Prop
  | [] => True
  | op :: ops => s.Valid op ∧ (s.apply op).1.AllValid ops

instance (s : SortedEntries P K) : (op : Op P K) → Decidable (s.Valid op)
  | .construct entry _ => inferInstanceAs (Decidable (entry ∉ s.entries))
  | .remove entry => inferInstanceAs (Decidable (entry ∈ s.entries))
  | .removeAt it => inferInstanceAs (Decidable (∃ entry ∈ s.entries, it = some entry))
  | .insert _ | .find _ | .removeKey _ | .visit => inferInstanceAs (Decidable True)

instance : (s : SortedEntries P K) → (ops : List (Op P K)) → Decidable (s.AllValid ops)
  | _, [] => inferInstanceAs (Decidable True)
  | s, op :: ops =>
    have := instDecidableAllValid (s.apply op).1 ops
    inferInstanceAs (Decidable (s.Valid op ∧ (s.apply op).1.AllValid ops))

end SortedEntries

open SortedEntries

variable {t : IntrusiveTree P K} {s : SortedEntries P K} {op : Op P K} {ops : List (Op P K)} {fuel : ℕ}

/-- The tree is a red-black search tree of the sorted entries. -/
def Refines (t : IntrusiveTree P K) (s : SortedEntries P K) : Prop := t.Holds s.entries ∧ t.key = s.key

theorem length_apply_le (s : SortedEntries P K) (op : Op P K) :
    (s.apply op).1.entries.length ≤ s.entries.length + 1 := by
  have herase : ∀ entry, (s.entries.erase entry).length ≤ s.entries.length + 1 := fun entry =>
    (List.length_erase_le).trans (Nat.le_succ _)
  cases op with
  | construct | find | visit => exact Nat.le_succ _
  | insert entry =>
    rw [apply]
    split
    · exact Nat.le_succ _
    · exact (List.orderedInsert_length _ _ _).le
  | removeKey key =>
    rw [apply]
    split
    · exact herase _
    · exact Nat.le_succ _
  | remove entry => exact herase entry
  | removeAt it =>
    cases it with
    | none => exact Nat.le_succ _
    | some entry => exact herase entry

/-- **A call** has the result that it has on the sorted entries. -/
theorem Refines.step (h : Refines t s) (hop : s.Valid op) (hfuel : s.entries.length < fuel) :
    ∃ t', t.step fuel op = some (t', (s.apply op).2) ∧ Refines t' (s.apply op).1 := by
  obtain ⟨hh, hkey⟩ := h
  obtain ⟨entries, key⟩ := s
  obtain rfl : t.key = key := hkey
  cases op with
  | construct entry key => exact ⟨_, rfl, hh.construct hop key, rfl⟩
  | insert entry =>
    have hinsert := hh.insert entry hfuel
    cases hfind : entries.find? fun e => t.key e = t.key entry with
    | some x =>
      rw [hfind] at hinsert
      exact ⟨t, by simp [IntrusiveTree.step, hinsert, apply, hfind], by simpa [apply, hfind] using ⟨hh, rfl⟩⟩
    | none =>
      rw [hfind] at hinsert
      obtain ⟨h', hinsert, hh'⟩ := hinsert
      exact ⟨{ t with nodes := h', size := t.size + 1 }, by simp [IntrusiveTree.step, hinsert, apply, hfind],
        by simpa [apply, hfind] using ⟨hh', rfl⟩⟩
  | find key => exact ⟨t, by simp [IntrusiveTree.step, hh.find key hfuel, apply], hh, rfl⟩
  | removeKey key =>
    have hfound := hh.find key hfuel
    cases hfind : entries.find? fun e => t.key e = key with
    | none =>
      rw [hfind] at hfound
      exact ⟨t, by simp [IntrusiveTree.step, IntrusiveTree.removeKey, hfound, apply, hfind],
        by simpa [apply, hfind] using ⟨hh, rfl⟩⟩
    | some x =>
      rw [hfind] at hfound
      obtain ⟨h', hunlink, hh'⟩ := hh.unlink (List.mem_of_find?_eq_some hfind) hfuel.le
      exact ⟨{ t with nodes := h', size := t.size - 1 },
        by simp [IntrusiveTree.step, IntrusiveTree.removeKey, hfound, hunlink, apply, hfind],
        by simpa [apply, hfind] using ⟨hh', rfl⟩⟩
  | remove entry =>
    obtain ⟨h', hremove, hh'⟩ := hh.removeAt hop hfuel.le
    exact ⟨_, by simp [IntrusiveTree.step, IntrusiveTree.remove, hremove, apply], hh', rfl⟩
  | removeAt it =>
    obtain ⟨entry, hentry, rfl⟩ := hop
    obtain ⟨h', hremove, hh'⟩ := hh.removeAt hentry hfuel.le
    exact ⟨_, by simp [IntrusiveTree.step, hremove, apply], hh', rfl⟩
  | visit => exact ⟨t, by simp [IntrusiveTree.step, hh.visit hfuel, apply], hh, rfl⟩

theorem length_applyAll_le (s : SortedEntries P K) (ops : List (Op P K)) :
    (s.applyAll ops).1.entries.length ≤ s.entries.length + ops.length := by
  induction ops generalizing s with
  | nil => exact le_rfl
  | cons op ops ih =>
    have hop := length_apply_le s op
    have hops := ih (s.apply op).1
    simp only [applyAll, List.length_cons]
    omega

theorem Refines.run (h : Refines t s) (hops : s.AllValid ops) (hfuel : s.entries.length + ops.length < fuel) :
    ∃ t', t.run fuel ops = some (t', (s.applyAll ops).2) ∧ Refines t' (s.applyAll ops).1 := by
  induction ops generalizing t s with
  | nil => exact ⟨t, rfl, h⟩
  | cons op ops ih =>
    obtain ⟨hop, hops⟩ := hops
    have hlength := length_apply_le s op
    simp only [List.length_cons] at hfuel
    obtain ⟨t₁, hstep, h₁⟩ := h.step hop (show s.entries.length < fuel by omega)
    obtain ⟨t₂, hrun, h₂⟩ := ih h₁ hops (by omega)
    exact ⟨t₂, by rw [IntrusiveTree.run, hstep]; simp [hrun, applyAll], h₂⟩

/-- **`IntrusiveTree` is a red-black map**: in memory of any content, a sequence of calls ends without following a null
pointer, and each call has the result that it has on the sorted entries.  At the end (and so after every call) the links
are a binary search tree with a black root, no red node with a red child and equal black heights; `Find` gives the entry
with the key and no other; the loop from `begin()` on visits the entries once, in the order of their keys; `Remove` of
an entry gives the one after it. -/
theorem run_redBlackMap (node : P → RBNode P) (key : P → K) (ops : List (Op P K))
    (hops : (⟨[], key⟩ : SortedEntries P K).AllValid ops) {fuel : ℕ} (hfuel : ops.length < fuel) :
    ∃ t tree, (IntrusiveTree.empty node key).run fuel ops = some (t, ((⟨[], key⟩ : SortedEntries P K).applyAll ops).2) ∧
      t.nodes.Represents tree ∧ IsSearchTree t.key tree ∧ IsRedBlack tree ∧
      tree.toList = ((⟨[], key⟩ : SortedEntries P K).applyAll ops).1.entries ∧
      t.key = ((⟨[], key⟩ : SortedEntries P K).applyAll ops).1.key ∧ t.size = tree.toList.length ∧
      (∀ k, ∃ it, t.find fuel k = some it ∧ ∀ e, it = some e ↔ e ∈ tree.toList ∧ t.key e = k) ∧
      (t.visit fuel = some tree.toList ∧ tree.toList.Nodup ∧ (tree.toList.map t.key).Pairwise (· < ·)) ∧
      ∀ a e b, tree.toList = a ++ e :: b → ∃ t', t.removeAt fuel (some e) = some (t', b.head?) := by
  have hempty : Refines (IntrusiveTree.empty node key) (⟨[], key⟩ : SortedEntries P K) :=
    ⟨IntrusiveTree.empty_holds node key, rfl⟩
  obtain ⟨t, hrun, hh, hkey⟩ := hempty.run hops (by simpa using hfuel)
  have hlength : ((⟨[], key⟩ : SortedEntries P K).applyAll ops).1.entries.length < fuel := by
    have hle := length_applyAll_le (⟨[], key⟩ : SortedEntries P K) ops
    simp only [List.length_nil, Nat.zero_add] at hle
    omega
  obtain ⟨tree, hr, hrb, hlist⟩ := hh.tree
  rw [← hlist] at hh hlength
  refine ⟨t, tree, hrun, hr, isSearchTree_iff.mpr hh.ascending, hrb, hlist, hkey, hh.size, fun k => ?_,
    ⟨hh.visit hlength, hh.ascending.nodup, List.pairwise_map.mpr hh.ascending⟩, fun a e b hsplit => ?_⟩
  · exact ⟨_, hh.find k hlength, fun e => hh.ascending.find?_eq_some_iff⟩
  · have he : e ∈ tree.toList := by simp [hsplit]
    obtain ⟨h', hremove, -⟩ := hh.removeAt he hlength.le
    have hasc : Ascending t.key (a ++ e :: b) := hsplit ▸ hh.ascending
    exact ⟨_, by rw [hremove, hsplit, hasc.find?_next]⟩

/-- Both kinds of removal, an entry whose key is taken, and one that is made anew with another key. -/
def mixedCalls : List (Op ℕ ℕ) :=
  [.insert 5, .insert 2, .insert 8, .insert 1, .insert 3, .insert 7, .insert 9, .insert 4, .insert 6, .insert 15,
    .visit, .remove 5, .removeKey 2, .removeAt (some 9), .find 3, .find 5, .construct 5 0, .insert 5, .visit]

def mixedResults : List (Result ℕ) :=
  [.inserted 5 true, .inserted 2 true, .inserted 8 true, .inserted 1 true, .inserted 3 true, .inserted 7 true,
    .inserted 9 true, .inserted 4 true, .inserted 6 true, .inserted 5 false, .visited [1, 2, 3, 4, 5, 6, 7, 8, 9],
    .next (some 6), .removed true, .next none, .found (some 3), .found none, .constructed, .inserted 5 true,
    .visited [5, 1, 3, 4, 6, 7, 8]]

theorem run_mixedCalls :
    ∃ t, (IntrusiveTree.empty (fun p => ⟨some p, some p, some p, .red⟩) (· % 10)).run 20 mixedCalls =
      some (t, mixedResults) := by
  have hresults : ((⟨[], (· % 10)⟩ : SortedEntries ℕ ℕ).applyAll mixedCalls).2 = mixedResults := by decide +kernel
  obtain ⟨t, _, hrun, _⟩ := run_redBlackMap (fun p => ⟨some p, some p, some p, .red⟩) (· % 10) mixedCalls
    (by decide +kernel) (show mixedCalls.length < 20 by decide)
  exact ⟨t, hresults ▸ hrun⟩

/-- **Searches are logarithmic**: after every sequence of calls, `Find` and the descent of `Insert` end within `2 log₂ (n +
1) + 1` rounds of their loops, where `n` is the number of entries. -/
theorem run_logarithmic (node : P → RBNode P) (key : P → K) (ops : List (Op P K))
    (hops : (⟨[], key⟩ : SortedEntries P K).AllValid ops) {fuel : ℕ} (hfuel : ops.length < fuel) :
    ∃ t results, (IntrusiveTree.empty node key).run fuel ops = some (t, results) ∧
      ∀ k rounds, 2 * Nat.log 2 (t.size + 1) < rounds →
        (∃ it, t.find rounds k = some it ∧ ∀ e, it = some e ↔
          e ∈ ((⟨[], key⟩ : SortedEntries P K).applyAll ops).1.entries ∧ t.key e = k) ∧
        (t.insertLoop k rounds t.nodes.root none 0).isSome := by
  have hempty : Refines (IntrusiveTree.empty node key) (⟨[], key⟩ : SortedEntries P K) :=
    ⟨IntrusiveTree.empty_holds node key, rfl⟩
  obtain ⟨t, hrun, hh, -⟩ := hempty.run hops (by simpa using hfuel)
  obtain ⟨tree, hr, hrb, hlist⟩ := hh.tree
  refine ⟨t, _, hrun, fun k rounds hrounds => ?_⟩
  rw [hh.size, ← hlist] at hrounds
  have hheight : tree.height < rounds := hrb.height_le.trans_lt hrounds
  have hasc : Ascending t.key tree.toList := hlist ▸ hh.ascending
  rw [IntrusiveTree.find, hr.root, ← hlist]
  refine ⟨⟨_, IntrusiveTree.findLoop_eq hr.linked hasc hheight, fun e => hasc.find?_eq_some_iff⟩, ?_⟩
  have hfits : IntrusiveTree.Fits 0 ([] : List (Frame P)) := by simp [IntrusiveTree.Fits]
  rcases IntrusiveTree.insertLoop_spec hr.linked hasc hfits hheight with ⟨x, -, -, hloop⟩ | ⟨up, comp, hloop, -⟩
  · exact Option.isSome_iff_exists.mpr ⟨_, hloop⟩
  · exact Option.isSome_iff_exists.mpr ⟨_, hloop⟩

/-- After the calls there are seven entries: seven rounds are enough. -/
theorem run_logarithmic_mixedCalls :
    ∃ t results, (IntrusiveTree.empty (fun p => ⟨some p, some p, some p, .red⟩) (· % 10)).run 20 mixedCalls =
      some (t, results) ∧ ∀ k rounds, 2 * Nat.log 2 (t.size + 1) < rounds →
        (∃ it, t.find rounds k = some it ∧ ∀ e, it = some e ↔
          e ∈ ((⟨[], (· % 10)⟩ : SortedEntries ℕ ℕ).applyAll mixedCalls).1.entries ∧ t.key e = k) ∧
        (t.insertLoop k rounds t.nodes.root none 0).isSome :=
  run_logarithmic _ _ mixedCalls (by decide +kernel) (by decide)

end

end LynxTrace.IntrusiveRBTree
