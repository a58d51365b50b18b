import LynxTrace.Base.Forest
import Mathlib.Data.List.Perm.Subperm
import Mathlib.Tactic.Common

/-!
# Base.Preorder — the depth-first order of a forest

`preorder children k r` lists the node `r` and its descendants of up to `k` levels, each before its children.  Where
`children` lists the nodes below each node once, every node of a rooted tree stands in it once (`preorder_perm`).
-/

namespace LynxTrace

namespace Forest

variable {α : Type*} (F : Forest α)

/-! ### Depth -/

noncomputable def depth (a : α) : ℕ := (F.ancestors a).length

theorem depth_some {c p : α} (h : F.parent c = some p) : F.depth c = F.depth p + 1 := by
  rw [depth, F.ancestors_some h, List.length_cons, depth]

theorem depth_lt_of_mem_ancestors {a d : α} (h : a ∈ F.ancestors d) : F.depth a < F.depth d := by
  revert h
  refine F.induction (motive := fun d => a ∈ F.ancestors d → F.depth a < F.depth d) ?_ ?_ d
  · intro d hd h
    rw [F.ancestors_none hd] at h
    cases h
  · intro d p hd ih h
    rw [F.depth_some hd]
    rw [F.ancestors_some hd] at h
    rcases List.mem_cons.mp h with rfl | h
    · exact Nat.lt_succ_self _
    · exact Nat.lt_succ_of_lt (ih h)

/-- The parent of a node on the way up from `d` is above `d`. -/
theorem parent_mem_ancestors {c d p : α} (hc : c ∈ d :: F.ancestors d) (hp : F.parent c = some p) :
    p ∈ F.ancestors d := by
  revert hc
  refine F.induction (motive := fun d => c ∈ d :: F.ancestors d → p ∈ F.ancestors d) ?_ ?_ d
  · intro d hd hc
    rw [F.ancestors_none hd, List.mem_singleton] at hc
    rw [hc, hd] at hp
    cases hp
  · intro d q hd ih hc
    rw [F.ancestors_some hd] at hc ⊢
    rcases List.mem_cons.mp hc with rfl | hc
    · rw [hd, Option.some_inj] at hp
      exact hp ▸ List.mem_cons_self
    · exact List.mem_cons_of_mem _ (ih hc)

/-- A node and those above it have different depths. -/
theorem eq_of_depth_eq {a b d : α} (ha : a ∈ d :: F.ancestors d) (hb : b ∈ d :: F.ancestors d)
    (hdepth : F.depth a = F.depth b) : a = b := by
  revert ha hb
  refine F.induction
    (motive := fun d => a ∈ d :: F.ancestors d → b ∈ d :: F.ancestors d → a = b) ?_ ?_ d
  · intro d hd ha hb
    rw [F.ancestors_none hd, List.mem_singleton] at ha hb
    rw [ha, hb]
  · intro d p hd ih ha hb
    rcases List.mem_cons.mp ha with rfl | ha <;> rcases List.mem_cons.mp hb with rfl | hb
    · rfl
    · exact absurd hdepth (Nat.ne_of_gt (F.depth_lt_of_mem_ancestors hb))
    · exact absurd hdepth (Nat.ne_of_lt (F.depth_lt_of_mem_ancestors ha))
    · rw [F.ancestors_some hd] at ha hb
      exact ih ha hb

theorem nodup_line (d : α) : (d :: F.ancestors d).Nodup := by
  refine F.induction (motive := fun d => (d :: F.ancestors d).Nodup) ?_ ?_ d
  · intro d hd
    rw [F.ancestors_none hd]
    exact List.nodup_singleton d
  · intro d p hd ih
    refine List.nodup_cons.mpr ⟨fun h => Nat.lt_irrefl _ (F.depth_lt_of_mem_ancestors h), ?_⟩
    rw [F.ancestors_some hd]
    exact ih

/-- In a set of nodes closed under parents the nodes above a node are in the set. -/
theorem line_subset {nodes : List α} (hclosed : ∀ c p, c ∈ nodes → F.parent c = some p → p ∈ nodes) {d : α}
    (hd : d ∈ nodes) : d :: F.ancestors d ⊆ nodes := by
  revert hd
  refine F.induction (motive := fun d => d ∈ nodes → d :: F.ancestors d ⊆ nodes) ?_ ?_ d
  · intro d hroot hd
    rw [F.ancestors_none hroot]
    exact List.cons_subset.mpr ⟨hd, List.nil_subset _⟩
  · intro d p hp ih hd
    rw [F.ancestors_some hp]
    exact List.cons_subset.mpr ⟨hd, ih (hclosed d p hd hp)⟩

theorem depth_lt_length {nodes : List α} (hclosed : ∀ c p, c ∈ nodes → F.parent c = some p → p ∈ nodes) {d : α}
    (hd : d ∈ nodes) : F.depth d < nodes.length :=
  (List.subperm_of_subset (F.nodup_line d) (F.line_subset hclosed hd)).length_le

/-! ### Preorder -/

def preorder (children : α → List α) : ℕ → α → List α
  | 0, _ => []
  | k + 1, r => r :: (children r).flatMap (preorder children k)

variable {children : α → List α}

section

variable (hchildren : ∀ p, ∀ c ∈ children p, F.parent c = some p)

include hchildren

theorem mem_line_of_mem_preorder {k : ℕ} {r d : α} (h : d ∈ preorder children k r) : r ∈ d :: F.ancestors d := by
  induction k generalizing r with
  | zero => cases h
  | succ k ih =>
    rcases List.mem_cons.mp h with rfl | h
    · exact List.mem_cons_self
    · obtain ⟨c, hc, hd⟩ := List.mem_flatMap.mp h
      exact List.mem_cons_of_mem _ (F.parent_mem_ancestors (ih hd) (hchildren r c hc))

theorem nodup_preorder (hnodup : ∀ p, (children p).Nodup) (k : ℕ) (r : α) : (preorder children k r).Nodup := by
  induction k generalizing r with
  | zero => exact List.nodup_nil
  | succ k ih =>
    refine List.nodup_cons.mpr ⟨fun h => ?_, List.nodup_flatMap.mpr ⟨fun c _ => ih c, ?_⟩⟩
    · obtain ⟨c, hc, hr⟩ := List.mem_flatMap.mp h
      have habove := F.parent_mem_ancestors (F.mem_line_of_mem_preorder hchildren hr) (hchildren r c hc)
      exact Nat.lt_irrefl _ (F.depth_lt_of_mem_ancestors habove)
    · refine List.Pairwise.imp_of_mem ?_ (hnodup r)
      intro b c hb hc hne d hdb hdc
      refine hne (F.eq_of_depth_eq (F.mem_line_of_mem_preorder hchildren hdb)
        (F.mem_line_of_mem_preorder hchildren hdc) ?_)
      rw [F.depth_some (hchildren r b hb), F.depth_some (hchildren r c hc)]

/-- The children of a listed node are listed while there are levels left. -/
theorem child_mem_preorder {k : ℕ} {r e c : α} (he : e ∈ preorder children k r) (hc : c ∈ children e)
    (hdepth : F.depth e + 1 < F.depth r + k) : c ∈ preorder children k r := by
  induction k generalizing r with
  | zero => cases he
  | succ k ih =>
    rcases List.mem_cons.mp he with rfl | he
    · refine List.mem_cons_of_mem _ (List.mem_flatMap.mpr ⟨c, hc, ?_⟩)
      cases k with
      | zero => omega
      | succ k => exact List.mem_cons_self
    · obtain ⟨b, hb, heb⟩ := List.mem_flatMap.mp he
      have hb' := F.depth_some (hchildren r b hb)
      exact List.mem_cons_of_mem _ (List.mem_flatMap.mpr ⟨b, hb, ih heb (by omega)⟩)

end

/-- What a depth-first walk from the root of a tree lists. -/
theorem preorder_perm {nodes : List α} {root : α} (hnodes : nodes.Nodup)
    (hchildren : ∀ p c, c ∈ children p ↔ c ∈ nodes ∧ F.parent c = some p) (hnodup : ∀ p, (children p).Nodup)
    (hclosed : ∀ c p, c ∈ nodes → F.parent c = some p → p ∈ nodes)
    (hroot : ∀ c ∈ nodes, F.parent c = none ↔ c = root) (hmem : root ∈ nodes) :
    (preorder children nodes.length root).Perm nodes := by
  have hparent : ∀ p, ∀ c ∈ children p, F.parent c = some p := fun p c hc => ((hchildren p c).mp hc).2
  refine (List.perm_ext_iff_of_nodup (F.nodup_preorder hparent hnodup _ _) hnodes).mpr fun d =>
    ⟨fun hd => ?_, fun hd => ?_⟩
  · have hdown : ∀ k r, r ∈ nodes → d ∈ preorder children k r → d ∈ nodes := by
      intro k
      induction k with
      | zero => exact fun _ _ h => nomatch h
      | succ k ih =>
        intro r hr h
        rcases List.mem_cons.mp h with rfl | h
        · exact hr
        · obtain ⟨c, hc, hd⟩ := List.mem_flatMap.mp h
          exact ih c ((hchildren r c).mp hc).1 hd
    exact hdown _ _ hmem hd
  · have hrootDepth : F.depth root = 0 := by
      rw [depth, F.ancestors_none ((hroot root hmem).mpr rfl), List.length_nil]
    revert hd
    refine F.induction (motive := fun d => d ∈ nodes → d ∈ preorder children nodes.length root) ?_ ?_ d
    · intro d hd hnode
      rw [(hroot d hnode).mp hd]
      cases hlength : nodes.length with
      | zero =>
        rw [List.length_eq_zero_iff.mp hlength] at hmem
        cases hmem
      | succ k => exact List.mem_cons_self
    · intro d p hd ih hnode
      have hdepth := F.depth_lt_length hclosed hnode
      rw [F.depth_some hd] at hdepth
      exact F.child_mem_preorder hparent (ih (hclosed d p hnode hd)) ((hchildren p d).mpr ⟨hnode, hd⟩) (by omega)

end Forest

end LynxTrace
