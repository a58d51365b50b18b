import Mathlib.Data.List.Nodup
import Mathlib.Data.List.Perm.Basic
import Mathlib.Order.WellFounded
import Mathlib.Logic.Relation
import Mathlib.Logic.Function.Basic

/-!
# Base.Forest — forests given by parent links, their restrictions and their breadth-first order

`ancestors` lists the proper ancestors of a node, nearest first.  Keeping some of the nodes of a forest gives each of
them its nearest kept ancestor as parent (`restrict`); a queue that starts with the roots and takes in the children of
each node in turn lists every node once, after its parent (`breadthFirst_spec`).
-/

namespace LynxTrace

variable {α β σ : Type*}

/-- `p` is the parent of `c`. -/
def IsParent (parent : α → Option α) (p c : α) : Prop := parent c = some p

structure Forest (α : Type*) where
  parent : α → Option α
  wf : WellFounded (IsParent parent)

namespace Forest

variable (F : Forest α)

/-! ### Ancestors -/

/-- The proper ancestors, nearest first. -/
noncomputable def ancestors : α → List α :=
  F.wf.fix fun c ancestors =>
    match h : F.parent c with
    | none => []
    | some p => p :: ancestors p h

theorem ancestors_none {c : α} (h : F.parent c = none) : F.ancestors c = [] := by
  rw [ancestors, WellFounded.fix_eq]
  split
  · rfl
  · rename_i p hp
    rw [h] at hp
    cases hp

theorem ancestors_some {c p : α} (h : F.parent c = some p) : F.ancestors c = p :: F.ancestors p := by
  rw [ancestors, WellFounded.fix_eq]
  split
  · rename_i hp
    rw [h] at hp
    cases hp
  · rename_i q hq
    rw [h, Option.some_inj] at hq
    subst hq
    rfl

theorem ancestors_congr {c d : α} (h : F.parent c = F.parent d) : F.ancestors c = F.ancestors d := by
  rcases hd : F.parent d with _ | p
  · rw [F.ancestors_none hd, F.ancestors_none (h.trans hd)]
  · rw [F.ancestors_some hd, F.ancestors_some (h.trans hd)]

/-- Induction from the roots down. -/
theorem induction {motive : α → Prop} (root : ∀ c, F.parent c = none → motive c)
    (child : ∀ c p, F.parent c = some p → motive p → motive c) (c : α) : motive c := by
  refine F.wf.induction c fun c ih => ?_
  rcases h : F.parent c with _ | p
  · exact root c h
  · exact child c p h (ih p h)

theorem mem_ancestors {a c : α} (h : a ∈ F.ancestors c) : Relation.TransGen (IsParent F.parent) a c := by
  revert h
  refine F.induction (motive := fun c => a ∈ F.ancestors c → Relation.TransGen (IsParent F.parent) a c) ?_ ?_ c
  · intro c hc h
    rw [F.ancestors_none hc] at h
    cases h
  · intro c p hc ih h
    rw [F.ancestors_some hc] at h
    rcases List.mem_cons.mp h with rfl | h
    · exact .single hc
    · exact (ih h).tail hc

/-- The way from the root down to the node, both included. -/
noncomputable def path (c : α) : List α := (F.ancestors c).reverse ++ [c]

theorem path_none {c : α} (h : F.parent c = none) : F.path c = [c] := by
  rw [path, F.ancestors_none h]
  rfl

theorem path_some {c p : α} (h : F.parent c = some p) : F.path c = F.path p ++ [c] := by
  rw [path, path, F.ancestors_some h, List.reverse_cons]

/-! ### Keeping some of the nodes -/

/-- Each node gets its nearest kept ancestor as parent. -/
noncomputable def restrict (keep : α → Bool) : Forest α where
  parent c := (F.ancestors c).find? keep
  wf := Subrelation.wf (fun h => F.mem_ancestors (List.mem_of_find?_eq_some h)) F.wf.transGen

@[simp] theorem restrict_parent (keep : α → Bool) (c : α) :
    (F.restrict keep).parent c = (F.ancestors c).find? keep := rfl

theorem restrict_ancestors (keep : α → Bool) (c : α) :
    (F.restrict keep).ancestors c = (F.ancestors c).filter keep := by
  refine F.induction (motive := fun c => (F.restrict keep).ancestors c = (F.ancestors c).filter keep) ?_ ?_ c
  · intro c hc
    have hroot : (F.restrict keep).parent c = none := by rw [restrict_parent, F.ancestors_none hc]; rfl
    rw [ancestors_none _ hroot, F.ancestors_none hc]
    rfl
  · intro c p hc ih
    rcases hp : keep p with _ | _
    · have hsame : (F.restrict keep).parent c = (F.restrict keep).parent p := by simp [F.ancestors_some hc, hp]
      rw [ancestors_congr _ hsame, ih, F.ancestors_some hc, List.filter_cons_of_neg (by simp [hp])]
    · have hkept : (F.restrict keep).parent c = some p := by simp [F.ancestors_some hc, hp]
      rw [ancestors_some _ hkept, ih, F.ancestors_some hc, List.filter_cons_of_pos hp]

/-! ### Renaming the nodes -/

/-- A forest whose links a map carries to links of another one. -/
def comap (f : β → α) (parent : β → Option β) (h : ∀ b p, parent b = some p → F.parent (f b) = some (f p)) :
    Forest β where
  parent := parent
  wf := Subrelation.wf (fun {p b} hp => h b p hp) (InvImage.wf f F.wf)

/-- On a set of nodes closed under parents a renaming carries ancestors to ancestors. -/
theorem map_ancestors {G : Forest β} {f : β → α} {D : β → Prop}
    (hparent : ∀ b, D b → (G.parent b).map f = F.parent (f b)) (hclosed : ∀ b p, D b → G.parent b = some p → D p)
    {b : β} (hb : D b) : (G.ancestors b).map f = F.ancestors (f b) := by
  revert hb
  refine G.induction (motive := fun b => D b → (G.ancestors b).map f = F.ancestors (f b)) ?_ ?_ b
  · intro b hroot hb
    have hf := hparent b hb
    rw [hroot] at hf
    rw [G.ancestors_none hroot, F.ancestors_none hf.symm]
    rfl
  · intro b p hp ih hb
    have hf := hparent b hb
    rw [hp] at hf
    rw [G.ancestors_some hp, F.ancestors_some hf.symm, List.map_cons, ih (hclosed b p hb hp)]

end Forest

/-! ### Breadth-first order -/

/-- The queue takes in the children of its `qi`-th node until it has no such node; each node is visited then. -/
def breadthFirst (children : α → List α) (visit : σ → α → σ) : ℕ → ℕ → List α → σ → List α × σ
  | 0, _, queue, s => (queue, s)
  | fuel + 1, qi, queue, s =>
    match queue[qi]? with
    | none => (queue, s)
    | some node => breadthFirst children visit fuel (qi + 1) (queue ++ children node) (visit s node)

/-- Every node comes after its parent. -/
def ParentsFirst (parent : α → Option α) (queue : List α) : Prop :=
  ∀ i c p, queue[i]? = some c → parent c = some p → p ∈ queue.take i

/-- The children of each node and the roots, among the nodes listed. -/
structure Links (F : Forest α) (nodes : List α) (roots : List α) (children : α → List α) : Prop where
  nodup : nodes.Nodup
  closed : ∀ c ∈ nodes, ∀ p, F.parent c = some p → p ∈ nodes
  roots_nodup : roots.Nodup
  mem_roots : ∀ c, c ∈ roots ↔ c ∈ nodes ∧ F.parent c = none
  children_nodup : ∀ p ∈ nodes, (children p).Nodup
  mem_children : ∀ p ∈ nodes, ∀ c, c ∈ children p ↔ c ∈ nodes ∧ F.parent c = some p

/-- The queue with its first `qi` nodes visited. -/
structure Frontier (F : Forest α) (nodes roots : List α) (children : α → List α) (qi : ℕ) (queue : List α) : Prop where
  bound : qi ≤ queue.length
  mem : ∀ c, c ∈ queue ↔ c ∈ roots ∨ ∃ p ∈ queue.take qi, c ∈ children p
  subset : ∀ c ∈ queue, c ∈ nodes
  nodup : queue.Nodup
  parentsFirst : ParentsFirst F.parent queue

namespace Frontier

variable {F : Forest α} {nodes roots queue : List α} {children : α → List α} {qi : ℕ}

theorem start (h : Links F nodes roots children) : Frontier F nodes roots children 0 roots where
  bound := Nat.zero_le _
  mem c := by simp
  subset c hc := ((h.mem_roots c).mp hc).1
  nodup := h.roots_nodup
  parentsFirst := by
    intro i c p hi hp
    have hroot := ((h.mem_roots c).mp (List.mem_of_getElem? hi)).2
    rw [hroot] at hp
    cases hp

theorem step (h : Links F nodes roots children) (I : Frontier F nodes roots children qi queue) {node : α}
    (hnode : queue[qi]? = some node) :
    Frontier F nodes roots children (qi + 1) (queue ++ children node) := by
  obtain ⟨hlt, hget⟩ := List.getElem?_eq_some_iff.mp hnode
  have hin : node ∈ nodes := I.subset _ (List.mem_of_getElem? hnode)
  have htake : (queue ++ children node).take (qi + 1) = queue.take qi ++ [node] := by
    rw [List.take_append_of_le_length (by omega), List.take_add_one, hnode]
    rfl
  -- a child of the node is not in the queue: the node would have been visited before
  have hfresh : ∀ c ∈ children node, c ∉ queue := by
    intro c hc hq
    have hpc := ((h.mem_children node hin c).mp hc).2
    rcases (I.mem c).mp hq with hroot | ⟨p, hp, hcp⟩
    · rw [((h.mem_roots c).mp hroot).2] at hpc
      cases hpc
    · have hpn : p ∈ nodes := I.subset _ (List.mem_of_mem_take hp)
      rw [((h.mem_children p hpn c).mp hcp).2, Option.some_inj] at hpc
      subst hpc
      obtain ⟨j, hj, hpj⟩ := List.mem_iff_getElem.mp hp
      rw [List.getElem_take, ← hget] at hpj
      have hjlt : j < qi := by simpa using hj.trans_le (List.length_take_le _ _)
      have := (List.Nodup.getElem_inj_iff I.nodup).mp hpj
      omega
  refine ⟨?_, ?_, ?_, ?_, ?_⟩
  · rw [List.length_append]
    omega
  · intro c
    rw [htake, List.mem_append, I.mem c]
    simp only [List.mem_append, List.mem_singleton]
    constructor
    · rintro ((hr | ⟨p, hp, hc⟩) | hc)
      · exact .inl hr
      · exact .inr ⟨p, .inl hp, hc⟩
      · exact .inr ⟨node, .inr rfl, hc⟩
    · rintro (hr | ⟨p, hp | rfl, hc⟩)
      · exact .inl (.inl hr)
      · exact .inl (.inr ⟨p, hp, hc⟩)
      · exact .inr hc
  · intro c hc
    rcases List.mem_append.mp hc with hc | hc
    · exact I.subset c hc
    · exact ((h.mem_children node hin c).mp hc).1
  · exact List.nodup_append.mpr ⟨I.nodup, h.children_nodup node hin, fun a ha b hb hab => hfresh b hb (hab ▸ ha)⟩
  · intro i c p hi hp
    rcases Nat.lt_or_ge i queue.length with hlen | hlen
    · rw [List.getElem?_append_left hlen] at hi
      rw [List.take_append_of_le_length hlen.le]
      exact I.parentsFirst i c p hi hp
    · rw [List.getElem?_append_right hlen] at hi
      have hpc := ((h.mem_children node hin c).mp (List.mem_of_getElem? hi)).2
      rw [hpc, Option.some_inj] at hp
      subst hp
      rw [List.take_append, List.take_of_length_le hlen]
      exact List.mem_append_left _ (List.mem_of_getElem? hnode)

theorem length_le (I : Frontier F nodes roots children qi queue) : queue.length ≤ nodes.length :=
  (List.subperm_of_subset I.nodup I.subset).length_le

/-- A queue visited to its end has every node. -/
theorem perm (h : Links F nodes roots children) (I : Frontier F nodes roots children qi queue)
    (hend : queue.length ≤ qi) : queue.Perm nodes := by
  refine (List.perm_ext_iff_of_nodup I.nodup h.nodup).mpr fun c => ⟨I.subset c, ?_⟩
  refine F.induction (motive := fun c => c ∈ nodes → c ∈ queue) ?_ ?_ c
  · intro c hroot hc
    exact (I.mem c).mpr (.inl ((h.mem_roots c).mpr ⟨hc, hroot⟩))
  · intro c p hp ih hc
    have hpn := h.closed c hc p hp
    refine (I.mem c).mpr (.inr ⟨p, ?_, (h.mem_children p hpn c).mpr ⟨hc, hp⟩⟩)
    rw [List.take_of_length_le hend]
    exact ih hpn

end Frontier

/-- **Breadth-first order.**  With fuel for every node the queue ends with each node once, after its parent, and the
nodes have been visited in this order. -/
theorem breadthFirst_spec {F : Forest α} {nodes roots : List α} {children : α → List α}
    (h : Links F nodes roots children) (visit : σ → α → σ) (s : σ) :
    ∃ queue, breadthFirst children visit nodes.length 0 roots s = (queue, queue.foldl visit s) ∧
      queue.Perm nodes ∧ ParentsFirst F.parent queue := by
  have hloop : ∀ fuel qi queue, Frontier F nodes roots children qi queue → nodes.length ≤ qi + fuel →
      ∃ queue', breadthFirst children visit fuel qi queue ((queue.take qi).foldl visit s) =
        (queue', queue'.foldl visit s) ∧ queue'.Perm nodes ∧ ParentsFirst F.parent queue' := by
    intro fuel
    induction fuel with
    | zero =>
      intro qi queue I hfuel
      have hend : queue.length ≤ qi := I.length_le.trans hfuel
      exact ⟨queue, by rw [breadthFirst, List.take_of_length_le hend], I.perm h hend, I.parentsFirst⟩
    | succ fuel ih =>
      intro qi queue I hfuel
      rcases hnode : queue[qi]? with _ | node
      · have hend : queue.length ≤ qi := List.getElem?_eq_none_iff.mp hnode
        exact ⟨queue, by simp only [breadthFirst, hnode, List.take_of_length_le hend], I.perm h hend, I.parentsFirst⟩
      · obtain ⟨hlt, -⟩ := List.getElem?_eq_some_iff.mp hnode
        obtain ⟨queue', hrun, hperm, hfirst⟩ := ih (qi + 1) (queue ++ children node) (I.step h hnode) (by omega)
        refine ⟨queue', ?_, hperm, hfirst⟩
        rw [← hrun]
        simp only [breadthFirst, hnode]
        rw [List.take_append_of_le_length (by omega), List.take_add_one, hnode, Option.toList_some, List.foldl_append]
        rfl
  exact hloop nodes.length 0 roots (Frontier.start h) (by omega)

end LynxTrace
