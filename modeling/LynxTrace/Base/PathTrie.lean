import Mathlib.Data.List.GetD
import Mathlib.Data.List.Nodup
import Mathlib.Data.List.Infix
import Mathlib.Data.List.Induction

/-!
# Base.PathTrie — a trie stored as a list of nodes with parent indices

Each node has a key and the index of a node before it.  `paths` are the keys from the root down to each node.

* `nodup_paths` — nodes that differ in parent or key have different paths.
* `insertWord_spec` — adding a word below a node adds the paths of its prefixes and nothing else.
-/

namespace LynxTrace

variable {α : Type*}

structure TrieNode (α : Type*) where
  parent : Option ℕ
  key : α
  deriving DecidableEq, Repr

namespace PathTrie

/-! ### Paths -/

/-- The path of a parent; above the roots it is empty. -/
def above (paths : List (List α)) : Option ℕ → List α
  | none => []
  | some parent => paths.getD parent []

def paths (nodes : List (TrieNode α)) : List (List α) :=
  nodes.foldl (fun paths node => paths ++ [above paths node.parent ++ [node.key]]) []

theorem paths_concat (nodes : List (TrieNode α)) (node : TrieNode α) :
    paths (nodes ++ [node]) = paths nodes ++ [above (paths nodes) node.parent ++ [node.key]] := by
  rw [paths, List.foldl_append]
  rfl

@[simp] theorem length_paths (nodes : List (TrieNode α)) : (paths nodes).length = nodes.length := by
  induction nodes using List.reverseRecOn with
  | nil => rfl
  | append_singleton nodes node ih =>
    rw [paths_concat, List.length_append, List.length_append, ih, List.length_singleton, List.length_singleton]

theorem paths_isPrefix (nodes more : List (TrieNode α)) : paths nodes <+: paths (nodes ++ more) := by
  induction more using List.reverseRecOn with
  | nil =>
    rw [List.append_nil]
  | append_singleton more node ih =>
    rw [← List.append_assoc, paths_concat]
    exact ih.trans (List.prefix_append _ _)

theorem getElem?_of_prefix {β : Type*} {l l' : List β} (h : l <+: l') {i : ℕ} {x : β} (hi : l[i]? = some x) :
    l'[i]? = some x := by
  obtain ⟨more, rfl⟩ := h
  rw [List.getElem?_append_left (List.getElem?_eq_some_iff.mp hi).1]
  exact hi

/-! ### Tries -/

/-- A place in a trie: above the roots or at a node. -/
def Place (nodes : List (TrieNode α)) (place : Option ℕ) : Prop := ∀ i, place = some i → i < nodes.length

/-- Parents come first, and no two nodes have the same parent and key. -/
structure Trie (nodes : List (TrieNode α)) : Prop where
  parents : ∀ i (node : TrieNode α), nodes[i]? = some node → ∀ p, node.parent = some p → p < i
  distinct : nodes.Nodup

theorem trie_nil : Trie ([] : List (TrieNode α)) := ⟨nofun, List.nodup_nil⟩

variable {nodes : List (TrieNode α)} {place : Option ℕ}

theorem Place.above_mono (h : Place nodes place) (more : List (TrieNode α)) :
    above (paths (nodes ++ more)) place = above (paths nodes) place := by
  cases place with
  | none => rfl
  | some p =>
    have hp : p < (paths nodes).length := by
      rw [length_paths]
      exact h p rfl
    obtain ⟨rest, hrest⟩ := paths_isPrefix nodes more
    rw [above, above, ← hrest, List.getD_append _ _ _ _ hp]

theorem Trie.concat (h : Trie nodes) {node : TrieNode α} (hplace : Place nodes node.parent) (hnew : node ∉ nodes) :
    Trie (nodes ++ [node]) := by
  refine ⟨fun i x hx p hp => ?_, ?_⟩
  · by_cases hi : i < nodes.length
    · rw [List.getElem?_append_left hi] at hx
      exact h.parents i x hx p hp
    · have hlen := (List.getElem?_eq_some_iff.mp hx).1
      rw [List.length_append, List.length_singleton] at hlen
      obtain rfl : i = nodes.length := by omega
      rw [List.getElem?_concat_length] at hx
      cases hx
      exact hplace p hp
  · exact List.nodup_append.mpr ⟨h.distinct, List.nodup_singleton _, fun a ha b hb hab =>
      hnew (List.mem_singleton.mp hb ▸ hab ▸ ha)⟩

theorem Trie.of_concat {node : TrieNode α} (h : Trie (nodes ++ [node])) :
    Trie nodes ∧ Place nodes node.parent ∧ node ∉ nodes := by
  obtain ⟨hdistinct, -, hnew⟩ := List.nodup_append.mp h.distinct
  refine ⟨⟨fun i x hx => h.parents i x ?_, hdistinct⟩, fun p hp => ?_, fun hmem => ?_⟩
  · exact getElem?_of_prefix (List.prefix_append _ _) hx
  · exact h.parents nodes.length node List.getElem?_concat_length p hp
  · exact hnew node hmem node List.mem_cons_self rfl

/-- The path of a node extends the one of its parent by its key. -/
theorem Trie.path_eq (h : Trie nodes) {i : ℕ} {node : TrieNode α} (hi : nodes[i]? = some node) :
    (paths nodes)[i]? = some (above (paths nodes) node.parent ++ [node.key]) := by
  induction nodes using List.reverseRecOn with
  | nil => cases hi
  | append_singleton nodes last ih =>
    obtain ⟨htrie, hplace, -⟩ := h.of_concat
    by_cases hlt : i < nodes.length
    · rw [List.getElem?_append_left hlt] at hi
      have hplace' : Place nodes node.parent := fun p hp => Nat.lt_trans (htrie.parents i node hi p hp) hlt
      rw [hplace'.above_mono]
      exact getElem?_of_prefix (paths_isPrefix nodes [last]) (ih htrie hi)
    · have hlen := (List.getElem?_eq_some_iff.mp hi).1
      rw [List.length_append, List.length_singleton] at hlen
      obtain rfl : i = nodes.length := by omega
      rw [List.getElem?_concat_length] at hi
      cases hi
      rw [hplace.above_mono, paths_concat, ← length_paths nodes]
      exact List.getElem?_concat_length

theorem ne_nil_of_mem_paths {path : List α} (h : path ∈ paths nodes) : path ≠ [] := by
  induction nodes using List.reverseRecOn with
  | nil => cases h
  | append_singleton nodes node ih =>
    rw [paths_concat] at h
    rcases List.mem_append.mp h with h | h
    · exact ih h
    · rw [List.mem_singleton.mp h]
      exact List.append_ne_nil_of_right_ne_nil _ (List.cons_ne_nil _ _)

/-- Two places with the same path are the same. -/
theorem Place.eq_of_above_eq (hnodup : (paths nodes).Nodup) {place' : Option ℕ} (h : Place nodes place)
    (h' : Place nodes place') (heq : above (paths nodes) place = above (paths nodes) place') : place = place' := by
  have hget : ∀ p, Place nodes (some p) → ∃ hp : p < (paths nodes).length, above (paths nodes) (some p) =
      (paths nodes)[p] := by
    intro p hp
    have hlt : p < (paths nodes).length := by
      rw [length_paths]
      exact hp p rfl
    exact ⟨hlt, List.getD_eq_getElem _ _ hlt⟩
  cases place with
  | none =>
    cases place' with
    | none => rfl
    | some q =>
      obtain ⟨hq, hpath⟩ := hget q h'
      rw [hpath] at heq
      exact absurd heq.symm (ne_nil_of_mem_paths (List.getElem_mem hq))
  | some p =>
    obtain ⟨hp, hpath⟩ := hget p h
    cases place' with
    | none =>
      rw [hpath] at heq
      exact absurd heq (ne_nil_of_mem_paths (List.getElem_mem hp))
    | some q =>
      obtain ⟨hq, hpath'⟩ := hget q h'
      rw [hpath, hpath'] at heq
      rw [(hnodup.getElem_inj_iff).mp heq]

/-- There is one node for each path. -/
theorem Trie.nodup_paths (h : Trie nodes) : (paths nodes).Nodup := by
  induction nodes using List.reverseRecOn with
  | nil => exact List.nodup_nil
  | append_singleton nodes node ih =>
    obtain ⟨htrie, hplace, hnew⟩ := h.of_concat
    have hnodup := ih htrie
    rw [paths_concat]
    refine List.nodup_append.mpr ⟨hnodup, List.nodup_singleton _, fun path hpath path' hpath' heq => ?_⟩
    rw [List.mem_singleton.mp hpath'] at heq
    obtain ⟨i, hi⟩ := List.mem_iff_getElem?.mp hpath
    have hlt : i < nodes.length := by
      rw [← length_paths nodes]
      exact (List.getElem?_eq_some_iff.mp hi).1
    have hnode := List.getElem?_eq_getElem hlt
    rw [htrie.path_eq hnode, Option.some_inj] at hi
    obtain ⟨habove, hkey⟩ := List.append_inj' (hi.trans heq) rfl
    have hplace' : Place nodes nodes[i].parent := fun p hp => Nat.lt_trans (htrie.parents i _ hnode p hp) hlt
    have hparent := hplace'.eq_of_above_eq hnodup hplace habove
    have hsame : nodes[i] = node := by
      cases hni : nodes[i] with
      | mk parent key =>
        rw [hni] at hparent hkey
        cases node with
        | mk parent' key' =>
          rw [show parent = parent' from hparent, show key = key' from List.singleton_inj.mp hkey]
    exact hnew (hsame ▸ List.getElem_mem hlt)

/-! ### Adding words -/

theorem paths_of_kept {nodes' : List (TrieNode α)} (h : nodes <+: nodes') : paths nodes <+: paths nodes' := by
  obtain ⟨more, rfl⟩ := h
  exact paths_isPrefix nodes more

theorem mem_paths_of_kept {nodes' : List (TrieNode α)} (h : nodes <+: nodes') {path : List α}
    (hpath : path ∈ paths nodes) : path ∈ paths nodes' := (paths_of_kept h).subset hpath

/-- A prefix of the path of a parent is a prefix of one of the paths. -/
theorem exists_of_prefix_above {paths : List (List α)} {w : List α} (hne : w ≠ []) (hw : w <+: above paths place) :
    ∃ path ∈ paths, w <+: path := by
  cases place with
  | none => exact absurd (List.prefix_nil.mp hw) hne
  | some p =>
    by_cases hp : p < paths.length
    · rw [above, List.getD_eq_getElem _ _ hp] at hw
      exact ⟨_, List.getElem_mem hp, hw⟩
    · rw [above, List.getD_eq_default _ _ (Nat.not_lt.mp hp)] at hw
      exact absurd (List.prefix_nil.mp hw) hne

/-- What adding a word below a place does. -/
structure Inserted (nodes : List (TrieNode α)) (place : Option ℕ) (word : List α) (nodes' : List (TrieNode α))
    (last : Option ℕ) : Prop where
  trie : Trie nodes'
  kept : nodes <+: nodes'
  ends : Place nodes' last
  path : above (paths nodes') last = above (paths nodes) place ++ word
  added : ∀ path ∈ paths nodes', path ∈ paths nodes ∨ ∃ w, w ≠ [] ∧ w <+: word ∧ path = above (paths nodes) place ++ w
  prefixes : ∀ w, w ≠ [] → w <+: word → above (paths nodes) place ++ w ∈ paths nodes'

/-- One more key in front of the word, whose node is there before the rest is added. -/
theorem Inserted.cons {mid nodes' : List (TrieNode α)} {last : Option ℕ} {key : α} {word : List α} {i : ℕ}
    (h : Inserted mid (some i) word nodes' last) (hkept : nodes <+: mid)
    (hpath : above (paths mid) (some i) = above (paths nodes) place ++ [key]) (hi : Place mid (some i))
    (hmid : ∀ path ∈ paths mid, path ∈ paths nodes ∨ path = above (paths nodes) place ++ [key]) :
    Inserted nodes place (key :: word) nodes' last := by
  obtain ⟨htrie, hkept', hplace, hlast, hadded, hprefixes⟩ := h
  rw [hpath] at hlast hadded hprefixes
  refine ⟨htrie, hkept.trans hkept', hplace, ?_, fun path hmem => ?_, fun w hne hw => ?_⟩
  · rw [hlast, List.append_assoc, List.singleton_append]
  · rcases hadded path hmem with hold | ⟨w, hne, hw, rfl⟩
    · rcases hmid path hold with hold | rfl
      · exact Or.inl hold
      · exact Or.inr ⟨[key], List.cons_ne_nil _ _, List.cons_prefix_cons.mpr ⟨rfl, List.nil_prefix⟩, rfl⟩
    · refine Or.inr ⟨key :: w, List.cons_ne_nil _ _, List.cons_prefix_cons.mpr ⟨rfl, hw⟩, ?_⟩
      rw [List.append_assoc, List.singleton_append]
  · obtain ⟨key', w, rfl⟩ := List.exists_cons_of_ne_nil hne
    obtain ⟨rfl, hrest⟩ := List.cons_prefix_cons.mp hw
    by_cases hnil : w = []
    · subst hnil
      have hlt : i < (paths mid).length := by
        rw [length_paths]
        exact hi i rfl
      rw [← hpath, above, List.getD_eq_getElem _ _ hlt]
      exact mem_paths_of_kept hkept' (List.getElem_mem hlt)
    · have hmem := hprefixes w hnil hrest
      rwa [List.append_assoc, List.singleton_append] at hmem

section

variable [DecidableEq α]

/-- The word added below a place, with the place of its last key. -/
def insertWord : List (TrieNode α) → Option ℕ → List α → List (TrieNode α) × Option ℕ
  | nodes, place, [] => (nodes, place)
  | nodes, place, key :: word =>
    match nodes.idxOf? ⟨place, key⟩ with
    | some i => insertWord nodes (some i) word
    | none => insertWord (nodes ++ [⟨place, key⟩]) (some nodes.length) word

theorem insertWord_append (nodes : List (TrieNode α)) (place : Option ℕ) (word word' : List α) :
    insertWord nodes place (word ++ word') =
      insertWord (insertWord nodes place word).1 (insertWord nodes place word).2 word' := by
  induction word generalizing nodes place with
  | nil => rfl
  | cons key word ih =>
    rw [List.cons_append, insertWord, insertWord]
    cases nodes.idxOf? ⟨place, key⟩ with
    | some i => exact ih nodes (some i)
    | none => exact ih _ _

theorem insertWord_spec (h : Trie nodes) (hplace : Place nodes place) (word : List α) :
    Inserted nodes place word (insertWord nodes place word).1 (insertWord nodes place word).2 := by
  induction word generalizing nodes place with
  | nil =>
    refine ⟨h, List.prefix_rfl, hplace, (List.append_nil _).symm, fun path hpath => Or.inl hpath, fun w hne hw => ?_⟩
    exact absurd (List.prefix_nil.mp hw) hne
  | cons key word ih =>
    rw [insertWord]
    cases hfind : nodes.idxOf? ⟨place, key⟩ with
    | some i =>
      obtain ⟨hlt, hnode, -⟩ := List.idxOf?_eq_some_iff.mp hfind
      have hi : Place nodes (some i) := fun j hj => Option.some_inj.mp hj ▸ hlt
      have hget : nodes[i]? = some ⟨place, key⟩ := by rw [List.getElem?_eq_getElem hlt, hnode]
      have hpath : above (paths nodes) (some i) = above (paths nodes) place ++ [key] := by
        rw [above, List.getD_eq_getElem?_getD, h.path_eq hget]
        rfl
      exact (ih h hi).cons List.prefix_rfl hpath hi fun path hmem => Or.inl hmem
    | none =>
      have hnew : (⟨place, key⟩ : TrieNode α) ∉ nodes := List.idxOf?_eq_none_iff.mp hfind
      have htrie := h.concat hplace hnew
      have hlast : Place (nodes ++ [⟨place, key⟩]) (some nodes.length) := by
        intro j hj
        rw [← Option.some_inj.mp hj, List.length_append]
        exact Nat.lt_succ_self _
      have hpaths := paths_concat nodes ⟨place, key⟩
      have hpath : above (paths (nodes ++ [⟨place, key⟩])) (some nodes.length) = above (paths nodes) place ++ [key] := by
        rw [above, List.getD_eq_getElem?_getD, htrie.path_eq List.getElem?_concat_length, hplace.above_mono]
        rfl
      refine (ih htrie hlast).cons (List.prefix_append _ _) hpath hlast fun path hmem => ?_
      rw [hpaths] at hmem
      rcases List.mem_append.mp hmem with hmem | hmem
      · exact Or.inl hmem
      · exact Or.inr (List.mem_singleton.mp hmem)

end

end PathTrie

end LynxTrace
