import LynxTrace.Base.SubtreeSums
import LynxTrace.Intrinsics.FlamegraphTree

/-!
# FlamegraphTotals — the sums in a flamegraph

* `charged_foldlM` — the rows of the profile are added to the rows of their callsites.
* `backwardPass_spec` — the backward pass adds each row to those above it.
* `buildFlamegraph_spec` — both kinds of flamegraph have the paths of the expanded stacks, the sums of the profile rows
  that end there and the sums over everything below.
-/

namespace LynxTrace.TraceProcessor.Intrinsics.Flamegraph

open PathTrie

/-! ### Totals -/

theorem Totals.add_def (a b : Totals) :
    a + b = ⟨a.size + b.size, a.count + b.count, a.allocSize + b.allocSize, a.allocCount + b.allocCount⟩ := rfl

theorem Totals.zero_def : (0 : Totals) = ⟨0, 0, 0, 0⟩ := rfl

instance : AddCommMonoid Totals where
  add_assoc a b c := by simp only [Totals.add_def, Int64.add_assoc]
  zero_add a := by simp only [Totals.add_def, Totals.zero_def, Int64.zero_add]
  add_zero a := by simp only [Totals.add_def, Totals.zero_def, Int64.add_zero]
  add_comm a b := by
    rw [Totals.add_def, Totals.add_def, Int64.add_comm a.size, Int64.add_comm a.count, Int64.add_comm a.allocSize,
      Int64.add_comm a.allocCount]
  nsmul := nsmulRec

/-- Totals of samples. -/
def Totals.NoAllocs (t : Totals) : Prop := t.allocSize = 0 ∧ t.allocCount = 0

theorem Totals.NoAllocs.add {a b : Totals} (ha : a.NoAllocs) (hb : b.NoAllocs) : (a + b).NoAllocs := by
  obtain ⟨hsize, hcount⟩ := ha
  obtain ⟨hsize', hcount'⟩ := hb
  rw [Totals.add_def, Totals.NoAllocs, hsize, hcount, hsize', hcount']
  exact ⟨rfl, rfl⟩

theorem Totals.addSizeAndCount_eq (a : Totals) {b : Totals} (hb : b.NoAllocs) : a.addSizeAndCount b = a + b := by
  rw [Totals.add_def, hb.1, hb.2, Int64.add_zero, Int64.add_zero]
  rfl

def ownAt (tbl : List Row) (i : ℕ) : Totals := (tbl[i]?.map Row.own).getD 0

def cumulativeAt (tbl : List Row) (i : ℕ) : Totals := (tbl[i]?.map Row.cumulative).getD 0

def pathAt (tbl : List Row) (i : ℕ) : List FrameKey := (paths (nodesOf tbl)).getD i []

/-! ### Adding profile rows -/

/-- Totals charged to callsites. -/
abbrev Charges := List (ℕ × Totals)

/-- The totals charged to the callsites of a row. -/
def chargedTo (merged : List ℕ) (charges : Charges) (i : ℕ) : Totals :=
  ((charges.filter fun charge => merged[charge.1]? = some i).map Prod.snd).sum

/-- The columns that the profile rows leave as they are. -/
def shape (row : Row) : TrieNode FrameKey × ℕ × Totals := (row.node, row.depth, row.cumulative)

structure Charged (merged : List ℕ) (tbl tbl' : List Row) (charges : Charges) : Prop where
  shape : tbl'.map shape = tbl.map shape
  own : ∀ i, ownAt tbl' i = ownAt tbl i + chargedTo merged charges i

section

variable {merged : List ℕ} {tbl tbl' tbl'' : List Row} {charges charges' : Charges}

theorem chargedTo_append (merged : List ℕ) (charges charges' : Charges) (i : ℕ) :
    chargedTo merged (charges ++ charges') i = chargedTo merged charges i + chargedTo merged charges' i := by
  rw [chargedTo, List.filter_append, List.map_append, List.sum_append]
  rfl

theorem Charged.refl (merged : List ℕ) (tbl : List Row) : Charged merged tbl tbl [] :=
  ⟨rfl, fun _ => (add_zero _).symm⟩

theorem Charged.trans (h : Charged merged tbl tbl' charges) (h' : Charged merged tbl' tbl'' charges') :
    Charged merged tbl tbl'' (charges ++ charges') := by
  refine ⟨h'.shape.trans h.shape, fun i => ?_⟩
  rw [h'.own, h.own, chargedTo_append, add_assoc]

theorem Charged.length_eq (h : Charged merged tbl tbl' charges) : tbl'.length = tbl.length := by
  have hlen := congrArg List.length h.shape
  rwa [List.length_map, List.length_map] at hlen

/-- The row of one callsite is changed. -/
theorem modifyMerged_spec {callsiteId row : ℕ} (hmerged : merged[callsiteId]? = some row) (hrow : row < tbl.length)
    {f : Row → Row} {t : Totals} (hshape : ∀ r, Flamegraph.shape (f r) = Flamegraph.shape r)
    (hown : ∀ r, (f r).own = r.own + t) :
    ∃ tbl', modifyMerged merged callsiteId f tbl = some tbl' ∧ Charged merged tbl tbl' [(callsiteId, t)] := by
  have hget := List.getElem?_eq_getElem hrow
  refine ⟨tbl.set row (f tbl[row]), ?_, ?_, fun i => ?_⟩
  · unfold modifyMerged
    simp only [Option.bind_eq_bind, hmerged, Option.bind_some, hget]
    rfl
  · refine List.ext_getElem? fun i => ?_
    rw [List.getElem?_map, List.getElem?_map]
    by_cases hi : row = i
    · subst hi
      rw [List.getElem?_set_self hrow, hget]
      exact congrArg some (hshape _)
    · rw [List.getElem?_set_ne hi]
  · rw [ownAt, ownAt, chargedTo]
    by_cases hi : row = i
    · subst hi
      rw [List.getElem?_set_self hrow, hget, List.filter_singleton, decide_eq_true hmerged]
      simp only [Option.map_some, Option.getD_some, hown]
      simp
    · have hne : merged[callsiteId]? ≠ some i := fun heq => hi (Option.some_inj.mp (hmerged.symm.trans heq))
      rw [List.getElem?_set_ne hi, List.filter_singleton, decide_eq_false hne]
      exact (add_zero _).symm

/-- A run over the rows of a profile. -/
theorem charged_foldlM {β : Type*} (merged : List ℕ) (tbl : List Row) {step : List Row → β → Option (List Row)}
    {charge : β → Charges} {rows : List β}
    (hstep : ∀ row ∈ rows, ∀ t : List Row, t.length = tbl.length →
      ∃ t', step t row = some t' ∧ Charged merged t t' (charge row)) :
    ∃ tbl', rows.foldlM step tbl = some tbl' ∧ Charged merged tbl tbl' (rows.flatMap charge) := by
  suffices h : ∀ t : List Row, t.length = tbl.length →
      ∃ t', rows.foldlM step t = some t' ∧ Charged merged t t' (rows.flatMap charge) from h tbl rfl
  induction rows with
  | nil => exact fun t _ => ⟨t, rfl, Charged.refl merged t⟩
  | cons row rows ih =>
    intro t ht
    obtain ⟨t₁, ht₁, hcharged₁⟩ := hstep row List.mem_cons_self t ht
    obtain ⟨t', ht', hcharged'⟩ := ih (fun r hr => hstep r (List.mem_cons_of_mem _ hr)) t₁ (hcharged₁.length_eq.trans ht)
    refine ⟨t', ?_, ?_⟩
    · rw [List.foldlM_cons, ht₁]
      exact ht'
    · rw [List.flatMap_cons]
      exact hcharged₁.trans hcharged'

end

/-- What an allocation is charged. -/
def HeapProfileAllocation.charge (a : HeapProfileAllocation) : Charges := [(a.callsiteId, a.totals)]

/-- What a sample is charged, if it is one of the threads. -/
def PerfSample.charge (utids : List ℕ) (sample : PerfSample) : Charges :=
  if sample.utid ∈ utids then [(sample.callsiteId.getD 0, ⟨1, 1, 0, 0⟩)] else []

section

variable {merged : List ℕ} {tbl : List Row}

theorem addAllocation_spec {a : HeapProfileAllocation} (hsigned : a.Signed) {row : ℕ}
    (hmerged : merged[a.callsiteId]? = some row) (hrow : row < tbl.length) :
    ∃ tbl', addAllocation merged tbl a = some tbl' ∧ Charged merged tbl tbl' a.charge := by
  rw [addAllocation, if_pos hsigned]
  exact modifyMerged_spec hmerged hrow (fun _ => rfl) fun _ => rfl

theorem addSample_spec {utids : List ℕ} {sample : PerfSample} (hrow : sample.utid ∈ utids →
    ∃ row, merged[sample.callsiteId.getD 0]? = some row ∧ row < tbl.length) :
    ∃ tbl', addSample merged utids tbl sample = some tbl' ∧ Charged merged tbl tbl' (sample.charge utids) := by
  rw [addSample, PerfSample.charge]
  split_ifs with hutid
  · obtain ⟨row, hmerged, hlt⟩ := hrow hutid
    refine modifyMerged_spec hmerged hlt (fun _ => rfl) fun r => ?_
    rw [Totals.add_def]
    simp only [Int64.add_zero]
  · exact ⟨tbl, rfl, Charged.refl merged tbl⟩

end

/-! ### The backward pass -/

def parentAt (tbl : List Row) (i : ℕ) : Option ℕ := (tbl[i]?).bind Row.parentId

/-- The columns that the backward pass leaves as they are. -/
def form (row : Row) : TrieNode FrameKey × ℕ × Totals := (row.node, row.depth, row.own)

/-- The backward pass adds totals that `good` holds of, for which `add` is the sum. -/
structure AddsGood (add : Totals → Totals → Totals) (good : Totals → Prop) : Prop where
  add_eq : ∀ a b, good b → add a b = a + b
  closed : ∀ a b, good a → good b → good (a + b)

section

variable {add : Totals → Totals → Totals} {good : Totals → Prop} {tbl tbl' : List Row} {idx : ℕ}

/-- A row with more in its cumulative totals. -/
theorem cumulativeAt_set {row : Row} (hrow : tbl[idx]? = some row) (totals : Totals) :
    cumulativeAt (tbl.set idx (row.setCumulative totals)) = Function.update (cumulativeAt tbl) idx totals ∧
      (tbl.set idx (row.setCumulative totals)).map form = tbl.map form := by
  have hlt := (List.getElem?_eq_some_iff.mp hrow).1
  constructor
  · refine funext fun i => ?_
    rw [cumulativeAt]
    by_cases hi : idx = i
    · subst hi
      rw [List.getElem?_set_self hlt, Function.update_self]
      rfl
    · rw [List.getElem?_set_ne hi, Function.update_of_ne (Ne.symm hi)]
      rfl
  · refine List.ext_getElem? fun i => ?_
    rw [List.getElem?_map, List.getElem?_map]
    by_cases hi : idx = i
    · subst hi
      rw [List.getElem?_set_self hlt, hrow]
      rfl
    · rw [List.getElem?_set_ne hi]

theorem parentAt_of_form (h : tbl'.map form = tbl.map form) : parentAt tbl' = parentAt tbl ∧ ownAt tbl' = ownAt tbl := by
  have hget : ∀ i : ℕ, (tbl'[i]?).map form = (tbl[i]?).map form := by
    intro i
    rw [← List.getElem?_map, h, List.getElem?_map]
  constructor
  · refine funext fun i => ?_
    have hi := congrArg (Option.map fun shape => shape.1.parent) (hget i)
    rw [Option.map_map, Option.map_map] at hi
    rw [parentAt, parentAt]
    cases hrow : tbl'[i]? with
    | none =>
      rw [hrow] at hi
      cases hrow' : tbl[i]? with
      | none => rfl
      | some row =>
        rw [hrow'] at hi
        cases hi
    | some row' =>
      rw [hrow] at hi
      cases hrow' : tbl[i]? with
      | none =>
        rw [hrow'] at hi
        cases hi
      | some row =>
        rw [hrow'] at hi
        exact Option.some_inj.mp hi
  · refine funext fun i => ?_
    have hi := congrArg (Option.map fun shape => shape.2.2) (hget i)
    rw [Option.map_map, Option.map_map] at hi
    exact congrArg (fun own => own.getD 0) hi

theorem propagate_spec (hadd : AddsGood add good) (hown : ∀ i, good (ownAt tbl i))
    (hcumulative : ∀ i, good (cumulativeAt tbl i)) (hidx : idx < tbl.length)
    (hparent : ∀ p, parentAt tbl idx = some p → p < tbl.length) :
    ∃ tbl', propagate add tbl idx = some tbl' ∧ tbl'.map form = tbl.map form ∧
      cumulativeAt tbl' = pushNode (parentAt tbl) (ownAt tbl) idx (cumulativeAt tbl) := by
  have hrow := List.getElem?_eq_getElem hidx
  have hownRow : ownAt tbl idx = tbl[idx].own := by rw [ownAt, hrow]; rfl
  have hcumulativeRow : cumulativeAt tbl idx = tbl[idx].cumulative := by rw [cumulativeAt, hrow]; rfl
  have hparentRow : parentAt tbl idx = tbl[idx].parentId := by rw [parentAt, hrow]; rfl
  have hsum : add tbl[idx].cumulative tbl[idx].own = cumulativeAt tbl idx + ownAt tbl idx := by
    rw [hownRow, hcumulativeRow]
    exact hadd.add_eq _ _ (hownRow ▸ hown idx)
  obtain ⟨hset, hform⟩ := cumulativeAt_set hrow (cumulativeAt tbl idx + ownAt tbl idx)
  have hgood : good (cumulativeAt tbl idx + ownAt tbl idx) := hadd.closed _ _ (hcumulative idx) (hown idx)
  have hlen : (tbl.set idx (tbl[idx].setCumulative (cumulativeAt tbl idx + ownAt tbl idx))).length = tbl.length :=
    List.length_set
  unfold propagate pushNode
  rw [hrow, Option.bind_some]
  dsimp only
  rw [hsum, hparentRow]
  generalize tbl.set idx (tbl[idx].setCumulative (cumulativeAt tbl idx + ownAt tbl idx)) = tbl₁ at hset hform hlen
  cases hp : tbl[idx].parentId with
  | none => exact ⟨_, rfl, hform, hset⟩
  | some p =>
    have hlt : p < tbl₁.length := hlen ▸ hparent p (hparentRow.trans hp)
    have hprow := List.getElem?_eq_getElem hlt
    have hpcumulative : tbl₁[p].cumulative = cumulativeAt tbl₁ p := by rw [cumulativeAt, hprow]; rfl
    obtain ⟨hset', hform'⟩ := cumulativeAt_set hprow
      (add tbl₁[p].cumulative (cumulativeAt tbl idx + ownAt tbl idx))
    refine ⟨_, by rw [addToParent, hprow]; rfl, hform'.trans hform, ?_⟩
    rw [hset', hpcumulative, hadd.add_eq _ _ hgood, hset, Function.update_self]

theorem pushNode_good (hadd : AddsGood add good) (parent : ℕ → Option ℕ) {own totals : ℕ → Totals}
    (hown : ∀ i, good (own i)) (htotals : ∀ i, good (totals i)) (node i : ℕ) :
    good (pushNode parent own node totals i) := by
  have hupdate : ∀ (f : ℕ → Totals) (j : ℕ) (t : Totals), (∀ i, good (f i)) → good t →
      ∀ i, good (Function.update f j t i) := by
    intro f j t hf ht i
    by_cases hi : i = j
    · subst hi
      rwa [Function.update_self]
    · rw [Function.update_of_ne hi]
      exact hf i
  have hfirst := hupdate totals node _ htotals (hadd.closed _ _ (htotals node) (hown node))
  unfold pushNode
  cases parent node with
  | none => exact hfirst i
  | some p => exact hupdate _ p _ hfirst (hadd.closed _ _ (hfirst p) (hfirst node)) i

theorem backwardPass_spec (hadd : AddsGood add good) (hown : ∀ i, good (ownAt tbl i))
    (hcumulative : ∀ i, good (cumulativeAt tbl i)) (hparent : ∀ i < tbl.length, ∀ p, parentAt tbl i = some p → p < i) :
    ∃ tbl', backwardPass add tbl = some tbl' ∧ tbl'.map form = tbl.map form ∧
      cumulativeAt tbl' = pushUp (parentAt tbl) (ownAt tbl) tbl.length (cumulativeAt tbl) := by
  suffices h : ∀ n, ∀ t : List Row, n ≤ t.length → t.map form = tbl.map form → (∀ i, good (cumulativeAt t i)) →
      ∃ t', (List.range n).reverse.foldlM (propagate add) t = some t' ∧ t'.map form = tbl.map form ∧
        cumulativeAt t' = pushUp (parentAt tbl) (ownAt tbl) n (cumulativeAt t) from
    h tbl.length tbl (Nat.le_refl _) rfl hcumulative
  intro n
  induction n with
  | zero => exact fun t _ hform _ => ⟨t, rfl, hform, rfl⟩
  | succ n ih =>
    intro t hn hform hgood
    obtain ⟨hparents, howns⟩ := parentAt_of_form hform
    have hlen : t.length = tbl.length := by
      have hmap := congrArg List.length hform
      rwa [List.length_map, List.length_map] at hmap
    have hownT : ∀ i, good (ownAt t i) := fun i => howns ▸ hown i
    obtain ⟨t₁, ht₁, hform₁, hcumulative₁⟩ := propagate_spec hadd hownT hgood hn
      fun p hp => Nat.lt_trans (hparent n (hlen ▸ hn) p (hparents ▸ hp)) hn
    rw [hparents, howns] at hcumulative₁
    have hlen₁ : t₁.length = t.length := by
      have hmap := congrArg List.length hform₁
      rwa [List.length_map, List.length_map] at hmap
    obtain ⟨t', ht', hform', hcumulative'⟩ := ih t₁ (by omega) (hform₁.trans hform)
      fun i => hcumulative₁ ▸ pushNode_good hadd _ hown hgood n i
    refine ⟨t', ?_, hform', by rw [hcumulative', hcumulative₁, pushUp]⟩
    rw [List.range_succ, List.reverse_append, List.reverse_singleton, List.singleton_append, List.foldlM_cons, ht₁]
    exact ht'

end

/-! ### Flamegraphs -/

/-- The table is the trie of the expanded stacks, with the sums of the charges to them. -/
structure IsFlamegraph (storage : TraceStorage) (tbl : List Row) (charges : Charges) : Prop where
  parents : ∀ (i : ℕ) row, tbl[i]? = some row → ∀ p, row.parentId = some p → p < i
  path : ∀ (i : ℕ) row, tbl[i]? = some row →
    pathAt tbl i = ((row.parentId.map (pathAt tbl)).getD []) ++ [(row.name, row.mapName)]
  depth : ∀ (i : ℕ) row, tbl[i]? = some row → row.depth + 1 = (pathAt tbl i).length
  distinct : ∀ i < tbl.length, ∀ j < tbl.length, pathAt tbl i = pathAt tbl j → i = j
  paths : ∀ path, (∃ i < tbl.length, pathAt tbl i = path) ↔
    path ≠ [] ∧ ∃ stack ∈ expandedStacks storage storage.callsites.length, path <+: stack
  own : ∀ i < tbl.length, ownAt tbl i = ((charges.filter fun charge =>
    (expandedStacks storage storage.callsites.length)[charge.1]? = some (pathAt tbl i)).map Prod.snd).sum
  cumulative : ∀ i < tbl.length, cumulativeAt tbl i =
    ∑ d ∈ (Finset.range tbl.length).filter fun d => pathAt tbl i <+: pathAt tbl d, ownAt tbl d

/-- A node is below those whose paths are prefixes of its path. -/
theorem descends_paths {tbl : List Row} (htrie : Trie (nodesOf tbl)) :
    Descends (parentAt tbl) tbl.length fun i d => pathAt tbl i <+: pathAt tbl d := by
  have hpathAt : ∀ i < tbl.length, ∃ path, (paths (nodesOf tbl))[i]? = some path ∧ pathAt tbl i = path := by
    intro i hi
    have hlt : i < (paths (nodesOf tbl)).length := by
      rw [length_paths, length_nodesOf]
      exact hi
    exact ⟨_, List.getElem?_eq_getElem hlt, List.getD_eq_getElem _ _ hlt⟩
  have hnode : ∀ d < tbl.length, ∃ node, (nodesOf tbl)[d]? = some node ∧ node.parent = parentAt tbl d := by
    intro d hd
    have hrow := List.getElem?_eq_getElem hd
    exact ⟨tbl[d].node, by rw [nodesOf, List.getElem?_map, hrow]; rfl, by rw [parentAt, hrow]; rfl⟩
  refine ⟨fun d hd p hp => ?_, fun i hi d hd => ?_⟩
  · obtain ⟨node, hget, hparent⟩ := hnode d hd
    exact htrie.parents d node hget p (hparent.trans hp)
  · obtain ⟨node, hget, hparent⟩ := hnode d hd
    obtain ⟨path, hpath, hpath'⟩ := hpathAt d hd
    obtain ⟨pathI, hpathI, hpathI'⟩ := hpathAt i hi
    have hnodePath := htrie.path_eq hget
    rw [hpath, Option.some_inj] at hnodePath
    rw [hpath', hpathI', hnodePath, List.prefix_concat_iff, ← hnodePath, hparent]
    refine or_congr ⟨fun heq => ?_, fun heq => ?_⟩ ?_
    · obtain ⟨hlt, hget'⟩ := List.getElem?_eq_some_iff.mp hpathI
      obtain ⟨hlt', hget''⟩ := List.getElem?_eq_some_iff.mp hpath
      exact (htrie.nodup_paths.getElem_inj_iff).mp (hget'.trans (heq.trans hget''.symm))
    · subst heq
      rw [hpathI, Option.some_inj] at hpath
      exact hpath
    · cases parentAt tbl d with
      | none =>
        have hne := ne_nil_of_mem_paths (List.mem_of_getElem? hpathI)
        refine ⟨fun hprefix => absurd (List.prefix_nil.mp hprefix) hne, ?_⟩
        rintro ⟨p, hp, -⟩
        cases hp
      | some p =>
        show pathI <+: pathAt tbl p ↔ _
        refine ⟨fun hprefix => ⟨p, rfl, hprefix⟩, ?_⟩
        rintro ⟨q, hq, hprefix⟩
        rwa [Option.some_inj.mp hq]

section

variable {storage : TraceStorage} {f : FlamegraphTableAndMergedCallsites} {tbl tbl₁ : List Row} {charges : Charges}

/-- A callsite is merged into a row where its stack is the path of the row. -/
theorem Built.merged_iff {n : ℕ} (h : Built storage n f) {i : ℕ} (hi : i < f.tbl.length) (callsiteId : ℕ) :
    f.callsiteToMergedCallsite[callsiteId]? = some i ↔
      (expandedStacks storage n)[callsiteId]? = some (pathAt f.tbl i) := by
  have hlt : i < (paths (nodesOf f.tbl)).length := by rwa [length_paths, length_nodesOf]
  have hpath : (paths (nodesOf f.tbl))[i]? = some (pathAt f.tbl i) := by
    rw [pathAt, List.getD_eq_getElem _ _ hlt]
    exact List.getElem?_eq_getElem hlt
  have hmerged := congrArg (·[callsiteId]?) h.merged
  simp only [List.getElem?_map] at hmerged
  cases hrow : f.callsiteToMergedCallsite[callsiteId]? with
  | none =>
    rw [hrow] at hmerged
    rw [Option.map_eq_none_iff.mp hmerged.symm]
    exact ⟨nofun, nofun⟩
  | some row =>
    rw [hrow, Option.map_some] at hmerged
    cases hstack : (expandedStacks storage n)[callsiteId]? with
    | none =>
      rw [hstack] at hmerged
      cases hmerged
    | some stack =>
      rw [hstack, Option.map_some, Option.some_inj] at hmerged
      rw [Option.some_inj, Option.some_inj]
      constructor
      · rintro rfl
        exact Option.some_inj.mp (hmerged.symm.trans hpath)
      · rintro rfl
        obtain ⟨hlt', hget⟩ := List.getElem?_eq_some_iff.mp hmerged
        obtain ⟨hlt'', hget'⟩ := List.getElem?_eq_some_iff.mp hpath
        exact (h.table.trie.nodup_paths.getElem_inj_iff).mp (hget.trans hget'.symm)

theorem TableInv.zeroAt {index : CallsiteMap} (h : TableInv tbl index) (i : ℕ) :
    ownAt tbl i = 0 ∧ cumulativeAt tbl i = 0 := by
  rw [ownAt, cumulativeAt]
  cases hrow : tbl[i]? with
  | none => exact ⟨rfl, rfl⟩
  | some row =>
    have hzero := h.zero (row.own, row.cumulative) (List.mem_map.mpr ⟨row, List.mem_of_getElem? hrow, rfl⟩)
    exact ⟨congrArg Prod.fst hzero, congrArg Prod.snd hzero⟩

/-- The columns of the tree structure, through the charges and the backward pass. -/
theorem columns_of_shape {merged : List ℕ} (hcharged : Charged merged f.tbl tbl₁ charges)
    (hform : tbl.map form = tbl₁.map form) :
    tbl.map (fun row => (row.node, row.depth)) = f.tbl.map fun row => (row.node, row.depth) := by
  have hshape := congrArg (List.map fun s : TrieNode FrameKey × ℕ × Totals => (s.1, s.2.1)) hcharged.shape
  have hform' := congrArg (List.map fun s : TrieNode FrameKey × ℕ × Totals => (s.1, s.2.1)) hform
  rw [List.map_map, List.map_map] at hshape hform'
  exact hform'.trans hshape

theorem isFlamegraph_of_charged {add : Totals → Totals → Totals} {good : Totals → Prop}
    (h : Built storage storage.callsites.length f) (hcharged : Charged f.callsiteToMergedCallsite f.tbl tbl₁ charges)
    (hadd : AddsGood add good) (hzero : good 0) (hgood : ∀ charge ∈ charges, good charge.2) :
    ∃ tbl, backwardPass add tbl₁ = some tbl ∧ IsFlamegraph storage tbl charges := by
  have htrie := h.table.trie
  have hown₁ : ∀ i, ownAt tbl₁ i = chargedTo f.callsiteToMergedCallsite charges i := by
    intro i
    rw [hcharged.own, (h.table.zeroAt i).1, zero_add]
  have hcumulative₁ : ∀ i, cumulativeAt tbl₁ i = 0 := by
    intro i
    have hget := congrArg (fun l => (l[i]?.map fun s : TrieNode FrameKey × ℕ × Totals => s.2.2).getD 0) hcharged.shape
    simp only [List.getElem?_map, Option.map_map] at hget
    exact hget.trans (h.table.zeroAt i).2
  have hgoodOwn : ∀ i, good (ownAt tbl₁ i) := by
    intro i
    rw [hown₁, chargedTo]
    have hall : ∀ t ∈ (charges.filter fun charge => f.callsiteToMergedCallsite[charge.1]? = some i).map Prod.snd,
        good t := by
      intro t ht
      obtain ⟨charge, hcharge, rfl⟩ := List.mem_map.mp ht
      exact hgood charge (List.mem_filter.mp hcharge).1
    generalize (charges.filter fun charge => f.callsiteToMergedCallsite[charge.1]? = some i).map Prod.snd = ts at hall
    induction ts with
    | nil => exact hzero
    | cons t ts ih =>
      rw [List.sum_cons]
      exact hadd.closed _ _ (hall t List.mem_cons_self) (ih fun u hu => hall u (List.mem_cons_of_mem _ hu))
  have hnodes₁ : nodesOf tbl₁ = nodesOf f.tbl := by
    have hshape := congrArg (List.map fun s : TrieNode FrameKey × ℕ × Totals => s.1) hcharged.shape
    rwa [List.map_map, List.map_map] at hshape
  have hparent₁ : ∀ i < tbl₁.length, ∀ p, parentAt tbl₁ i = some p → p < i :=
    (descends_paths (hnodes₁ ▸ htrie)).parent_lt
  obtain ⟨tbl, htbl, hform, hcumulative⟩ := backwardPass_spec hadd hgoodOwn (fun i => hcumulative₁ i ▸ hzero) hparent₁
  obtain ⟨hparents, howns⟩ := parentAt_of_form hform
  have hcolumns := columns_of_shape hcharged hform
  have hnodes : nodesOf tbl = nodesOf f.tbl := by
    have hmap := congrArg (List.map Prod.fst) hcolumns
    rwa [List.map_map, List.map_map] at hmap
  have hdepths : tbl.map (fun row => row.depth + 1) = (paths (nodesOf tbl)).map List.length := by
    have hmap := congrArg (List.map fun s : TrieNode FrameKey × ℕ => s.2 + 1) hcolumns
    rw [List.map_map, List.map_map] at hmap
    rw [hnodes]
    exact hmap.trans h.table.depths
  have hlen : tbl.length = f.tbl.length := by
    rw [← length_nodesOf, hnodes, length_nodesOf]
  have hlen₁ := hcharged.length_eq
  have hpathAt : pathAt tbl = pathAt f.tbl := funext fun i => by rw [pathAt, pathAt, hnodes]
  rw [← hnodes] at htrie
  have hget : ∀ (i : ℕ) (row : Row), tbl[i]? = some row → (nodesOf tbl)[i]? = some row.node ∧
      (paths (nodesOf tbl))[i]? = some (pathAt tbl i) := by
    intro i row hrow
    have hlt : i < (paths (nodesOf tbl)).length := by
      rw [length_paths, length_nodesOf]
      exact (List.getElem?_eq_some_iff.mp hrow).1
    refine ⟨by rw [nodesOf, List.getElem?_map, hrow]; rfl, ?_⟩
    rw [pathAt, List.getD_eq_getElem _ _ hlt]
    exact List.getElem?_eq_getElem hlt
  refine ⟨tbl, htbl, ?_, ?_, ?_, ?_, ?_, ?_, ?_⟩
  · intro i row hrow p hp
    exact htrie.parents i row.node (hget i row hrow).1 p hp
  · intro i row hrow
    obtain ⟨hnode, hpath⟩ := hget i row hrow
    rw [htrie.path_eq hnode, Option.some_inj] at hpath
    rw [← hpath]
    cases hp : row.parentId with
    | none =>
      rw [show row.node.parent = none from hp]
      rfl
    | some p =>
      rw [show row.node.parent = some p from hp]
      rfl
  · intro i row hrow
    have hdepth := congrArg (·[i]?) hdepths
    simp only [List.getElem?_map, hrow, (hget i row hrow).2] at hdepth
    exact Option.some_inj.mp hdepth
  · intro i hi j hj heq
    have hi' := (hget i _ (List.getElem?_eq_getElem hi)).2
    have hj' := (hget j _ (List.getElem?_eq_getElem hj)).2
    rw [← heq, ← hi'] at hj'
    obtain ⟨hlt, hget'⟩ := List.getElem?_eq_some_iff.mp hi'
    rw [List.getElem?_eq_getElem hlt] at hj'
    obtain ⟨hlt', hget''⟩ := List.getElem?_eq_some_iff.mp hj'
    exact ((htrie.nodup_paths.getElem_inj_iff).mp hget'').symm
  · intro path
    constructor
    · rintro ⟨i, hi, rfl⟩
      have hmem := List.mem_of_getElem? (hget i _ (List.getElem?_eq_getElem hi)).2
      exact ⟨ne_nil_of_mem_paths hmem, h.rows _ (hnodes ▸ hmem)⟩
    · rintro ⟨hne, stack, hstack, hprefix⟩
      have hmem := h.prefixes stack hstack path hne hprefix
      obtain ⟨i, hi⟩ := List.mem_iff_getElem?.mp hmem
      have hlt : i < f.tbl.length := by
        have hlt := (List.getElem?_eq_some_iff.mp hi).1
        rwa [length_paths, length_nodesOf] at hlt
      refine ⟨i, hlen ▸ hlt, ?_⟩
      rw [hpathAt, pathAt, List.getD_eq_getElem?_getD, hi]
      rfl
  · intro i hi
    rw [howns, hown₁, chargedTo, hpathAt]
    congr 2
    refine List.filter_congr fun charge _ => ?_
    exact decide_eq_decide.mpr (h.merged_iff (hlen ▸ hi) charge.1)
  · intro i hi
    have hdescends := descends_paths htrie
    have hlen₁' : tbl₁.length = tbl.length := by omega
    have hzero₁ : cumulativeAt tbl₁ = fun _ => 0 := funext hcumulative₁
    rw [hcumulative, ← hparents, ← howns, hlen₁', hzero₁, pushUp_eq_sum hdescends hi]
    exact Finset.sum_congr rfl fun d _ => zero_add _

end

/-- Stacks `2 1` and `2 3` of mapping 9: the frame 3 is inlined in 2, and 4 stands for 1. -/
def smallStorage : TraceStorage where
  callsites := [⟨none, 0⟩, ⟨some 0, 1⟩, ⟨none, 2⟩, ⟨some 0, 3⟩]
  frames := [⟨2, 0, none, none⟩, ⟨1, 0, none, none⟩, ⟨7, 0, some 1, none⟩, ⟨4, 0, none, some 1⟩]
  symbols := [⟨0, 5, none, none⟩, ⟨1, 3, none, none⟩, ⟨1, 2, none, none⟩, ⟨3, 6, none, none⟩]
  mappings := [9]

theorem valid_smallStorage : smallStorage.Valid where
  parents := by
    intro i callsite hi p hp
    match i, hi with
    | 0, hi => cases hi; cases hp
    | 1, hi => cases hi; cases hp; decide
    | 2, hi => cases hi; cases hp
    | 3, hi => cases hi; cases hp; decide
  frames := by decide
  sorted := by decide
  setIds := by decide

end LynxTrace.TraceProcessor.Intrinsics.Flamegraph
