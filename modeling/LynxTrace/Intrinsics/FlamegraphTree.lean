import LynxTrace.Intrinsics.FlamegraphConstruction

/-!
# FlamegraphTree — the rows of a flamegraph are the trie of the callstacks
-/

namespace LynxTrace.TraceProcessor.Intrinsics.Flamegraph

open PathTrie

/-! ### Stacks -/

/-- The functions of a frame, the outermost first.  A symbolized frame has those of its symbols, of which the most
inlined comes first; another one has its own name. -/
def frameNames (storage : TraceStorage) (frame : StackProfileFrame) : List StringId :=
  match frame.symbolSetId with
  | some symbolSetId => ((storage.symbols.filter (·.symbolSetId = symbolSetId)).map Symbol.name).reverse
  | none => [frame.deobfuscatedName.getD frame.name]

/-- The frames that a callsite adds to the stack of its parent. -/
def callsiteFrames (storage : TraceStorage) (i : ℕ) : List FrameKey :=
  match (storage.callsites[i]?).bind fun callsite => storage.frames[callsite.frameId]? with
  | some frame => (frameNames storage frame).map fun name => (name, storage.mappings.getD frame.mapping 0)
  | none => []

/-- The stack of a callsite from the stacks of those before it. -/
def expandedStack (storage : TraceStorage) (earlier : List (List FrameKey)) (i : ℕ) : List FrameKey :=
  above earlier ((storage.callsites[i]?).bind StackProfileCallsite.parentId) ++ callsiteFrames storage i

def expandedStacks (storage : TraceStorage) (n : ℕ) : List (List FrameKey) :=
  (List.range n).foldl (fun earlier i => earlier ++ [expandedStack storage earlier i]) []

theorem expandedStacks_succ (storage : TraceStorage) (n : ℕ) :
    expandedStacks storage (n + 1) =
      expandedStacks storage n ++ [expandedStack storage (expandedStacks storage n) n] := by
  rw [expandedStacks, List.range_succ, List.foldl_append]
  rfl

@[simp] theorem length_expandedStacks (storage : TraceStorage) (n : ℕ) : (expandedStacks storage n).length = n := by
  induction n with
  | zero => rfl
  | succ n ih => rw [expandedStacks_succ, List.length_append, ih, List.length_singleton]

/-! ### The map of merged callsites -/

/-- The map has an entry for each row, in the order of the rows. -/
def Indexes (m : CallsiteMap) (nodes : List (TrieNode FrameKey)) : Prop :=
  m.map (fun entry => (entry.1.node, entry.2)) = nodes.zipIdx

variable {nodes : List (TrieNode FrameKey)}

theorem Indexes.length {m : CallsiteMap} (h : Indexes m nodes) : m.length = nodes.length := by
  have hlen := congrArg List.length h
  rwa [List.length_map, List.length_zipIdx] at hlen

theorem Indexes.concat {m : CallsiteMap} (h : Indexes m nodes) (callsite : MergedCallsite) :
    Indexes (m ++ [(callsite, m.length)]) (nodes ++ [callsite.node]) := by
  have hlen := h.length
  rw [Indexes, List.map_append, h, List.zipIdx_append, hlen]
  simp

theorem map_find?_zipIdx {m : CallsiteMap} {k : ℕ} (h : m.map (fun entry => (entry.1.node, entry.2)) = nodes.zipIdx k)
    (callsite : MergedCallsite) : (m.find callsite).map Prod.snd = (nodes.idxOf? callsite.node).map (· + k) := by
  induction nodes generalizing m k with
  | nil =>
    rw [List.zipIdx_nil, List.map_eq_nil_iff] at h
    subst h
    rfl
  | cons node nodes ih =>
    rw [List.zipIdx_cons] at h
    obtain ⟨entry, m, rfl, hentry, hrest⟩ := List.map_eq_cons_iff.mp h
    obtain ⟨hnode, hrow⟩ := Prod.mk.inj hentry
    rw [CallsiteMap.find, List.find?_cons, List.idxOf?_cons, ← hnode]
    by_cases heq : entry.1.node = callsite.node
    · rw [heq]
      simp [hrow]
    · have hne : (entry.1.node == callsite.node) = false := beq_eq_false_iff_ne.mpr heq
      have ih' := ih hrest
      rw [CallsiteMap.find] at ih'
      rw [decide_eq_false heq, hne, if_neg Bool.false_ne_true, ih', Option.map_map]
      congr 1
      exact funext fun i => by show i + (k + 1) = i + 1 + k; omega

theorem Indexes.find {m : CallsiteMap} (h : Indexes m nodes) (callsite : MergedCallsite) :
    (m.find callsite).map Prod.snd = nodes.idxOf? callsite.node := by
  rw [map_find?_zipIdx h, show (fun i => i + 0) = id from rfl, Option.map_id]
  rfl

/-! ### Merging the frames of a callsite -/

def nodesOf (tbl : List Row) : List (TrieNode FrameKey) := tbl.map Row.node

/-- The table is a trie with its depths, and no totals have been added up. -/
structure TableInv (tbl : List Row) (m : CallsiteMap) : Prop where
  trie : Trie (nodesOf tbl)
  indexes : Indexes m (nodesOf tbl)
  depths : tbl.map (fun row => row.depth + 1) = (paths (nodesOf tbl)).map List.length
  zero : ∀ totals ∈ tbl.map fun row => (row.own, row.cumulative), totals = (0, 0)

theorem tableInv_nil : TableInv [] [] := ⟨trie_nil, rfl, rfl, nofun⟩

section

variable {args : RowArgs} {m : Merging} {callsite : MergedCallsite}

theorem length_nodesOf (tbl : List Row) : (nodesOf tbl).length = tbl.length := List.length_map _

/-- A row whose parent is in the table. -/
theorem newRow_spec (args : RowArgs) {tbl : List Row} {index : CallsiteMap} (h : TableInv tbl index)
    (hplace : Place (nodesOf tbl) callsite.parentIdx) :
    ∃ row, newRow args tbl callsite = some row ∧ row.node = callsite.node ∧ (row.own, row.cumulative) = (0, 0) ∧
      row.depth = (above (paths (nodesOf tbl)) callsite.parentIdx).length := by
  have hdepth : ∃ depth, rowDepth tbl callsite.parentIdx = some depth ∧
      depth = (above (paths (nodesOf tbl)) callsite.parentIdx).length := by
    cases hparent : callsite.parentIdx with
    | none => exact ⟨0, rfl, rfl⟩
    | some p =>
      have hp : p < tbl.length := length_nodesOf tbl ▸ hplace p hparent
      have hrow := List.getElem?_eq_getElem hp
      have hcolumn := congrArg (·[p]?) h.depths
      simp only [List.getElem?_map, hrow, Option.map_some] at hcolumn
      obtain ⟨path, hpath, hlen⟩ := Option.map_eq_some_iff.mp hcolumn.symm
      refine ⟨tbl[p].depth + 1, by rw [rowDepth, hrow]; rfl, ?_⟩
      rw [above, List.getD_eq_getElem?_getD, hpath, Option.getD_some, hlen]
  obtain ⟨depth, hrow, hlen⟩ := hdepth
  exact ⟨_, by rw [newRow, hrow]; rfl, rfl, rfl, hlen⟩

theorem TableInv.concat {tbl : List Row} {index : CallsiteMap} (h : TableInv tbl index) {row : Row}
    (hplace : Place (nodesOf tbl) callsite.parentIdx) (hnew : callsite.node ∉ nodesOf tbl)
    (hnode : row.node = callsite.node) (hzero : (row.own, row.cumulative) = (0, 0))
    (hdepth : row.depth = (above (paths (nodesOf tbl)) callsite.parentIdx).length) :
    TableInv (tbl ++ [row]) (index ++ [(callsite, index.length)]) := by
  have hnodes : nodesOf (tbl ++ [row]) = nodesOf tbl ++ [callsite.node] := by
    rw [nodesOf, List.map_append, List.map_singleton, hnode]
    rfl
  refine ⟨?_, ?_, ?_, fun totals htotals => ?_⟩
  · rw [hnodes]
    exact h.trie.concat hplace hnew
  · rw [hnodes]
    exact h.indexes.concat callsite
  · rw [hnodes, paths_concat, List.map_append, List.map_append, h.depths, List.map_singleton, List.map_singleton,
      List.length_append, hdepth]
    rfl
  · rw [List.map_append, List.map_singleton, hzero] at htotals
    rcases List.mem_append.mp htotals with htotals | htotals
    · exact h.zero totals htotals
    · exact List.mem_singleton.mp htotals

/-- A frame is a key added to the trie. -/
theorem mergeCallsite_spec (args : RowArgs) (h : TableInv m.tbl m.mergedCallsitesToTableIdx)
    (hplace : Place (nodesOf m.tbl) m.parentIdx) (callsite : MergedCallsite) :
    ∃ m', mergeCallsite args m callsite = some m' ∧ TableInv m'.tbl m'.mergedCallsitesToTableIdx ∧
      (nodesOf m'.tbl, m'.parentIdx) = insertWord (nodesOf m.tbl) m.parentIdx [callsite.key] := by
  have hfind := h.indexes.find { callsite with parentIdx := m.parentIdx }
  have hkey : MergedCallsite.node { callsite with parentIdx := m.parentIdx } = ⟨m.parentIdx, callsite.key⟩ := rfl
  rw [hkey] at hfind
  unfold mergeCallsite
  dsimp only
  rw [insertWord, ← hfind]
  cases hentry : m.mergedCallsitesToTableIdx.find { callsite with parentIdx := m.parentIdx } with
  | some entry =>
    obtain ⟨saved, row⟩ := entry
    exact ⟨_, rfl, h, rfl⟩
  | none =>
    rw [hentry] at hfind
    have hnew : (⟨m.parentIdx, callsite.key⟩ : TrieNode FrameKey) ∉ nodesOf m.tbl :=
      List.idxOf?_eq_none_iff.mp hfind.symm
    obtain ⟨row, hrow, hnode, hzero, hdepth⟩ :=
      @newRow_spec { callsite with parentIdx := m.parentIdx } args _ _ h hplace
    have hlen : m.mergedCallsitesToTableIdx.length = (nodesOf m.tbl).length := h.indexes.length
    have hcheck : m.mergedCallsitesToTableIdx.length + 1 = (m.tbl ++ [row]).length := by
      rw [hlen, length_nodesOf, List.length_append, List.length_singleton]
    dsimp only
    rw [hrow]
    refine ⟨_, if_pos hcheck, h.concat hplace hnew hnode hzero hdepth, ?_⟩
    show (nodesOf (m.tbl ++ [row]), some m.mergedCallsitesToTableIdx.length) = _
    rw [hlen, nodesOf, List.map_append, List.map_singleton, hnode]
    rfl

/-- The frames of a callsite are a word added to the trie. -/
theorem mergeCallsites_spec (args : RowArgs) (h : TableInv m.tbl m.mergedCallsitesToTableIdx)
    (hplace : Place (nodesOf m.tbl) m.parentIdx) (callsites : List MergedCallsite) :
    ∃ m', callsites.foldlM (mergeCallsite args) m = some m' ∧ TableInv m'.tbl m'.mergedCallsitesToTableIdx ∧
      (nodesOf m'.tbl, m'.parentIdx) =
        insertWord (nodesOf m.tbl) m.parentIdx (callsites.map MergedCallsite.key) := by
  induction callsites generalizing m with
  | nil => exact ⟨m, rfl, h, rfl⟩
  | cons callsite callsites ih =>
    obtain ⟨m₁, hm₁, hinv₁, hword₁⟩ := mergeCallsite_spec args h hplace callsite
    have hspec := insertWord_spec h.trie hplace [callsite.key]
    rw [← hword₁] at hspec
    obtain ⟨m', hm', hinv', hword'⟩ := ih hinv₁ hspec.ends
    refine ⟨m', by rw [List.foldlM_cons, hm₁]; exact hm', hinv', ?_⟩
    rw [hword', List.map_cons, ← List.singleton_append, insertWord_append, ← hword₁]

end

/-! ### Setting source files and lines -/

/-- Columns other than the source file and the line stay as they are. -/
theorem map_setSources {β : Type*} {g : Row → β} (hg : ∀ row callsite, g (setSource row callsite) = g row)
    (tbl : List Row) (callsitesToRowid : CallsiteMap) : (setSources tbl callsitesToRowid).map g = tbl.map g := by
  induction callsitesToRowid generalizing tbl with
  | nil => rfl
  | cons entry callsitesToRowid ih =>
    have hmodify : (tbl.modify entry.2 fun row => setSource row entry.1).map g = tbl.map g := by
      refine List.ext_getElem? fun i => ?_
      rw [List.getElem?_map, List.getElem?_map, List.getElem?_modify]
      cases tbl[i]? with
      | none => split_ifs <;> rfl
      | some row =>
        split_ifs
        · exact congrArg some (hg row entry.1)
        · rfl
    rw [← hmodify]
    exact ih _

theorem TableInv.setSources {tbl : List Row} {index : CallsiteMap} (h : TableInv tbl index)
    (callsitesToRowid : CallsiteMap) :
    TableInv (setSources tbl callsitesToRowid) index ∧ nodesOf (setSources tbl callsitesToRowid) = nodesOf tbl := by
  have hnodes : nodesOf (Flamegraph.setSources tbl callsitesToRowid) = nodesOf tbl :=
    map_setSources (fun _ _ => rfl) tbl callsitesToRowid
  refine ⟨⟨?_, ?_, ?_, ?_⟩, hnodes⟩
  · rw [hnodes]
    exact h.trie
  · rw [hnodes]
    exact h.indexes
  · rw [hnodes, ← h.depths]
    exact map_setSources (fun _ _ => rfl) tbl callsitesToRowid
  · rw [map_setSources (fun _ _ => rfl) tbl callsitesToRowid]
    exact h.zero

/-! ### All callsites -/

/-- The callsites have parents before them, and frames whose mapping and symbols are there.  The symbols are sorted by
their sets, and the id of a set is the row of its first symbol, as the flags of that column say. -/
structure TraceStorage.Valid (storage : TraceStorage) : Prop where
  parents : ∀ (i : ℕ) callsite, storage.callsites[i]? = some callsite → ∀ p, callsite.parentId = some p → p < i
  frames : ∀ callsite ∈ storage.callsites, ∃ frame, storage.frames[callsite.frameId]? = some frame ∧
    frame.mapping < storage.mappings.length ∧ ∀ symbolSetId, frame.symbolSetId = some symbolSetId →
      ∃ symbol, storage.symbols[symbolSetId]? = some symbol ∧ symbol.symbolSetId = symbolSetId
  sorted : storage.symbols.Pairwise fun a b => a.symbolSetId ≤ b.symbolSetId
  setIds : ∀ entry ∈ storage.symbols.zipIdx, entry.1.symbolSetId ≤ entry.2

/-- In sorted symbols none of the set comes after one of a later set. -/
theorem takeWhile_eq_filter {symbols : List Symbol} {symbolSetId : ℕ}
    (hsorted : symbols.Pairwise fun a b => a.symbolSetId ≤ b.symbolSetId)
    (hge : ∀ symbol ∈ symbols, symbolSetId ≤ symbol.symbolSetId) :
    symbols.takeWhile (·.symbolSetId = symbolSetId) = symbols.filter (·.symbolSetId = symbolSetId) := by
  induction symbols with
  | nil => rfl
  | cons symbol symbols ih =>
    obtain ⟨hfirst, hrest⟩ := List.pairwise_cons.mp hsorted
    by_cases hid : symbol.symbolSetId = symbolSetId
    · rw [List.takeWhile_cons_of_pos (by simpa using hid), List.filter_cons_of_pos (by simpa using hid),
        ih hrest fun s hs => hge s (List.mem_cons_of_mem _ hs)]
    · have hlt := lt_of_le_of_ne (hge symbol List.mem_cons_self) (Ne.symm hid)
      rw [List.takeWhile_cons_of_neg (by simpa using hid), List.filter_cons_of_neg (by simpa using hid),
        List.filter_eq_nil_iff.mpr]
      intro s hs
      have hle := hfirst s hs
      rw [decide_eq_true_eq]
      omega

/-- The symbols of a set are the ones from its id on. -/
theorem TraceStorage.Valid.symbols_of_set {storage : TraceStorage} (h : storage.Valid) {symbolSetId : ℕ} {symbol : Symbol}
    (hsymbol : storage.symbols[symbolSetId]? = some symbol) (hid : symbol.symbolSetId = symbolSetId) :
    (storage.symbols.drop symbolSetId).takeWhile (·.symbolSetId = symbolSetId) =
      storage.symbols.filter (·.symbolSetId = symbolSetId) := by
  obtain ⟨hlt, hget⟩ := List.getElem?_eq_some_iff.mp hsymbol
  have hsplit := List.take_append_drop symbolSetId storage.symbols
  have hbefore : (storage.symbols.take symbolSetId).filter (·.symbolSetId = symbolSetId) = [] := by
    rw [List.filter_eq_nil_iff]
    intro s hs
    obtain ⟨j, hj, rfl⟩ := List.mem_iff_getElem.mp hs
    rw [List.length_take] at hj
    rw [List.getElem_take]
    have hle := h.setIds (storage.symbols[j], j) (List.mk_mem_zipIdx_iff_getElem?.mpr (List.getElem?_eq_getElem _))
    rw [decide_eq_true_eq]
    dsimp only at hle
    omega
  have hdrop : storage.symbols.drop symbolSetId = symbol :: storage.symbols.drop (symbolSetId + 1) := by
    rw [List.drop_eq_getElem_cons hlt, hget]
  have hsorted := h.sorted.sublist (List.drop_sublist symbolSetId storage.symbols)
  rw [takeWhile_eq_filter hsorted]
  · conv_rhs => rw [← hsplit, List.filter_append, hbefore, List.nil_append]
  · intro s hs
    rw [hdrop] at hs hsorted
    rcases List.mem_cons.mp hs with rfl | hs
    · exact Nat.le_of_eq hid.symm
    · exact hid ▸ (List.pairwise_cons.mp hsorted).1 s hs

theorem getMergedCallsites_spec {storage : TraceStorage} (h : storage.Valid) {i : ℕ} (hi : i < storage.callsites.length) :
    ∃ callsites, getMergedCallsites storage i = some callsites ∧ callsites ≠ [] ∧
      callsites.map MergedCallsite.key = callsiteFrames storage i := by
  obtain ⟨frame, hframe, hmapping, hsymbols⟩ := h.frames storage.callsites[i] (List.getElem_mem hi)
  have hcallsite := List.getElem?_eq_getElem hi
  have hname := List.getElem?_eq_getElem hmapping
  unfold getMergedCallsites callsiteFrames
  rw [hcallsite]
  simp only [Option.bind_eq_bind, Option.bind_some, hframe, hname, frameNames, List.getD_eq_getElem _ _ hmapping]
  cases hset : frame.symbolSetId with
  | none => exact ⟨_, rfl, List.cons_ne_nil _ _, rfl⟩
  | some symbolSetId =>
    obtain ⟨symbol, hsymbol, hid⟩ := hsymbols symbolSetId hset
    have hmem : symbol ∈ storage.symbols.filter (·.symbolSetId = symbolSetId) :=
      List.mem_filter.mpr ⟨List.mem_of_getElem? hsymbol, decide_eq_true hid⟩
    dsimp only
    rw [hsymbol, Option.bind_some, h.symbols_of_set hsymbol hid]
    refine ⟨_, rfl, fun hnil => ?_, ?_⟩
    · rw [List.reverse_eq_nil_iff, List.map_eq_nil_iff] at hnil
      rw [hnil] at hmem
      cases hmem
    · rw [List.map_reverse, List.map_reverse, List.map_map, List.map_map]
      rfl

/-- The table after the callsites up to `n`. -/
structure Built (storage : TraceStorage) (n : ℕ) (f : FlamegraphTableAndMergedCallsites) : Prop where
  table : TableInv f.tbl f.mergedCallsitesToTableIdx
  merged : f.callsiteToMergedCallsite.map (fun row => (paths (nodesOf f.tbl))[row]?) =
    (expandedStacks storage n).map some
  rows : ∀ path ∈ paths (nodesOf f.tbl), ∃ stack ∈ expandedStacks storage n, path <+: stack
  prefixes : ∀ stack ∈ expandedStacks storage n, ∀ w, w ≠ [] → w <+: stack → w ∈ paths (nodesOf f.tbl)

section

variable {storage : TraceStorage} {n : ℕ} {f : FlamegraphTableAndMergedCallsites}

theorem Built.merged_getElem? (h : Built storage n f) {i : ℕ} (hi : i < n) :
    ∃ row, f.callsiteToMergedCallsite[i]? = some row ∧ (paths (nodesOf f.tbl))[row]? = (expandedStacks storage n)[i]? := by
  have hget := congrArg (·[i]?) h.merged
  simp only [List.getElem?_map] at hget
  have hlt : i < (expandedStacks storage n).length := by rwa [length_expandedStacks]
  rw [List.getElem?_eq_getElem hlt] at hget ⊢
  obtain ⟨row, hrow, hpath⟩ := Option.map_eq_some_iff.mp hget
  exact ⟨row, hrow, hpath⟩

/-- The row of the parent is the one of its stack. -/
theorem Built.parent (h : Built storage n f) {parentId : Option ℕ} (hparent : ∀ p, parentId = some p → p < n) :
    ∃ parentIdx, mergedParent f n parentId = some parentIdx ∧ Place (nodesOf f.tbl) parentIdx ∧
      above (paths (nodesOf f.tbl)) parentIdx = above (expandedStacks storage n) parentId := by
  cases parentId with
  | none => exact ⟨none, rfl, nofun, rfl⟩
  | some p =>
    have hp := hparent p rfl
    obtain ⟨row, hrow, hpath⟩ := h.merged_getElem? hp
    have hlt : p < (expandedStacks storage n).length := by rwa [length_expandedStacks]
    rw [List.getElem?_eq_getElem hlt] at hpath
    refine ⟨some row, ?_, fun i hi => ?_, ?_⟩
    · rw [mergedParent, if_pos hp, hrow]
      rfl
    · rw [← Option.some_inj.mp hi, ← length_paths]
      exact (List.getElem?_eq_some_iff.mp hpath).1
    · rw [above, above, List.getD_eq_getElem?_getD, hpath, List.getD_eq_getElem _ _ hlt]
      rfl

theorem addCallsite_spec (args : RowArgs) (hvalid : storage.Valid) (hn : n < storage.callsites.length)
    (h : Built storage n f) : ∃ f', addCallsite storage args f n = some f' ∧ Built storage (n + 1) f' := by
  have hcallsite := List.getElem?_eq_getElem hn
  obtain ⟨parentIdx, hparentIdx, hplace, habove⟩ := h.parent (hvalid.parents n _ hcallsite)
  obtain ⟨callsites, hcallsites, hne, hkey⟩ := getMergedCallsites_spec hvalid hn
  obtain ⟨m, hm, hinv, hword⟩ := mergeCallsites_spec args
    (m := ⟨f.tbl, f.mergedCallsitesToTableIdx, parentIdx, []⟩) h.table hplace callsites
  have hspec := insertWord_spec h.table.trie hplace (callsites.map MergedCallsite.key)
  rw [← hword] at hspec
  have hstack : expandedStack storage (expandedStacks storage n) n =
      above (paths (nodesOf f.tbl)) parentIdx ++ callsites.map MergedCallsite.key := by
    rw [expandedStack, hkey, hcallsite, habove]
    rfl
  obtain ⟨htrie, hkept, hends, hpath, hadded, hprefixes⟩ := hspec
  rw [← hstack] at hpath
  -- the last frame has a row
  have hkeys : callsites.map MergedCallsite.key ≠ [] := fun hnil => hne (List.map_eq_nil_iff.mp hnil)
  obtain ⟨last, hlast⟩ : ∃ last, m.parentIdx = some last := by
    cases hm' : m.parentIdx with
    | some last => exact ⟨last, rfl⟩
    | none =>
      rw [hm', hstack] at hpath
      exact absurd hpath.symm (List.append_ne_nil_of_right_ne_nil _ hkeys)
  obtain ⟨hinv', hnodes⟩ := hinv.setSources m.callsitesToRowid
  refine ⟨⟨setSources m.tbl m.callsitesToRowid, m.mergedCallsitesToTableIdx, f.callsiteToMergedCallsite ++ [last]⟩,
    ?_, ⟨hinv', ?_, ?_, ?_⟩⟩
  · unfold addCallsite
    simp only [Option.bind_eq_bind, hcallsite, Option.bind_some, hparentIdx, hcallsites, if_neg hne, hm, hlast]
    rfl
  · dsimp only
    rw [hnodes, expandedStacks_succ, List.map_append, List.map_append, ← h.merged, List.map_singleton,
      List.map_singleton]
    congr 1
    · refine List.map_congr_left fun row hrow => ?_
      have hmem : (paths (nodesOf f.tbl))[row]? ∈ (expandedStacks storage n).map some := by
        rw [← h.merged]
        exact List.mem_map_of_mem hrow
      obtain ⟨stack, -, hstack'⟩ := List.mem_map.mp hmem
      rw [← hstack']
      exact getElem?_of_prefix (paths_of_kept hkept) hstack'.symm
    · rw [hlast] at hpath hends
      have hlt : last < (paths (nodesOf m.tbl)).length := by
        rw [length_paths]
        exact hends last rfl
      rw [above, List.getD_eq_getElem _ _ hlt] at hpath
      rw [List.getElem?_eq_getElem hlt, hpath]
  · intro path hmem
    dsimp only at hmem
    rw [hnodes] at hmem
    rw [expandedStacks_succ]
    rcases hadded path hmem with hold | ⟨w, -, hw, rfl⟩
    · obtain ⟨stack, hmem', hprefix⟩ := h.rows path hold
      exact ⟨stack, List.mem_append_left _ hmem', hprefix⟩
    · refine ⟨_, List.mem_append_right _ List.mem_cons_self, ?_⟩
      rw [hstack]
      exact (List.prefix_append_right_inj _).mpr hw
  · intro stack hmem w hw hprefix
    dsimp only
    rw [hnodes]
    rw [expandedStacks_succ] at hmem
    have hold : ∀ stack ∈ expandedStacks storage n, w <+: stack → w ∈ paths (nodesOf m.tbl) :=
      fun stack hmem hprefix => mem_paths_of_kept hkept (h.prefixes stack hmem w hw hprefix)
    rcases List.mem_append.mp hmem with hmem | hmem
    · exact hold stack hmem hprefix
    · rw [List.mem_singleton.mp hmem, hstack] at hprefix
      -- above the new frames the stack is the one of the parent
      have habove' : w <+: above (paths (nodesOf f.tbl)) parentIdx → w ∈ paths (nodesOf m.tbl) := by
        intro hw'
        rw [habove] at hw'
        obtain ⟨stack', hmem', hprefix'⟩ := exists_of_prefix_above hw hw'
        exact hold stack' hmem' hprefix'
      rcases List.prefix_or_prefix_of_prefix hprefix (List.prefix_append _ _) with hw' | ⟨w', rfl⟩
      · exact habove' hw'
      · by_cases hnil : w' = []
        · refine habove' ?_
          rw [hnil, List.append_nil]
        · exact hprefixes w' hnil ((List.prefix_append_right_inj _).mp hprefix)

theorem built_nil (storage : TraceStorage) : Built storage 0 ⟨[], [], []⟩ := ⟨tableInv_nil, rfl, nofun, nofun⟩

/-- The tree structure of any valid tables can be built. -/
theorem buildTreeStructure_spec {storage : TraceStorage} (hvalid : storage.Valid) (args : RowArgs) :
    ∃ f, buildTreeStructure storage args = some f ∧ Built storage storage.callsites.length f := by
  have hrun : ∀ n ≤ storage.callsites.length, ∃ f,
      (List.range n).foldlM (addCallsite storage args) ⟨[], [], []⟩ = some f ∧ Built storage n f := by
    intro n
    induction n with
    | zero => exact fun _ => ⟨_, rfl, built_nil storage⟩
    | succ n ih =>
      intro hn
      obtain ⟨f, hf, hbuilt⟩ := ih (Nat.le_of_succ_le hn)
      obtain ⟨f', hf', hbuilt'⟩ := addCallsite_spec args hvalid hn hbuilt
      refine ⟨f', ?_, hbuilt'⟩
      rw [List.range_succ, List.foldlM_append, hf]
      simp [hf']
  exact hrun _ (Nat.le_refl _)

end

end LynxTrace.TraceProcessor.Intrinsics.Flamegraph
