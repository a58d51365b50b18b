import LynxTrace.Kallsyms.TokenGroups

/-!
# Kallsyms.KernelLookup — what a `KernelSymbolMap` finds

For symbols whose addresses span less than 2^32, as long as both tables stay below 2^32 bytes.
-/

namespace LynxTrace.Kallsyms

/-- Both tables have positions that fit into 32 bits, and the ids of the tokens fit beside the mark. -/
structure TableFits (tokenSampling : ℕ) (byFreq : List (List UInt8)) (symbols : List (ℕ × List UInt8)) : Prop where
  tokens : (TokenTable.stored byFreq).length ≤ 2 ^ 31
  tokenBytes : ((TokenTable.stored byFreq).flatMap endToken).length < 2 ^ 32
  symbolBytes : (encodeFrom (idOf (addTokens tokenSampling byFreq).2) (baseAddr (groupsOf symbols))
    (groupsOf symbols)).length < 2 ^ 32

section Lookup

variable {tokenSampling symSampling : ℕ} {byFreq : List (List UInt8)} {symbols : List (ℕ × List UInt8)}
  {m : KernelSymbolMap}

/-- What parsing leaves. -/
structure Parsed (tokenSampling : ℕ) (byFreq : List (List UInt8)) (symbols : List (ℕ × List UInt8))
    (m : KernelSymbolMap) : Prop where
  tokens : m.tokens = (addTokens tokenSampling byFreq).1
  base : m.baseAddr = baseAddr (groupsOf symbols)
  buf : m.buf = encodeFrom (idOf (addTokens tokenSampling byFreq).2) m.baseAddr (groupsOf symbols)
  size : m.buf.length ≤ 2 ^ 32 + 33792
  index : ∀ entry ∈ m.index, ∃ before group after, groupsOf symbols = before ++ group :: after ∧
    entry = ((group.1 - m.baseAddr) % 2 ^ 32,
      (encodeFrom (idOf (addTokens tokenSampling byFreq).2) m.baseAddr before).length % 2 ^ 32)
  indexHead : m.index.head? = (groupsOf symbols).head?.map fun group => ((group.1 - m.baseAddr) % 2 ^ 32, 0)

theorem parseSymbols_parsed (hparse : parseSymbols tokenSampling symSampling byFreq symbols = some m) :
    Parsed tokenSampling byFreq symbols m := by
  obtain ⟨s, hrun, rfl⟩ := Option.map_eq_some_iff.mp hparse
  obtain ⟨hbuf, -, hsize, hbound, -, hindex, hhead⟩ := encodeSymbols_spec hrun
  exact ⟨rfl, rfl, hbuf, Nat.le_trans hsize hbound, hindex, hhead⟩

/-- The addresses are within 32 bits of the base. -/
def Spans (symbols : List (ℕ × List UInt8)) : Prop := ∀ s ∈ symbols, ∀ s' ∈ symbols, s.1 - s'.1 < 2 ^ 32

variable {group : TokenGroup}

theorem baseAddr_le (hgroup : group ∈ groupsOf symbols) : baseAddr (groupsOf symbols) ≤ group.1 := by
  have hinc := (groupsOf_spec symbols).increasing
  generalize groupsOf symbols = groups at hgroup hinc
  cases groups with
  | nil => cases hgroup
  | cons first groups =>
    show first.1 ≤ group.1
    rcases List.mem_cons.mp hgroup with rfl | hgroup
    · exact Nat.le_refl _
    · exact Nat.le_of_lt ((List.pairwise_cons.mp hinc).1 group hgroup)

theorem exists_baseAddr (hne : groupsOf symbols ≠ []) : ∃ symbol ∈ symbols, symbol.1 = baseAddr (groupsOf symbols) := by
  have hexists := (groupsOf_spec symbols).exists_symbol
  generalize groupsOf symbols = groups at hne hexists
  cases groups with
  | nil => exact absurd rfl hne
  | cons first groups => exact hexists first List.mem_cons_self

theorem span_group (hspans : Spans symbols) (hgroup : group ∈ groupsOf symbols) :
    group.1 - baseAddr (groupsOf symbols) < 2 ^ 32 := by
  obtain ⟨s, hs, hs'⟩ := (groupsOf_spec symbols).exists_symbol group hgroup
  obtain ⟨b, hb, hb'⟩ := exists_baseAddr (List.ne_nil_of_mem hgroup)
  rw [← hs', ← hb']
  exact hspans s hs b hb

/-- The groups from any one of them on. -/
theorem ordered_of_split (hspans : Spans symbols) {before after : List TokenGroup}
    (hsplit : groupsOf symbols = before ++ group :: after) : Ordered (baseAddr (groupsOf symbols)) group.1 after := by
  have hspec := groupsOf_spec symbols
  have hmem : ∀ g ∈ group :: after, g ∈ groupsOf symbols := fun g hg => hsplit ▸ List.mem_append_right _ hg
  refine ⟨baseAddr_le (hmem group List.mem_cons_self), ?_, fun g hg => ?_, fun g hg => ?_⟩
  · have hinc := hspec.increasing
    rw [hsplit] at hinc
    have htail := (List.pairwise_append.mp hinc).2.1
    rw [← List.map_cons]
    exact List.pairwise_map.mpr htail
  · exact span_group hspans (hmem g (List.mem_cons_of_mem _ hg))
  · exact hspec.nonempty g (hmem g (List.mem_cons_of_mem _ hg))

/-- The entry that `Lookup` starts from is one that is not after the address. -/
theorem indexEntry_spec (hne : m.index.head? = some (0, 0)) (symRelAddr : ℕ) :
    ∃ entry ∈ m.index, m.indexEntry symRelAddr = some entry ∧ entry.1 ≤ symRelAddr := by
  unfold KernelSymbolMap.indexEntry partitionPoint
  dsimp only
  generalize hp : (fun entry : ℕ × ℕ => !(symRelAddr < entry.1 || (symRelAddr = entry.1 && 0 < entry.2))) = p
  cases hindex : m.index with
  | nil =>
    rw [hindex] at hne
    cases hne
  | cons first rest =>
    rw [hindex, List.head?_cons, Option.some_inj] at hne
    have hfirst : p first = true := by
      rw [← hp, hne]
      simp
    have hlen : 0 < ((first :: rest).takeWhile p).length := by
      rw [List.takeWhile_cons_of_pos hfirst]
      exact Nat.succ_pos _
    have hlt : ((first :: rest).takeWhile p).length - 1 < ((first :: rest).takeWhile p).length :=
      Nat.sub_lt hlen Nat.one_pos
    have hget := List.getElem?_eq_getElem hlt
    have hmem := List.getElem_mem hlt
    refine ⟨((first :: rest).takeWhile p)[((first :: rest).takeWhile p).length - 1],
      (List.takeWhile_prefix p).subset hmem, ?_, ?_⟩
    · obtain ⟨after, hsplit⟩ := List.takeWhile_prefix (l := first :: rest) p
      have happend : ((first :: rest).takeWhile p ++ after)[((first :: rest).takeWhile p).length - 1]? = _ :=
        List.getElem?_append_left hlt
      rw [hsplit] at happend
      exact happend.trans hget
    · have htrue := List.mem_takeWhile_imp hmem
      rw [← congrFun hp _] at htrue
      simp only [Bool.not_eq_true', Bool.or_eq_false_iff, decide_eq_false_iff_not, Nat.not_lt] at htrue
      exact htrue.1

theorem Parsed.indexHead_eq (h : Parsed tokenSampling byFreq symbols m) (hne : groupsOf symbols ≠ []) :
    m.index.head? = some (0, 0) := by
  rw [h.indexHead, h.base]
  generalize groupsOf symbols = groups at hne
  cases groups with
  | nil => exact absurd rfl hne
  | cons first groups =>
    show some ((first.1 - first.1) % 2 ^ 32, 0) = _
    rw [Nat.sub_self, Nat.zero_mod]

/-- The scan of the whole table ends at the last group that is not after the address. -/
theorem Parsed.findSymbol (h : Parsed tokenSampling byFreq symbols m) (hfits : TableFits tokenSampling byFreq symbols)
    (hspans : Spans symbols) {entry : ℕ × ℕ} (hentry : entry ∈ m.index) {symRelAddr : ℕ}
    (hle : entry.1 ≤ symRelAddr) :
    ∃ group ∈ groupsOf symbols, ∃ rest, group.1 - m.baseAddr ≤ symRelAddr ∧
      (∀ g ∈ groupsOf symbols, g.1 - m.baseAddr ≤ symRelAddr → g.1 ≤ group.1) ∧
      (encodeIds (idOf (addTokens tokenSampling byFreq).2) group.2 ++ rest).length < m.buf.length + 1 ∧
      findSymbol symRelAddr (m.buf.length + 1) entry.1 true true none (m.buf.drop entry.2) =
        some (encodeIds (idOf (addTokens tokenSampling byFreq).2) group.2 ++ rest, group.1 - m.baseAddr) := by
  have hspec := groupsOf_spec symbols
  have hsymbolBytes := hfits.symbolBytes
  obtain ⟨before, group, after, hsplit, rfl⟩ := h.index entry hentry
  have hbuf := h.buf
  rw [h.base] at hle hbuf ⊢
  generalize hid : idOf (addTokens tokenSampling byFreq).2 = id at hle hbuf hsymbolBytes ⊢
  have hbase : baseAddr (groupsOf symbols) ≤ group.1 :=
    baseAddr_le (hsplit ▸ List.mem_append_right _ List.mem_cons_self)
  have hordered := ordered_of_split hspans hsplit
  have hspan := span_group hspans (hsplit ▸ List.mem_append_right _ List.mem_cons_self : group ∈ groupsOf symbols)
  generalize baseAddr (groupsOf symbols) = base at hle hbuf hsymbolBytes hbase hordered hspan ⊢
  -- the entry is the start of a group
  have hdrop : m.buf.drop ((encodeFrom id base before).length % 2 ^ 32) =
      encodeFrom id (lastAddr base before) (group :: after) := by
    rw [hsplit, encodeFrom_append] at hbuf hsymbolBytes
    rw [List.length_append] at hsymbolBytes
    rw [hbuf, Nat.mod_eq_of_lt (by omega)]
    exact List.drop_left
  rw [Nat.mod_eq_of_lt hspan] at hle ⊢
  rw [hdrop]
  have hlen : (encodeFrom id (lastAddr base before) (group :: after)).length < m.buf.length + 1 := by
    rw [← hdrop, List.length_drop]
    omega
  obtain ⟨before', g, after', hsplit', hle', hafter, hfind⟩ := findSymbol_spec
    (hspec.nonempty group (hsplit ▸ List.mem_append_right _ List.mem_cons_self)) hordered hle hlen
  have hall : groupsOf symbols = (before ++ before') ++ g :: after' := by
    rw [hsplit, hsplit', List.append_assoc]
  refine ⟨g, hall ▸ List.mem_append_right _ List.mem_cons_self, _, hle', fun x hx hx' => ?_, ?_, hfind⟩
  · have hinc := hspec.increasing
    rw [hall] at hx hinc
    rcases List.mem_append.mp hx with hx | hx
    · exact Nat.le_of_lt ((List.pairwise_append.mp hinc).2.2 x hx g List.mem_cons_self)
    · rcases List.mem_cons.mp hx with rfl | hx
      · exact Nat.le_refl _
      · exact absurd hx' (Nat.not_le.mpr (hafter x hx))
  · rw [hbuf, hall, encodeFrom_append, encodeFrom]
    simp only [List.length_append]
    omega

/-- The tokens of a group are read back from the token table. -/
theorem tokens_lookup (hsampling : 0 < tokenSampling) (hfreq : ByFreq (symbolTokens symbols) byFreq)
    (hfits : TableFits tokenSampling byFreq symbols) (hgroup : group ∈ groupsOf symbols) {token : List UInt8}
    (htoken : token ∈ group.2) :
    idOf (addTokens tokenSampling byFreq).2 token < 2 ^ 31 ∧ TokenTable.unmask
      ((addTokens tokenSampling byFreq).1.lookup tokenSampling (idOf (addTokens tokenSampling byFreq).2 token)) =
        TokenTable.unmask token := by
  rw [(groupsOf_spec symbols).tokens group hgroup] at htoken
  obtain ⟨name, hname, hmem⟩ := List.mem_flatMap.mp htoken
  obtain ⟨symbol, hsymbol, rfl⟩ := List.mem_map.mp hname
  have hfreqMem : token ∈ byFreq := (hfreq.mem_iff token).mpr (List.mem_map.mpr
    ⟨(symbol.1, token), mem_symbolTokens.mpr ⟨symbol, (List.mem_filter.mp hsymbol).1, rfl, hmem⟩, rfl⟩)
  obtain ⟨hlt, hlookup⟩ := addTokens_lookup hsampling hfreq.nodup hfits.tokenBytes hfreqMem
  exact ⟨Nat.lt_of_lt_of_le hlt hfits.tokens, hlookup⟩

theorem joinTokens_group (hgroup : group ∈ groupsOf symbols) :
    joinTokens group.2 = joinTokens (namesAt symbols group.1) := by
  rw [(groupsOf_spec symbols).tokens group hgroup, joinTokens_flatMap]

/-- The names at the highest address that is not after the queried one; only ASCII characters are as they were. -/
theorem lookup_symbols (hsampling : 0 < tokenSampling) (hfreq : ByFreq (symbolTokens symbols) byFreq)
    (hfits : TableFits tokenSampling byFreq symbols)
    (hspans : Spans symbols) (hparse : parseSymbols tokenSampling symSampling byFreq symbols = some m)
    {symAddr : ℕ} (hnear : ∀ s ∈ symbols, symAddr - s.1 < 2 ^ 32) {symbol : ℕ × List UInt8} (hsymbol : symbol ∈ symbols)
    (hle : symbol.1 ≤ symAddr) (hmax : ∀ s ∈ symbols, s.1 ≤ symAddr → s.1 ≤ symbol.1) :
    m.lookup tokenSampling symAddr =
      if symAddr - symbol.1 ≤ kSymMaxSizeBytes then TokenTable.unmask (joinTokens (namesAt symbols symbol.1))
      else [] := by
  have hspec := groupsOf_spec symbols
  have h := parseSymbols_parsed hparse
  obtain ⟨own, hown, hownAddr⟩ := hspec.exists_group symbol hsymbol
  have hne : groupsOf symbols ≠ [] := List.ne_nil_of_mem hown
  have hhead := h.indexHead_eq hne
  have hindex : m.index ≠ [] := by
    intro hnil
    rw [hnil] at hhead
    cases hhead
  have hbase : m.baseAddr ≤ symbol.1 := by
    rw [h.base, ← hownAddr]
    exact baseAddr_le hown
  have hrel : (symAddr - m.baseAddr) % 2 ^ 32 = symAddr - m.baseAddr := by
    obtain ⟨first, hfirst, hfirst'⟩ := exists_baseAddr hne
    rw [h.base, ← hfirst']
    exact Nat.mod_eq_of_lt (hnear first hfirst)
  obtain ⟨entry, hentry, hindexEntry, hentryLe⟩ := indexEntry_spec hhead (symAddr - m.baseAddr)
  obtain ⟨group, hgroup, rest, hgroupLe, hlast, hlen, hfind⟩ := h.findSymbol hfits hspans hentry hentryLe
  -- the group found is the one of the symbol
  have hgroupBase : m.baseAddr ≤ group.1 := by
    rw [h.base]
    exact baseAddr_le hgroup
  have haddr : group.1 = symbol.1 := by
    obtain ⟨s, hs, hs'⟩ := hspec.exists_symbol group hgroup
    have hup : group.1 ≤ symbol.1 := hs' ▸ hmax s hs (by omega)
    have hdown : own.1 ≤ group.1 := hlast own hown (by omega)
    omega
  have hnames := joinTokens_group hgroup
  rw [haddr] at hnames
  unfold KernelSymbolMap.lookup
  rw [if_neg (not_or.mpr ⟨hindex, Nat.not_lt.mpr (Nat.le_trans hbase hle)⟩), hrel]
  dsimp only
  rw [hindexEntry]
  dsimp only
  rw [hfind]
  dsimp only
  by_cases hfar : symAddr - symbol.1 ≤ kSymMaxSizeBytes
  · rw [if_neg (by omega), if_pos hfar, h.tokens, readName_encodeIds (hspec.nonempty group hgroup)
      (fun token htoken => tokens_lookup hsampling hfreq hfits hgroup htoken) _ _ _ hlen, hnames]
    rfl
  · rw [if_pos (by omega), if_neg hfar]

/-- Nothing is found before all symbols. -/
theorem lookup_before (hparse : parseSymbols tokenSampling symSampling byFreq symbols = some m) {symAddr : ℕ}
    (hbefore : ∀ s ∈ symbols, symAddr < s.1) : m.lookup tokenSampling symAddr = [] := by
  have h := parseSymbols_parsed hparse
  unfold KernelSymbolMap.lookup
  rw [if_pos]
  by_cases hne : groupsOf symbols = []
  · left
    rw [← List.head?_eq_none_iff, h.indexHead, hne]
    rfl
  · right
    obtain ⟨first, hfirst, hfirst'⟩ := exists_baseAddr hne
    rw [h.base, ← hfirst']
    exact hbefore first hfirst

/-- Every address has one name of the length the scanner allows: there is room for each group. -/
theorem exists_parseSymbols (tokenSampling symSampling : ℕ) {byFreq : List (List UInt8)}
    (hbytes : (encodeFrom (idOf (addTokens tokenSampling byFreq).2) (baseAddr (groupsOf symbols))
      (groupsOf symbols)).length < 2 ^ 32) (hlength : ∀ s ∈ symbols, s.2.length ≤ kSymNameMaxLen)
    (hdistinct : (symbols.map Prod.fst).Nodup) :
    ∃ m, parseSymbols tokenSampling symSampling byFreq symbols = some m := by
  have hspec := groupsOf_spec symbols
  have hsmall : ∀ group ∈ groupsOf symbols, ∀ prevSymAddr, (Wire.encodeVarint 10 ((group.1 - prevSymAddr) % 2 ^ 32) ++
      encodeIds (idOf (addTokens tokenSampling byFreq).2) group.2).length ≤ 1024 := by
    intro group hgroup prevSymAddr
    have htokens : group.2.length ≤ kSymNameMaxLen + 1 := by
      obtain ⟨symbol, hsymbol, haddr⟩ := hspec.exists_symbol group hgroup
      rw [hspec.tokens group hgroup, ← haddr, namesAt_of_nodup hdistinct hsymbol, List.flatMap_singleton]
      exact Nat.le_trans (tokenize_length_le symbol.2) (Nat.succ_le_succ (hlength symbol hsymbol))
    have hids := length_group_le (idOf (addTokens tokenSampling byFreq).2) group.2
    have hdelta : (Wire.encodeVarint 10 ((group.1 - prevSymAddr) % 2 ^ 32)).length ≤ 4 + 1 :=
      length_encodeVarint_le (by omega) 10
    rw [kSymNameMaxLen] at htokens
    rw [List.length_append]
    omega
  obtain ⟨s, hrun⟩ := (encodes_nil _ _).exists_encodeSymbols symSampling hbytes hsmall
  exact ⟨_, Option.map_eq_some_iff.mpr ⟨s, hrun, rfl⟩⟩

end Lookup

end LynxTrace.Kallsyms
