import LynxTrace.Kallsyms.KernelLookup

/-!
# Kallsyms.SharedAddresses — several symbols at one address

The tokens are grouped by address and not by symbol: `Lookup` gives the names at an address joined by underscores, which
is none of them.
-/

namespace LynxTrace.Kallsyms

/-! ### Lengths of names -/

theorem Scanner.step_length {s s' : Scanner} {c : UInt8} {raw : Option RawSymbol} (h : s.step c = some (s', raw))
    (hs : s.symName.length ≤ kSymNameMaxLen) :
    s'.symName.length ≤ kSymNameMaxLen ∧ ∀ symbol, raw = some symbol → symbol.name.length ≤ kSymNameMaxLen := by
  obtain ⟨state, symAddr, symType, symName, first⟩ := s
  cases state with
  | kSymAddr =>
    simp only [Scanner.step] at h
    cases hdigit : hexDigit? c with
    | some digit =>
      rw [hdigit] at h
      cases h
      exact ⟨hs, nofun⟩
    | none =>
      rw [hdigit] at h
      obtain ⟨-, heq⟩ := Option.ite_none_right_eq_some.mp h
      cases heq
      exact ⟨hs, nofun⟩
  | kSymType =>
    simp only [Scanner.step] at h
    split_ifs at h
    · cases h
      exact ⟨hs, nofun⟩
    · cases h
      exact ⟨Nat.zero_le _, nofun⟩
  | kSymName =>
    simp only [Scanner.step] at h
    split at h
    · cases h
      exact ⟨hs, nofun⟩
    · split at h
      · rename_i hkeep
        simp only [Bool.and_eq_true, decide_eq_true_eq] at hkeep
        cases h
        refine ⟨?_, nofun⟩
        rw [List.length_append, List.length_singleton]
        exact hkeep.2
      · cases h
        refine ⟨hs, fun symbol hsymbol => ?_⟩
        obtain rfl := Option.some_inj.mp hsymbol
        exact hs
  | kEatRestOfLine =>
    cases h
    exact ⟨hs, nofun⟩

theorem length_forEachSym_le {s : Scanner} (hs : s.symName.length ≤ kSymNameMaxLen) (text : List UInt8) :
    ∀ raw ∈ forEachSym s text, raw.name.length ≤ kSymNameMaxLen := by
  induction text generalizing s with
  | nil => exact nofun
  | cons c rest ih =>
    rw [forEachSym]
    cases hstep : s.step c with
    | none => exact nofun
    | some r =>
      obtain ⟨s', raw⟩ := r
      obtain ⟨hs', hraw⟩ := Scanner.step_length hstep hs
      cases raw with
      | none => exact ih hs'
      | some symbol =>
        intro raw hmem
        rcases List.mem_cons.mp hmem with rfl | hmem
        · exact hraw _ rfl
        · exact ih hs' raw hmem

theorem length_stripCfi_le (name : List UInt8) : (stripCfi name).length ≤ name.length := by
  unfold stripCfi
  split_ifs
  · exact List.length_take_le' _ _
  · exact List.length_take_le' _ _
  · exact Nat.le_refl _

theorem length_keptSymbols_le (first : UInt8) (text : List UInt8) :
    ∀ symbol ∈ keptSymbols first text, symbol.2.length ≤ kSymNameMaxLen := by
  intro symbol hsymbol
  obtain ⟨raw, hraw, hkept⟩ := List.mem_filterMap.mp hsymbol
  obtain ⟨-, heq⟩ := Option.ite_none_left_eq_some.mp hkept
  rw [← Option.some_inj.mp heq]
  exact Nat.le_trans (length_stripCfi_le raw.name)
    (length_forEachSym_le (Nat.zero_le _ : (Scanner.init first).symName.length ≤ _) text raw hraw)

/-! ### Joined names -/

/-- Each of several names is shorter than all of them joined. -/
theorem length_lt_joinTokens {names : List (List UInt8)} (hseveral : 1 < names.length) :
    ∀ name ∈ names, name.length < (joinTokens names).length := by
  induction names with
  | nil => exact nofun
  | cons first names ih =>
    have hne : names ≠ [] := List.length_pos_iff.mp (Nat.lt_of_succ_lt_succ hseveral)
    intro name hname
    rw [joinTokens_cons hne, List.length_append, List.length_cons]
    rcases List.mem_cons.mp hname with rfl | hname
    · omega
    · cases names with
      | nil => exact absurd rfl hne
      | cons next names =>
        cases names with
        | nil =>
          rw [List.mem_singleton.mp hname]
          show next.length < first.length + (next.length + 1)
          omega
        | cons next' names =>
          have hrest := ih (Nat.succ_lt_succ (Nat.succ_pos _)) name hname
          omega

theorem not_mem_joinTokens {names : List (List UInt8)} (hseveral : 1 < names.length) :
    TokenTable.unmask (joinTokens names) ∉ names := by
  intro hmem
  have hlt := length_lt_joinTokens hseveral _ hmem
  rw [TokenTable.unmask, List.length_map] at hlt
  exact Nat.lt_irrefl _ hlt

/-! ### Shared addresses -/

theorem one_lt_length_namesAt {symbols : List (ℕ × List UInt8)} (hshared : ¬ (symbols.map Prod.fst).Nodup) :
    ∃ symbol ∈ symbols, 1 < (namesAt symbols symbol.1).length := by
  induction symbols with
  | nil => exact absurd List.nodup_nil hshared
  | cons first symbols ih =>
    rw [List.map_cons, List.nodup_cons, not_and_or, not_not] at hshared
    rcases hshared with hfirst | hrest
    · obtain ⟨symbol, hsymbol, haddr⟩ := List.mem_map.mp hfirst
      have hmem : symbol.2 ∈ namesAt symbols first.1 :=
        List.mem_map_of_mem (List.mem_filter.mpr ⟨hsymbol, decide_eq_true haddr⟩)
      refine ⟨first, List.mem_cons_self, ?_⟩
      rw [namesAt_cons_eq rfl, List.length_cons]
      exact Nat.succ_lt_succ (List.length_pos_of_mem hmem)
    · obtain ⟨symbol, hsymbol, hlen⟩ := ih hrest
      refine ⟨symbol, List.mem_cons_of_mem _ hsymbol, ?_⟩
      by_cases heq : first.1 = symbol.1
      · rw [namesAt_cons_eq heq, List.length_cons]
        exact Nat.lt_succ_of_lt hlen
      · rwa [namesAt_cons_ne heq]

theorem length_namesAt_le {symbols : List (ℕ × List UInt8)} (hdistinct : (symbols.map Prod.fst).Nodup) (a : ℕ) :
    (namesAt symbols a).length ≤ 1 := by
  by_cases hnil : namesAt symbols a = []
  · rw [hnil]
    exact Nat.zero_le _
  · obtain ⟨name, hname⟩ := List.exists_mem_of_ne_nil _ hnil
    obtain ⟨symbol, hsymbol, -⟩ := List.mem_map.mp hname
    obtain ⟨hmem, haddr⟩ := List.mem_filter.mp hsymbol
    rw [← of_decide_eq_true haddr, namesAt_of_nodup hdistinct hmem]
    exact Nat.le_refl _

/-- Parsing stays within the buffer, and at an address with several names `Lookup` finds one of them. -/
def FindsShared (tokenSampling : ℕ) (symbols : List (ℕ × List UInt8)) (parsed : Option KernelSymbolMap) : Prop :=
  ∃ m, parsed = some m ∧ ∀ a, 1 < (namesAt symbols a).length → m.lookup tokenSampling a ∈ namesAt symbols a

section

variable {tokenSampling : ℕ} {byFreq : List (List UInt8)} {first : UInt8} {text : List UInt8}

/-- Symbols that share no address are parsed and found as long as their table stays below 2^32 bytes, and, where the
token table fits as well and the addresses are within 32 bits of each other, only those. -/
theorem parse_shared (hsampling : 0 < tokenSampling) (symSampling : ℕ)
    (hfreq : ByFreq (symbolTokens (keptSymbols first text)) byFreq) :
    ((encodeFrom (idOf (addTokens tokenSampling byFreq).2) (baseAddr (groupsOf (keptSymbols first text)))
        (groupsOf (keptSymbols first text))).length < 2 ^ 32 →
      ((keptSymbols first text).map Prod.fst).Nodup →
      FindsShared tokenSampling (keptSymbols first text) (parse tokenSampling symSampling byFreq first text)) ∧
    (TableFits tokenSampling byFreq (keptSymbols first text) → Spans (keptSymbols first text) →
      FindsShared tokenSampling (keptSymbols first text) (parse tokenSampling symSampling byFreq first text) →
      ((keptSymbols first text).map Prod.fst).Nodup) := by
  refine ⟨fun hbytes hdistinct => ?_, fun hfits hspans ⟨m, hparse, hfinds⟩ => ?_⟩
  · obtain ⟨m, hparse⟩ := exists_parseSymbols tokenSampling symSampling hbytes (length_keptSymbols_le first text)
      hdistinct
    exact ⟨m, hparse, fun a hseveral => absurd (length_namesAt_le hdistinct a) (Nat.not_le.mpr hseveral)⟩
  · by_contra hshared
    obtain ⟨symbol, hsymbol, hseveral⟩ := one_lt_length_namesAt hshared
    have hlookup := lookup_symbols hsampling hfreq hfits hspans hparse
      (fun s hs => hspans symbol hsymbol s hs) hsymbol (Nat.le_refl _) fun s _ hle => hle
    have hnear : symbol.1 - symbol.1 ≤ kSymMaxSizeBytes := by
      rw [Nat.sub_self]
      exact Nat.zero_le _
    rw [if_pos hnear] at hlookup
    have hmem := hfinds symbol.1 hseveral
    rw [hlookup] at hmem
    exact not_mem_joinTokens hseveral hmem

/-- `1 t a` and `1 t b`, a line each -/
def twoAtOne : List UInt8 := [49, 32, 116, 32, 97, 10, 49, 32, 116, 32, 98, 10]

theorem keptSymbols_twoAtOne : keptSymbols 0 twoAtOne = [(1, [97]), (1, [98])] := by decide +kernel

theorem symbolTokens_twoAtOne : symbolTokens (keptSymbols 0 twoAtOne) = [(1, [97]), (1, [98])] := by
  rw [keptSymbols_twoAtOne]
  rfl

theorem byFreq_twoAtOne : ByFreq (symbolTokens (keptSymbols 0 twoAtOne)) [[97], [98]] := by
  rw [symbolTokens_twoAtOne]
  refine ⟨by decide, fun token => Iff.rfl, by decide⟩

theorem tableFits_twoAtOne : TableFits 4 [[97], [98]] (keptSymbols 0 twoAtOne) := by
  rw [keptSymbols_twoAtOne]
  refine ⟨by decide, by decide, ?_⟩
  decide +kernel

/-- Of two symbols at one address neither is found. -/
theorem parse_shared_twoAtOne : ¬ FindsShared 4 (keptSymbols 0 twoAtOne) (parse 4 16 [[97], [98]] 0 twoAtOne) := by
  intro hfinds
  have hspans : Spans (keptSymbols 0 twoAtOne) := by
    rw [keptSymbols_twoAtOne]
    intro s hs s' hs'
    fin_cases hs <;> fin_cases hs' <;> decide
  have hdistinct := (parse_shared (by decide) 16 byFreq_twoAtOne).2 tableFits_twoAtOne hspans hfinds
  rw [keptSymbols_twoAtOne] at hdistinct
  revert hdistinct
  decide

/-- `Lookup` gives `a_b`, the name of no symbol. -/
theorem not_findsShared_twoAtOne :
    ¬ FindsShared 4 (keptSymbols 0 twoAtOne) (parse 4 16 [[97], [98]] 0 twoAtOne) := by
  rintro ⟨m, hparse, hfinds⟩
  have hlookup : (parse 4 16 [[97], [98]] 0 twoAtOne).map (fun m => m.lookup 4 1) = some [97, 95, 98] := by
    decide +kernel
  rw [hparse, Option.map_some, Option.some_inj] at hlookup
  have hmem := hfinds 1 (by rw [keptSymbols_twoAtOne]; decide)
  rw [hlookup, keptSymbols_twoAtOne] at hmem
  revert hmem
  decide

end

end LynxTrace.Kallsyms
