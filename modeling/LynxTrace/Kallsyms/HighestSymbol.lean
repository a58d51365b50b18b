import LynxTrace.Kallsyms.KernelSymbolLines
import LynxTrace.Kallsyms.SharedAddresses

/-!
# Kallsyms.HighestSymbol — `Lookup` in a kallsyms file whose functions have different addresses

* `findsHighest_lines` — the function with the highest address that is not after the queried one is found, as long as
  both tables stay below 2^32 bytes.
* `not_findsHighest_manyLines` — with 2^32 - 1 functions the table is longer and parsing runs out of the buffer.
-/

namespace LynxTrace.Kallsyms

/-- Lines with functions at different addresses within 32 bits of each other, with ASCII names that the scanner
keeps. -/
structure KernelFunctions (lines : List Line) : Prop where
  wellFormed : ∀ line ∈ lines, line.WellFormed
  distinct : ((functions lines).map Prod.fst).Nodup
  span : Spans (functions lines)
  length : ∀ symbol ∈ functions lines, symbol.2.length ≤ kSymNameMaxLen
  ascii : ∀ symbol ∈ functions lines, ∀ c ∈ symbol.2, c < 0x80

/-- At every address near the symbols `Lookup` finds the highest symbol that is not after it, if it is near enough. -/
def FindsHighest (tokenSampling : ℕ) (symbols : List (ℕ × List UInt8)) (parsed : Option KernelSymbolMap) : Prop :=
  ∃ m, parsed = some m ∧ ∀ a, (∀ s ∈ symbols, a - s.1 < 2 ^ 32) →
    (∀ symbol ∈ symbols, symbol.1 ≤ a → (∀ s ∈ symbols, s.1 ≤ a → s.1 ≤ symbol.1) →
      m.lookup tokenSampling a = if a - symbol.1 ≤ kSymMaxSizeBytes then stripCfi symbol.2 else []) ∧
    ((∀ s ∈ symbols, a < s.1) → m.lookup tokenSampling a = [])

theorem mem_of_mem_stripCfi {name : List UInt8} {c : UInt8} (h : c ∈ stripCfi name) : c ∈ name := by
  unfold stripCfi at h
  split_ifs at h
  · exact List.mem_of_mem_take h
  · exact List.mem_of_mem_take h
  · exact h

section

variable {tokenSampling : ℕ} {byFreq : List (List UInt8)} {first : UInt8} {lines : List Line}

theorem findsHighest_lines (h : KernelFunctions lines) (hsampling : 0 < tokenSampling) (symSampling : ℕ)
    (hfreq : ByFreq (symbolTokens (keptSymbols first (lines.flatMap Line.bytes))) byFreq)
    (hfits : TableFits tokenSampling byFreq (keptSymbols first (lines.flatMap Line.bytes))) :
    FindsHighest tokenSampling (functions lines)
      (parse tokenSampling symSampling byFreq first (lines.flatMap Line.bytes)) := by
  have hkept := keptSymbols_lines h.wellFormed h.length first
  have hmem : ∀ symbol ∈ functions lines,
      (symbol.1, stripCfi symbol.2) ∈ keptSymbols first (lines.flatMap Line.bytes) := by
    intro symbol hsymbol
    rw [hkept]
    exact List.mem_map_of_mem hsymbol
  have haddr : ∀ s ∈ keptSymbols first (lines.flatMap Line.bytes), ∃ symbol ∈ functions lines, symbol.1 = s.1 := by
    intro s hs
    rw [hkept] at hs
    obtain ⟨symbol, hsymbol, rfl⟩ := List.mem_map.mp hs
    exact ⟨symbol, hsymbol, rfl⟩
  have hdistinct : ((keptSymbols first (lines.flatMap Line.bytes)).map Prod.fst).Nodup := by
    rw [hkept, List.map_map]
    exact h.distinct
  have hspans : Spans (keptSymbols first (lines.flatMap Line.bytes)) := by
    intro s hs s' hs'
    obtain ⟨symbol, hsymbol, heq⟩ := haddr s hs
    obtain ⟨symbol', hsymbol', heq'⟩ := haddr s' hs'
    rw [← heq, ← heq']
    exact h.span symbol hsymbol symbol' hsymbol'
  obtain ⟨m, hparse⟩ := exists_parseSymbols tokenSampling symSampling hfits.symbolBytes
    (length_keptSymbols_le first (lines.flatMap Line.bytes)) hdistinct
  refine ⟨m, hparse, fun a hnear => ⟨fun symbol hsymbol hle hmax => ?_, fun hbefore => ?_⟩⟩
  · have hnear' : ∀ s ∈ keptSymbols first (lines.flatMap Line.bytes), a - s.1 < 2 ^ 32 := by
      intro s hs
      obtain ⟨symbol', hsymbol', heq⟩ := haddr s hs
      rw [← heq]
      exact hnear symbol' hsymbol'
    have hmax' : ∀ s ∈ keptSymbols first (lines.flatMap Line.bytes), s.1 ≤ a → s.1 ≤ symbol.1 := by
      intro s hs hsa
      obtain ⟨symbol', hsymbol', heq⟩ := haddr s hs
      rw [← heq] at hsa ⊢
      exact hmax symbol' hsymbol' hsa
    have hlookup := lookup_symbols hsampling hfreq hfits hspans hparse hnear' (hmem symbol hsymbol) hle hmax'
    have hascii : ∀ c ∈ stripCfi symbol.2, c < 0x80 := fun c hc => h.ascii symbol hsymbol c (mem_of_mem_stripCfi hc)
    rw [hlookup, namesAt_of_nodup hdistinct (hmem symbol hsymbol), joinTokens, TokenTable.unmask_of_ascii hascii]
  · refine lookup_before hparse fun s hs => ?_
    obtain ⟨symbol, hsymbol, heq⟩ := haddr s hs
    rw [← heq]
    exact hbefore symbol hsymbol

end

/-- `10 t do_it.cfi` and `20 T do_exit [m]` -/
def cfiLines : List Line :=
  [⟨[49, 48], [32], 116, [32], [100, 111, 95, 105, 116, 46, 99, 102, 105], []⟩,
    ⟨[50, 48], [32], 84, [32], [100, 111, 95, 101, 120, 105, 116], [32, 91, 109, 93]⟩]

theorem functions_cfiLines :
    functions cfiLines = [(16, [100, 111, 95, 105, 116, 46, 99, 102, 105]), (32, [100, 111, 95, 101, 120, 105, 116])] := by
  decide +kernel

theorem kernelFunctions_cfiLines : KernelFunctions cfiLines where
  wellFormed := by
    intro line hline
    fin_cases hline
    all_goals constructor
    all_goals first | decide +kernel | (unfold IsNameChar; decide +kernel)
  distinct := by rw [functions_cfiLines]; decide
  span := by
    rw [functions_cfiLines]
    unfold Spans
    decide
  length := by rw [functions_cfiLines]; decide
  ascii := by rw [functions_cfiLines]; decide +kernel

/-- Without `.cfi`. -/
theorem keptSymbols_cfiLines : keptSymbols 0 (cfiLines.flatMap Line.bytes) =
    [(16, [100, 111, 95, 105, 116]), (32, [100, 111, 95, 101, 120, 105, 116])] := by decide +kernel

theorem symbolTokens_cfiLines : symbolTokens (keptSymbols 0 (cfiLines.flatMap Line.bytes)) =
    [(16, [100, 111]), (16, [105, 116]), (32, [100, 111]), (32, [101, 120, 105, 116])] := by
  rw [keptSymbols_cfiLines]
  rfl

/-- `do`, which is there twice, `it` and `exit` -/
theorem byFreq_cfiLines : ByFreq (symbolTokens (keptSymbols 0 (cfiLines.flatMap Line.bytes)))
    [[100, 111], [105, 116], [101, 120, 105, 116]] := by
  rw [symbolTokens_cfiLines]
  refine ⟨by decide, fun token => ?_, by decide⟩
  simp only [List.mem_cons, List.map_cons, List.map_nil]
  tauto

theorem tableFits_cfiLines : TableFits 4 [[100, 111], [105, 116], [101, 120, 105, 116]]
    (keptSymbols 0 (cfiLines.flatMap Line.bytes)) := by
  rw [keptSymbols_cfiLines]
  exact ⟨by decide, by decide, by decide +kernel⟩

theorem findsHighest_cfiLines :
    FindsHighest 4 (functions cfiLines)
      (parse 4 16 [[100, 111], [105, 116], [101, 120, 105, 116]] 0 (cfiLines.flatMap Line.bytes)) :=
  findsHighest_lines kernelFunctions_cfiLines (by decide) 16 byFreq_cfiLines tableFits_cfiLines

/-! ### Too many functions -/

theorem length_encodeIds_pos (id : List UInt8 → ℕ) {tokens : List (List UInt8)} (hne : tokens ≠ []) :
    0 < (encodeIds id tokens).length := by
  obtain ⟨token, tokens, rfl⟩ := List.exists_cons_of_ne_nil hne
  cases tokens with
  | nil => exact length_encodeVarint_pos _
  | cons next tokens =>
    rw [encodeIds, List.length_append]
    exact Nat.add_pos_left (length_encodeVarint_pos _) _

/-- A group takes two bytes or more. -/
theorem two_mul_length_le_encodeFrom (id : List UInt8 → ℕ) (prevSymAddr : ℕ) {groups : List TokenGroup}
    (hne : ∀ group ∈ groups, group.2 ≠ []) : 2 * groups.length ≤ (encodeFrom id prevSymAddr groups).length := by
  induction groups generalizing prevSymAddr with
  | nil => exact Nat.le_refl 0
  | cons group groups ih =>
    have hdelta := length_encodeVarint_pos ((group.1 - prevSymAddr) % 2 ^ 32)
    have hids := length_encodeIds_pos id (hne group List.mem_cons_self)
    have hrest := ih group.1 fun g hg => hne g (List.mem_cons_of_mem _ hg)
    rw [encodeFrom, List.length_append, List.length_append, List.length_cons]
    omega

theorem length_le_groupsOf {symbols : List (ℕ × List UInt8)} (hdistinct : (symbols.map Prod.fst).Nodup) :
    symbols.length ≤ (groupsOf symbols).length := by
  have hsubset : symbols.map Prod.fst ⊆ (groupsOf symbols).map Prod.fst := by
    intro a ha
    obtain ⟨symbol, hsymbol, rfl⟩ := List.mem_map.mp ha
    obtain ⟨group, hgroup, heq⟩ := (groupsOf_spec symbols).exists_group symbol hsymbol
    exact List.mem_map.mpr ⟨group, hgroup, heq⟩
  have hle := (List.subperm_of_subset hdistinct hsubset).length_le
  rwa [List.length_map, List.length_map] at hle

/-- A table with more groups than there is room for cannot be made. -/
theorem parseSymbols_eq_none (tokenSampling symSampling : ℕ) (byFreq : List (List UInt8))
    {symbols : List (ℕ × List UInt8)} (hdistinct : (symbols.map Prod.fst).Nodup)
    (hmany : 2 ^ 32 + 33792 < 2 * symbols.length) :
    parseSymbols tokenSampling symSampling byFreq symbols = none := by
  cases hparse : parseSymbols tokenSampling symSampling byFreq symbols with
  | none => rfl
  | some m =>
    have h := parseSymbols_parsed hparse
    have hsize := h.size
    have hgroups := length_le_groupsOf hdistinct
    have hbytes := two_mul_length_le_encodeFrom (idOf (addTokens tokenSampling byFreq).2) m.baseAddr
      (groupsOf_spec symbols).nonempty
    rw [← h.buf] at hbytes
    omega

def hexChar (digit : ℕ) : UInt8 := if digit < 10 then UInt8.ofNat (48 + digit) else UInt8.ofNat (87 + digit)

theorem hexDigit?_hexChar {digit : ℕ} (h : digit < 16) : hexDigit? (hexChar digit) = some digit := by
  have hall := (by decide : ∀ i : Fin 16, hexDigit? (hexChar i) = some i.val)
  exact hall ⟨digit, h⟩

/-- A number in hexadecimal digits. -/
def hexDigits : ℕ → ℕ → List UInt8
  | 0, _ => []
  | width + 1, value => hexDigits width (value / 16) ++ [hexChar (value % 16)]

theorem isSome_hexDigits (width value : ℕ) : ∀ c ∈ hexDigits width value, (hexDigit? c).isSome := by
  induction width generalizing value with
  | zero => exact nofun
  | succ width ih =>
    intro c hc
    rcases List.mem_append.mp hc with hc | hc
    · exact ih _ c hc
    · rw [List.mem_singleton.mp hc, hexDigit?_hexChar (Nat.mod_lt _ (by decide))]
      rfl

theorem hexValue_hexDigits (width value : ℕ) : hexValue (hexDigits width value) = value % 16 ^ width := by
  induction width generalizing value with
  | zero =>
    rw [Nat.pow_zero, Nat.mod_one]
    rfl
  | succ width ih =>
    rw [hexDigits, hexValue, List.foldl_append]
    show hexValue (hexDigits width (value / 16)) * 16 + (hexDigit? (hexChar (value % 16))).getD 0 = _
    rw [ih, hexDigit?_hexChar (Nat.mod_lt _ (by decide)), Option.getD_some, Nat.pow_succ, Nat.mul_comm (16 ^ width),
      Nat.mod_mul, Nat.add_comm, Nat.mul_comm]

/-- `000000ff t a` -/
def plainLine (addr : ℕ) : Line := ⟨hexDigits 8 addr, [32], 116, [32], [97], []⟩

theorem wellFormed_plainLine (addr : ℕ) : (plainLine addr).WellFormed where
  digits := isSome_hexDigits 8 addr
  gap_ne_nil := List.cons_ne_nil _ _
  gap := fun c hc => (List.mem_singleton.mp hc).symm ▸ rfl
  type := rfl
  gap_ne_nil' := List.cons_ne_nil _ _
  gap' := fun c hc => (List.mem_singleton.mp hc).symm ▸ rfl
  name_ne_nil := List.cons_ne_nil _ _
  name := by
    intro c hc
    rw [List.mem_singleton.mp hc]
    exact ⟨by decide, by decide, rfl⟩
  tail_head := nofun
  tail := nofun

theorem function?_plainLine {addr : ℕ} (hpos : 0 < addr) (hlt : addr < 2 ^ 32) :
    (plainLine addr).function? = some (addr, [97]) := by
  have haddr : (plainLine addr).addr = addr := by
    show hexValue (hexDigits 8 addr) % 2 ^ 64 = addr
    rw [hexValue_hexDigits]
    omega
  have hzero : decide (addr = 0) = false := decide_eq_false (Nat.ne_of_gt hpos)
  rw [Line.function?, haddr, hzero]
  rfl

/-- A function at each of the addresses from 1 on. -/
def manyLines (n : ℕ) : List Line := (List.range n).map fun i => plainLine (i + 1)

def manySymbols (n : ℕ) : List (ℕ × List UInt8) := (List.range n).map fun i => (i + 1, [97])

section Many

variable {n : ℕ}

theorem functions_manyLines (hn : n < 2 ^ 32) : functions (manyLines n) = manySymbols n := by
  rw [functions, manyLines, List.filterMap_map, manySymbols, ← List.filterMap_eq_map]
  refine List.filterMap_congr fun i hi => ?_
  have hlt := List.mem_range.mp hi
  exact function?_plainLine (Nat.succ_pos i) (by omega)

theorem mem_manySymbols {s : ℕ × List UInt8} (hs : s ∈ manySymbols n) : 0 < s.1 ∧ s.1 ≤ n ∧ s.2 = [97] := by
  obtain ⟨i, hi, rfl⟩ := List.mem_map.mp hs
  exact ⟨Nat.succ_pos i, List.mem_range.mp hi, rfl⟩

theorem nodup_manySymbols (n : ℕ) : ((manySymbols n).map Prod.fst).Nodup := by
  rw [manySymbols, List.map_map]
  exact List.nodup_range.map fun i j hij => Nat.succ_injective hij

theorem kernelFunctions_manyLines (hn : n < 2 ^ 32) : KernelFunctions (manyLines n) := by
  have hfunctions := functions_manyLines hn
  refine ⟨?_, ?_, ?_, ?_, ?_⟩
  · intro line hline
    obtain ⟨i, -, rfl⟩ := List.mem_map.mp hline
    exact wellFormed_plainLine _
  · rw [hfunctions]
    exact nodup_manySymbols n
  · rw [hfunctions]
    intro s hs s' hs'
    have hle := (mem_manySymbols hs).2.1
    omega
  · rw [hfunctions]
    intro s hs
    rw [(mem_manySymbols hs).2.2]
    show 1 ≤ 128
    omega
  · rw [hfunctions]
    intro s hs c hc
    rw [(mem_manySymbols hs).2.2] at hc
    obtain rfl := List.mem_singleton.mp hc
    exact UInt8.lt_iff_toNat_lt.mpr (show 97 < 128 by omega)

theorem keptSymbols_manyLines (hn : n < 2 ^ 32) (first : UInt8) :
    keptSymbols first ((manyLines n).flatMap Line.bytes) = manySymbols n := by
  have h := kernelFunctions_manyLines hn
  rw [keptSymbols_lines h.wellFormed h.length, functions_manyLines hn, manySymbols, List.map_map]
  rfl

theorem byFreq_manySymbols (hpos : 0 < n) : ByFreq (symbolTokens (manySymbols n)) [[97]] := by
  have htokens : ∀ token, token ∈ (symbolTokens (manySymbols n)).map Prod.snd ↔ token = [97] := by
    intro token
    constructor
    · intro hmem
      obtain ⟨t, ht, rfl⟩ := List.mem_map.mp hmem
      obtain ⟨symbol, hsymbol, -, htoken⟩ := mem_symbolTokens.mp ht
      rw [(mem_manySymbols hsymbol).2.2] at htoken
      exact List.mem_singleton.mp htoken
    · rintro rfl
      have hfirst : ((1, [97]) : ℕ × List UInt8) ∈ manySymbols n :=
        List.mem_map.mpr ⟨0, List.mem_range.mpr hpos, rfl⟩
      exact List.mem_map.mpr ⟨(1, [97]), mem_symbolTokens.mpr ⟨_, hfirst, rfl, List.mem_singleton.mpr rfl⟩, rfl⟩
  refine ⟨List.nodup_singleton _, fun token => ?_, List.pairwise_singleton _ _⟩
  rw [htokens, List.mem_singleton]

end Many

/-- With 2^32 - 1 functions, `ffffffff t a` the last of them, parsing writes past the end of its buffer. -/
theorem not_findsHighest_manyLines :
    KernelFunctions (manyLines 4294967295) ∧
    ByFreq (symbolTokens (keptSymbols 0 ((manyLines 4294967295).flatMap Line.bytes))) [[97]] ∧
    ¬ FindsHighest 4 (functions (manyLines 4294967295))
      (parse 4 16 [[97]] 0 ((manyLines 4294967295).flatMap Line.bytes)) := by
  have hn : 4294967295 < 2 ^ 32 := by decide
  have hkept := keptSymbols_manyLines hn 0
  refine ⟨kernelFunctions_manyLines hn, ?_, ?_⟩
  · rw [hkept]
    exact byFreq_manySymbols (by decide)
  · rintro ⟨m, hparse, -⟩
    have hmany : 2 ^ 32 + 33792 < 2 * (manySymbols 4294967295).length := by
      rw [manySymbols, List.length_map, List.length_range]
      decide
    rw [parse, hkept, parseSymbols_eq_none 4 16 _ (nodup_manySymbols _) hmany] at hparse
    cases hparse

end LynxTrace.Kallsyms
