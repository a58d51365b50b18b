import LynxTrace.Kallsyms.KernelSymbolMap

/-!
# Kallsyms.KernelSymbolLines — what the scanner reads from the lines of a kallsyms file

`ffffffffc03a6000 T cpufreq_gov_powersave_init<TAB> [cpufreq_powersave]`: an address, a type, a name and maybe more.
-/

namespace LynxTrace.Kallsyms

structure Line where
  digits : List UInt8
  gap : List UInt8
  type : UInt8
  gap' : List UInt8
  name : List UInt8
  tail : List UInt8
  deriving DecidableEq, Repr

/-- A character of a name. -/
def IsNameChar (c : UInt8) : Prop := c ≠ 0 ∧ c ≠ 10 ∧ isSpace c = false

structure Line.WellFormed (line : Line) : Prop where
  digits : ∀ c ∈ line.digits, (hexDigit? c).isSome
  gap_ne_nil : line.gap ≠ []
  gap : ∀ c ∈ line.gap, isSpace c
  type : isSpace line.type = false
  gap_ne_nil' : line.gap' ≠ []
  gap' : ∀ c ∈ line.gap', isSpace c
  name_ne_nil : line.name ≠ []
  name : ∀ c ∈ line.name, IsNameChar c
  tail_head : ∀ c, line.tail.head? = some c → isSpace c
  tail : 10 ∉ line.tail

def Line.bytes (line : Line) : List UInt8 :=
  line.digits ++ (line.gap ++ (line.type :: (line.gap' ++ (line.name ++ (line.tail ++ [10])))))

/-- The number written by some digits. -/
def hexValue (digits : List UInt8) : ℕ := digits.foldl (fun value c => value * 16 + (hexDigit? c).getD 0) 0

def Line.addr (line : Line) : ℕ := hexValue line.digits % 2 ^ 64

/-- The address and the name of a function: `t` or `T`, not at 0, and no mapping symbol. -/
def Line.function? (line : Line) : Option (ℕ × List UInt8) :=
  if line.addr = 0 || (line.type ≠ 116 && line.type ≠ 84) || line.name.head? = some 36 then none
  else some (line.addr, line.name)

/-! ### Scanning a line -/

section Scanning

variable {addr : ℕ} {type first : UInt8} {name : List UInt8}

/-- The address after some more digits. -/
def readDigits (addr : ℕ) (digits : List UInt8) : ℕ :=
  digits.foldl (fun addr c => (addr * 16 + (hexDigit? c).getD 0) % 2 ^ 64) addr

theorem readDigits_mod (value : ℕ) (digits : List UInt8) :
    readDigits (value % 2 ^ 64) digits =
      digits.foldl (fun value c => value * 16 + (hexDigit? c).getD 0) value % 2 ^ 64 := by
  induction digits generalizing value with
  | nil => rfl
  | cons c digits ih =>
    have hstep : (value % 2 ^ 64 * 16 + (hexDigit? c).getD 0) % 2 ^ 64 =
        (value * 16 + (hexDigit? c).getD 0) % 2 ^ 64 := by
      rw [Nat.add_mod, Nat.mod_mul_mod, ← Nat.add_mod]
    show readDigits ((value % 2 ^ 64 * 16 + (hexDigit? c).getD 0) % 2 ^ 64) digits = _
    rw [hstep, ih]
    rfl

theorem forEachSym_digits {digits : List UInt8} (h : ∀ c ∈ digits, (hexDigit? c).isSome) (rest : List UInt8) :
    forEachSym ⟨.kSymAddr, addr, type, name, first⟩ (digits ++ rest) =
      forEachSym ⟨.kSymAddr, readDigits addr digits, type, name, first⟩ rest := by
  induction digits generalizing addr with
  | nil => rfl
  | cons c digits ih =>
    obtain ⟨digit, hdigit⟩ := Option.isSome_iff_exists.mp (h c List.mem_cons_self)
    have hstep : Scanner.step ⟨.kSymAddr, addr, type, name, first⟩ c =
        some (⟨.kSymAddr, (addr * 16 + digit) % 2 ^ 64, type, name, first⟩, none) := by
      simp only [Scanner.step, hdigit]
    rw [List.cons_append, forEachSym, hstep, readDigits, List.foldl_cons, hdigit]
    exact ih fun d hd => h d (List.mem_cons_of_mem _ hd)

theorem forEachSym_typeGap {gap : List UInt8} (h : ∀ c ∈ gap, isSpace c) (rest : List UInt8) :
    forEachSym ⟨.kSymType, addr, type, name, first⟩ (gap ++ rest) =
      forEachSym ⟨.kSymType, addr, type, name, first⟩ rest := by
  induction gap with
  | nil => rfl
  | cons c gap ih =>
    have hstep : Scanner.step ⟨.kSymType, addr, type, name, first⟩ c =
        some (⟨.kSymType, addr, type, name, first⟩, none) := if_pos (h c List.mem_cons_self)
    rw [List.cons_append, forEachSym, hstep]
    exact ih fun d hd => h d (List.mem_cons_of_mem _ hd)

/-- A space is no digit. -/
theorem hexDigit?_space {c : UInt8} (h : isSpace c) : hexDigit? c = none := by
  rcases Bool.or_eq_true_iff.mp h with h | h
  · rw [of_decide_eq_true h]
    rfl
  · rw [of_decide_eq_true h]
    rfl

theorem forEachSym_gap {gap : List UInt8} (hne : gap ≠ []) (h : ∀ c ∈ gap, isSpace c) (rest : List UInt8) :
    forEachSym ⟨.kSymAddr, addr, type, name, first⟩ (gap ++ rest) =
      forEachSym ⟨.kSymType, addr, type, name, first⟩ rest := by
  cases gap with
  | nil => exact absurd rfl hne
  | cons c gap =>
    have hspace := h c List.mem_cons_self
    have hstep : Scanner.step ⟨.kSymAddr, addr, type, name, first⟩ c =
        some (⟨.kSymType, addr, type, name, first⟩, none) := by
      simp only [Scanner.step, hexDigit?_space hspace, hspace, if_true]
    rw [List.cons_append, forEachSym, hstep]
    exact forEachSym_typeGap (fun d hd => h d (List.mem_cons_of_mem _ hd)) rest

theorem forEachSym_nameGap {gap : List UInt8} (h : ∀ c ∈ gap, isSpace c) (rest : List UInt8) :
    forEachSym ⟨.kSymName, addr, type, [], first⟩ (gap ++ rest) =
      forEachSym ⟨.kSymName, addr, type, [], first⟩ rest := by
  induction gap with
  | nil => rfl
  | cons c gap ih =>
    have hstep : Scanner.step ⟨.kSymName, addr, type, [], first⟩ c =
        some (⟨.kSymName, addr, type, [], first⟩, none) := by
      simp only [Scanner.step, h c List.mem_cons_self, List.isEmpty_nil, Bool.and_self, if_true]
    rw [List.cons_append, forEachSym, hstep]
    exact ih fun d hd => h d (List.mem_cons_of_mem _ hd)

/-- The first character of a name. -/
def nameFirst (first : UInt8) (name : List UInt8) : UInt8 := name.head?.getD first

theorem step_nameChar {c : UInt8} (hc : IsNameChar c) (hlen : name.length < kSymNameMaxLen) :
    Scanner.step ⟨.kSymName, addr, type, name, nameFirst first name⟩ c =
      some (⟨.kSymName, addr, type, name ++ [c], nameFirst first (name ++ [c])⟩, none) := by
  obtain ⟨h0, h10, hspace⟩ := hc
  have hfirst : (if name.isEmpty then c else nameFirst first name) = nameFirst first (name ++ [c]) := by
    cases name with
    | nil => rfl
    | cons d name => rfl
  simp only [Scanner.step, hspace, Bool.false_and, Bool.false_eq_true, if_false, ne_eq, h0, h10, not_false_eq_true,
    decide_true, Bool.not_false, Bool.and_self, hlen, if_true, hfirst]

theorem forEachSym_name {more : List UInt8} (h : ∀ c ∈ more, IsNameChar c)
    (hlen : name.length + more.length ≤ kSymNameMaxLen) (rest : List UInt8) :
    forEachSym ⟨.kSymName, addr, type, name, nameFirst first name⟩ (more ++ rest) =
      forEachSym ⟨.kSymName, addr, type, name ++ more, nameFirst first (name ++ more)⟩ rest := by
  induction more generalizing name with
  | nil => rw [List.append_nil, List.nil_append]
  | cons c more ih =>
    rw [List.length_cons] at hlen
    rw [List.cons_append, forEachSym, step_nameChar (h c List.mem_cons_self) (by omega)]
    dsimp only
    rw [ih (fun d hd => h d (List.mem_cons_of_mem _ hd)), List.append_assoc]
    · rfl
    · rw [List.length_append, List.length_singleton]
      omega

theorem forEachSym_rest {tail : List UInt8} (h : 10 ∉ tail) (rest : List UInt8) :
    forEachSym ⟨.kEatRestOfLine, addr, type, name, first⟩ (tail ++ 10 :: rest) =
      forEachSym ⟨.kSymAddr, addr, type, name, first⟩ rest := by
  induction tail with
  | nil => rfl
  | cons c tail ih =>
    have hne : c ≠ 10 := fun heq => h (heq ▸ List.mem_cons_self)
    have hstep : Scanner.step ⟨.kEatRestOfLine, addr, type, name, first⟩ c =
        some (⟨.kEatRestOfLine, addr, type, name, first⟩, none) := by
      simp only [Scanner.step, if_neg hne]
    rw [List.cons_append, forEachSym, hstep]
    exact ih fun hmem => h (List.mem_cons_of_mem _ hmem)

/-- The name ends at the end of the line, at a space, or where it is too long. -/
theorem forEachSym_nameEnd (hne : name ≠ []) {tail : List UInt8} (h : 10 ∉ tail)
    (hend : ∀ c, tail.head? = some c → isSpace c ∨ kSymNameMaxLen ≤ name.length) (rest : List UInt8) :
    forEachSym ⟨.kSymName, addr, type, name, first⟩ (tail ++ 10 :: rest) =
      ⟨addr, type, name, first⟩ :: forEachSym ⟨.kSymAddr, 0, 0, name, first⟩ rest := by
  have hempty : name.isEmpty = false := List.isEmpty_eq_false_iff.mpr hne
  cases tail with
  | nil =>
    have hstep : Scanner.step ⟨.kSymName, addr, type, name, first⟩ 10 =
        some (⟨.kSymAddr, 0, 0, name, first⟩, some ⟨addr, type, name, first⟩) := by
      simp [Scanner.step, hempty]
    rw [List.nil_append, forEachSym, hstep]
  | cons c tail =>
    have hc : c ≠ 10 := fun heq => h (heq ▸ List.mem_cons_self)
    have hstop : (decide (c ≠ 0) && decide (c ≠ 10) && !isSpace c && decide (name.length < kSymNameMaxLen)) =
        false := by
      rcases hend c rfl with hspace | hlong
      · rw [hspace, Bool.not_true, Bool.and_false, Bool.false_and]
      · rw [decide_eq_false (Nat.not_lt.mpr hlong), Bool.and_false]
    have hstep : Scanner.step ⟨.kSymName, addr, type, name, first⟩ c =
        some (⟨.kEatRestOfLine, 0, 0, name, first⟩, some ⟨addr, type, name, first⟩) := by
      simp only [Scanner.step, hempty, Bool.and_false, Bool.false_eq_true, if_false, hstop, if_neg hc]
    rw [List.cons_append, forEachSym, hstep]
    dsimp only
    rw [forEachSym_rest fun hmem => h (List.mem_cons_of_mem _ hmem)]

end Scanning

/-! ### Lines -/

/-- What the scanner gives to the callback for a line. -/
def Line.raw (line : Line) : RawSymbol :=
  ⟨line.addr, line.type, line.name.take kSymNameMaxLen, line.name.head?.getD 0⟩

theorem forEachSym_line {line : Line} (h : line.WellFormed) (type first : UInt8) (name rest : List UInt8) :
    ∃ first', forEachSym ⟨.kSymAddr, 0, type, name, first⟩ (line.bytes ++ rest) =
      line.raw :: forEachSym ⟨.kSymAddr, 0, 0, line.name.take kSymNameMaxLen, first'⟩ rest := by
  have hsplit := List.take_append_drop kSymNameMaxLen line.name
  have hlen : (line.name.take kSymNameMaxLen).length ≤ kSymNameMaxLen := List.length_take_le _ _
  have htake : ∀ c ∈ line.name.take kSymNameMaxLen, IsNameChar c := fun c hc => h.name c (List.mem_of_mem_take hc)
  have htakeNe : line.name.take kSymNameMaxLen ≠ [] := by
    obtain ⟨c, more, hname⟩ := List.exists_cons_of_ne_nil h.name_ne_nil
    rw [hname]
    exact List.cons_ne_nil _ _
  have hfirst : nameFirst first (line.name.take kSymNameMaxLen) = line.name.head?.getD 0 := by
    obtain ⟨c, more, hname⟩ := List.exists_cons_of_ne_nil h.name_ne_nil
    rw [hname]
    rfl
  have hno : 10 ∉ line.name.drop kSymNameMaxLen ++ line.tail := by
    intro hmem
    rcases List.mem_append.mp hmem with hmem | hmem
    · exact (h.name 10 (List.mem_of_mem_drop hmem)).2.1 rfl
    · exact h.tail hmem
  have hend : ∀ c, (line.name.drop kSymNameMaxLen ++ line.tail).head? = some c →
      isSpace c ∨ kSymNameMaxLen ≤ (line.name.take kSymNameMaxLen).length := by
    intro c hc
    by_cases hlong : kSymNameMaxLen ≤ line.name.length
    · right
      rw [List.length_take]
      exact Nat.le_min.mpr ⟨Nat.le_refl _, hlong⟩
    · left
      rw [List.drop_eq_nil_of_le (Nat.le_of_not_le hlong), List.nil_append] at hc
      exact h.tail_head c hc
  have haddr : readDigits 0 line.digits = line.addr := readDigits_mod 0 line.digits
  have htype : ∀ text, forEachSym ⟨.kSymType, line.addr, type, name, first⟩ (line.type :: text) =
      forEachSym ⟨.kSymName, line.addr, line.type, [], nameFirst first []⟩ text := by
    intro text
    have hstep : Scanner.step ⟨.kSymType, line.addr, type, name, first⟩ line.type =
        some (⟨.kSymName, line.addr, line.type, [], first⟩, none) := by
      simp only [Scanner.step, h.type, Bool.false_eq_true, if_false]
    rw [forEachSym, hstep]
    rfl
  have hbytes : line.bytes ++ rest = line.digits ++ (line.gap ++ (line.type :: (line.gap' ++
      (line.name.take kSymNameMaxLen ++ ((line.name.drop kSymNameMaxLen ++ line.tail) ++ 10 :: rest))))) := by
    rw [Line.bytes]
    conv_lhs => rw [← hsplit]
    simp only [List.append_assoc, List.cons_append, List.nil_append]
  refine ⟨nameFirst first (line.name.take kSymNameMaxLen), ?_⟩
  rw [hbytes, forEachSym_digits h.digits, haddr, forEachSym_gap h.gap_ne_nil h.gap, htype,
    forEachSym_nameGap h.gap', forEachSym_name htake, List.nil_append, forEachSym_nameEnd htakeNe hno hend, hfirst]
  · rfl
  · rwa [List.length_nil, Nat.zero_add]

theorem forEachSym_lines {lines : List Line} (h : ∀ line ∈ lines, line.WellFormed) (type first : UInt8)
    (name : List UInt8) :
    forEachSym ⟨.kSymAddr, 0, type, name, first⟩ (lines.flatMap Line.bytes) = lines.map Line.raw := by
  induction lines generalizing type first name with
  | nil => rfl
  | cons line lines ih =>
    obtain ⟨first', heq⟩ := forEachSym_line (h line List.mem_cons_self) type first name (lines.flatMap Line.bytes)
    rw [List.flatMap_cons, heq, ih fun l hl => h l (List.mem_cons_of_mem _ hl)]
    rfl

/-- The functions of some lines, as they stand in the file. -/
def functions (lines : List Line) : List (ℕ × List UInt8) := lines.filterMap Line.function?

theorem symbol?_raw {line : Line} (h : line.WellFormed)
    (hlen : ∀ symbol, line.function? = some symbol → symbol.2.length ≤ kSymNameMaxLen) :
    symbol? line.raw = line.function?.map fun symbol => (symbol.1, stripCfi symbol.2) := by
  obtain ⟨c, more, hname⟩ := List.exists_cons_of_ne_nil h.name_ne_nil
  have hhead : (line.name.head?.getD 0 = 36) = (line.name.head? = some 36) := by
    rw [hname]
    exact propext Option.some_inj.symm
  unfold Line.function? symbol? Line.raw at *
  dsimp only
  simp only [hhead]
  split_ifs with hskip
  · rfl
  · rw [if_neg hskip] at hlen
    have hle := hlen _ rfl
    rw [List.take_of_length_le hle]
    rfl

/-- What parsing keeps of some lines. -/
theorem keptSymbols_lines {lines : List Line} (h : ∀ line ∈ lines, line.WellFormed)
    (hlen : ∀ symbol ∈ functions lines, symbol.2.length ≤ kSymNameMaxLen) (first : UInt8) :
    keptSymbols first (lines.flatMap Line.bytes) =
      (functions lines).map fun symbol => (symbol.1, stripCfi symbol.2) := by
  rw [keptSymbols, Scanner.init, forEachSym_lines h, functions, List.filterMap_map, List.map_filterMap]
  refine List.filterMap_congr fun line hline => ?_
  exact symbol?_raw (h line hline) fun symbol hsymbol => hlen symbol (List.mem_filterMap.mpr ⟨line, hline, hsymbol⟩)

end LynxTrace.Kallsyms
