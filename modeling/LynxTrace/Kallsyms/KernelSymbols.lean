import Mathlib.Algebra.Order.Ring.Int
import Mathlib.Data.List.Infix
import Mathlib.Tactic.SplitIfs

/-!
# Kallsyms.KernelSymbols — the lines and names of a kallsyms file (src/kallsyms/kernel_symbol_map.cc)

Characters are bytes.  `forEachSym` is the scanner of `ForEachSym`: it reads an address, a type and a name from each
line and gives each name to a callback; `symbol?` is what the callback keeps of it.  `tokenize` splits a name at
underscores.
-/

namespace LynxTrace.Kallsyms

def kSymNameMaxLen : ℕ := 128

def kUnderscore : UInt8 := 95

/-! ### Lines -/

inductive ScanState
  | kSymAddr
  | kSymType
  | kSymName
  | kEatRestOfLine
  deriving DecidableEq, Repr

/-- The arguments of the callback; `first` is what `name.at(0)` reads, which an empty name leaves from the last one. -/
structure RawSymbol where
  addr : ℕ
  type : UInt8
  name : List UInt8
  first : UInt8
  deriving DecidableEq, Repr

structure Scanner where
  state : ScanState
  symAddr : ℕ
  symType : UInt8
  symName : List UInt8
  first : UInt8
  deriving DecidableEq, Repr

/-- The scanner at the start; `first` is whatever `sym_name` holds. -/
def Scanner.init (first : UInt8) : Scanner := ⟨.kSymAddr, 0, 0, [], first⟩

def isSpace (c : UInt8) : Bool := c = 32 || c = 9

def hexDigit? (c : UInt8) : Option ℕ :=
  if 48 ≤ c ∧ c ≤ 57 then some (c.toNat - 48)
  else if 97 ≤ c ∧ c ≤ 102 then some (c.toNat - 97 + 10)
  else none

/-- One character: the scanner after it and the symbol it completes, or `none` where the scan ends. -/
def Scanner.step (s : Scanner) (c : UInt8) : Option (Scanner × Option RawSymbol) :=
  match s.state with
  | .kSymAddr =>
    match hexDigit? c with
    | some digit => some ({ s with symAddr := (s.symAddr * 16 + digit) % 2 ^ 64 }, none)
    | none => if isSpace c then some ({ s with state := .kSymType }, none) else none
  | .kSymType =>
    if isSpace c then some (s, none)
    else some ({ s with state := .kSymName, symType := c, symName := [] }, none)
  | .kSymName =>
    if isSpace c && s.symName.isEmpty then some (s, none)
    else if c ≠ 0 && c ≠ 10 && !isSpace c && s.symName.length < kSymNameMaxLen then
      some ({ s with symName := s.symName ++ [c], first := if s.symName.isEmpty then c else s.first }, none)
    else
      some ({ s with state := if c = 10 then .kSymAddr else .kEatRestOfLine, symAddr := 0, symType := 0 },
        some ⟨s.symAddr, s.symType, s.symName, s.first⟩)
  | .kEatRestOfLine => some ({ s with state := if c = 10 then .kSymAddr else s.state }, none)

/-- The symbols of a stream; the chunks it is read in make no difference. -/
def forEachSym (s : Scanner) : List UInt8 → List RawSymbol
  | [] => []
  | c :: rest =>
    match s.step c with
    | none => []
    | some (s, none) => forEachSym s rest
    | some (s, some symbol) => symbol :: forEachSym s rest

/-! ### Names -/

/-- `.cfi` -/
def cfi : List UInt8 := [46, 99, 102, 105]

/-- `.cfi_jt` -/
def cfiJt : List UInt8 := [46, 99, 102, 105, 95, 106, 116]

def stripCfi (name : List UInt8) : List UInt8 :=
  if cfi.isSuffixOf name then name.take (name.length - cfi.length)
  else if cfiJt.isSuffixOf name then name.take (name.length - cfiJt.length)
  else name

/-- What the callback keeps: the address and the name of a function. -/
def symbol? (raw : RawSymbol) : Option (ℕ × List UInt8) :=
  if raw.addr = 0 || (raw.type ≠ 116 && raw.type ≠ 84) || raw.first = 36 then none
  else some (raw.addr, stripCfi raw.name)

/-- Whether the token after an underscore is one of underscores; at the end of the name the flag stays as it is. -/
def nextIsSep (tokIsSep : Bool) : List UInt8 → Bool
  | [] => tokIsSep
  | next :: _ => next = kUnderscore

/-- The loop of `Tokenize` from `tok_start` on; `token` is what it has passed since. -/
def tokenizeFrom (token : List UInt8) (tokIsSep : Bool) : List UInt8 → List (List UInt8)
  | [] => [token]
  | c :: rest =>
    if !tokIsSep && c = kUnderscore then
      token :: tokenizeFrom [] (nextIsSep tokIsSep rest) rest
    else if tokIsSep && c ≠ kUnderscore then
      -- the last separator is the one that a join puts back
      token.dropLast :: tokenizeFrom [c] false rest
    else tokenizeFrom (token ++ [c]) tokIsSep rest

def tokenize (name : List UInt8) : List (List UInt8) := tokenizeFrom [] (name.head? = some kUnderscore) name

/-- Tokens with an underscore between each and the next. -/
def joinTokens : List (List UInt8) → List UInt8
  | [] => []
  | [token] => token
  | token :: next :: tokens => token ++ kUnderscore :: joinTokens (next :: tokens)

theorem joinTokens_cons {tokens : List (List UInt8)} (h : tokens ≠ []) (token : List UInt8) :
    joinTokens (token :: tokens) = token ++ kUnderscore :: joinTokens tokens := by
  cases tokens with
  | nil => exact absurd rfl h
  | cons next tokens => rfl

theorem tokenizeFrom_ne_nil (token : List UInt8) (tokIsSep : Bool) (name : List UInt8) :
    tokenizeFrom token tokIsSep name ≠ [] := by
  induction name generalizing token tokIsSep with
  | nil => exact List.cons_ne_nil _ _
  | cons c rest ih =>
    rw [tokenizeFrom]
    split_ifs
    · exact List.cons_ne_nil _ _
    · exact List.cons_ne_nil _ _
    · exact ih _ _

/-- What is passed of a token of underscores: they are underscores, and one of them is there before anything else. -/
def Passed (token : List UInt8) (tokIsSep : Bool) (rest : List UInt8) : Prop :=
  tokIsSep = true → (∀ c ∈ token, c = kUnderscore) ∧ (token = [] → rest.head? = some kUnderscore)

theorem joinTokens_tokenizeFrom {token : List UInt8} {tokIsSep : Bool} {name : List UInt8}
    (h : Passed token tokIsSep name) : joinTokens (tokenizeFrom token tokIsSep name) = token ++ name := by
  induction name generalizing token tokIsSep with
  | nil => exact (List.append_nil _).symm
  | cons c rest ih =>
    rw [tokenizeFrom]
    split_ifs with hsep hnot
    · obtain ⟨-, rfl⟩ : tokIsSep = false ∧ c = kUnderscore := by simpa using hsep
      rw [joinTokens_cons (tokenizeFrom_ne_nil _ _ _), ih]
      · rfl
      · intro hnext
        refine ⟨nofun, fun _ => ?_⟩
        cases rest with
        | nil =>
          rw [show tokIsSep = true from hnext] at hsep
          cases hsep
        | cons next rest => exact congrArg some (of_decide_eq_true hnext)
    · obtain ⟨rfl, hc⟩ : tokIsSep = true ∧ c ≠ kUnderscore := by simpa using hnot
      obtain ⟨hall, hfirst⟩ := h rfl
      have hne : token ≠ [] := fun hnil => hc (Option.some_inj.mp (hfirst hnil))
      rw [joinTokens_cons (tokenizeFrom_ne_nil _ _ _), ih fun hfalse => absurd hfalse Bool.false_ne_true]
      have hlast : token.dropLast ++ [kUnderscore] = token := by
        rw [← hall _ (List.getLast_mem hne), List.dropLast_append_getLast hne]
      calc token.dropLast ++ kUnderscore :: ([c] ++ rest)
          = (token.dropLast ++ [kUnderscore]) ++ c :: rest := by simp
        _ = token ++ c :: rest := by rw [hlast]
    · rw [ih]
      · simp
      · intro htrue
        obtain ⟨hall, -⟩ := h htrue
        refine ⟨fun d hd => ?_, fun hnil => absurd hnil (List.append_ne_nil_of_right_ne_nil _ nofun)⟩
        rcases List.mem_append.mp hd with hd | hd
        · exact hall d hd
        · have hsame : c = kUnderscore := by simpa [htrue] using hnot
          rw [List.mem_singleton.mp hd, hsame]

theorem joinTokens_tokenize (name : List UInt8) : joinTokens (tokenize name) = name := by
  refine @joinTokens_tokenizeFrom [] _ _ fun htrue => ⟨nofun, fun _ => ?_⟩
  simpa using htrue

theorem joinTokens_append {tokens tokens' : List (List UInt8)} (h : tokens ≠ []) (h' : tokens' ≠ []) :
    joinTokens (tokens ++ tokens') = joinTokens tokens ++ kUnderscore :: joinTokens tokens' := by
  induction tokens with
  | nil => exact absurd rfl h
  | cons token tokens ih =>
    cases tokens with
    | nil => exact joinTokens_cons h' token
    | cons next tokens =>
      rw [List.cons_append, joinTokens_cons (List.append_ne_nil_of_right_ne_nil _ h'), ih (List.cons_ne_nil _ _),
        joinTokens_cons (List.cons_ne_nil _ _), List.append_assoc, List.cons_append]

theorem tokenize_ne_nil (name : List UInt8) : tokenize name ≠ [] := tokenizeFrom_ne_nil _ _ _

/-- The tokens of some names, joined. -/
theorem joinTokens_flatMap (names : List (List UInt8)) :
    joinTokens (names.flatMap tokenize) = joinTokens names := by
  induction names with
  | nil => rfl
  | cons name names ih =>
    cases names with
    | nil => rw [List.flatMap_singleton, joinTokens_tokenize]; rfl
    | cons next names =>
      have hne : (next :: names).flatMap tokenize ≠ [] := by
        rw [List.flatMap_cons]
        exact List.append_ne_nil_of_left_ne_nil (tokenize_ne_nil next) _
      rw [List.flatMap_cons, joinTokens_append (tokenize_ne_nil name) hne, ih, joinTokens_tokenize]
      rfl

theorem tokenizeFrom_length_le (token : List UInt8) (tokIsSep : Bool) (name : List UInt8) :
    (tokenizeFrom token tokIsSep name).length ≤ name.length + 1 := by
  induction name generalizing token tokIsSep with
  | nil => exact Nat.le_refl _
  | cons c rest ih =>
    rw [tokenizeFrom]
    split_ifs
    · exact Nat.succ_le_succ (ih _ _)
    · exact Nat.succ_le_succ (ih _ _)
    · exact Nat.le_succ_of_le (ih _ _)

theorem tokenize_length_le (name : List UInt8) : (tokenize name).length ≤ name.length + 1 :=
  tokenizeFrom_length_le _ _ _

end LynxTrace.Kallsyms
