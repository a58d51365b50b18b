import LynxTrace.Kallsyms.KernelSymbols
import Mathlib.Data.List.Basic
import Mathlib.Data.List.Induction

/-!
# Kallsyms.TokenTable — `KernelSymbolMap::TokenTable` (src/kallsyms/kernel_symbol_map.cc)

The tokens one after the other, each with the top bit of its last character set, and the position of one token in
`sampling`.  Positions and ids are 32-bit.
-/

namespace LynxTrace.Kallsyms

structure TokenTable where
  numTokens : ℕ
  buf : List UInt8
  index : List ℕ
  deriving DecidableEq, Repr

/-- The characters of a token in the buffer; only ASCII characters are kept as they are. -/
def endToken : List UInt8 → List UInt8
  | [] => []
  | [c] => [c ||| 0x80]
  | c :: next :: token => (c &&& 0x7f) :: endToken (next :: token)

namespace TokenTable

section

variable (sampling : ℕ)

def add (t : TokenTable) (token : List UInt8) : TokenTable × ℕ :=
  if token = [] then (t, 0)
  else
    (⟨(t.numTokens + 1) % 2 ^ 32, t.buf ++ endToken token,
      if t.numTokens % sampling = 0 then t.index ++ [t.buf.length % 2 ^ 32] else t.index⟩, t.numTokens)

/-- The table with the null token, which has the id 0. -/
def init : TokenTable := (add sampling ⟨0, [], []⟩ [0]).1

/-- The scan of `Lookup`; `token` is what it has passed of the token with the id `curId`. -/
def scan (id : ℕ) : ℕ → List UInt8 → List UInt8 → List UInt8
  | _, _, [] => []
  | curId, token, c :: rest =>
    if c &&& 0x80 = 0 then scan id curId (token ++ [c]) rest
    else if curId = id then token ++ [c]
    else scan id (curId + 1) [] rest

/-- `<error>` -/
def lookupError : List UInt8 := [60, 101, 114, 114, 111, 114, 62]

/-- `TokenTable::Lookup`; the caller masks the top bits. -/
def lookup (t : TokenTable) (id : ℕ) : List UInt8 :=
  if id = 0 then []
  else if id > t.numTokens then lookupError
  else
    let indexOff := id / sampling
    scan id (indexOff * sampling) [] (t.buf.drop (t.index.getD indexOff 0))

/-- The tokens added one after the other. -/
def build (tokens : List (List UInt8)) : TokenTable :=
  tokens.foldl (fun t token => (t.add sampling token).1) (init sampling)

/-- The position of the token with an id, where there is one. -/
def offset (tokens : List (List UInt8)) (id : ℕ) : ℕ := ((tokens.take id).flatMap endToken).length

end

/-! ### Characters -/

/-- The character of a token, as the caller of `lookup` sees it. -/
def unmask (token : List UInt8) : List UInt8 := token.map (· &&& 0x7f)

/-- The bits of every character. -/
theorem char_bits (c : UInt8) :
    (c < 0x80 → c &&& 0x7f = c) ∧ c &&& 0x7f &&& 0x7f = c &&& 0x7f ∧ (c ||| 0x80) &&& 0x7f = c &&& 0x7f ∧
      c &&& 0x7f &&& 0x80 = 0 ∧ (c ||| 0x80) &&& 0x80 ≠ 0 := by
  have h := (by decide +kernel : ∀ i : Fin 256,
    (UInt8.ofBitVec ⟨i⟩ < 0x80 → UInt8.ofBitVec ⟨i⟩ &&& 0x7f = UInt8.ofBitVec ⟨i⟩) ∧
      UInt8.ofBitVec ⟨i⟩ &&& 0x7f &&& 0x7f = UInt8.ofBitVec ⟨i⟩ &&& 0x7f ∧
      (UInt8.ofBitVec ⟨i⟩ ||| 0x80) &&& 0x7f = UInt8.ofBitVec ⟨i⟩ &&& 0x7f ∧
      UInt8.ofBitVec ⟨i⟩ &&& 0x7f &&& 0x80 = 0 ∧ (UInt8.ofBitVec ⟨i⟩ ||| 0x80) &&& 0x80 ≠ 0)
  exact h c.toBitVec.toFin

theorem and_127_of_lt {c : UInt8} (hc : c < 0x80) : c &&& 0x7f = c := (char_bits c).1 hc

theorem and_127_and_127 (c : UInt8) : c &&& 0x7f &&& 0x7f = c &&& 0x7f := (char_bits c).2.1

theorem or_128_and_127 (c : UInt8) : (c ||| 0x80) &&& 0x7f = c &&& 0x7f := (char_bits c).2.2.1

theorem and_127_and_128 (c : UInt8) : c &&& 0x7f &&& 0x80 = 0 := (char_bits c).2.2.2.1

theorem or_128_and_128 (c : UInt8) : (c ||| 0x80) &&& 0x80 ≠ 0 := (char_bits c).2.2.2.2

variable {token : List UInt8}

theorem unmask_of_ascii (hascii : ∀ c ∈ token, c < 0x80) : unmask token = token := by
  refine (List.map_congr_left fun c hc => ?_).trans (List.map_id token)
  exact and_127_of_lt (hascii c hc)

variable {tokens : List (List UInt8)}

theorem unmask_joinTokens_cons (h : tokens ≠ []) (token : List UInt8) :
    unmask (joinTokens (token :: tokens)) = unmask token ++ kUnderscore :: unmask (joinTokens tokens) := by
  rw [joinTokens_cons h, unmask, List.map_append]
  rfl

/-- The mark of the last character is masked away. -/
theorem unmask_endToken (token : List UInt8) : unmask (endToken token) = unmask token := by
  induction token with
  | nil => rfl
  | cons c token ih =>
    cases token with
    | nil => exact congrArg (· :: []) (or_128_and_127 c)
    | cons next token =>
      show (c &&& 0x7f &&& 0x7f) :: unmask (endToken (next :: token)) = _
      rw [and_127_and_127, ih]
      rfl

theorem length_endToken (token : List UInt8) : (endToken token).length = token.length := by
  induction token with
  | nil => rfl
  | cons c token ih =>
    cases token with
    | nil => rfl
    | cons next token => exact congrArg (· + 1) ih

/-! ### Scanning -/

section Scan

variable (id : ℕ)

/-- The scan passes a token whose id it is not looking for. -/
theorem scan_endToken {curId : ℕ} (hne : token ≠ []) (passed rest : List UInt8) :
    scan id curId passed (endToken token ++ rest) =
      if curId = id then passed ++ endToken token else scan id (curId + 1) [] rest := by
  induction token generalizing passed with
  | nil => exact absurd rfl hne
  | cons c token ih =>
    cases token with
    | nil =>
      show (if (c ||| 0x80) &&& 0x80 = 0 then _ else _) = _
      rw [if_neg (or_128_and_128 c)]
      rfl
    | cons next token =>
      show (if c &&& 0x7f &&& 0x80 = 0 then scan id curId (passed ++ [c &&& 0x7f]) (endToken (next :: token) ++ rest)
        else _) = _
      rw [if_pos (and_127_and_128 c), ih (List.cons_ne_nil _ _), List.append_assoc]
      rfl

/-- From the start of the token with the id `curId`. -/
theorem scan_flatMap (hne : ∀ token ∈ tokens, token ≠ []) {curId k : ℕ} (hk : k < tokens.length) (hid : id = curId + k)
    :
    scan id curId [] (tokens.flatMap endToken) = endToken tokens[k] := by
  induction tokens generalizing curId k with
  | nil => exact absurd hk (Nat.not_lt_zero _)
  | cons token tokens ih =>
    rw [List.flatMap_cons, scan_endToken id (hne token List.mem_cons_self)]
    cases k with
    | zero => exact if_pos hid.symm
    | succ k =>
      rw [if_neg (by omega)]
      exact ih (fun t ht => hne t (List.mem_cons_of_mem _ ht)) (Nat.lt_of_succ_lt_succ hk) (by omega)

end Scan

/-! ### The table of some tokens -/

/-- The table of the tokens, the null token first. -/
structure Holds (sampling : ℕ) (tokens : List (List UInt8)) (t : TokenTable) : Prop where
  numTokens : t.numTokens = tokens.length
  buf : t.buf = tokens.flatMap endToken
  index : ∀ k, k * sampling < tokens.length → t.index[k]? = some (offset tokens (k * sampling))
  indexLength : ∀ k, k < t.index.length ↔ k * sampling < tokens.length

theorem offset_append {id : ℕ} (h : id ≤ tokens.length) (more : List (List UInt8)) :
    offset (tokens ++ more) id = offset tokens id := by
  rw [offset, offset, List.take_append_of_le_length h]

theorem offset_length (tokens : List (List UInt8)) :
    offset tokens tokens.length = (tokens.flatMap endToken).length := by
  rw [offset, List.take_length]

theorem Holds.add {sampling : ℕ} (hsampling : 0 < sampling) {t : TokenTable} (h : Holds sampling tokens t)
    (hne : token ≠ []) (hfits : (tokens.flatMap endToken).length < 2 ^ 32) (hcount : tokens.length + 1 < 2 ^ 32) :
    Holds sampling (tokens ++ [token]) (t.add sampling token).1 := by
  obtain ⟨hnum, hbuf, hindex, hlen⟩ := h
  unfold TokenTable.add
  rw [if_neg hne]
  have hoffset : t.buf.length % 2 ^ 32 = offset (tokens ++ [token]) tokens.length := by
    rw [offset_append (Nat.le_refl _), offset_length, hbuf, Nat.mod_eq_of_lt hfits]
  refine ⟨?_, ?_, ?_, ?_⟩
  · show (t.numTokens + 1) % 2 ^ 32 = _
    rw [hnum, Nat.mod_eq_of_lt hcount, List.length_append, List.length_singleton]
  · show t.buf ++ endToken token = _
    rw [hbuf, List.flatMap_append, List.flatMap_singleton]
  · intro k hk
    rw [List.length_append, List.length_singleton] at hk
    rw [hnum]
    by_cases hlast : k * sampling = tokens.length
    · -- the position of the new token
      have hmod : tokens.length % sampling = 0 := by rw [← hlast, Nat.mul_mod_left]
      have hindexLen : t.index.length = k := by
        apply Nat.le_antisymm
        · exact Nat.not_lt.mp fun hlt => absurd ((hlen k).mp hlt) (by omega)
        · refine Nat.not_lt.mp fun hlt => Nat.lt_irrefl _ ((hlen t.index.length).mpr ?_)
          rw [← hlast]
          exact Nat.mul_lt_mul_of_pos_right hlt hsampling
      rw [if_pos hmod, ← hindexLen, List.getElem?_concat_length, hoffset, ← hlast, hindexLen]
    · have hold : k * sampling < tokens.length := by omega
      rw [offset_append (Nat.le_of_lt hold)]
      split
      · rw [List.getElem?_append_left ((hlen k).mpr hold)]
        exact hindex k hold
      · exact hindex k hold
  · intro k
    rw [List.length_append, List.length_singleton, hnum]
    split
    · rename_i hmod
      obtain ⟨q, hq⟩ := Nat.dvd_of_mod_eq_zero hmod
      rw [Nat.mul_comm] at hq
      have hindexLen : t.index.length = q := by
        apply Nat.le_antisymm
        · exact Nat.not_lt.mp fun hlt => absurd ((hlen q).mp hlt) (by omega)
        · refine Nat.not_lt.mp fun hlt => Nat.lt_irrefl _ ((hlen t.index.length).mpr ?_)
          rw [hq]
          exact Nat.mul_lt_mul_of_pos_right hlt hsampling
      rw [List.length_append, List.length_singleton, hindexLen, hq, Nat.lt_succ_iff, Nat.lt_succ_iff]
      exact (Nat.mul_le_mul_right_iff hsampling).symm
    · rename_i hmod
      rw [hlen k]
      have hne : k * sampling ≠ tokens.length := fun heq => hmod (by rw [← heq, Nat.mul_mod_left])
      omega

theorem holds_init {sampling : ℕ} (hsampling : 0 < sampling) : Holds sampling [[0]] (init sampling) := by
  have hnil : Holds sampling [] ⟨0, [], []⟩ :=
    ⟨rfl, rfl, fun k hk => absurd hk (Nat.not_lt_zero _), fun k => ⟨fun hk => absurd hk (Nat.not_lt_zero _),
      fun hk => absurd hk (Nat.not_lt_zero _)⟩⟩
  exact hnil.add hsampling (List.cons_ne_nil _ _) (by decide) (by decide)

/-- The tokens in the table: each is one that was added and is not empty. -/
def stored (tokens : List (List UInt8)) : List (List UInt8) := [0] :: tokens.filter (· ≠ [])

theorem stored_concat (tokens : List (List UInt8)) (token : List UInt8) :
    stored (tokens ++ [token]) = stored tokens ++ if token = [] then [] else [token] := by
  rw [stored, stored, List.filter_append, List.cons_append]
  by_cases hne : token = []
  · rw [if_pos hne, hne]
    rfl
  · rw [if_neg hne, List.filter_singleton, decide_eq_true hne]
    rfl

theorem ne_nil_of_mem_stored (h : token ∈ stored tokens) : token ≠ [] := by
  rcases List.mem_cons.mp h with rfl | h
  · exact List.cons_ne_nil _ _
  · exact of_decide_eq_true (List.mem_filter.mp h).2

theorem length_le_flatMap (hne : ∀ token ∈ tokens, token ≠ []) : tokens.length ≤ (tokens.flatMap endToken).length := by
  induction tokens with
  | nil => exact Nat.le_refl _
  | cons token tokens ih =>
    have hpos : 0 < token.length := List.length_pos_iff.mpr (hne token List.mem_cons_self)
    have htail := ih fun t ht => hne t (List.mem_cons_of_mem _ ht)
    rw [List.flatMap_cons, List.length_append, length_endToken, List.length_cons]
    omega

theorem holds_build {sampling : ℕ} (hsampling : 0 < sampling)
    (hfits : ((stored tokens).flatMap endToken).length < 2 ^ 32) :
    Holds sampling (stored tokens) (build sampling tokens) := by
  induction tokens using List.reverseRecOn with
  | nil => exact holds_init hsampling
  | append_singleton tokens token ih =>
    have hbuild : build sampling (tokens ++ [token]) = ((build sampling tokens).add sampling token).1 := by
      rw [build, List.foldl_append]
      rfl
    rw [stored_concat] at hfits ⊢
    rw [hbuild]
    by_cases hne : token = []
    · rw [if_pos hne, List.append_nil] at hfits ⊢
      rw [add, if_pos hne]
      exact ih hfits
    · rw [if_neg hne] at hfits ⊢
      rw [List.flatMap_append, List.length_append, List.flatMap_singleton, length_endToken] at hfits
      have hpos : 0 < token.length := List.length_pos_iff.mpr hne
      have hcount : (stored tokens).length ≤ _ := length_le_flatMap fun t ht => ne_nil_of_mem_stored ht
      exact (ih (by omega)).add hsampling hne (by omega) (by omega)

theorem drop_offset (tokens : List (List UInt8)) (id : ℕ) :
    (tokens.flatMap endToken).drop (offset tokens id) = (tokens.drop id).flatMap endToken := by
  have hsplit : tokens.flatMap endToken = (tokens.take id).flatMap endToken ++ (tokens.drop id).flatMap endToken := by
    rw [← List.flatMap_append, List.take_append_drop]
  rw [hsplit]
  exact List.drop_left

/-- A token is found by its id. -/
theorem Holds.lookup {sampling : ℕ} {t : TokenTable} (h : Holds sampling tokens t) (hne : ∀ token ∈ tokens, token ≠ [])
    {id : ℕ} (hpos : 0 < id) (hid : id < tokens.length) : t.lookup sampling id = endToken tokens[id] := by
  have hle : id / sampling * sampling ≤ id := Nat.div_mul_le_self id sampling
  have hindex := h.index (id / sampling) (Nat.lt_of_le_of_lt hle hid)
  unfold TokenTable.lookup
  rw [if_neg (Nat.ne_of_gt hpos), if_neg (by rw [h.numTokens]; omega)]
  dsimp only
  rw [List.getD_eq_getElem?_getD, hindex, Option.getD_some, h.buf, drop_offset]
  have hk : id - id / sampling * sampling < (tokens.drop (id / sampling * sampling)).length := by
    rw [List.length_drop]
    omega
  rw [scan_flatMap id (fun token ht => hne token (List.mem_of_mem_drop ht)) hk (by omega), List.getElem_drop]
  congr 2
  omega

theorem lookup_build {sampling : ℕ} (hsampling : 0 < sampling)
    (hfits : ((stored tokens).flatMap endToken).length < 2 ^ 32) {id : ℕ} (hpos : 0 < id)
    (hid : id < (stored tokens).length) : (build sampling tokens).lookup sampling id = endToken (stored tokens)[id] :=
  (holds_build hsampling hfits).lookup (fun _ ht => ne_nil_of_mem_stored ht) hpos hid

end TokenTable

end LynxTrace.Kallsyms
