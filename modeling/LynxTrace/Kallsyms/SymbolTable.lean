import LynxTrace.Kallsyms.KernelSymbolMap

/-!
# Kallsyms.SymbolTable — the symbol table of a `KernelSymbolMap`

`encodeFrom` is what the table of some groups looks like.  Parsing either writes past the end of the buffer or makes
that table, with index entries at the starts of groups (`Encodes`).
-/

namespace LynxTrace.Kallsyms

open LynxTrace.Wire (encodeVarint)
open LynxTrace.Protozero (parseVarInt)

/-! ### The bytes of a table -/

theorem parseVarInt_encode {v : ℕ} (hv : v < 2 ^ 64) (rest : List UInt8) :
    parseVarInt (encodeVarint 10 v ++ rest) = some (v, rest) :=
  Protozero.parseVarInt_append (Wire.isVarint64_encode hv) rest

theorem length_encodeVarint_pos (v : ℕ) : 0 < (encodeVarint 10 v).length := by
  rw [encodeVarint]
  split_ifs
  · exact Nat.one_pos
  · exact Nat.succ_pos _

def encodeFrom (id : List UInt8 → ℕ) : ℕ → List TokenGroup → List UInt8
  | _, [] => []
  | prevSymAddr, group :: groups =>
    encodeVarint 10 ((group.1 - prevSymAddr) % 2 ^ 32) ++ encodeIds id group.2 ++ encodeFrom id group.1 groups

/-- The address of the last group. -/
def lastAddr (prevSymAddr : ℕ) (groups : List TokenGroup) : ℕ := (groups.getLast?.map Prod.fst).getD prevSymAddr

theorem lastAddr_cons (prevSymAddr : ℕ) (group : TokenGroup) (groups : List TokenGroup) :
    lastAddr prevSymAddr (group :: groups) = lastAddr group.1 groups := by
  cases groups with
  | nil => rfl
  | cons next groups =>
    rw [lastAddr, lastAddr, List.getLast?_cons_cons]
    cases h : (next :: groups).getLast? with
    | none => exact absurd (List.getLast?_eq_none_iff.mp h) (List.cons_ne_nil _ _)
    | some last => rfl

theorem lastAddr_concat (prevSymAddr : ℕ) (groups : List TokenGroup) (group : TokenGroup) :
    lastAddr prevSymAddr (groups ++ [group]) = group.1 := by
  rw [lastAddr, List.getLast?_concat]
  rfl

theorem encodeFrom_append (id : List UInt8 → ℕ) (prevSymAddr : ℕ) (groups groups' : List TokenGroup) :
    encodeFrom id prevSymAddr (groups ++ groups') =
      encodeFrom id prevSymAddr groups ++ encodeFrom id (lastAddr prevSymAddr groups) groups' := by
  induction groups generalizing prevSymAddr with
  | nil => rfl
  | cons group groups ih =>
    rw [List.cons_append, encodeFrom, encodeFrom, ih, lastAddr_cons]
    exact (List.append_assoc _ _ _).symm

/-! ### Encoding -/

/-- What has been encoded after some groups. -/
structure Encodes (base : ℕ) (id : List UInt8 → ℕ) (groups : List TokenGroup) (s : Encoder) : Prop where
  buf : s.buf = encodeFrom id base groups
  prev : s.prevSymAddr = lastAddr base groups
  size : s.buf.length ≤ s.bufSize
  bound : s.bufSize ≤ 2 ^ 32 + 33792
  numSyms : s.numSyms = groups.length
  index : ∀ entry ∈ s.index, ∃ before group after, groups = before ++ group :: after ∧
    entry = ((group.1 - base) % 2 ^ 32, (encodeFrom id base before).length % 2 ^ 32)
  indexHead : s.index.head? = groups.head?.map fun group => ((group.1 - base) % 2 ^ 32, 0)

theorem encodes_nil (base : ℕ) (id : List UInt8 → ℕ) : Encodes base id [] ⟨kBufSize, [], [], 0, base⟩ where
  buf := rfl
  prev := rfl
  size := Nat.zero_le _
  bound := Nat.le_of_lt (by show 2 * 1024 * 1024 < 2 ^ 32 + 33792; decide)
  numSyms := rfl
  index := nofun
  indexHead := rfl

section Encoding

variable {sampling base : ℕ} {id : List UInt8 → ℕ} {groups : List TokenGroup} {group : TokenGroup} {s s' : Encoder}

/-- The buffer only grows while its size is a 32-bit number, and then nothing of it is lost. -/
theorem encodeSymbol_grows (hsize : s.buf.length ≤ s.bufSize) (hbound : s.bufSize ≤ 2 ^ 32 + 33792)
    (hgrows : s.bufSize - s.buf.length % 2 ^ 32 < 1024) : s.buf.length < 2 ^ 32 := by
  by_contra hge
  have hsub : s.buf.length % 2 ^ 32 = s.buf.length - 2 ^ 32 := by omega
  omega

/-- What a group adds to the buffer and the index. -/
theorem encodeSymbol_cases (hsize : s.buf.length ≤ s.bufSize) (hbound : s.bufSize ≤ 2 ^ 32 + 33792)
    (hstep : encodeSymbol sampling base id s group = some s') :
    s'.buf = s.buf ++ (encodeVarint 10 ((group.1 - s.prevSymAddr) % 2 ^ 32) ++ encodeIds id group.2) ∧
      s'.prevSymAddr = group.1 ∧ s'.numSyms = s.numSyms + 1 ∧ s'.buf.length ≤ s'.bufSize ∧
      s'.bufSize ≤ 2 ^ 32 + 33792 ∧
      s'.index = if s.numSyms % sampling = 0 then s.index ++ [((group.1 - base) % 2 ^ 32, s.buf.length % 2 ^ 32)]
        else s.index := by
  have hkept : (if s.bufSize - s.buf.length % 2 ^ 32 < 1024 then s.buf.take (s.buf.length % 2 ^ 32) else s.buf) =
      s.buf := by
    split_ifs with hgrows
    · rw [Nat.mod_eq_of_lt (encodeSymbol_grows hsize hbound hgrows), List.take_length]
    · rfl
  have hbound' : (if s.bufSize - s.buf.length % 2 ^ 32 < 1024 then s.bufSize + 32768 else s.bufSize) ≤
      2 ^ 32 + 33792 := by
    split_ifs with hgrows
    · have hlt := encodeSymbol_grows hsize hbound hgrows
      rw [Nat.mod_eq_of_lt hlt] at hgrows
      omega
    · exact hbound
  unfold Kallsyms.encodeSymbol at hstep
  dsimp only at hstep
  rw [hkept] at hstep
  generalize (if s.bufSize - s.buf.length % 2 ^ 32 < 1024 then s.bufSize + 32768 else s.bufSize) = bufSize
    at hstep hbound'
  obtain ⟨hfits, heq⟩ := Option.ite_none_right_eq_some.mp hstep
  obtain rfl := Option.some_inj.mp heq
  refine ⟨rfl, rfl, rfl, ?_, hbound', rfl⟩
  rw [List.length_append]
  exact hfits

theorem Encodes.encodeSymbol (h : Encodes base id groups s)
    (hstep : encodeSymbol sampling base id s group = some s') : Encodes base id (groups ++ [group]) s' := by
  obtain ⟨hbuf, hprev, hsize, hbound, hnum, hindex, hhead⟩ := h
  obtain ⟨hbuf', hprev', hnum', hsize', hbound', hindex'⟩ := encodeSymbol_cases hsize hbound hstep
  refine ⟨?_, ?_, hsize', hbound', ?_, ?_, ?_⟩
  · rw [hbuf', hbuf, hprev, encodeFrom_append, encodeFrom, encodeFrom, List.append_nil]
  · rw [hprev', lastAddr_concat]
  · rw [hnum', hnum, List.length_append, List.length_singleton]
  · -- the entries there were, and maybe one at the new group
    have hold : ∀ entry ∈ s.index, ∃ before g after, groups ++ [group] = before ++ g :: after ∧
        entry = ((g.1 - base) % 2 ^ 32, (encodeFrom id base before).length % 2 ^ 32) := by
      intro entry hentry
      obtain ⟨before, g, after, rfl, heq⟩ := hindex entry hentry
      exact ⟨before, g, after ++ [group], by rw [List.append_assoc, List.cons_append], heq⟩
    intro entry hentry
    rw [hindex'] at hentry
    split_ifs at hentry
    · rcases List.mem_append.mp hentry with hentry | hentry
      · exact hold entry hentry
      · exact ⟨groups, group, [], rfl, by rw [List.mem_singleton.mp hentry, hbuf]⟩
    · exact hold entry hentry
  · rw [hindex']
    cases groups with
    | nil =>
      rw [hnum, List.length_nil, if_pos (Nat.zero_mod _), hbuf]
      have hnone : s.index = [] := List.head?_eq_none_iff.mp hhead
      rw [hnone]
      rfl
    | cons first groups =>
      rw [List.cons_append, List.head?_cons]
      rw [List.head?_cons] at hhead
      split_ifs
      · rw [List.head?_append, hhead]
        rfl
      · exact hhead

theorem Encodes.encodeSymbols (h : Encodes base id groups s) {more : List TokenGroup}
    (hrun : encodeSymbols sampling base id s more = some s') : Encodes base id (groups ++ more) s' := by
  induction more generalizing groups s with
  | nil =>
    obtain rfl := Option.some_inj.mp hrun
    rwa [List.append_nil]
  | cons group more ih =>
    obtain ⟨next, hstep, hrest⟩ := Option.bind_eq_some_iff.mp hrun
    have hdone := ih (h.encodeSymbol hstep) hrest
    rwa [List.append_assoc] at hdone

/-- The table that parsing makes. -/
theorem encodeSymbols_spec (hrun : encodeSymbols sampling base id ⟨kBufSize, [], [], 0, base⟩ groups = some s) :
    Encodes base id groups s :=
  (encodes_nil base id).encodeSymbols hrun

/-- A group of at most 1024 bytes has room, as long as the size of the table is a 32-bit number. -/
theorem Encodes.exists_encodeSymbol (sampling : ℕ) (h : Encodes base id groups s) (hlt : s.buf.length < 2 ^ 32)
    (hsmall : (encodeVarint 10 ((group.1 - s.prevSymAddr) % 2 ^ 32) ++ encodeIds id group.2).length ≤ 1024) :
    ∃ s', Kallsyms.encodeSymbol sampling base id s group = some s' := by
  have hsize := h.size
  unfold Kallsyms.encodeSymbol
  dsimp only
  rw [Nat.mod_eq_of_lt hlt, List.take_length, ite_self]
  refine ⟨_, if_pos ?_⟩
  split_ifs with hgrows
  · omega
  · omega

theorem Encodes.exists_encodeSymbols (sampling : ℕ) (h : Encodes base id groups s) {more : List TokenGroup}
    (hlt : (encodeFrom id base (groups ++ more)).length < 2 ^ 32) (hsmall : ∀ group ∈ more, ∀ prevSymAddr,
      (encodeVarint 10 ((group.1 - prevSymAddr) % 2 ^ 32) ++ encodeIds id group.2).length ≤ 1024) :
    ∃ s', Kallsyms.encodeSymbols sampling base id s more = some s' := by
  induction more generalizing groups s with
  | nil => exact ⟨s, rfl⟩
  | cons group more ih =>
    have hlt' : s.buf.length < 2 ^ 32 := by
      rw [encodeFrom_append, List.length_append] at hlt
      rw [h.buf]
      omega
    obtain ⟨next, hstep⟩ := h.exists_encodeSymbol sampling hlt' (hsmall group List.mem_cons_self s.prevSymAddr)
    obtain ⟨s', hrest⟩ := ih (h.encodeSymbol hstep) (by rwa [List.append_assoc])
      fun g hg => hsmall g (List.mem_cons_of_mem _ hg)
    exact ⟨s', by rw [Kallsyms.encodeSymbols, hstep]; exact hrest⟩

end Encoding

theorem length_encodeVarint_le {k v : ℕ} (hv : v < 128 ^ (k + 1)) (n : ℕ) : (encodeVarint n v).length ≤ k + 1 := by
  induction n generalizing k v with
  | zero => exact Nat.zero_le _
  | succ n ih =>
    rw [encodeVarint]
    split_ifs with hlast
    · exact Nat.succ_le_succ (Nat.zero_le k)
    · cases k with
      | zero => exact absurd hv hlast
      | succ k =>
        have hdiv : v / 128 < 128 ^ (k + 1) := Nat.div_lt_of_lt_mul (by rwa [Nat.pow_succ, Nat.mul_comm] at hv)
        exact Nat.succ_le_succ (ih hdiv)

/-- The bytes of a group with its difference. -/
theorem length_group_le (id : List UInt8 → ℕ) (tokens : List (List UInt8)) :
    (encodeIds id tokens).length ≤ 5 * tokens.length := by
  induction tokens with
  | nil => exact Nat.le_refl 0
  | cons token tokens ih =>
    cases tokens with
    | nil => exact length_encodeVarint_le (show _ < 128 ^ (4 + 1) by omega) 10
    | cons next tokens =>
      have hhead : (encodeVarint 10 (id token * 2 % 2 ^ 32)).length ≤ 4 + 1 :=
        length_encodeVarint_le (by omega) 10
      rw [encodeIds, List.length_append, List.length_cons]
      omega

/-! ### Scanning -/

/-- The last group that is not after the address, with the bytes from its tokens on. -/
def bestFrom (base symRelAddr : ℕ) (id : List UInt8 → ℕ) :
    Option (List UInt8 × ℕ) → List TokenGroup → Option (List UInt8 × ℕ)
  | next, [] => next
  | next, group :: groups =>
    if group.1 - base > symRelAddr then next
    else
      bestFrom base symRelAddr id (some (encodeIds id group.2 ++ encodeFrom id group.1 groups, group.1 - base)) groups

section Scanning

variable {base symRelAddr : ℕ} {id : List UInt8 → ℕ} {fuel prevSymAddr : ℕ}

/-- The ids of a group are passed. -/
theorem findSymbol_encodeIds (symRelAddr addr : ℕ) {tokens : List (List UInt8)} (hne : tokens ≠ [])
    (next : Option (List UInt8 × ℕ)) (rest : List UInt8) (hfuel : (encodeIds id tokens ++ rest).length < fuel) :
    ∃ fuel', rest.length < fuel' ∧ findSymbol symRelAddr fuel addr false false next (encodeIds id tokens ++ rest) =
      findSymbol symRelAddr fuel' addr false true next rest := by
  induction tokens generalizing fuel with
  | nil => exact absurd rfl hne
  | cons token tokens ih =>
    cases fuel with
    | zero => exact absurd hfuel (Nat.not_lt_zero _)
    | succ fuel =>
      cases tokens with
      | nil =>
        have hpos := length_encodeVarint_pos (id token * 2 % 2 ^ 32 + 1)
        have hparse := parseVarInt_encode (v := id token * 2 % 2 ^ 32 + 1) (by omega) rest
        refine ⟨fuel, ?_, ?_⟩
        · rw [encodeIds, List.length_append] at hfuel
          omega
        · rw [findSymbol, encodeIds, hparse]
          have hodd : (id token * 2 % 2 ^ 32 + 1) % 2 = 1 := by omega
          simp only [Bool.false_eq_true, if_false, hodd, decide_true]
      | cons next' tokens =>
        have hpos := length_encodeVarint_pos (id token * 2 % 2 ^ 32)
        have hparse := parseVarInt_encode (v := id token * 2 % 2 ^ 32) (by omega)
          (encodeIds id (next' :: tokens) ++ rest)
        rw [encodeIds, List.append_assoc] at hfuel ⊢
        have hlen : (encodeIds id (next' :: tokens) ++ rest).length < fuel := by
          rw [List.length_append] at hfuel
          omega
        obtain ⟨fuel', hfuel', heq⟩ := ih (List.cons_ne_nil _ _) hlen
        refine ⟨fuel', hfuel', ?_⟩
        rw [findSymbol, hparse]
        have heven : ¬ id token * 2 % 2 ^ 32 % 2 = 1 := by omega
        simp only [Bool.false_eq_true, if_false, heven, decide_false]
        exact heq

/-- The groups of a table, in increasing order of their addresses. -/
structure Ordered (base prevSymAddr : ℕ) (groups : List TokenGroup) : Prop where
  base_le : base ≤ prevSymAddr
  increasing : (prevSymAddr :: groups.map Prod.fst).Pairwise (· < ·)
  span : ∀ group ∈ groups, group.1 - base < 2 ^ 32
  tokens : ∀ group ∈ groups, group.2 ≠ []

theorem Ordered.tail {group : TokenGroup} {groups : List TokenGroup} (h : Ordered base prevSymAddr (group :: groups)) :
    prevSymAddr < group.1 ∧ Ordered base group.1 groups := by
  obtain ⟨hbase, hinc, hspan, htokens⟩ := h
  rw [List.map_cons, List.pairwise_cons] at hinc
  have hlt : prevSymAddr < group.1 := hinc.1 _ List.mem_cons_self
  exact ⟨hlt, Nat.le_of_lt (Nat.lt_of_le_of_lt hbase hlt), hinc.2,
    fun g hg => hspan g (List.mem_cons_of_mem _ hg), fun g hg => htokens g (List.mem_cons_of_mem _ hg)⟩

theorem findSymbol_encodeFrom {groups : List TokenGroup} (h : Ordered base prevSymAddr groups)
    (next : Option (List UInt8 × ℕ)) (hfuel : (encodeFrom id prevSymAddr groups).length < fuel) :
    findSymbol symRelAddr fuel (prevSymAddr - base) false true next (encodeFrom id prevSymAddr groups) =
      bestFrom base symRelAddr id next groups := by
  induction groups generalizing prevSymAddr fuel next with
  | nil =>
    cases fuel with
    | zero => rfl
    | succ fuel => rfl
  | cons group groups ih =>
    cases fuel with
    | zero => exact absurd hfuel (Nat.not_lt_zero _)
    | succ fuel =>
      obtain ⟨hlt, htail⟩ := h.tail
      have hspan := h.span group List.mem_cons_self
      have hbase := h.base_le
      have hdelta : (group.1 - prevSymAddr) % 2 ^ 32 = group.1 - prevSymAddr := Nat.mod_eq_of_lt (by omega)
      have haddr : (prevSymAddr - base + (group.1 - prevSymAddr) % 2 ^ 32) % 2 ^ 32 = group.1 - base := by
        rw [Nat.mod_eq_of_lt (show group.1 - prevSymAddr < 2 ^ 32 by omega), Nat.mod_eq_of_lt] <;> omega
      rw [encodeFrom, hdelta, List.append_assoc] at hfuel ⊢
      have hparse := parseVarInt_encode (v := group.1 - prevSymAddr) (by omega)
        (encodeIds id group.2 ++ encodeFrom id group.1 groups)
      have hpos := length_encodeVarint_pos (group.1 - prevSymAddr)
      rw [findSymbol, hparse, bestFrom]
      simp only [if_true, Bool.false_eq_true, if_false, haddr]
      split_ifs with hafter
      · rfl
      · have hlen : (encodeIds id group.2 ++ encodeFrom id group.1 groups).length < fuel := by
          rw [List.length_append] at hfuel
          omega
        obtain ⟨fuel', hfuel', heq⟩ := findSymbol_encodeIds symRelAddr (group.1 - base)
          (h.tokens group List.mem_cons_self)
          (some (encodeIds id group.2 ++ encodeFrom id group.1 groups, group.1 - base)) _ hlen
        rw [heq]
        exact ih htail _ hfuel'

/-- The best group is the last one that is not after the address. -/
theorem bestFrom_spec (symRelAddr : ℕ) (id : List UInt8 → ℕ) {groups : List TokenGroup}
    (h : Ordered base prevSymAddr groups) (next : Option (List UInt8 × ℕ)) :
    (bestFrom base symRelAddr id next groups = next ∧ ∀ group ∈ groups, symRelAddr < group.1 - base) ∨
      ∃ before group after, groups = before ++ group :: after ∧ group.1 - base ≤ symRelAddr ∧
        (∀ g ∈ after, symRelAddr < g.1 - base) ∧ bestFrom base symRelAddr id next groups =
          some (encodeIds id group.2 ++ encodeFrom id group.1 after, group.1 - base) := by
  induction groups generalizing prevSymAddr next with
  | nil => exact Or.inl ⟨rfl, nofun⟩
  | cons group groups ih =>
    obtain ⟨hlt, htail⟩ := h.tail
    rw [bestFrom]
    split_ifs with hafter
    · refine Or.inl ⟨rfl, fun g hg => ?_⟩
      rcases List.mem_cons.mp hg with rfl | hg
      · exact hafter
      · have hle : group.1 < g.1 := by
          have hinc := (List.pairwise_cons.mp htail.increasing).1
          exact hinc g.1 (List.mem_map_of_mem hg)
        have hbase := htail.base_le
        omega
    · right
      rcases ih htail (some (encodeIds id group.2 ++ encodeFrom id group.1 groups, group.1 - base)) with
        ⟨hbest, hall⟩ | ⟨before, g, after, rfl, hle, hall, hbest⟩
      · exact ⟨[], group, groups, rfl, Nat.not_lt.mp hafter, hall, hbest⟩
      · exact ⟨group :: before, g, after, rfl, hle, hall, hbest⟩

/-- From the start of a group that is not after the address the scan finds the last such group. -/
theorem findSymbol_spec {group : TokenGroup} {groups : List TokenGroup} (htokens : group.2 ≠ [])
    (h : Ordered base group.1 groups) (hle : group.1 - base ≤ symRelAddr)
    (hfuel : (encodeFrom id prevSymAddr (group :: groups)).length < fuel) :
    ∃ before g after, group :: groups = before ++ g :: after ∧ g.1 - base ≤ symRelAddr ∧
      (∀ x ∈ after, symRelAddr < x.1 - base) ∧
      findSymbol symRelAddr fuel (group.1 - base) true true none (encodeFrom id prevSymAddr (group :: groups)) =
        some (encodeIds id g.2 ++ encodeFrom id g.1 after, g.1 - base) := by
  cases fuel with
  | zero => exact absurd hfuel (Nat.not_lt_zero _)
  | succ fuel =>
    rw [encodeFrom, List.append_assoc] at hfuel ⊢
    have hparse := parseVarInt_encode (v := (group.1 - prevSymAddr) % 2 ^ 32) (by omega)
      (encodeIds id group.2 ++ encodeFrom id group.1 groups)
    have hpos := length_encodeVarint_pos ((group.1 - prevSymAddr) % 2 ^ 32)
    have hlen : (encodeIds id group.2 ++ encodeFrom id group.1 groups).length < fuel := by
      rw [List.length_append] at hfuel
      omega
    obtain ⟨fuel', hfuel', heq⟩ := findSymbol_encodeIds symRelAddr (group.1 - base) htokens
      (some (encodeIds id group.2 ++ encodeFrom id group.1 groups, group.1 - base)) _ hlen
    have hnot : ¬ group.1 - base > symRelAddr := Nat.not_lt.mpr hle
    rw [findSymbol, hparse]
    simp only [if_true, if_neg hnot]
    rw [heq, findSymbol_encodeFrom h _ hfuel']
    rcases bestFrom_spec symRelAddr id h
      (some (encodeIds id group.2 ++ encodeFrom id group.1 groups, group.1 - base)) with
      ⟨hbest, hall⟩ | ⟨before, g, after, rfl, hle', hall, hbest⟩
    · exact ⟨[], group, groups, rfl, hle, hall, hbest⟩
    · exact ⟨group :: before, g, after, rfl, hle', hall, hbest⟩

end Scanning

/-! ### Names -/

theorem readName_encodeIds {sampling : ℕ} {table : TokenTable} {id : List UInt8 → ℕ} {tokens : List (List UInt8)}
    (hne : tokens ≠ []) (hid : ∀ token ∈ tokens, id token < 2 ^ 31 ∧
      TokenTable.unmask (table.lookup sampling (id token)) = TokenTable.unmask token) {fuel : ℕ} (isFirstToken : Bool)
    (symName rest : List UInt8) (hfuel : (encodeIds id tokens ++ rest).length < fuel) :
    readName sampling table fuel isFirstToken symName (encodeIds id tokens ++ rest) =
      symName ++ (if isFirstToken then [] else [kUnderscore]) ++ TokenTable.unmask (joinTokens tokens) := by
  induction tokens generalizing fuel isFirstToken symName with
  | nil => exact absurd rfl hne
  | cons token tokens ih =>
    cases fuel with
    | zero => exact absurd hfuel (Nat.not_lt_zero _)
    | succ fuel =>
      obtain ⟨hlt, htoken⟩ := hid token List.mem_cons_self
      have htwice : id token * 2 % 2 ^ 32 = id token * 2 := Nat.mod_eq_of_lt (by omega)
      cases tokens with
      | nil =>
        have hparse := parseVarInt_encode (v := id token * 2 + 1) (by omega) rest
        have hhalf : (id token * 2 + 1) / 2 % 2 ^ 32 = id token := by omega
        have hodd : (id token * 2 + 1) % 2 = 1 := by omega
        rw [encodeIds, htwice, readName, hparse]
        dsimp only
        rw [if_pos hodd, hhalf, htoken]
        rfl
      | cons next tokens =>
        have hparse := parseVarInt_encode (v := id token * 2) (by omega) (encodeIds id (next :: tokens) ++ rest)
        have hpos := length_encodeVarint_pos (id token * 2)
        have hhalf : id token * 2 / 2 % 2 ^ 32 = id token := by omega
        have heven : ¬ id token * 2 % 2 = 1 := by omega
        rw [encodeIds, htwice, List.append_assoc] at hfuel ⊢
        have hlen : (encodeIds id (next :: tokens) ++ rest).length < fuel := by
          rw [List.length_append] at hfuel
          omega
        rw [readName, hparse]
        dsimp only
        rw [if_neg heven, hhalf, htoken,
          ih (List.cons_ne_nil _ _) (fun t ht => hid t (List.mem_cons_of_mem _ ht)) _ _ hlen,
          TokenTable.unmask_joinTokens_cons (List.cons_ne_nil _ _)]
        simp only [Bool.false_eq_true, if_false, List.append_assoc, List.singleton_append]

end LynxTrace.Kallsyms
