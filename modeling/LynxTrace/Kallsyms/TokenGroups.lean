import LynxTrace.Kallsyms.SymbolTable

/-!
# Kallsyms.TokenGroups — the tokens of each address and their ids

Sorting keeps the order of the tokens of an address, so a group has the tokens of the names at its address in the order
of the file (`Grouped`).
-/

namespace LynxTrace.Kallsyms

/-! ### Groups -/

/-- The groups have the tokens of their addresses. -/
structure Grouped (tokens : List (ℕ × List UInt8)) (groups : List TokenGroup) : Prop where
  increasing : groups.Pairwise fun g g' => g.1 < g'.1
  members : ∀ group ∈ groups, group.2 = (tokens.filter fun token => token.1 = group.1).map Prod.snd
  nonempty : ∀ group ∈ groups, group.2 ≠ []
  exists_group : ∀ token ∈ tokens, ∃ group ∈ groups, group.1 = token.1
  head : groups.head?.map Prod.fst = tokens.head?.map Prod.fst

variable {token : ℕ × List UInt8}

theorem filter_cons_ne {a : ℕ} (hne : token.1 ≠ a) (tokens : List (ℕ × List UInt8)) :
    (token :: tokens).filter (fun t => t.1 = a) = tokens.filter fun t => t.1 = a := by
  rw [List.filter_cons_of_neg]
  exact fun htrue => hne (of_decide_eq_true htrue)

theorem filter_cons_eq {a : ℕ} (heq : token.1 = a) (tokens : List (ℕ × List UInt8)) :
    (token :: tokens).filter (fun t => t.1 = a) = token :: tokens.filter fun t => t.1 = a :=
  List.filter_cons_of_pos (decide_eq_true heq)

variable {tokens : List (ℕ × List UInt8)}

theorem Grouped.add {groups : List TokenGroup} (h : Grouped tokens groups) (hle : ∀ t ∈ tokens, token.1 ≤ t.1) :
    Grouped (token :: tokens) (addToGroups token groups) := by
  obtain ⟨hinc, htokens, hne, hexists, hhead⟩ := h
  -- the groups are at addresses of tokens
  have hmem : ∀ group ∈ groups, ∃ t ∈ tokens, t.1 = group.1 := by
    intro group hgroup
    obtain ⟨t, ht⟩ := List.exists_mem_of_ne_nil _ (hne group hgroup)
    rw [htokens group hgroup] at ht
    obtain ⟨x, hx, -⟩ := List.mem_map.mp ht
    exact ⟨x, (List.mem_filter.mp hx).1, of_decide_eq_true (List.mem_filter.mp hx).2⟩
  cases groups with
  | nil =>
    have hnil : tokens = [] := by
      cases tokens with
      | nil => rfl
      | cons t tokens =>
        obtain ⟨group, hgroup, -⟩ := hexists t List.mem_cons_self
        cases hgroup
    subst hnil
    refine ⟨List.pairwise_singleton _ _, ?_, ?_, ?_, rfl⟩
    · intro group hgroup
      rw [List.mem_singleton.mp hgroup, filter_cons_eq rfl]
      rfl
    · intro group hgroup
      rw [List.mem_singleton.mp hgroup]
      exact List.cons_ne_nil _ _
    · intro t ht
      rw [List.mem_singleton.mp ht]
      exact ⟨_, List.mem_cons_self, rfl⟩
  | cons first groups =>
    obtain ⟨hfirst, hrest⟩ := List.pairwise_cons.mp hinc
    have hleFirst : token.1 ≤ first.1 := by
      obtain ⟨t, ht, heq⟩ := hmem first List.mem_cons_self
      exact heq ▸ hle t ht
    rw [addToGroups]
    split_ifs with heq
    · refine ⟨List.pairwise_cons.mpr ⟨hfirst, hrest⟩, ?_, ?_, ?_, ?_⟩
      · intro group hgroup
        rcases List.mem_cons.mp hgroup with rfl | hgroup
        · show token.2 :: first.2 = _
          rw [filter_cons_eq heq.symm, List.map_cons, ← htokens first List.mem_cons_self]
        · have hlt := hfirst group hgroup
          rw [filter_cons_ne (by omega)]
          exact htokens group (List.mem_cons_of_mem _ hgroup)
      · intro group hgroup
        rcases List.mem_cons.mp hgroup with rfl | hgroup
        · exact List.cons_ne_nil _ _
        · exact hne group (List.mem_cons_of_mem _ hgroup)
      · intro t ht
        rcases List.mem_cons.mp ht with rfl | ht
        · exact ⟨_, List.mem_cons_self, heq⟩
        · obtain ⟨group, hgroup, hgroup'⟩ := hexists t ht
          rcases List.mem_cons.mp hgroup with rfl | hgroup
          · exact ⟨_, List.mem_cons_self, hgroup'⟩
          · exact ⟨group, List.mem_cons_of_mem _ hgroup, hgroup'⟩
      · exact congrArg some heq
    · have hlt : token.1 < first.1 := by omega
      have hafter : ∀ group ∈ first :: groups, token.1 < group.1 := by
        intro group hgroup
        rcases List.mem_cons.mp hgroup with rfl | hgroup
        · exact hlt
        · exact Nat.lt_trans hlt (hfirst group hgroup)
      refine ⟨List.pairwise_cons.mpr ⟨hafter, hinc⟩, ?_, ?_, ?_, rfl⟩
      · intro group hgroup
        rcases List.mem_cons.mp hgroup with rfl | hgroup
        · rw [filter_cons_eq rfl, List.filter_eq_nil_iff.mpr]
          · rfl
          · intro t ht htrue
            have heq' : t.1 = token.1 := of_decide_eq_true htrue
            obtain ⟨group, hgroup, hgroup'⟩ := hexists t ht
            have := hafter group hgroup
            omega
        · rw [filter_cons_ne (Nat.ne_of_lt (hafter group hgroup))]
          exact htokens group hgroup
      · intro group hgroup
        rcases List.mem_cons.mp hgroup with rfl | hgroup
        · exact List.cons_ne_nil _ _
        · exact hne group hgroup
      · intro t ht
        rcases List.mem_cons.mp ht with rfl | ht
        · exact ⟨_, List.mem_cons_self, rfl⟩
        · obtain ⟨group, hgroup, hgroup'⟩ := hexists t ht
          exact ⟨group, List.mem_cons_of_mem _ hgroup, hgroup'⟩

theorem tokenGroups_grouped (hsorted : tokens.Pairwise fun a b => a.1 ≤ b.1) : Grouped tokens (tokenGroups tokens) := by
  induction tokens with
  | nil => exact ⟨List.Pairwise.nil, nofun, nofun, nofun, rfl⟩
  | cons token tokens ih =>
    obtain ⟨hle, hrest⟩ := List.pairwise_cons.mp hsorted
    exact (ih hrest).add hle

/-! ### Sorting -/

theorem filter_orderedInsert (token : ℕ × List UInt8) (tokens : List (ℕ × List UInt8)) (a : ℕ) :
    (tokens.orderedInsert (fun a b => a.1 ≤ b.1) token).filter (fun t => t.1 = a) =
      (token :: tokens).filter fun t => t.1 = a := by
  induction tokens with
  | nil => rfl
  | cons next tokens ih =>
    rw [List.orderedInsert]
    split_ifs with hle
    · rfl
    · by_cases htoken : token.1 = a
      · rw [filter_cons_ne (show next.1 ≠ a by omega), ih, filter_cons_eq htoken, filter_cons_eq htoken,
          filter_cons_ne (show next.1 ≠ a by omega)]
      · rw [filter_cons_ne htoken]
        by_cases hnext : next.1 = a
        · rw [filter_cons_eq hnext, filter_cons_eq hnext, ih, filter_cons_ne htoken]
        · rw [filter_cons_ne hnext, filter_cons_ne hnext, ih, filter_cons_ne htoken]

/-- The tokens of an address keep their order. -/
theorem filter_sortTokens (tokens : List (ℕ × List UInt8)) (a : ℕ) :
    (sortTokens tokens).filter (fun t => t.1 = a) = tokens.filter fun t => t.1 = a := by
  induction tokens with
  | nil => rfl
  | cons token tokens ih =>
    rw [sortTokens, List.insertionSort_cons, filter_orderedInsert]
    by_cases htoken : token.1 = a
    · rw [filter_cons_eq htoken, filter_cons_eq htoken, ← ih]
      rfl
    · rw [filter_cons_ne htoken, filter_cons_ne htoken, ← ih]
      rfl

theorem sortTokens_sorted (tokens : List (ℕ × List UInt8)) :
    (sortTokens tokens).Pairwise fun a b => a.1 ≤ b.1 := by
  have htotal : Std.Total fun a b : ℕ × List UInt8 => a.1 ≤ b.1 := ⟨fun a b => Nat.le_total a.1 b.1⟩
  have htrans : IsTrans (ℕ × List UInt8) fun a b => a.1 ≤ b.1 := ⟨fun _ _ _ => Nat.le_trans⟩
  exact List.pairwise_insertionSort _ tokens

theorem mem_sortTokens :
    token ∈ sortTokens tokens ↔ token ∈ tokens := List.mem_insertionSort _

/-- The names at an address, in the order of the file. -/
def namesAt (symbols : List (ℕ × List UInt8)) (a : ℕ) : List (List UInt8) :=
  (symbols.filter fun symbol => symbol.1 = a).map Prod.snd

variable {symbol : ℕ × List UInt8}

theorem namesAt_cons_eq {a : ℕ} (heq : symbol.1 = a) (symbols : List (ℕ × List UInt8)) :
    namesAt (symbol :: symbols) a = symbol.2 :: namesAt symbols a := by
  rw [namesAt, filter_cons_eq heq]
  rfl

theorem namesAt_cons_ne {a : ℕ} (hne : symbol.1 ≠ a) (symbols : List (ℕ × List UInt8)) :
    namesAt (symbol :: symbols) a = namesAt symbols a := by
  rw [namesAt, filter_cons_ne hne]
  rfl

theorem namesAt_of_nodup {symbols : List (ℕ × List UInt8)} (hnodup : (symbols.map Prod.fst).Nodup)
    (hsymbol : symbol ∈ symbols) : namesAt symbols symbol.1 = [symbol.2] := by
  induction symbols with
  | nil => cases hsymbol
  | cons first symbols ih =>
    rw [List.map_cons, List.nodup_cons] at hnodup
    rcases List.mem_cons.mp hsymbol with rfl | hsymbol
    · rw [namesAt_cons_eq rfl, namesAt, List.filter_eq_nil_iff.mpr]
      · rfl
      · intro s hs htrue
        exact hnodup.1 (of_decide_eq_true htrue ▸ List.mem_map_of_mem hs)
    · rw [namesAt_cons_ne, ih hnodup.2 hsymbol]
      intro heq
      exact hnodup.1 (heq ▸ List.mem_map_of_mem hsymbol)

theorem filter_symbolTokens (symbols : List (ℕ × List UInt8)) (a : ℕ) :
    ((symbolTokens symbols).filter fun t => t.1 = a).map Prod.snd = (namesAt symbols a).flatMap tokenize := by
  induction symbols with
  | nil => rfl
  | cons symbol symbols ih =>
    have hcons : symbolTokens (symbol :: symbols) =
        ((tokenize symbol.2).map fun token => (symbol.1, token)) ++ symbolTokens symbols := List.flatMap_cons
    rw [hcons, List.filter_append, List.map_append, ih]
    by_cases heq : symbol.1 = a
    · have hall : ((tokenize symbol.2).map fun token => (symbol.1, token)).filter (fun t => t.1 = a) =
          (tokenize symbol.2).map fun token => (symbol.1, token) := by
        refine List.filter_eq_self.mpr fun t ht => ?_
        obtain ⟨token, -, rfl⟩ := List.mem_map.mp ht
        exact decide_eq_true heq
      have hsnd : ((tokenize symbol.2).map fun token => (symbol.1, token)).map Prod.snd = tokenize symbol.2 := by
        rw [List.map_map]
        exact List.map_id _
      rw [hall, hsnd, namesAt_cons_eq heq, List.flatMap_cons]
    · have hnone : ((tokenize symbol.2).map fun token => (symbol.1, token)).filter (fun t => t.1 = a) = [] := by
        refine List.filter_eq_nil_iff.mpr fun t ht htrue => ?_
        obtain ⟨token, -, rfl⟩ := List.mem_map.mp ht
        exact heq (of_decide_eq_true htrue)
      rw [hnone, namesAt_cons_ne heq]
      rfl

/-- The groups of some symbols: what parsing encodes. -/
def groupsOf (symbols : List (ℕ × List UInt8)) : List TokenGroup := tokenGroups (sortTokens (symbolTokens symbols))

theorem mem_symbolTokens {symbols : List (ℕ × List UInt8)} {t : ℕ × List UInt8} :
    t ∈ symbolTokens symbols ↔ ∃ symbol ∈ symbols, symbol.1 = t.1 ∧ t.2 ∈ tokenize symbol.2 := by
  rw [symbolTokens, List.mem_flatMap]
  refine exists_congr fun symbol => and_congr_right fun _ => ?_
  rw [List.mem_map]
  constructor
  · rintro ⟨token, htoken, rfl⟩
    exact ⟨rfl, htoken⟩
  · rintro ⟨haddr, htoken⟩
    exact ⟨t.2, htoken, Prod.ext haddr rfl⟩

/-- The groups in the order of their addresses, each with the tokens of the names there. -/
structure GroupsOf (symbols : List (ℕ × List UInt8)) (groups : List TokenGroup) : Prop where
  increasing : groups.Pairwise fun g g' => g.1 < g'.1
  tokens : ∀ group ∈ groups, group.2 = (namesAt symbols group.1).flatMap tokenize
  nonempty : ∀ group ∈ groups, group.2 ≠ []
  exists_group : ∀ symbol ∈ symbols, ∃ group ∈ groups, group.1 = symbol.1
  exists_symbol : ∀ group ∈ groups, ∃ symbol ∈ symbols, symbol.1 = group.1

theorem groupsOf_spec (symbols : List (ℕ × List UInt8)) : GroupsOf symbols (groupsOf symbols) := by
  have hgrouped := tokenGroups_grouped (sortTokens_sorted (symbolTokens symbols))
  refine ⟨hgrouped.increasing, ?_, hgrouped.nonempty, ?_, ?_⟩
  · intro group hgroup
    rw [hgrouped.members group hgroup, filter_sortTokens, filter_symbolTokens]
  · intro symbol hsymbol
    obtain ⟨token, htoken⟩ := List.exists_mem_of_ne_nil _ (tokenize_ne_nil symbol.2)
    have hmem : (symbol.1, token) ∈ symbolTokens symbols := mem_symbolTokens.mpr ⟨symbol, hsymbol, rfl, htoken⟩
    exact hgrouped.exists_group (symbol.1, token) (mem_sortTokens.mpr hmem)
  · intro group hgroup
    obtain ⟨t, ht⟩ := List.exists_mem_of_ne_nil _ (hgrouped.nonempty group hgroup)
    rw [hgrouped.members group hgroup] at ht
    obtain ⟨x, hx, -⟩ := List.mem_map.mp ht
    obtain ⟨hmem, haddr⟩ := List.mem_filter.mp hx
    obtain ⟨symbol, hsymbol, heq, -⟩ := mem_symbolTokens.mp (mem_sortTokens.mp hmem)
    exact ⟨symbol, hsymbol, heq.trans (of_decide_eq_true haddr)⟩

/-! ### Ids -/

theorem addTokens_concat (sampling : ℕ) (byFreq : List (List UInt8)) (token : List UInt8) :
    addTokens sampling (byFreq ++ [token]) = (((addTokens sampling byFreq).1.add sampling token).1,
      (addTokens sampling byFreq).2 ++ [(token, ((addTokens sampling byFreq).1.add sampling token).2)]) := by
  rw [addTokens, List.foldl_append]
  rfl

theorem addTokens_fst (sampling : ℕ) (byFreq : List (List UInt8)) :
    (addTokens sampling byFreq).1 = TokenTable.build sampling byFreq := by
  induction byFreq using List.reverseRecOn with
  | nil => rfl
  | append_singleton byFreq token ih =>
    rw [addTokens_concat, ih, TokenTable.build, TokenTable.build, List.foldl_append]
    rfl

/-- Every token has an id; the ids of the tokens that are not empty are their places in the table. -/
def Identifies (ids : List (List UInt8 × ℕ)) (byFreq : List (List UInt8)) : Prop :=
  ∀ token ∈ byFreq, (token = [] ∧ idOf ids token = 0) ∨
    (token ≠ [] ∧ 0 < idOf ids token ∧ (TokenTable.stored byFreq)[idOf ids token]? = some token)

theorem idOf_append_left {ids : List (List UInt8 × ℕ)} {token : List UInt8} (h : token ∈ ids.map Prod.fst)
    (more : List (List UInt8 × ℕ)) : idOf (ids ++ more) token = idOf ids token := by
  obtain ⟨entry, hentry, heq⟩ := List.mem_map.mp h
  have hsome : (ids.find? fun entry => entry.1 = token).isSome :=
    List.find?_isSome.mpr ⟨entry, hentry, decide_eq_true heq⟩
  rw [idOf, idOf, List.find?_append, Option.or_of_isSome hsome]

theorem idOf_append_right {ids : List (List UInt8 × ℕ)} {token : List UInt8} (h : token ∉ ids.map Prod.fst) (id : ℕ) :
    idOf (ids ++ [(token, id)]) token = id := by
  have hnone : (ids.find? fun entry => entry.1 = token) = none :=
    List.find?_eq_none.mpr fun entry hentry htrue => h (List.mem_map.mpr ⟨entry, hentry, of_decide_eq_true htrue⟩)
  have hpos : decide (token = token) = true := decide_eq_true rfl
  rw [idOf, List.find?_append, hnone, Option.none_or, List.find?_cons, hpos]
  rfl

theorem addTokens_ids {sampling : ℕ} (hsampling : 0 < sampling) {byFreq : List (List UInt8)} (hnodup : byFreq.Nodup)
    (hfits : ((TokenTable.stored byFreq).flatMap endToken).length < 2 ^ 32) :
    (addTokens sampling byFreq).2.map Prod.fst = byFreq ∧ Identifies (addTokens sampling byFreq).2 byFreq := by
  induction byFreq using List.reverseRecOn with
  | nil => exact ⟨rfl, nofun⟩
  | append_singleton byFreq token ih =>
    rw [TokenTable.stored_concat] at hfits
    rw [List.flatMap_append, List.length_append] at hfits
    obtain ⟨hnodup', -, hnew⟩ := List.nodup_append.mp hnodup
    have htoken : token ∉ byFreq := fun hmem => hnew token hmem token List.mem_cons_self rfl
    obtain ⟨hkeys, hids⟩ := ih hnodup' (by omega)
    have hholds := @TokenTable.holds_build byFreq _ hsampling (by omega)
    rw [addTokens_concat]
    refine ⟨by rw [List.map_append, hkeys]; rfl, fun t ht => ?_⟩
    rcases List.mem_append.mp ht with ht | ht
    · -- a token that had its id before
      have hkey : t ∈ (addTokens sampling byFreq).2.map Prod.fst := by rwa [hkeys]
      dsimp only
      rw [idOf_append_left hkey, TokenTable.stored_concat]
      rcases hids t ht with hempty | ⟨hne, hpos, hget⟩
      · exact Or.inl hempty
      · refine Or.inr ⟨hne, hpos, ?_⟩
        rw [List.getElem?_append_left (List.getElem?_eq_some_iff.mp hget).1]
        exact hget
    · obtain rfl := List.mem_singleton.mp ht
      have hkey : t ∉ (addTokens sampling byFreq).2.map Prod.fst := by rwa [hkeys]
      dsimp only
      rw [idOf_append_right hkey, addTokens_fst, TokenTable.stored_concat]
      by_cases hempty : t = []
      · left
        rw [TokenTable.add, if_pos hempty]
        exact ⟨hempty, rfl⟩
      · right
        rw [TokenTable.add, if_neg hempty, if_neg hempty]
        dsimp only
        rw [hholds.numTokens]
        exact ⟨hempty, Nat.succ_pos _, List.getElem?_concat_length⟩

/-- What a token is looked up as under its id. -/
theorem addTokens_lookup {sampling : ℕ} (hsampling : 0 < sampling) {byFreq : List (List UInt8)} (hnodup : byFreq.Nodup)
    (hfits : ((TokenTable.stored byFreq).flatMap endToken).length < 2 ^ 32) {token : List UInt8}
    (hmem : token ∈ byFreq) :
    idOf (addTokens sampling byFreq).2 token < (TokenTable.stored byFreq).length ∧
      TokenTable.unmask ((addTokens sampling byFreq).1.lookup sampling (idOf (addTokens sampling byFreq).2 token)) =
        TokenTable.unmask token := by
  rw [addTokens_fst]
  rcases (addTokens_ids hsampling hnodup hfits).2 token hmem with ⟨rfl, hid⟩ | ⟨-, hpos, hget⟩
  · rw [hid]
    exact ⟨Nat.succ_pos _, rfl⟩
  · obtain ⟨hlt, hget⟩ := List.getElem?_eq_some_iff.mp hget
    refine ⟨hlt, ?_⟩
    rw [TokenTable.lookup_build hsampling hfits hpos hlt, hget]
    exact TokenTable.unmask_endToken token

end LynxTrace.Kallsyms
