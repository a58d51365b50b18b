import LynxTrace.Core.BitVectorCompact

/-!
# Core.BitVectorRuns — every sequence of calls on `BitVector`s gives what lists of booleans give

* `specStep`, `specRun` : the calls on lists of booleans.
* `Op.Meets` : what the `PERFETTO_DCHECK`s and the comments ask of a caller.
* `Op.Fits` : sizes within `uint64_t`, counts within `uint32_t`.
* `run_listsOfBooleans` : every run, from empty vectors, whatever memory it gets.
-/

namespace LynxTrace.TraceProcessor.Core.Words

/-! ### Queries -/

section

variable {a : Core.BitVector} {bv : BitVector}

theorem Holds.getElem? (h : Holds bv a) {i : ℕ} (hi : 64 * (i / 64) < a.size) :
    ∃ word, bv.words[i / 64]? = some word ∧ ∀ j < 64, word.getLsbD j = a.isSet (64 * (i / 64) + j) := by
  have hlt : i / 64 < bv.words.length := by
    rw [h.length]
    omega
  refine ⟨_, List.getElem?_eq_getElem hlt, fun j hj => ?_⟩
  rw [← h.bits, bitAt, show (64 * (i / 64) + j) / 64 = i / 64 by omega, show (64 * (i / 64) + j) % 64 = j by omega,
    List.getD_eq_getElem?_getD, List.getElem?_eq_getElem hlt, Option.getD_some]

theorem Holds.isSet (h : Holds bv a) {i : ℕ} (hi : i < a.size) : bv.isSet i = some (a.isSet i) := by
  obtain ⟨word, hword, hbits⟩ := h.getElem? (i := i) (by omega)
  have hbit := hbits (i % 64) (Nat.mod_lt _ (by decide))
  rw [Nat.div_add_mod] at hbit
  rw [BitVector.isSet, hword, Option.map_some, BitVec.getLsbD_ushiftRight, Nat.add_zero, hbit]

/-- The bits of the word of a position, as a list by themselves. -/
theorem isSet_wordOf (a : Core.BitVector) (i : ℕ) {j : ℕ} (hj : j < 64) :
    (⟨a.wordOf i⟩ : Core.BitVector).isSet j = a.isSet (64 * (i / 64) + j) := by
  simp [Core.BitVector.isSet, Core.BitVector.wordOf, List.getElem?_take_of_lt hj]

theorem length_positions_of_bits {word : Word} {l : Core.BitVector} {n : ℕ} (hn : n ≤ 64)
    (h : ∀ j < 64, word.getLsbD j = (decide (j < n) && l.isSet j)) : (positions word).length = l.rank n := by
  have hsplit : List.range 64 = List.range n ++ List.range' n (64 - n) := by
    rw [List.range_eq_range', List.range_eq_range', show 64 = n + (64 - n) by omega, ← List.range'_append]
    simp
  have hnone : (List.range' n (64 - n)).filter word.getLsbD = [] := by
    rw [List.filter_eq_nil_iff]
    intro j hj
    rw [List.mem_range'_1] at hj
    rw [h j (by omega), decide_eq_false (by omega)]
    simp
  rw [Core.BitVector.rank_eq_length, positions, hsplit, List.filter_append, hnone, List.append_nil]
  congr 1
  refine List.filter_congr fun j hj => ?_
  have hlt := List.mem_range.mp hj
  rw [h j (by omega), decide_eq_true hlt, Bool.true_and]

theorem Holds.countSetBitsInWord (h : Holds bv a) {i : ℕ} (hi : 64 * (i / 64) < a.size) :
    bv.countSetBitsInWord i = some (a.countSetBitsInWord i) := by
  obtain ⟨word, hword, hbits⟩ := h.getElem? hi
  have hcount : popcount word = (⟨a.wordOf i⟩ : Core.BitVector).rank 64 := by
    refine length_positions_of_bits le_rfl fun j hj => ?_
    rw [hbits j hj, isSet_wordOf a i hj, decide_eq_true hj, Bool.true_and]
  rw [BitVector.countSetBitsInWord, hword, Option.map_some, hcount]
  simp [Core.BitVector.rank, Core.BitVector.countSetBitsInWord, Core.BitVector.wordOf, List.take_take]

theorem Holds.countSetBitsUntilInWord (h : Holds bv a) {i : ℕ} (hi : i < a.size) :
    bv.countSetBitsUntilInWord i = some (a.countSetBitsUntilInWord i) := by
  obtain ⟨word, hword, hbits⟩ := h.getElem? (i := i) (by omega)
  have hmod : i % 64 < 64 := Nat.mod_lt _ (by decide)
  have hcount : popcount (word &&& lowMask (i % 64)) = (⟨a.wordOf i⟩ : Core.BitVector).rank (i % 64) := by
    refine length_positions_of_bits hmod.le fun j hj => ?_
    rw [BitVec.getLsbD_and, hbits j hj, getLsbD_lowMask_lt hmod, isSet_wordOf a i hj, Bool.and_comm]
  rw [BitVector.countSetBitsUntilInWord, hword, Option.map_some, hcount]
  rfl

/-- The prefix counts are the ranks of the words. -/
theorem prefixPopcount_eq (a : Core.BitVector) :
    a.prefixPopcount = (List.range ((a.size + 63) / 64)).map fun w => a.rank (64 * w) := by
  refine List.ext_getElem? fun w => ?_
  by_cases hw : w < (a.size + 63) / 64
  · rw [Core.BitVector.prefixPopcount_getElem? a (by omega)]
    simp [hw]
  · have hlen : a.prefixPopcount.length ≤ w := by
      rw [Core.BitVector.prefixPopcount, Core.BitVector.length_computePrefixPopcount]
      exact Nat.not_lt.mp hw
    rw [List.getElem?_eq_none hlen]
    simp [hw]

theorem Holds.computePrefixPopcount (h : Holds bv a) (hwords : (a.size + 63) / 64 < 2 ^ 32) {left i : ℕ}
    (out : List ℕ) (hi : i + left = (a.size + 63) / 64) :
    bv.computePrefixPopcount (left + 1) i (a.rank (64 * i) % 2 ^ 32) out =
      some (out ++ (List.range' i left).map fun w => a.rank (64 * w) % 2 ^ 32) := by
  have hsize : wordsFor bv.size = (a.size + 63) / 64 := by rw [h.size, wordsFor_of_fits h.fits]
  induction left generalizing i out with
  | zero => simp [BitVector.computePrefixPopcount, hsize, show ¬ i < (a.size + 63) / 64 by omega]
  | succ left ih =>
    have hcount := h.countSetBitsInWord (i := 64 * i) (by omega)
    rw [BitVector.countSetBitsInWord, Nat.mul_div_cancel_left _ (by decide : 0 < 64)] at hcount
    obtain ⟨word, hword, hpop⟩ := Option.map_eq_some_iff.mp hcount
    have haccum : (a.rank (64 * i) % 2 ^ 32 + popcount word) % 2 ^ 32 = a.rank (64 * (i + 1)) % 2 ^ 32 := by
      rw [hpop, Core.BitVector.rank_word, Nat.mod_add_mod]
    rw [BitVector.computePrefixPopcount, hsize, if_pos (by omega), hword]
    simp only [Option.bind_eq_bind, Option.bind_some]
    rw [Nat.mod_eq_of_lt (show i + 1 < 2 ^ 32 by omega), haccum, ih _ (by omega), List.range'_succ, List.map_cons,
      List.append_assoc, List.singleton_append]

/-- **`PrefixPopcount`**, in 32 bits. -/
theorem Holds.prefixPopcount (h : Holds bv a) (hwords : (a.size + 63) / 64 < 2 ^ 32) :
    bv.prefixPopcount = some (a.prefixPopcount.map (· % 2 ^ 32)) := by
  have hsize : wordsFor bv.size = (a.size + 63) / 64 := by rw [h.size, wordsFor_of_fits h.fits]
  have hloop := @Holds.computePrefixPopcount a bv h hwords ((a.size + 63) / 64) 0 [] (Nat.zero_add _)
  have hzero : a.rank (64 * 0) = 0 := rfl
  rw [hzero, Nat.zero_mod, List.nil_append] at hloop
  rw [BitVector.prefixPopcount, hsize, hloop, prefixPopcount_eq, List.map_map, List.range_eq_range']
  rfl

/-- The elements whose bit is set, or not set where `invert` asks for these. -/
def selected (a : Core.BitVector) (invert : Bool) (elements : List ℕ) : List ℕ :=
  elements.filter fun s => a.isSet s != invert

theorem selected_cons (a : Core.BitVector) (invert : Bool) (s : ℕ) (elements : List ℕ) :
    selected a invert (s :: elements) =
      if (if invert then !a.isSet s else a.isSet s) then s :: selected a invert elements
      else selected a invert elements := by
  rw [selected, List.filter_cons, selected]
  cases invert <;> cases a.isSet s <;> rfl

/-- **`PackLeft`** leaves the elements it asks for in front, also where it packs in place. -/
theorem Holds.packLeft (h : Holds bv a) (invert : Bool) {count source target : ℕ} {mem : List ℕ}
    (hsource : source + count ≤ mem.length) (htarget : target + count ≤ mem.length)
    (hplace : target ≤ source ∨ source + count ≤ target) (hbits : ∀ s ∈ (mem.drop source).take count, s < a.size) :
    ∃ mem', bv.packLeft invert mem count source target =
        some (mem', target + (selected a invert ((mem.drop source).take count)).length) ∧
      mem'.take (target + (selected a invert ((mem.drop source).take count)).length) =
        mem.take target ++ selected a invert ((mem.drop source).take count) := by
  induction count generalizing mem source target with
  | zero => exact ⟨mem, by simp [BitVector.packLeft, selected], by simp [selected]⟩
  | succ count ih =>
    have hlt : source < mem.length := by omega
    have hout : target < mem.length := by omega
    have hdrop : mem.drop source = mem[source] :: mem.drop (source + 1) := List.drop_eq_getElem_cons hlt
    rw [hdrop, List.take_succ_cons] at hbits ⊢
    have hs := h.isSet (hbits _ List.mem_cons_self)
    -- the elements that are still to be read are not written to
    have hrest : ((mem.set target mem[source]).drop (source + 1)).take count = (mem.drop (source + 1)).take count := by
      refine List.ext_getElem? fun j => ?_
      by_cases hj : j < count
      · rw [List.getElem?_take_of_lt hj, List.getElem?_take_of_lt hj, List.getElem?_drop, List.getElem?_drop,
          List.getElem?_set_ne (by omega)]
      · rw [List.getElem?_eq_none (by simp; omega), List.getElem?_eq_none (by simp; omega)]
    have hlen : (mem.set target mem[source]).length = mem.length := List.length_set ..
    have hbits' : ∀ s ∈ ((mem.set target mem[source]).drop (source + 1)).take count, s < a.size := by
      rw [hrest]
      exact fun s hs => hbits s (List.mem_cons_of_mem _ hs)
    rw [BitVector.packLeft, List.getElem?_eq_getElem hlt, selected_cons]
    simp only [Option.bind_eq_bind, Option.bind_some, hs, List.getElem?_eq_getElem hout]
    by_cases hres : (if invert then !a.isSet mem[source] else a.isSet mem[source]) = true
    · obtain ⟨mem', hrun, htake⟩ := @ih _ (target + 1) _ (by omega) (by omega) (by omega) hbits'
      rw [hrest] at hrun htake
      have hend : target + ((selected a invert ((mem.drop (source + 1)).take count)).length + 1) =
          target + 1 + (selected a invert ((mem.drop (source + 1)).take count)).length := by omega
      rw [if_pos hres, if_pos hres, List.length_cons, hend]
      have hfirst : (mem.set target mem[source]).take (target + 1) = mem.take target ++ [mem[source]] := by
        rw [List.take_add_one, List.take_set_of_le (le_refl target), List.getElem?_set_self hout]
        rfl
      refine ⟨mem', hrun, htake.trans ?_⟩
      rw [hfirst, List.append_assoc, List.singleton_append]
    · obtain ⟨mem', hrun, htake⟩ := @ih _ target _ (by omega) (by omega) (by omega) hbits'
      rw [hrest] at hrun htake
      rw [if_neg hres, if_neg hres]
      refine ⟨mem', hrun, htake.trans ?_⟩
      rw [List.take_set_of_le (le_refl target)]

end

/-! ### Calls on lists of booleans -/

abbrev Lists := ℕ → Core.BitVector

def specStep (ls : Lists) : Op → Lists × Result
  | .create v size value => (Function.update ls v ⟨List.replicate size value⟩, .nothing)
  | .pushBack v bit => (Function.update ls v ((ls v).pushBack bit), .nothing)
  | .pushBackMultiple v bit count => (Function.update ls v ⟨(ls v).bits ++ List.replicate count bit⟩, .nothing)
  | .change v i bit => (Function.update ls v ((ls v).change i bit), .nothing)
  | .changeAssumeUnset v i bit => (Function.update ls v ((ls v).change i bit), .nothing)
  | .set v i => (Function.update ls v ((ls v).change i true), .nothing)
  | .clearBit v i => (Function.update ls v ((ls v).change i false), .nothing)
  | .clear v => (Function.update ls v ⟨[]⟩, .nothing)
  | .clearAllBits v => (Function.update ls v ⟨List.replicate (ls v).size false⟩, .nothing)
  | .resize v newSize value _ => (Function.update ls v (resizeBits (ls v) newSize value), .nothing)
  | .clone v source => (Function.update ls v (ls source), .nothing)
  | .compact v keep => (Function.update ls v (compactBits (ls v) (ls keep)), .nothing)
  | .size v => (ls, .count (ls v).size)
  | .isSet v i => (ls, .bit ((ls v).isSet i))
  | .countUntil v i => (ls, .count ((ls v).countSetBitsUntilInWord i))
  | .countInWord v i => (ls, .count ((ls v).countSetBitsInWord i))
  | .prefixPopcount v => (ls, .counts (ls v).prefixPopcount)
  | .packLeft v invert mem count source _ => (ls, .packed (selected (ls v) invert ((mem.drop source).take count)))

def specRun (ls : Lists) : List Op → Lists × List Result
  | [] => (ls, [])
  | op :: ops => ((specRun (specStep ls op).1 ops).1, (specStep ls op).2 :: (specRun (specStep ls op).1 ops).2)

/-- What a caller promises: positions are inside, a bit that is assumed to be unset is, a mask is another vector of the
same size, and there is room for what is packed. -/
def Op.Meets (ls : Lists) : Op → Prop
  | .change v i _ | .set v i | .clearBit v i | .isSet v i | .countUntil v i => i < (ls v).size
  | .changeAssumeUnset v i _ => i < (ls v).size ∧ (ls v).isSet i = false
  | .countInWord v i => 64 * (i / 64) < (ls v).size
  | .compact v keep => v ≠ keep ∧ (ls v).size = (ls keep).size
  | .packLeft v _ mem count source target => source + count ≤ mem.length ∧ target + count ≤ mem.length ∧
      (target ≤ source ∨ source + count ≤ target) ∧ ∀ s ∈ (mem.drop source).take count, s < (ls v).size
  | _ => True

/-- Sizes in 64 bits, with what is added to round them up, and counts of set bits in 32. -/
def Op.Fits (ls : Lists) : Op → Prop
  | .create _ n _ => n + 63 < 2 ^ 64
  | .pushBack v _ => (ls v).size + 1 + 63 < 2 ^ 64
  | .pushBackMultiple v _ count => (ls v).size + count + 63 < 2 ^ 64
  | .resize _ newSize _ _ => newSize + 63 < 2 ^ 64
  | .compact _ keep => (ls keep).rank (ls keep).size < 2 ^ 32
  | .prefixPopcount v => ((ls v).size + 63) / 64 < 2 ^ 32 ∧ ∀ n ∈ (ls v).prefixPopcount, n < 2 ^ 32
  | _ => True

instance (ls : Lists) (op : Op) : Decidable (op.Meets ls) := by
  cases op <;> unfold Op.Meets <;> infer_instance

instance (ls : Lists) (op : Op) : Decidable (op.Fits ls) := by
  cases op <;> unfold Op.Fits <;> infer_instance

/-- A condition on each call, on the lists before it. -/
def AllCalls (P : Lists → Op → Prop) (ls : Lists) : List Op → Prop
  | [] => True
  | op :: ops => P ls op ∧ AllCalls P (specStep ls op).1 ops

instance (P : Lists → Op → Prop) [∀ ls op, Decidable (P ls op)] :
    (ls : Lists) → (ops : List Op) → Decidable (AllCalls P ls ops)
  | _, [] => inferInstanceAs (Decidable True)
  | ls, op :: ops =>
    have := instDecidableAllCalls P (specStep ls op).1 ops
    inferInstanceAs (Decidable (P ls op ∧ AllCalls P (specStep ls op).1 ops))

/-- Each vector holds its list. -/
def HoldAll (vs : Vectors) (ls : Lists) : Prop := ∀ v, Holds (vs v) (ls v)

theorem HoldAll.update {vs : Vectors} {ls : Lists} (h : HoldAll vs ls) {bv : BitVector} {a : Core.BitVector}
    (hbv : Holds bv a) (v : ℕ) : HoldAll (Function.update vs v bv) (Function.update ls v a) := by
  intro u
  by_cases hu : u = v
  · subst hu
    simpa using hbv
  · simpa [hu] using h u

/-- A call that assigns to a vector. -/
theorem HoldAll.assign {vs : Vectors} {ls : Lists} (h : HoldAll vs ls) {bv : Option BitVector} {a : Core.BitVector}
    (hbv : ∃ bv', bv = some bv' ∧ Holds bv' a) (v : ℕ) :
    ∃ vs', vs.assign v bv = some (vs', .nothing) ∧ HoldAll vs' (Function.update ls v a) := by
  obtain ⟨bv', rfl, hholds⟩ := hbv
  exact ⟨_, rfl, h.update hholds v⟩

/-- **One call.** -/
theorem HoldAll.step {vs : Vectors} {ls : Lists} (h : HoldAll vs ls) (cpuOpt : Bool) {op : Op} (hmeets : op.Meets ls)
    (hfits : op.Fits ls) :
    ∃ vs', step cpuOpt vs op = some (vs', (specStep ls op).2) ∧ HoldAll vs' (specStep ls op).1 := by
  cases op with
  | create v size value => exact h.assign (holds_createWithSize hfits value) v
  | pushBack v bit => exact h.assign ((h v).pushBack hfits bit) v
  | pushBackMultiple v bit count => exact h.assign ((h v).pushBackMultiple bit hfits) v
  | change v i bit => exact h.assign ((h v).change hmeets bit) v
  | changeAssumeUnset v i bit => exact h.assign ((h v).changeAssumeUnset hmeets.1 hmeets.2 bit) v
  | set v i => exact h.assign ((h v).set hmeets) v
  | clearBit v i => exact h.assign ((h v).clearBit hmeets) v
  | clear v => exact h.assign ⟨_, rfl, holds_clear⟩ v
  | clearAllBits v => exact h.assign ⟨_, rfl, (h v).clearAllBits⟩ v
  | resize v newSize value fresh => exact h.assign ((h v).resize fresh hfits value) v
  | clone v source => exact h.assign (h source).clone v
  | compact v keep =>
    obtain ⟨bv, hbv, _, hholds⟩ := @Holds.compact _ _ cpuOpt _ _ (h v) (h keep) hmeets.2
    exact h.assign ⟨bv, hbv, hholds (by rw [size_compactBits]; exact hfits)⟩ v
  | size v => exact ⟨vs, by rw [Words.step, (h v).size]; rfl, h⟩
  | isSet v i => exact ⟨vs, by rw [Words.step, (h v).isSet hmeets]; rfl, h⟩
  | countUntil v i => exact ⟨vs, by rw [Words.step, (h v).countSetBitsUntilInWord hmeets]; rfl, h⟩
  | countInWord v i => exact ⟨vs, by rw [Words.step, (h v).countSetBitsInWord hmeets]; rfl, h⟩
  | prefixPopcount v =>
    have hsmall : (ls v).prefixPopcount.map (· % 2 ^ 32) = (ls v).prefixPopcount :=
      (List.map_congr_left fun n hn => Nat.mod_eq_of_lt (hfits.2 n hn)).trans (List.map_id _)
    exact ⟨vs, by rw [Words.step, (h v).prefixPopcount hfits.1, hsmall]; rfl, h⟩
  | packLeft v invert mem count source target =>
    obtain ⟨hsource, htarget, hplace, hbits⟩ := hmeets
    obtain ⟨mem', hrun, htake⟩ := (h v).packLeft invert hsource htarget hplace hbits
    refine ⟨vs, ?_, h⟩
    have hlen : (mem.take target).length = target := by
      rw [List.length_take]
      omega
    rw [Words.step, hrun, Option.map_some]
    dsimp only
    rw [htake, List.drop_left' hlen]
    rfl

/-- **Every run.** -/
theorem HoldAll.run {vs : Vectors} {ls : Lists} (h : HoldAll vs ls) (cpuOpt : Bool) {ops : List Op}
    (hops : AllCalls (fun ls op => op.Meets ls ∧ op.Fits ls) ls ops) :
    ∃ vs', run cpuOpt vs ops = some (vs', (specRun ls ops).2) ∧ HoldAll vs' (specRun ls ops).1 := by
  induction ops generalizing vs ls with
  | nil => exact ⟨vs, rfl, h⟩
  | cons op ops ih =>
    obtain ⟨⟨hmeets, hfits⟩, hops⟩ := hops
    obtain ⟨vs₁, hstep, h₁⟩ := h.step cpuOpt hmeets hfits
    obtain ⟨vs₂, hrun, h₂⟩ := ih h₁ hops
    exact ⟨vs₂, by rw [Words.run, hstep]; simp [hrun, specRun], h₂⟩

theorem holdAll_empty : HoldAll (fun _ => {}) fun _ => ⟨[]⟩ := fun _ => @holds_clear {}

/-- **A `BitVector` is a list of booleans.** -/
theorem run_listsOfBooleans (cpuOpt : Bool) (ops : List Op)
    (hops : AllCalls (fun ls op => op.Meets ls ∧ op.Fits ls) (fun _ => ⟨[]⟩) ops) :
    ∃ vs, run cpuOpt (fun _ => {}) ops = some (vs, (specRun (fun _ => ⟨[]⟩) ops).2) ∧
      HoldAll vs (specRun (fun _ => ⟨[]⟩) ops).1 :=
  holdAll_empty.run cpuOpt hops

/-- Shrunk, grown with set bits over a partial word and over memory that is not clear, and compacted. -/
def shrunkAndGrown : List Op :=
  [.create 0 70 true, .resize 0 65 false (fun _ => 0), .pushBack 0 false, .resize 0 130 true (fun _ => 12345),
    .create 1 130 false, .set 1 3, .set 1 65, .set 1 66, .set 1 129, .compact 0 1, .size 0, .isSet 0 1,
    .countInWord 0 0]

theorem run_shrunkAndGrown : ∃ vs, run false (fun _ => {}) shrunkAndGrown =
    some (vs, List.replicate 10 .nothing ++ [.count 4, .bit false, .count 3]) := by
  have hresults : (specRun (fun _ => ⟨[]⟩) shrunkAndGrown).2 =
      List.replicate 10 .nothing ++ [.count 4, .bit false, .count 3] := by decide +kernel
  obtain ⟨vs, hrun, _⟩ := run_listsOfBooleans false shrunkAndGrown (by decide +kernel)
  exact ⟨vs, hresults ▸ hrun⟩

/-! ### Where the counts and sizes do not fit -/

/-- Set bits only. -/
def ones (n : ℕ) : Core.BitVector := ⟨List.replicate n true⟩

theorem size_ones (n : ℕ) : (ones n).size = n := List.length_replicate

theorem rank_ones {n i : ℕ} (hi : i ≤ n) : (ones n).rank i = i := by
  simp [Core.BitVector.rank, ones, Nat.min_eq_left hi]

/-- The prefix counts of set bits. -/
def countedBits (n : ℕ) : List Op := [.create 0 n true, .prefixPopcount 0]

/-- The number of set bits after all of them were kept. -/
def keptBits (n : ℕ) : List Op := [.create 0 n true, .create 1 n true, .compact 0 1, .size 0]

/-- The number of words for 2^64 - 1 bits is 0. -/
def wrappedSize : List Op := [.resize 0 (2 ^ 64 - 1) false (fun _ => 0), .isSet 0 0]

section

variable {n : ℕ}

theorem run_countedBits (hn : n + 63 < 2 ^ 64) (hwords : (n + 63) / 64 < 2 ^ 32) :
    ∃ vs, run true (fun _ => {}) (countedBits n) =
      some (vs, [.nothing, .counts ((ones n).prefixPopcount.map (· % 2 ^ 32))]) := by
  obtain ⟨bv, hcreate, hbv⟩ := holds_createWithSize hn true
  have hones : Holds bv (ones n) := hbv
  have hcounts := hones.prefixPopcount (by rwa [size_ones])
  exact ⟨_, by simp [run, countedBits, Words.step, Vectors.assign, hcreate, hcounts]; rfl⟩

theorem run_keptBits (hn : n + 63 < 2 ^ 64) : ∃ vs,
    run true (fun _ => {}) (keptBits n) = some (vs, [.nothing, .nothing, .nothing, .count (n % 2 ^ 32)]) := by
  obtain ⟨bv, hcreate, hbv⟩ := holds_createWithSize hn true
  have hones : Holds bv (ones n) := hbv
  obtain ⟨bv', hcompact, hsize, _⟩ := @Holds.compact _ _ true _ _ hones hones rfl
  rw [size_compactBits, size_ones, rank_ones le_rfl] at hsize
  exact ⟨_, by simp [run, keptBits, Words.step, Vectors.assign, hcreate, hcompact, hsize]; rfl⟩

/-- Counted in 32 bits, the 2^32 set bits before a word are none. -/
theorem not_run_countedBits (hn : n + 63 < 2 ^ 64) (hwords : (n + 63) / 64 < 2 ^ 32) (hmany : 2 ^ 32 < n) :
    ¬ ∃ vs, run true (fun _ => {}) (countedBits n) = some (vs, (specRun (fun _ => ⟨[]⟩) (countedBits n)).2) := by
  rintro ⟨vs, hrun⟩
  obtain ⟨vs', hcode⟩ := run_countedBits hn hwords
  have hlists := (Prod.mk.inj (Option.some.inj (hcode.symm.trans hrun))).2
  have hsame : (ones n).prefixPopcount.map (· % 2 ^ 32) = (ones n).prefixPopcount :=
    Result.counts.inj (List.cons.inj (List.cons.inj hlists).2).1
  have hget : (ones n).prefixPopcount[2 ^ 26]? = some (2 ^ 32) := by
    rw [Core.BitVector.prefixPopcount_getElem? _ (by rw [size_ones]; omega)]
    exact congrArg some (rank_ones hmany.le)
  have hwrapped : ((ones n).prefixPopcount.map (· % 2 ^ 32))[2 ^ 26]? = some 0 := by
    rw [List.getElem?_map, hget]
    rfl
  rw [hsame, hget] at hwrapped
  exact absurd (Option.some.inj hwrapped) (by decide)

/-- Counted in 32 bits, 2^32 kept bits are none. -/
theorem not_run_keptBits (hn : n + 63 < 2 ^ 64) (hmany : 2 ^ 32 ≤ n) :
    ¬ ∃ vs, run true (fun _ => {}) (keptBits n) = some (vs, (specRun (fun _ => ⟨[]⟩) (keptBits n)).2) := by
  rintro ⟨vs, hrun⟩
  obtain ⟨vs', hcode⟩ := run_keptBits hn
  have hlists := (Prod.mk.inj (Option.some.inj (hcode.symm.trans hrun))).2
  have hsame : n % 2 ^ 32 = (compactBits (ones n) (ones n)).size :=
    Result.count.inj (List.cons.inj (List.cons.inj (List.cons.inj (List.cons.inj hlists).2).2).2).1
  rw [size_compactBits, size_ones, rank_ones le_rfl] at hsame
  have hlt := Nat.mod_lt n (show 0 < 2 ^ 32 by decide)
  omega

end

/-- **Not a list of booleans** beyond these counts and sizes. -/
theorem not_listsOfBooleans_overflow :
    (AllCalls (fun ls op => op.Meets ls) (fun _ => ⟨[]⟩) (countedBits (2 ^ 32 + 1)) ∧ ¬ ∃ vs,
      run true (fun _ => {}) (countedBits (2 ^ 32 + 1)) =
        some (vs, (specRun (fun _ => ⟨[]⟩) (countedBits (2 ^ 32 + 1))).2)) ∧
    (AllCalls (fun ls op => op.Meets ls) (fun _ => ⟨[]⟩) (keptBits (2 ^ 32)) ∧ ¬ ∃ vs,
      run true (fun _ => {}) (keptBits (2 ^ 32)) = some (vs, (specRun (fun _ => ⟨[]⟩) (keptBits (2 ^ 32))).2)) ∧
    AllCalls (fun ls op => op.Meets ls) (fun _ => ⟨[]⟩) wrappedSize ∧ run true (fun _ => {}) wrappedSize = none := by
  refine ⟨⟨⟨trivial, trivial, trivial⟩, not_run_countedBits (by decide) (by decide) (by decide)⟩,
    ⟨⟨trivial, trivial, ⟨by decide, ?_⟩, trivial, trivial⟩, not_run_keptBits (by decide) le_rfl⟩,
    ⟨trivial, ?_, trivial⟩, rfl⟩
  · show (ones (2 ^ 32)).size = (ones (2 ^ 32)).size
    rfl
  · show 0 < (resizeBits ⟨[]⟩ (2 ^ 64 - 1) false).size
    rw [size_resizeBits]
    decide

end LynxTrace.TraceProcessor.Core.Words
