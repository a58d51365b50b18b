import LynxTrace.Base.ByClass
import Mathlib.Algebra.Order.Ring.Int
import Mathlib.Data.List.GetD
import Mathlib.Data.List.Induction
import Mathlib.Data.List.Lex

/-!
# Core.RadixSort — counting passes from the last bytes of the keys to the first

`countingPass` is the counts, the places and the distribution of `CountingSortPass` in `sort.h`.
-/

namespace LynxTrace.Core.Sort

variable {α : Type*}

/-! ### The source -/

/-- The number of elements of each class; a counter is taken modulo `m` (for `m = 0` as it is). -/
def countFrequencies (m : ℕ) (cls : α → ℕ) (size : ℕ) (xs : List α) : List ℕ :=
  xs.foldl (fun counts x => counts.modify (cls x) fun count => (count + 1) % m) (List.replicate size 0)

/-- The counts become the places where the classes begin. -/
def cumulate (m : ℕ) : ℕ → List ℕ → List ℕ
  | _, [] => []
  | total, count :: counts => total :: cumulate m ((total + count) % m) counts

/-- Each element goes to the place of its class, which moves on by one; `none` is a place outside the buffer. -/
def distribute (m : ℕ) (cls : α → ℕ) : List α → List ℕ → List α → Option (List α × List ℕ)
  | [], counts, dest => some (dest, counts)
  | x :: xs, counts, dest =>
    let pos := counts.getD (cls x) 0
    if pos < dest.length then distribute m cls xs (counts.set (cls x) ((pos + 1) % m)) (dest.set pos x) else none

/-- The buffer and the counts after a pass. -/
def countingPass (m : ℕ) (cls : α → ℕ) (size : ℕ) (source dest : List α) : Option (List α × List ℕ) :=
  distribute m cls source (cumulate m 0 (countFrequencies m cls size source)) dest

/-- A byte, or two of them with the greater one first. -/
def getRadix (kRadixBits : ℕ) (key : List UInt8) (byteOffset : ℕ) : ℕ :=
  if kRadixBits = 8 then (key.getD byteOffset 0).toNat
  else (key.getD byteOffset 0).toNat * 256 + (key.getD (byteOffset + 1) 0).toNat

/-- The counts are `uint32_t`. -/
def countingSortPass (kRadixBits : ℕ) (key : α → List UInt8) (source dest : List α) (byteOffset : ℕ) :
    Option (List α) :=
  (countingPass (2 ^ 32) (fun x => getRadix kRadixBits (key x) byteOffset) (2 ^ kRadixBits) source dest).map (·.1)

/-- The passes for the bytes that remain; the buffers are swapped after each one. -/
def radixPasses (key : α → List UInt8) (numElements : ℕ) : ℕ → List α → List α → Option (List α)
  | remaining + 2, source, dest =>
    (countingSortPass 16 key (source.take numElements) dest remaining).bind fun dest =>
      radixPasses key numElements remaining dest source
  | 1, source, dest => countingSortPass 8 key (source.take numElements) dest 0
  | 0, source, _ => some source

/-- The collection that `RadixSort` returns a pointer to. -/
def radixSort (keyWidth : ℕ) (key : α → List UInt8) (elements scratch : List α) : Option (List α) :=
  if elements.length ≤ 1 then some elements
  else (radixPasses key elements.length keyWidth elements scratch).map (·.take elements.length)

/-! ### The counts -/

variable {m size : ℕ} {cls : α → ℕ}

theorem countFrequencies_concat (xs : List α) (x : α) :
    countFrequencies m cls size (xs ++ [x]) =
      (countFrequencies m cls size xs).modify (cls x) fun count => (count + 1) % m := by
  rw [countFrequencies, List.foldl_append]
  rfl

theorem getElem?_countFrequencies (xs : List α) {c : ℕ} (hc : c < size) :
    (countFrequencies m cls size xs)[c]? = some ((xs.filter (cls · = c)).length % m) := by
  induction xs using List.reverseRecOn with
  | nil =>
    rw [countFrequencies, List.foldl_nil, List.getElem?_replicate, if_pos hc, List.filter_nil, List.length_nil,
      Nat.zero_mod]
  | append_singleton xs x ih =>
    rw [countFrequencies_concat, List.getElem?_modify, ih, List.filter_append, List.length_append]
    by_cases hx : cls x = c
    · simp [hx]
    · simp [hx]

theorem length_countFrequencies (xs : List α) : (countFrequencies m cls size xs).length = size := by
  induction xs using List.reverseRecOn with
  | nil => exact List.length_replicate
  | append_singleton xs x ih => rw [countFrequencies_concat, List.length_modify, ih]

theorem length_cumulate (total : ℕ) (counts : List ℕ) : (cumulate m total counts).length = counts.length := by
  induction counts generalizing total with
  | nil => rfl
  | cons count counts ih => rw [cumulate, List.length_cons, List.length_cons, ih]

theorem getElem?_cumulate {counts : List ℕ} {total c : ℕ} (hc : c < counts.length) :
    (cumulate m (total % m) counts)[c]? = some ((total + (counts.take c).sum) % m) := by
  induction counts generalizing total c with
  | nil => exact absurd hc (Nat.not_lt_zero c)
  | cons count counts ih =>
    rw [cumulate]
    cases c with
    | zero => simp
    | succ c =>
      rw [List.getElem?_cons_succ, Nat.mod_add_mod, ih (Nat.lt_of_succ_lt_succ hc), List.take_succ_cons, List.sum_cons,
        Nat.add_assoc]

/-- Where the classes begin. -/
theorem getElem?_starts (xs : List α) {c : ℕ} (hc : c < size) :
    (cumulate m 0 (countFrequencies m cls size xs))[c]? = some (classStart cls xs c % m) := by
  have hsum : ∀ d ≤ size, ((countFrequencies m cls size xs).take d).sum % m = classStart cls xs d % m := by
    intro d hd
    induction d with
    | zero => simp
    | succ d ih =>
      rw [List.take_add_one, getElem?_countFrequencies xs hd, List.sum_append, Nat.add_mod, ih (Nat.le_of_lt hd)]
      simp [classStart_succ]
  have := @getElem?_cumulate m (countFrequencies m cls size xs) 0 c (by rwa [length_countFrequencies])
  rw [Nat.zero_mod] at this
  rw [this, Nat.zero_add, hsum c (Nat.le_of_lt hc)]

/-! ### The distribution -/

/-- After the first elements `done` of `xs` have been placed. -/
structure Placed (m : ℕ) (cls : α → ℕ) (size : ℕ) (xs start done : List α) (counts : List ℕ) (dest : List α) :
    Prop where
  counts_length : counts.length = size
  counts : ∀ c < size, counts[c]? = some ((classStart cls xs c + (done.filter (cls · = c)).length) % m)
  length : dest.length = start.length
  placed : ∀ c < size, ∀ k x, (done.filter (cls · = c))[k]? = some x → dest[classStart cls xs c + k]? = some x
  rest : ∀ i, xs.length ≤ i → dest[i]? = start[i]?

theorem Placed.step {xs start done rest : List α} {counts : List ℕ} {dest : List α} {x : α}
    (h : Placed m cls size xs start done counts dest) (hxs : xs = done ++ x :: rest)
    (hcls : ∀ x ∈ xs, cls x < size) (hlength : xs.length ≤ start.length) (hm : m = 0 ∨ xs.length ≤ m) :
    counts.getD (cls x) 0 < dest.length ∧
      Placed m cls size xs start (done ++ [x]) (counts.set (cls x) ((counts.getD (cls x) 0 + 1) % m))
        (dest.set (counts.getD (cls x) 0) x) := by
  have hx : x ∈ xs := by rw [hxs]; simp
  have hc := hcls x hx
  have hend := classStart_mono cls xs (show cls x + 1 ≤ _ from hc)
  rw [classStart_eq_length hcls, classStart_succ] at hend
  have hcount : (done.filter (cls · = cls x)).length < (xs.filter (cls · = cls x)).length := by
    rw [hxs, List.filter_append, List.length_append, List.filter_cons_of_pos (by simp), List.length_cons]
    omega
  generalize hp : classStart cls xs (cls x) + (done.filter (cls · = cls x)).length = p at *
  have hpos : counts.getD (cls x) 0 = p := by
    rw [List.getD_eq_getElem?_getD, h.counts _ hc, Option.getD_some, hp]
    rcases hm with rfl | hm
    · exact Nat.mod_zero p
    · exact Nat.mod_eq_of_lt (by omega)
  have hplace : p < xs.length := by omega
  rw [hpos]
  refine ⟨by rw [h.length]; omega, ?_⟩
  constructor
  · rw [List.length_set, h.counts_length]
  · intro c hc'
    by_cases heq : cls x = c
    · subst heq
      rw [List.getElem?_set_self (by rwa [h.counts_length]), List.filter_append, List.filter_cons_of_pos (by simp),
        List.filter_nil, List.length_append, List.length_singleton, ← Nat.add_assoc, hp]
    · rw [List.getElem?_set_ne heq, h.counts c hc', List.filter_append,
        List.filter_cons_of_neg (by simpa using heq), List.filter_nil, List.append_nil]
  · rw [List.length_set, h.length]
  · intro c hc' k y hk
    by_cases hlast : classStart cls xs c + k = p
    · -- this place belongs to the class of the element, and is the first one that is free
      have hcx : c = cls x := by
        have hk' : k < (xs.filter (cls · = c)).length := by
          refine Nat.lt_of_lt_of_le (List.getElem?_eq_some_iff.mp hk).1 ?_
          have hxs' : xs = (done ++ [x]) ++ rest := by rw [hxs, List.append_cons]
          rw [hxs']
          exact ((List.prefix_append (done ++ [x]) rest).filter _).length_le
        have hc1 := @classStart_succ _ cls xs c
        have hx1 := @classStart_succ _ cls xs (cls x)
        rcases Nat.lt_trichotomy c (cls x) with hlt | heq | hgt
        · have := classStart_mono cls xs (show c + 1 ≤ _ from hlt)
          omega
        · exact heq
        · have := classStart_mono cls xs (show cls x + 1 ≤ _ from hgt)
          omega
      subst hcx
      have hk' : k = (done.filter (cls · = cls x)).length := by omega
      rw [List.filter_append, List.filter_cons_of_pos (by simp), List.filter_nil, hk',
        List.getElem?_concat_length] at hk
      rw [hlast, List.getElem?_set_self (by rw [h.length]; omega), hk]
    · rw [List.getElem?_set_ne (Ne.symm hlast)]
      refine h.placed c hc' k y ?_
      rw [List.filter_append] at hk
      by_cases heq : cls x = c
      · subst heq
        rw [List.filter_cons_of_pos (by simp), List.filter_nil] at hk
        rw [List.getElem?_append_left] at hk
        · exact hk
        · have := (List.getElem?_eq_some_iff.mp hk).1
          rw [List.length_append, List.length_singleton] at this
          omega
      · rwa [List.filter_cons_of_neg (by simpa using heq), List.filter_nil, List.append_nil] at hk
  · intro i hi
    rw [List.getElem?_set_ne (by omega), h.rest i hi]

theorem Placed.distribute {xs start : List α} (hcls : ∀ x ∈ xs, cls x < size) (hlength : xs.length ≤ start.length)
    (hm : m = 0 ∨ xs.length ≤ m) {rest : List α} : ∀ {done counts dest}, xs = done ++ rest →
      Placed m cls size xs start done counts dest →
      ∃ dest' counts', distribute m cls rest counts dest = some (dest', counts') ∧
        Placed m cls size xs start xs counts' dest' := by
  induction rest with
  | nil =>
    intro done counts dest hxs h
    rw [List.append_nil] at hxs
    exact ⟨dest, counts, rfl, hxs ▸ h⟩
  | cons x rest ih =>
    intro done counts dest hxs h
    obtain ⟨hpos, hstep⟩ := h.step hxs hcls hlength hm
    simp only [Sort.distribute]
    rw [if_pos hpos]
    exact ih (by rw [hxs, List.append_assoc]; rfl) hstep

/-- **A counting pass** puts the elements in order class by class, and leaves each count at the end of its class. -/
theorem countingPass_spec {source dest : List α} (hcls : ∀ x ∈ source, cls x < size)
    (hlength : source.length ≤ dest.length) (hm : m = 0 ∨ source.length ≤ m) :
    ∃ counts, countingPass m cls size source dest =
        some (byClass cls size source ++ dest.drop source.length, counts) ∧
      ∀ c < size, counts.getD c 0 = classStart cls source (c + 1) % m := by
  have hstart : Placed m cls size source dest [] (cumulate m 0 (countFrequencies m cls size source)) dest := by
    constructor
    · rw [length_cumulate, length_countFrequencies]
    · intro c hc
      rw [getElem?_starts source hc]
      rfl
    · rfl
    · intro c _ k x hk
      cases hk
    · exact fun _ _ => rfl
  obtain ⟨dest', counts, hdist, h⟩ := hstart.distribute hcls hlength hm (List.nil_append _).symm
  refine ⟨counts, ?_, fun c hc => ?_⟩
  · rw [countingPass, hdist]
    congr 2
    rw [← List.take_append_drop source.length dest']
    congr 1
    · rw [← take_eq_byClass h.placed, classStart_eq_length hcls]
    · refine List.ext_getElem? fun i => ?_
      rw [List.getElem?_drop, List.getElem?_drop, h.rest _ (Nat.le_add_right _ _)]
  · rw [List.getD_eq_getElem?_getD, h.counts c hc, Option.getD_some, classStart_succ]

/-! ### Keys -/

/-- `memcmp` compares the bytes as numbers, from the first one on. -/
def unsigned (key : List UInt8) : List ℕ := key.map (·.toNat)

theorem cons_le_cons_iff {a b : ℕ} {s t : List ℕ} : a :: s ≤ b :: t ↔ a < b ∨ a = b ∧ s ≤ t := by
  rw [← not_lt, ← not_lt, List.cons_lt_cons_iff]
  constructor
  · intro h
    by_cases hlt : a < b
    · exact Or.inl hlt
    · have heq : a = b := by
        by_contra hne
        exact h (Or.inl (by omega))
      exact Or.inr ⟨heq, fun hst => h (Or.inr ⟨heq.symm, hst⟩)⟩
  · rintro (hlt | ⟨rfl, hst⟩) (hgt | ⟨heq, hts⟩)
    · omega
    · omega
    · omega
    · exact hst hts

/-- The key from a byte on, by its radix and what follows. -/
theorem unsigned_drop_byte {key : List UInt8} {i : ℕ} (h : i < key.length) :
    unsigned (key.drop i) = getRadix 8 key i :: unsigned (key.drop (i + 1)) := by
  rw [getRadix, if_pos rfl, List.drop_eq_getElem_cons h, List.getD_eq_getElem _ _ h]
  rfl

theorem getRadix_lt_byte (key : List UInt8) (i : ℕ) : getRadix 8 key i < 2 ^ 8 := by
  rw [getRadix, if_pos rfl]
  exact UInt8.toNat_lt _

theorem getRadix_two (key : List UInt8) (i : ℕ) :
    getRadix 16 key i = getRadix 8 key i * 256 + getRadix 8 key (i + 1) := by
  simp [getRadix]

theorem getRadix_lt_two (key : List UInt8) (i : ℕ) : getRadix 16 key i < 2 ^ 16 := by
  have h1 := getRadix_lt_byte key i
  have h2 := getRadix_lt_byte key (i + 1)
  rw [getRadix_two]
  omega

/-! ### The passes -/

variable {key : α → List UInt8}

theorem countingSortPass_spec {kRadixBits byteOffset : ℕ} {source dest : List α}
    (hradix : ∀ x ∈ source, getRadix kRadixBits (key x) byteOffset < 2 ^ kRadixBits)
    (hlength : source.length ≤ dest.length) (hcount : source.length ≤ 2 ^ 32) :
    countingSortPass kRadixBits key source dest byteOffset =
      some (byClass (fun x => getRadix kRadixBits (key x) byteOffset) (2 ^ kRadixBits) source ++
        dest.drop source.length) := by
  obtain ⟨counts, hpass, _⟩ := countingPass_spec (m := 2 ^ 32) hradix hlength (Or.inr hcount)
  rw [countingSortPass, hpass, Option.map_some]

theorem radixPasses_spec {xs : List α} (hcount : xs.length ≤ 2 ^ 32) :
    ∀ {remaining : ℕ} {source dest : List α}, (∀ x ∈ xs, remaining ≤ (key x).length) →
      xs.length ≤ source.length → xs.length ≤ dest.length →
      StablySorts (fun x => unsigned ((key x).drop remaining)) xs (source.take xs.length) →
      ∃ out, radixPasses key xs.length remaining source dest = some out ∧
        StablySorts (fun x => unsigned (key x)) xs (out.take xs.length)
  | 0, source, _, _, _, _, h => ⟨source, rfl, h⟩
  | 1, source, dest, hkeys, hsource, hdest, h => by
    have hlen : (source.take xs.length).length = xs.length := by rw [List.length_take, Nat.min_eq_left hsource]
    have hsorted : StablySorts (fun x => unsigned (key x)) xs
        (byClass (fun x => getRadix 8 (key x) 0) (2 ^ 8) (source.take xs.length)) := by
      refine h.byClass (fun x _ => getRadix_lt_byte _ _) fun a ha b hb => ?_
      have hunsigned : ∀ x ∈ xs, unsigned (key x) = getRadix 8 (key x) 0 :: unsigned ((key x).drop 1) :=
        fun x hx => unsigned_drop_byte (i := 0) (hkeys x hx)
      simp only [hunsigned a ha, hunsigned b hb, cons_le_cons_iff]
    refine ⟨_, countingSortPass_spec (fun x _ => getRadix_lt_byte _ _) (by rwa [hlen]) (by rwa [hlen]), ?_⟩
    rwa [List.take_left' hsorted.perm.length_eq]
  | remaining + 2, source, dest, hkeys, hsource, hdest, h => by
    have hlen : (source.take xs.length).length = xs.length := by rw [List.length_take, Nat.min_eq_left hsource]
    have hsorted : StablySorts (fun x => unsigned ((key x).drop remaining)) xs
        (byClass (fun x => getRadix 16 (key x) remaining) (2 ^ 16) (source.take xs.length)) := by
      refine h.byClass (fun x _ => getRadix_lt_two _ _) fun a ha b hb => ?_
      have hunsigned : ∀ x ∈ xs, unsigned ((key x).drop remaining) = getRadix 8 (key x) remaining ::
          getRadix 8 (key x) (remaining + 1) :: unsigned ((key x).drop (remaining + 2)) := by
        intro x hx
        have hlong := hkeys x hx
        rw [unsigned_drop_byte (by omega), unsigned_drop_byte (by omega)]
      have ha1 := getRadix_lt_byte (key a) (remaining + 1)
      have hb1 := getRadix_lt_byte (key b) (remaining + 1)
      simp only [hunsigned a ha, hunsigned b hb, cons_le_cons_iff, getRadix_two]
      constructor
      · rintro (hlt | ⟨heq, hlt | ⟨heq', hle⟩⟩)
        · left; omega
        · left; omega
        · exact Or.inr ⟨by omega, hle⟩
      · rintro (hlt | ⟨heq, hle⟩)
        · by_cases hfirst : getRadix 8 (key a) remaining = getRadix 8 (key b) remaining
          · exact Or.inr ⟨hfirst, Or.inl (by omega)⟩
          · exact Or.inl (by omega)
        · exact Or.inr ⟨by omega, Or.inr ⟨by omega, hle⟩⟩
    rw [radixPasses, countingSortPass_spec (fun x _ => getRadix_lt_two _ _) (by rwa [hlen]) (by rwa [hlen]),
      Option.bind_some]
    refine radixPasses_spec hcount (fun x hx => Nat.le_of_lt (Nat.lt_of_succ_lt (hkeys x hx))) ?_ hsource ?_
    · rw [List.length_append, hsorted.perm.length_eq]
      exact Nat.le_add_right _ _
    · rwa [List.take_left' hsorted.perm.length_eq]

/-- **A radix sort is stable**, and in the order of the bytes. -/
theorem radixSort_spec {keyWidth : ℕ} {xs scratch : List α} (hkeys : ∀ x ∈ xs, (key x).length = keyWidth)
    (hscratch : xs.length ≤ scratch.length) (hcount : xs.length ≤ 2 ^ 32) :
    ∃ ys, radixSort keyWidth key xs scratch = some ys ∧ StablySorts (fun x => unsigned (key x)) xs ys := by
  unfold radixSort
  by_cases hfew : xs.length ≤ 1
  · rw [if_pos hfew]
    refine ⟨xs, rfl, List.Perm.refl _, ?_, fun _ => rfl⟩
    match xs, hfew with
    | [], _ => exact List.Pairwise.nil
    | [x], _ => exact List.pairwise_singleton _ x
  · rw [if_neg hfew]
    have hstart : StablySorts (fun x => unsigned ((key x).drop keyWidth)) xs (xs.take xs.length) := by
      rw [List.take_length]
      refine ⟨List.Perm.refl _, ?_, fun _ => rfl⟩
      refine List.Pairwise.imp_of_mem (fun {a b} ha hb _ => ?_) (List.pairwise_of_forall (R := fun _ _ => True)
        fun _ _ => trivial)
      rw [List.drop_of_length_le (hkeys a ha).le, List.drop_of_length_le (hkeys b hb).le]
    obtain ⟨out, hout, h⟩ := radixPasses_spec hcount (fun x hx => (hkeys x hx).ge) (Nat.le_refl _) hscratch hstart
    exact ⟨_, by rw [hout, Option.map_some], h⟩

end LynxTrace.Core.Sort
