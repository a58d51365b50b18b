import LynxTrace.Wire.Bytes
import Mathlib.Logic.Function.Basic

/-!
# Base.CyclicMemory — bytes at positions that wrap around

A memory of `size` bytes is read and written at positions of any size, taken modulo `size`.  Two positions of a window
of `size` positions never meet (`mod_ne`), so what is stored at some of them is left alone by stores to the others.
-/

namespace LynxTrace.CyclicMemory

abbrev Memory := ℕ → UInt8

/-- `n` bytes from position `p` on. -/
def load (size : ℕ) (mem : Memory) (p : ℕ) : ℕ → List UInt8
  | 0 => []
  | n + 1 => mem (p % size) :: load size mem (p + 1) n

/-- The bytes `bs` stored from position `p` on. -/
def store (size : ℕ) (mem : Memory) (p : ℕ) : List UInt8 → Memory
  | [] => mem
  | b :: bs => store size (Function.update mem (p % size) b) (p + 1) bs

variable {size : ℕ} {mem mem' : Memory} {p q : ℕ}

theorem mod_ne (base : ℕ) (hp : base ≤ p) (hp' : p < base + size) (hq : base ≤ q) (hq' : q < base + size) (hne : p ≠ q) :
    p % size ≠ q % size := by
  intro h
  have key : ∀ a b, base ≤ a → a < b → b < base + size → a % size ≠ b % size := by
    intro a b ha hab hb heq
    have h1 := (Nat.modEq_iff_dvd' hab.le).mp heq
    have h2 := Nat.le_of_dvd (by omega) h1
    omega
  rcases Nat.lt_or_gt_of_ne hne with h1 | h1
  · exact key p q hp h1 hq' h
  · exact key q p hq h1 hp' h.symm

@[simp] theorem length_load (size : ℕ) (mem : Memory) (p n : ℕ) : (load size mem p n).length = n := by
  induction n generalizing p with
  | zero => rfl
  | succ n ih => rw [load, List.length_cons, ih]

theorem getElem?_load {n i : ℕ} (hi : i < n) : (load size mem p n)[i]? = some (mem ((p + i) % size)) := by
  induction n generalizing p i with
  | zero => exact absurd hi (Nat.not_lt_zero i)
  | succ n ih =>
    cases i with
    | zero => rfl
    | succ i =>
      rw [load, List.getElem?_cons_succ, ih (by omega)]
      congr 3
      omega

theorem load_congr {p' n : ℕ} (h : ∀ i < n, mem' ((p' + i) % size) = mem ((p + i) % size)) :
    load size mem' p' n = load size mem p n := by
  apply List.ext_getElem?
  intro i
  rcases Nat.lt_or_ge i n with hi | hi
  · rw [getElem?_load hi, getElem?_load hi, h i hi]
  · rw [List.getElem?_eq_none (by rwa [length_load]), List.getElem?_eq_none (by rwa [length_load])]

variable {bs : List UInt8}

/-- The bytes at `p` and on are `bs`, if they are so one by one. -/
theorem load_eq (h : ∀ i, (hi : i < bs.length) → mem ((p + i) % size) = bs[i]) : load size mem p bs.length = bs := by
  apply List.ext_getElem?
  intro i
  rcases Nat.lt_or_ge i bs.length with hi | hi
  · rw [getElem?_load hi, h i hi, List.getElem?_eq_getElem hi]
  · rw [List.getElem?_eq_none (by rwa [length_load]), List.getElem?_eq_none hi]

theorem store_of_ne (h : ∀ i < bs.length, (p + i) % size ≠ q % size) :
    store size mem p bs (q % size) = mem (q % size) := by
  induction bs generalizing mem p with
  | nil => rfl
  | cons b bs ih =>
    rw [store, ih]
    · exact Function.update_of_ne (h 0 (Nat.succ_pos _)).symm _ _
    · intro i hi
      have := h (i + 1) (by simpa using hi)
      rwa [show p + 1 + i = p + (i + 1) by omega]

theorem load_store_self (mem : Memory) (p : ℕ) (hlen : bs.length ≤ size) :
    load size (store size mem p bs) p bs.length = bs := by
  induction bs generalizing mem p with
  | nil => rfl
  | cons b bs ih =>
    rw [List.length_cons] at hlen
    rw [List.length_cons, load, store, ih _ _ (by omega)]
    congr 1
    rw [store_of_ne]
    · exact Function.update_self _ _ _
    · intro i hi
      exact mod_ne p (by omega) (by omega) le_rfl (by omega) (by omega)

/-- Stores elsewhere in the window leave what is read as it is. -/
theorem load_store_of_apart (base : ℕ) {n : ℕ} (hp : base ≤ p) (hp' : p + bs.length ≤ base + size) (hq : base ≤ q)
    (hq' : q + n ≤ base + size) (h : p + bs.length ≤ q ∨ q + n ≤ p) :
    load size (store size mem p bs) q n = load size mem q n := by
  apply load_congr
  intro i hi
  apply store_of_ne
  intro j hj
  exact mod_ne base (by omega) (by omega) (by omega) (by omega) (by omega)

/-- One byte of the window, away from what is stored. -/
theorem byte_store_of_apart (base : ℕ) (hp : base ≤ p) (hp' : p + bs.length ≤ base + size) (hq : base ≤ q)
    (hq' : q < base + size) (h : q < p ∨ p + bs.length ≤ q) : store size mem p bs (q % size) = mem (q % size) := by
  apply store_of_ne
  intro i hi
  exact mod_ne base (by omega) (by omega) hq hq' (by omega)

theorem load_mod (p n : ℕ) : load size mem (p % size) n = load size mem p n := by
  apply load_congr
  intro i _
  rw [Nat.mod_add_mod]

theorem store_mod (p : ℕ) (bs : List UInt8) : store size mem (p % size) bs = store size mem p bs := by
  induction bs generalizing mem p with
  | nil => rfl
  | cons b bs ih =>
    rw [store, store, Nat.mod_mod, ← ih, Nat.mod_add_mod, ih]

theorem store_mod_add (p c : ℕ) (bs : List UInt8) :
    store size mem (p % size + c) bs = store size mem (p + c) bs := by
  rw [← store_mod, Nat.mod_add_mod, store_mod]

theorem load_mod_add (p c n : ℕ) : load size mem (p % size + c) n = load size mem (p + c) n := by
  rw [← load_mod, Nat.mod_add_mod, load_mod]

/-- The little-endian 32-bit word at position `p`. -/
def loadU32 (size : ℕ) (mem : Memory) (p : ℕ) : ℕ := Wire.leNat (load size mem p 4)

def storeU32 (size : ℕ) (mem : Memory) (p v : ℕ) : Memory := store size mem p (Wire.leBytes 4 v)

theorem loadU32_storeU32_self {v : ℕ} (hv : v < 2 ^ 32) (hsize : 4 ≤ size) :
    loadU32 size (storeU32 size mem p v) p = v := by
  have h := load_store_self mem p (show (Wire.leBytes 4 v).length ≤ size by simpa using hsize)
  rw [Wire.length_leBytes] at h
  rw [loadU32, storeU32, h]
  exact Wire.leNat_leBytes (by simpa using hv)

theorem loadU32_store_of_apart (base : ℕ) (hp : base ≤ p) (hp' : p + bs.length ≤ base + size) (hq : base ≤ q)
    (hq' : q + 4 ≤ base + size) (h : p + bs.length ≤ q ∨ q + 4 ≤ p) :
    loadU32 size (store size mem p bs) q = loadU32 size mem q := by
  rw [loadU32, load_store_of_apart base hp hp' hq hq' h, loadU32]

end LynxTrace.CyclicMemory
