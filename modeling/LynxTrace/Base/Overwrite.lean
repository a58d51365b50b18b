import Mathlib.Data.List.Basic

/-!
# Base.Overwrite — blocks written into a list

`overwrite xs i ys` is `xs` with the elements from position `i` on replaced by `ys` (a `memcpy` into a buffer),
`slice xs i n` reads `n` elements back.
-/

namespace LynxTrace

variable {α : Type*}

/-- `xs` with the elements from position `i` on replaced by `ys`. -/
def overwrite (xs : List α) (i : ℕ) (ys : List α) : List α := xs.take i ++ ys ++ xs.drop (i + ys.length)

/-- The `n` elements of `xs` from position `i` on. -/
def slice (xs : List α) (i n : ℕ) : List α := (xs.drop i).take n

/-! ### Pieces -/

variable {xs ys : List α} {i n : ℕ}

theorem length_slice (h : i + n ≤ xs.length) : (slice xs i n).length = n := by
  rw [slice, List.length_take, List.length_drop]
  omega

/-- A piece of a piece. -/
theorem slice_slice {j m : ℕ} (h : j + m ≤ n) : slice (slice xs i n) j m = slice xs (i + j) m := by
  rw [slice, slice, slice, List.drop_take, List.drop_drop, List.take_take, Nat.min_eq_left (by omega)]

/-- The rest of a piece. -/
theorem drop_slice (j : ℕ) : (slice xs i n).drop j = slice xs (i + j) (n - j) := by
  rw [slice, slice, List.drop_take, List.drop_drop]

/-! ### One write -/

theorem length_overwrite (h : i + ys.length ≤ xs.length) : (overwrite xs i ys).length = xs.length := by
  simp only [overwrite, List.length_append, List.length_take, List.length_drop]
  omega

theorem getElem?_overwrite (h : i + ys.length ≤ xs.length) (j : ℕ) :
    (overwrite xs i ys)[j]? = if j < i then xs[j]? else if j < i + ys.length then ys[j - i]? else xs[j]? := by
  have hi : (xs.take i).length = i := by
    rw [List.length_take]
    omega
  unfold overwrite
  by_cases h1 : j < i
  · rw [if_pos h1, List.append_assoc, List.getElem?_append_left (by omega), List.getElem?_take, if_pos h1]
  · rw [if_neg h1]
    by_cases h2 : j < i + ys.length
    · rw [if_pos h2, List.append_assoc, List.getElem?_append_right (by omega), hi,
        List.getElem?_append_left (by omega)]
    · rw [if_neg h2, List.getElem?_append_right (by rw [List.length_append]; omega), List.length_append, hi,
        List.getElem?_drop]
      congr 1
      omega

theorem slice_eq_of_getElem? (h : ∀ j, i ≤ j → j < i + n → xs[j]? = ys[j]?) : slice xs i n = slice ys i n := by
  apply List.ext_getElem?
  intro j
  simp only [slice, List.getElem?_take, List.getElem?_drop]
  split_ifs with hj
  · exact h (i + j) (by omega) (by omega)
  · rfl

theorem slice_overwrite_self (h : i + ys.length ≤ xs.length) : slice (overwrite xs i ys) i ys.length = ys := by
  apply List.ext_getElem?
  intro j
  simp only [slice, List.getElem?_take, List.getElem?_drop]
  split_ifs with hj
  · rw [getElem?_overwrite h, if_neg (by omega), if_pos (by omega), Nat.add_sub_cancel_left]
  · rw [List.getElem?_eq_none (by omega)]

/-- Writing right after a piece makes it longer. -/
theorem slice_overwrite_append {j : ℕ} (hij : i ≤ j) (h : j + ys.length ≤ xs.length) :
    slice (overwrite xs j ys) i (j + ys.length - i) = slice xs i (j - i) ++ ys := by
  have hlen : (slice xs i (j - i)).length = j - i := by
    rw [slice, List.length_take, List.length_drop]
    omega
  apply List.ext_getElem?
  intro k
  by_cases hk : k < j - i
  · rw [List.getElem?_append_left (by omega)]
    simp only [slice, List.getElem?_take, List.getElem?_drop]
    rw [if_pos (by omega), if_pos hk, getElem?_overwrite h, if_pos (by omega)]
  · rw [List.getElem?_append_right (by omega), hlen]
    simp only [slice, List.getElem?_take, List.getElem?_drop]
    split_ifs with hk'
    · rw [getElem?_overwrite h, if_neg (by omega), if_pos (by omega)]
      congr 1
      omega
    · rw [List.getElem?_eq_none (by omega)]

/-- The end of a piece. -/
theorem slice_of_suffix {rest : List α} (hn : i + n ≤ xs.length) (h : rest <:+ slice xs i n) :
    slice xs (i + n - rest.length) rest.length = rest := by
  have hlen : (slice xs i n).length = n := by
    rw [slice, List.length_take, List.length_drop]
    omega
  have hle := h.length_le
  rw [hlen] at hle
  calc slice xs (i + n - rest.length) rest.length
      = (slice xs i n).drop ((slice xs i n).length - rest.length) := by
        rw [hlen, slice, slice, List.drop_take, List.drop_drop, show i + (n - rest.length) = i + n - rest.length by omega,
          show n - (n - rest.length) = rest.length by omega]
    _ = rest := (List.suffix_iff_eq_drop.mp h).symm

/-! ### Two cursors -/

/-- A read and a write cursor in a buffer, whose size is a number of steps within a limit. -/
structure CursorsIn (step limit : ℕ) (xs : List α) (rd wr : ℕ) : Prop where
  rd_le : rd ≤ wr
  wr_le : wr ≤ xs.length
  steps : step ∣ xs.length
  limit : xs.length ≤ limit

namespace CursorsIn

variable {step limit rd wr : ℕ} (h : CursorsIn step limit xs rd wr)

include h

theorem length_between : (slice xs rd (wr - rd)).length = wr - rd := by
  have hrd := h.rd_le
  have hwr := h.wr_le
  exact length_slice (by omega)

/-- Writing after the bytes between the cursors. -/
theorem write (hspace : ys.length ≤ xs.length - wr) :
    CursorsIn step limit (overwrite xs wr ys) rd (wr + ys.length) ∧
      slice (overwrite xs wr ys) rd (wr + ys.length - rd) = slice xs rd (wr - rd) ++ ys := by
  have hrd := h.rd_le
  have hwr := h.wr_le
  have hfits : wr + ys.length ≤ xs.length := by omega
  have hlen := length_overwrite hfits
  exact ⟨⟨by omega, by omega, by rw [hlen]; exact h.steps, by rw [hlen]; exact h.limit⟩, slice_overwrite_append hrd hfits⟩

/-- Moving them to the beginning keeps them. -/
theorem recompact :
    CursorsIn step limit (overwrite xs 0 (slice xs rd (wr - rd))) 0 (wr - rd) ∧
      slice (overwrite xs 0 (slice xs rd (wr - rd))) 0 (wr - rd - 0) = slice xs rd (wr - rd) ∧
      (overwrite xs 0 (slice xs rd (wr - rd))).length = xs.length := by
  have hwr := h.wr_le
  have hbetween := h.length_between
  have hfits : 0 + (slice xs rd (wr - rd)).length ≤ xs.length := by omega
  have hlen := length_overwrite hfits
  refine ⟨⟨Nat.zero_le _, by omega, by rw [hlen]; exact h.steps, by rw [hlen]; exact h.limit⟩, ?_, hlen⟩
  have hself := slice_overwrite_self hfits
  rwa [hbetween] at hself

/-- A larger buffer keeps them. -/
theorem expand (hsteps : step ∣ (xs ++ ys).length) (hlimit : (xs ++ ys).length ≤ limit) :
    CursorsIn step limit (xs ++ ys) rd wr ∧ slice (xs ++ ys) rd (wr - rd) = slice xs rd (wr - rd) := by
  have hrd := h.rd_le
  have hwr := h.wr_le
  refine ⟨⟨hrd, ?_, hsteps, hlimit⟩, slice_eq_of_getElem? fun j _ _ => List.getElem?_append_left (by omega)⟩
  rw [List.length_append]
  omega

/-- Reading takes its bytes off them. -/
theorem skip {rest : List α} (hrest : rest <:+ slice xs rd (wr - rd)) :
    CursorsIn step limit xs (wr - rest.length) wr ∧
      slice xs (wr - rest.length) (wr - (wr - rest.length)) = rest := by
  have hrd := h.rd_le
  have hwr := h.wr_le
  have hbetween := h.length_between
  have hle := hrest.length_le
  refine ⟨⟨Nat.sub_le _ _, hwr, h.steps, h.limit⟩, ?_⟩
  have hend := slice_of_suffix (by omega : rd + (wr - rd) ≤ xs.length) hrest
  rw [show rd + (wr - rd) - rest.length = wr - rest.length by omega] at hend
  rw [show wr - (wr - rest.length) = rest.length by omega]
  exact hend

end CursorsIn

end LynxTrace
