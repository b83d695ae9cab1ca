import Mathlib.Algebra.Group.Defs

/-!
# Reading stored vectors

A stored vector is read at every position, as zero behind its end. Two vectors of one size are equal
when they read the same, and the first entries of a vector are a function on indices.
-/

namespace PolynomialEquations

variable {K : Type} [Zero K]

/-- A vector reads as zero from its size on. -/
theorem getD_of_size_le {v : Array K} {i : ℕ} (hi : v.size ≤ i) : v.getD i 0 = 0 := by
  rw [Array.getD_eq_getD_getElem?, Array.getElem?_eq_none hi, Option.getD_none]

/-- Below its size a vector reads as its entry. -/
theorem getD_of_lt_size {v : Array K} {i : ℕ} (hi : i < v.size) : v.getD i 0 = v[i] := by
  rw [Array.getD_eq_getD_getElem?, Array.getElem?_eq_getElem hi, Option.getD_some]

/-- A vector built from a formula reads as the formula, as far as it reaches. -/
theorem getD_ofFn {n : ℕ} (f : Fin n → K) (i : ℕ) :
    (Array.ofFn f).getD i 0 = if h : i < n then f ⟨i, h⟩ else 0 := by
  rw [Array.getD_eq_getD_getElem?, Array.getElem?_ofFn]
  split <;> rfl

/-- A segment of a vector holds the entries from its start on, as far as it reaches. -/
theorem getD_extract (v : Array K) (start stop i : ℕ) :
    (v.extract start stop).getD i 0 = if start + i < stop then v.getD (start + i) 0 else 0 := by
  simp only [Array.getD_eq_getD_getElem?, Array.getElem?_extract]
  by_cases hi : i < min stop v.size - start
  · rw [if_pos hi, if_pos (by omega)]
  · rw [if_neg hi, Option.getD_none]
    split
    · rw [Array.getElem?_eq_none (by omega), Option.getD_none]
    · rfl

/-- A vector put behind another one reads from the end of the first one on. -/
theorem getD_append (u v : Array K) (i : ℕ) :
    (u ++ v).getD i 0 = if i < u.size then u.getD i 0 else v.getD (i - u.size) 0 := by
  simp only [Array.getD_eq_getD_getElem?, Array.getElem?_append]
  split <;> rfl

/-- An image of a vector reads as the image of what the vector reads as, for a map that keeps
zero. -/
theorem getD_map {L : Type} [Zero L] {f : K → L} (hf : f 0 = 0) (v : Array K) (i : ℕ) :
    (v.map f).getD i 0 = f (v.getD i 0) := by
  simp only [Array.getD_eq_getD_getElem?, Array.getElem?_map]
  cases v[i]? with
  | none => exact hf.symm
  | some x => rfl

/-- A reversed vector reads from the end. -/
theorem getD_reverse (v : Array K) (i : ℕ) :
    v.reverse.getD i 0 = if i < v.size then v.getD (v.size - 1 - i) 0 else 0 := by
  simp only [Array.getD_eq_getD_getElem?]
  by_cases hi : i < v.size
  · rw [if_pos hi, Array.getElem?_reverse hi]
  · rw [if_neg hi, Array.getElem?_eq_none (by rw [Array.size_reverse]; omega), Option.getD_none]

/-- Vectors of one size that read the same are equal. -/
theorem eq_of_getD_eq {u v : Array K} (hsize : u.size = v.size)
    (h : ∀ i, u.getD i 0 = v.getD i 0) : u = v := by
  refine Array.ext hsize fun i hu hv => ?_
  rw [← getD_of_lt_size hu, h, getD_of_lt_size hv]

/-- The first `n` entries of a stored vector as a function on indices. -/
def coordinates (n : ℕ) (v : Array K) : Fin n → K := fun i => v.getD i 0

theorem coordinates_apply {n : ℕ} (v : Array K) (i : Fin n) : coordinates n v i = v.getD i 0 := rfl

/-- Storing a function on indices and reading it gives the function back. -/
@[simp] theorem coordinates_ofFn {n : ℕ} (f : Fin n → K) : coordinates n (Array.ofFn f) = f := by
  funext i
  rw [coordinates, getD_ofFn, dif_pos i.isLt]

/-- Two vectors of size `n` with the same coordinates are equal. -/
theorem eq_of_coordinates_eq {n : ℕ} {u v : Array K} (hu : u.size = n) (hv : v.size = n)
    (h : coordinates n u = coordinates n v) : u = v := by
  refine eq_of_getD_eq (hu.trans hv.symm) fun i => ?_
  by_cases hi : i < n
  · exact congrFun h ⟨i, hi⟩
  · rw [getD_of_size_le (by omega), getD_of_size_le (by omega)]

end PolynomialEquations
