import PolynomialEquations.Proofs.Poly.Trimming

/-!
# The trimmed form is a normal form

A trimmed polynomial other than zero ends with a coefficient other than zero, and a Laurent
polynomial starts with one. So the window of a trimmed polynomial can be read off its coefficients,
and two of one kind with the same coefficients at every exponent store the same window. Across kinds
this holds exactly when the constant term is not zero.
-/

namespace PolynomialEquations

namespace Poly

variable {K : Type} [Zero K]

section Window

variable {a : Poly K} {k : ℤ}

/-- Below the window all coefficients are zero. -/
theorem coeff_of_lt_first (hk : k < a.first) : a.coeff k = 0 := if_neg (by omega)

/-- Above the window all coefficients are zero. -/
theorem coeff_of_last_lt (hk : a.last < k) : a.coeff k = 0 := by
  unfold last at hk
  unfold coeff
  split
  · exact getD_of_size_le (by omega)
  · rfl

/-- A coefficient other than zero lies in the window. -/
theorem mem_window_of_coeff_ne_zero (h : a.coeff k ≠ 0) : a.first ≤ k ∧ k ≤ a.last := by
  constructor
  · by_contra hlt
    exact h (coeff_of_lt_first (by omega))
  · by_contra hlt
    exact h (coeff_of_last_lt (by omega))

/-- The entries of the stored vector are the coefficients from the first exponent on. -/
theorem coeff_first_add (a : Poly K) (i : ℕ) : a.coeff (a.first + i) = a.coef.getD i 0 := by
  rw [coeff, if_pos (by omega)]
  congr 1
  omega

end Window

variable [BEq K] [LawfulBEq K] {a b : Poly K}

/-- A value counts as zero exactly when all its coefficients are zero. -/
theorem isZero_iff_coeff (a : Poly K) : a.isZero = true ↔ ∀ k, a.coeff k = 0 := by
  rw [isZero, Array.all_eq_true]
  simp only [beq_iff_eq]
  constructor
  · intro h k
    unfold coeff
    split
    · by_cases hk : (k - a.first).toNat < a.coef.size
      · rw [getD_of_lt_size hk, h _ hk]
      · exact getD_of_size_le (by omega)
    · rfl
  · intro h i hi
    rw [← getD_of_lt_size hi, ← coeff_first_add, h]

/-- A coefficient other than zero keeps a value from counting as zero. -/
theorem isZero_eq_false_of_coeff {k : ℤ} (h : a.coeff k ≠ 0) : a.isZero = false := by
  rw [← Bool.not_eq_true, isZero_iff_coeff]
  exact fun hzero => h (hzero k)

/-- Above the degree all coefficients are zero. -/
theorem coeff_of_degree_lt {k : ℤ} (hk : a.degree < k) : a.coeff k = 0 := by
  rw [degree] at hk
  split at hk
  · next hzero => exact (isZero_iff_coeff a).mp hzero k
  · exact coeff_of_last_lt hk

/-- Values with the same coefficients count as zero together. -/
theorem isZero_congr (h : ∀ k, a.coeff k = b.coeff k) : a.isZero = b.isZero := by
  rw [Bool.eq_iff_iff, isZero_iff_coeff, isZero_iff_coeff]
  exact forall_congr' fun k => by rw [h]

namespace Trimmed

/-- The zero polynomial is stored as one zero at exponent zero. -/
theorem eq_singleton (ha : a.Trimmed) (hzero : a.isZero = true) : a.first = 0 ∧ a.coef = #[0] := by
  have hentry : ∀ i, a.coef.getD i 0 = 0 := fun i => by
    rw [← coeff_first_add, (isZero_iff_coeff a).mp hzero]
  cases a with
  | ordinary c s =>
    rcases ha with rfl | ⟨-, hlast⟩
    · exact ⟨rfl, rfl⟩
    · exact absurd (hentry _) (beq_eq_false_iff_ne.mp hlast)
  | laurent f c s =>
    rcases ha with ⟨rfl, rfl⟩ | ⟨-, -, hlast⟩
    · exact ⟨rfl, rfl⟩
    · exact absurd (hentry _) (beq_eq_false_iff_ne.mp hlast)

/-- The last stored coefficient of a polynomial other than zero is not zero. -/
theorem getD_last_ne_zero (ha : a.Trimmed) (hzero : a.isZero = false) :
    0 < a.coef.size ∧ a.coef.getD (a.coef.size - 1) 0 ≠ 0 := by
  cases a with
  | ordinary c s =>
    rcases ha with rfl | ⟨hpos, hlast⟩
    · exact absurd hzero (by simp [isZero])
    · exact ⟨hpos, beq_eq_false_iff_ne.mp hlast⟩
  | laurent f c s =>
    rcases ha with ⟨rfl, rfl⟩ | ⟨hpos, -, hlast⟩
    · exact absurd hzero (by simp [isZero])
    · exact ⟨hpos, beq_eq_false_iff_ne.mp hlast⟩

/-- The coefficient at the last exponent of a polynomial other than zero is not zero. -/
theorem coeff_last_ne_zero (ha : a.Trimmed) (hzero : a.isZero = false) : a.coeff a.last ≠ 0 := by
  obtain ⟨hpos, hlast⟩ := ha.getD_last_ne_zero hzero
  have hindex : a.last = a.first + (a.coef.size - 1 : ℕ) := by
    rw [last]
    omega
  rwa [hindex, coeff_first_add]

/-- The coefficient at the first exponent of a Laurent polynomial other than zero is not zero. -/
theorem coeff_first_ne_zero (ha : a.Trimmed) (hlaurent : a.variant = .laurent)
    (hzero : a.isZero = false) : a.coeff a.first ≠ 0 := by
  cases a with
  | ordinary c s => exact nomatch hlaurent
  | laurent f c s =>
    rcases ha with ⟨rfl, rfl⟩ | ⟨-, hfirst, -⟩
    · exact absurd hzero (by simp [isZero])
    · have hentry := coeff_first_add (laurent f c s) 0
      rw [Int.natCast_zero, Int.add_zero] at hentry
      rw [hentry]
      exact beq_eq_false_iff_ne.mp hfirst

/-- The coefficients determine the last exponent. -/
theorem last_eq (ha : a.Trimmed) (hb : b.Trimmed) (h : ∀ k, a.coeff k = b.coeff k)
    (hzero : a.isZero = false) : a.last = b.last := by
  have hb' := hb.coeff_last_ne_zero (isZero_congr h ▸ hzero)
  have ha' := ha.coeff_last_ne_zero hzero
  apply le_antisymm
  · exact (mem_window_of_coeff_ne_zero (h a.last ▸ ha')).2
  · exact (mem_window_of_coeff_ne_zero ((h b.last).symm ▸ hb')).2

/-- An ordinary and a Laurent polynomial with the same coefficients start at the same exponent
exactly when the constant term is not zero. -/
theorem first_eq_iff_of_ordinary (hb : b.Trimmed) (hordinary : a.variant = .ordinary)
    (hlaurent : b.variant = .laurent) (h : ∀ k, a.coeff k = b.coeff k) (hzero : a.isZero = false) :
    a.first = b.first ↔ a.coeff 0 ≠ 0 := by
  have hfirst := hb.coeff_first_ne_zero hlaurent (isZero_congr h ▸ hzero)
  rw [first_eq_zero_of_ordinary hordinary, h]
  constructor
  · intro heq
    rwa [heq]
  · intro hconstant
    have hwindow := mem_window_of_coeff_ne_zero ((h b.first).symm ▸ hfirst : a.coeff b.first ≠ 0)
    rw [first_eq_zero_of_ordinary hordinary] at hwindow
    exact le_antisymm hwindow.1 (mem_window_of_coeff_ne_zero hconstant).1

/-- Polynomials of one kind with the same coefficients start at the same exponent. -/
theorem first_eq (ha : a.Trimmed) (hb : b.Trimmed) (hvariant : a.variant = b.variant)
    (h : ∀ k, a.coeff k = b.coeff k) : a.first = b.first := by
  cases hzero : a.isZero with
  | true => rw [(ha.eq_singleton hzero).1, (hb.eq_singleton (isZero_congr h ▸ hzero)).1]
  | false =>
    cases hkind : a.variant with
    | ordinary =>
      rw [first_eq_zero_of_ordinary hkind, first_eq_zero_of_ordinary (hvariant.symm.trans hkind)]
    | laurent =>
      have ha' := ha.coeff_first_ne_zero hkind hzero
      have hb' := hb.coeff_first_ne_zero (hvariant.symm.trans hkind) (isZero_congr h ▸ hzero)
      apply le_antisymm
      · exact (mem_window_of_coeff_ne_zero ((h b.first).symm ▸ hb')).1
      · exact (mem_window_of_coeff_ne_zero (h a.first ▸ ha')).1

/-- Polynomials other than zero with the same coefficients start at the same exponent exactly when
they are of one kind or have a constant term. -/
theorem first_eq_iff (ha : a.Trimmed) (hb : b.Trimmed) (h : ∀ k, a.coeff k = b.coeff k)
    (hzero : a.isZero = false) :
    a.first = b.first ↔ a.variant = b.variant ∨ a.coeff 0 ≠ 0 := by
  cases hkind : a.variant <;> cases hkind' : b.variant
  case ordinary.ordinary => simp [ha.first_eq hb (hkind.trans hkind'.symm) h]
  case laurent.laurent => simp [ha.first_eq hb (hkind.trans hkind'.symm) h]
  case ordinary.laurent => simp [hb.first_eq_iff_of_ordinary hkind hkind' h hzero]
  case laurent.ordinary =>
    rw [eq_comm, ha.first_eq_iff_of_ordinary hkind' hkind (fun k => (h k).symm)
      (isZero_congr h ▸ hzero), h]
    simp

/-- Polynomials with the same coefficients that start at the same exponent store the same
coefficients. -/
theorem coef_eq_of_first_eq (ha : a.Trimmed) (hb : b.Trimmed) (hfirst : a.first = b.first)
    (h : ∀ k, a.coeff k = b.coeff k) : a.coef = b.coef := by
  cases hzero : a.isZero with
  | true => rw [(ha.eq_singleton hzero).2, (hb.eq_singleton (isZero_congr h ▸ hzero)).2]
  | false =>
    have hlast := ha.last_eq hb h hzero
    unfold last at hlast
    refine eq_of_getD_eq (by omega) fun i => ?_
    rw [← coeff_first_add, ← coeff_first_add, hfirst, h]

/-- Polynomials of one kind and one symbol with the same coefficients are equal. -/
theorem eq_of_coeff_eq (ha : a.Trimmed) (hb : b.Trimmed) (hvariant : a.variant = b.variant)
    (hsymbol : a.symbol = b.symbol) (h : ∀ k, a.coeff k = b.coeff k) : a = b := by
  have hfirst := ha.first_eq hb hvariant h
  have hcoef := ha.coef_eq_of_first_eq hb hfirst h
  cases a <;> cases b <;> simp_all [variant]

end Trimmed

end Poly

end PolynomialEquations
