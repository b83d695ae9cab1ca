import PolynomialEquations.Proofs.Mixed.Expression
import Mathlib.Data.Int.LeastGreatest

/-!
# The reciprocal loses the zeros at the start

The reciprocal of an ordinary polynomial counts the exponents down from the last one. The zeros at
the start of the window become zeros at its end and are trimmed, so the reciprocal of the reciprocal
lacks the power of the variable that divides the polynomial, and nothing else. The last exponents of
two factors add up in their product, so reversing the product reverses both factors.
-/

namespace PolynomialEquations

namespace MixedPoly

variable {a b p q r s t : MixedPoly ℝ ℂ}

section Form

/-- Trimmed polynomials with one sort of coefficients, of one kind and with one symbol are equal
when they have the same coefficients. -/
theorem Trimmed.eq_of_coeff_eq (ha : a.Trimmed) (hb : b.Trimmed)
    (hsort : a.isComplex = b.isComplex) (hvariant : a.variant = b.variant)
    (hsymbol : a.symbol = b.symbol) (h : ∀ k, a.coeff k = b.coeff k) : a = b := by
  cases a with
  | real u =>
    cases b with
    | complex v => exact nomatch hsort
    | real v =>
      refine congrArg real (Poly.Trimmed.eq_of_coeff_eq ha hb hvariant hsymbol fun k => ?_)
      exact Complex.ofReal_injective (by rw [← coeff_real, h, coeff_real])
  | complex u =>
    cases b with
    | real v => exact nomatch hsort
    | complex v => exact congrArg complex (Poly.Trimmed.eq_of_coeff_eq ha hb hvariant hsymbol h)

@[simp] theorem symbol_toComplex (a : MixedPoly ℝ ℂ) : a.toComplex.symbol = a.symbol := by
  cases a with
  | real p => exact Poly.symbol_map _ p
  | complex p => rfl

/-- A product has complex coefficients as soon as one factor has, and takes its symbol from the
first factor. -/
theorem form_of_mul? (h : a.mul? b = .ok r) :
    r.isComplex = (a.isComplex || b.isComplex) ∧ r.symbol = a.symbol := by
  have hmixed : ∀ u v : MixedPoly ℝ ℂ, (u.toComplex.mul? v.toComplex).map complex = .ok r →
      r.isComplex = true ∧ r.symbol = u.symbol := by
    intro u v huv
    obtain ⟨w, hw, rfl⟩ := exists_of_map_eq_ok huv
    rw [Poly.mul?_eq] at hw
    obtain rfl := Except.ok.inj hw
    exact ⟨rfl, (Poly.symbol_mul _ _).trans (symbol_toComplex u)⟩
  cases a with
  | complex u => exact hmixed (complex u) b h
  | real u =>
    cases b with
    | complex v => exact hmixed (real u) (complex v) h
    | real v =>
      obtain ⟨w, hw, rfl⟩ := exists_of_map_eq_ok h
      rw [Poly.mul?_eq] at hw
      obtain rfl := Except.ok.inj hw
      exact ⟨rfl, Poly.symbol_mul u v⟩

/-- A reciprocal is ordinary, has the same sort of coefficients and the same symbol. -/
theorem form_of_reciprocal (h : a.reciprocal = .ok r) :
    r.isComplex = a.isComplex ∧ r.variant = .ordinary ∧ r.symbol = a.symbol := by
  cases a <;>
    · obtain ⟨u, hu, rfl⟩ := exists_of_map_eq_ok h
      obtain ⟨-, rfl⟩ := Poly.reciprocal_eq_ok_iff.mp hu
      exact ⟨rfl, Poly.variant_ofCoef _ _, Poly.symbol_ofCoef _ _⟩

end Form

section Power

/-- The `k`-th power of the variable as an ordinary polynomial. -/
noncomputable def variablePower (k : ℕ) (symbol : String) : MixedPoly ℝ ℂ :=
  real (Poly.assemble .ordinary k #[1] symbol)

theorem coeff_variablePower (k : ℕ) (symbol : String) (j : ℤ) :
    (variablePower k symbol).coeff j = if j = k then 1 else 0 := by
  rw [variablePower, coeff_real, Poly.coeff_assemble fun _ => Int.natCast_nonneg k, windowCoeff]
  by_cases hj : j = k
  · rw [if_pos hj, if_pos hj.ge, hj, sub_self]
    exact Complex.ofReal_one
  · rw [if_neg hj]
    split
    · rw [getD_of_size_le (by simp; omega), Complex.ofReal_zero]
    · exact Complex.ofReal_zero

/-- Multiplying by a power of the variable moves the coefficients. -/
theorem coeff_of_mul?_variablePower {k : ℕ} {symbol : String}
    (h : a.mul? (variablePower k symbol) = .ok r) (j : ℤ) : r.coeff j = a.coeff (j - k) := by
  rw [coeff_of_mul? h, finsum_eq_single _ (j - k)]
  · rw [coeff_variablePower, if_pos (sub_sub_cancel _ _), mul_one]
  · intro i hi
    rw [coeff_variablePower, if_neg (by omega), mul_zero]

end Power

section Exponents

/-- An ordinary polynomial has no coefficients at negative exponents. -/
theorem nonneg_of_coeff_ne_zero (hordinary : a.variant = .ordinary) {j : ℤ} (hj : a.coeff j ≠ 0) :
    0 ≤ j := by
  have hwindow := (Poly.mem_window_of_coeff_ne_zero hj).1
  rwa [first_toComplex, first_eq_zero_of_ordinary hordinary] at hwindow

/-- An ordinary polynomial other than zero has a least exponent with a coefficient other than
zero. -/
theorem exists_isLeast (hordinary : a.variant = .ordinary) (hzero : a.isZero = false) :
    ∃ k : ℕ, IsLeast {j | a.coeff j ≠ 0} (k : ℤ) := by
  have hbelow : ∀ j, a.coeff j ≠ 0 → 0 ≤ j := fun j hj => nonneg_of_coeff_ne_zero hordinary hj
  obtain ⟨k, hk, hleast⟩ :=
    Int.exists_least_of_bdd ⟨0, hbelow⟩ ((isZero_eq_false_iff a).mp hzero)
  obtain ⟨n, rfl⟩ := Int.eq_ofNat_of_zero_le (hbelow k hk)
  exact ⟨n, hk, hleast⟩

/-- The least exponent of a polynomial becomes the distance of the largest exponent of the
reciprocal from the last one of the polynomial. -/
theorem Trimmed.isGreatest_reciprocal (ha : a.Trimmed) (hr : a.reciprocal = .ok r) {k : ℤ}
    (hk : IsLeast {j | a.coeff j ≠ 0} k) : IsGreatest {j | r.coeff j ≠ 0} (a.last - k) := by
  have hmem : ∀ j, r.coeff j ≠ 0 ↔ a.coeff (a.last - j) ≠ 0 := fun j => by
    rw [ha.coeff_reciprocal hr, map_ne_zero]
  constructor
  · change r.coeff (a.last - k) ≠ 0
    rw [hmem, sub_sub_cancel]
    exact hk.1
  · intro j hj
    have := hk.2 ((hmem j).mp hj)
    omega

end Exponents

section Twice

/-- The reciprocal of the reciprocal starts where the coefficients of the polynomial start. -/
theorem Trimmed.coeff_reciprocal_reciprocal (ha : a.Trimmed) (hr : a.reciprocal = .ok r)
    (hq : r.reciprocal = .ok q) {k : ℤ} (hk : IsLeast {j | a.coeff j ≠ 0} k) (j : ℤ) :
    q.coeff j = a.coeff (k + j) := by
  have hrtrimmed := trimmed_of_reciprocal hr
  obtain ⟨hrzero, hdegree⟩ := hrtrimmed.degree_eq_of_isGreatest (ha.isGreatest_reciprocal hr hk)
  have hexponent : a.last - (a.last - k - j) = k + j := by ring
  rw [hrtrimmed.coeff_reciprocal hq, ha.coeff_reciprocal hr, RCLike.conj_conj,
    ← degree_eq_last hrzero, hdegree, hexponent]

/-- Multiplied by the power of the variable that was lost, the reciprocal of the reciprocal is the
polynomial. -/
theorem Trimmed.mul?_reciprocal_reciprocal (ha : a.Trimmed) (hordinary : a.variant = .ordinary)
    (hr : a.reciprocal = .ok r) (hq : r.reciprocal = .ok q) {k : ℕ}
    (hk : IsLeast {j | a.coeff j ≠ 0} (k : ℤ)) (symbol : String) :
    q.mul? (variablePower k symbol) = .ok a := by
  obtain ⟨p, hp, hvariant, -⟩ := returns_mul? q (variablePower k symbol)
  obtain ⟨hrsort, -, hrsymbol⟩ := form_of_reciprocal hr
  obtain ⟨hqsort, hqordinary, hqsymbol⟩ := form_of_reciprocal hq
  obtain ⟨hpsort, hpsymbol⟩ := form_of_mul? hp
  rw [hp]
  refine congrArg _ ((trimmed_of_mul? hp).eq_of_coeff_eq ha ?_ ?_ ?_ fun j => ?_)
  · rw [hpsort, hqsort, hrsort]
    exact Bool.or_false _
  · exact (hvariant.mpr ⟨hqordinary, Poly.variant_assemble _ _ _ _⟩).trans hordinary.symm
  · rw [hpsymbol, hqsymbol, hrsymbol]
  · rw [coeff_of_mul?_variablePower hp, ha.coeff_reciprocal_reciprocal hr hq hk, add_sub_cancel]

/-- The reciprocal of the reciprocal is the polynomial exactly when there is a constant term. -/
theorem Trimmed.equal_reciprocal_reciprocal (ha : a.Trimmed) (hordinary : a.variant = .ordinary)
    (hr : a.reciprocal = .ok r) (hq : r.reciprocal = .ok q) {k : ℤ}
    (hk : IsLeast {j | a.coeff j ≠ 0} k) : q.equal a = true ↔ a.coeff 0 ≠ 0 := by
  have hkinds : q.variant = a.variant := (form_of_reciprocal hq).2.1.trans hordinary.symm
  have hcoeff := ha.coeff_reciprocal_reciprocal hr hq hk
  rw [(trimmed_of_reciprocal hq).equal_iff ha, and_iff_left (Or.inr (Or.inl hkinds))]
  constructor
  · intro h
    rw [← h, hcoeff, add_zero]
    exact hk.1
  · intro hconstant j
    have hzero : k = 0 :=
      le_antisymm (hk.2 hconstant) (nonneg_of_coeff_ne_zero hordinary hk.1)
    rw [hcoeff, hzero, zero_add]

end Twice

section Product

/-- The last exponents of polynomials other than zero add up in their product. -/
theorem Trimmed.last_of_mul? (ha : a.Trimmed) (hb : b.Trimmed) (hazero : a.isZero = false)
    (hbzero : b.isZero = false) (hp : a.mul? b = .ok p) : p.last = a.last + b.last := by
  obtain ⟨q, hq, hzero, hdegree⟩ := ha.exists_mul?_degree hb hazero hbzero
  obtain rfl := Except.ok.inj (hp.symm.trans hq)
  rwa [degree_eq_last hzero, degree_eq_last hazero, degree_eq_last hbzero] at hdegree

/-- Reversing a product reverses both factors. -/
theorem Trimmed.coeff_reciprocal_mul? (ha : a.Trimmed) (hb : b.Trimmed) (hp : a.mul? b = .ok p)
    (hq : p.reciprocal = .ok q) (hr : a.reciprocal = .ok r) (hs : b.reciprocal = .ok s)
    (ht : r.mul? s = .ok t) (j : ℤ) : q.coeff j = t.coeff j := by
  rw [(trimmed_of_mul? hp).coeff_reciprocal hq, coeff_of_mul? hp, coeff_of_mul? ht, conj_finsum]
  simp only [ha.coeff_reciprocal hr, hb.coeff_reciprocal hs, map_mul]
  cases hazero : a.isZero with
  | true => simp only [(isZero_iff_coeff a).mp hazero, map_zero, zero_mul]
  | false =>
    cases hbzero : b.isZero with
    | true => simp only [(isZero_iff_coeff b).mp hbzero, map_zero, mul_zero]
    | false =>
      rw [ha.last_of_mul? hb hazero hbzero hp, ← finsum_comp_equiv (Equiv.subLeft a.last)]
      refine finsum_congr fun i => ?_
      have hexponent : a.last + b.last - j - (a.last - i) = b.last - (j - i) := by ring
      rw [Equiv.subLeft_apply, hexponent]

/-- The reciprocal of a product is the product of the reciprocals. -/
theorem Trimmed.exists_reciprocal_mul? (ha : a.Trimmed) (hb : b.Trimmed)
    (haordinary : a.variant = .ordinary) (hbordinary : b.variant = .ordinary) :
    ∃ p r s t, a.mul? b = .ok p ∧ a.reciprocal = .ok r ∧ b.reciprocal = .ok s ∧
      r.mul? s = .ok t ∧ p.reciprocal = .ok t := by
  obtain ⟨p, hp, hpvariant, -⟩ := returns_mul? a b
  obtain ⟨q, hq⟩ := MixedPoly.exists_reciprocal (hpvariant.mpr ⟨haordinary, hbordinary⟩)
  obtain ⟨r, hr⟩ := MixedPoly.exists_reciprocal haordinary
  obtain ⟨s, hs⟩ := MixedPoly.exists_reciprocal hbordinary
  obtain ⟨t, ht, htvariant, -⟩ := returns_mul? r s
  obtain ⟨hpsort, hpsymbol⟩ := form_of_mul? hp
  obtain ⟨hqsort, hqordinary, hqsymbol⟩ := form_of_reciprocal hq
  obtain ⟨hrsort, hrordinary, hrsymbol⟩ := form_of_reciprocal hr
  obtain ⟨hssort, hsordinary, -⟩ := form_of_reciprocal hs
  obtain ⟨htsort, htsymbol⟩ := form_of_mul? ht
  have hsame : q = t := by
    refine (trimmed_of_reciprocal hq).eq_of_coeff_eq (trimmed_of_mul? ht) ?_ ?_ ?_
      (ha.coeff_reciprocal_mul? hb hp hq hr hs ht)
    · rw [hqsort, hpsort, htsort, hrsort, hssort]
    · rw [hqordinary, htvariant.mpr ⟨hrordinary, hsordinary⟩]
    · rw [hqsymbol, hpsymbol, htsymbol, hrsymbol]
  exact ⟨p, r, s, t, hp, hr, hs, ht, hq.trans (congrArg _ hsame)⟩

end Product

/-- With `k` the least exponent of an ordinary polynomial other than zero, the reciprocal has a
constant term and a degree less by `k`, and its coefficients are those of the conjugate across the
unit circle shifted by the degree. The reciprocal of the reciprocal times the `k`-th power of the
variable is the polynomial, so the two are equal exactly when there is a constant term. The
reciprocal of a product, zero or not, is the product of the reciprocals. -/
theorem reciprocal_laws (ha : a.Trimmed) (hb : b.Trimmed) (haordinary : a.variant = .ordinary)
    (hbordinary : b.variant = .ordinary) :
    (a.isZero = false → ∃ (k : ℕ) (r q : MixedPoly ℝ ℂ),
      IsLeast {j | a.coeff j ≠ 0} (k : ℤ) ∧ a.reciprocal = .ok r ∧ r.reciprocal = .ok q ∧
      (∀ symbol, q.mul? (variablePower k symbol) = .ok a) ∧
      (q.equal a = true ↔ a.coeff 0 ≠ 0) ∧ r.degree = a.degree - k ∧ r.coeff 0 ≠ 0 ∧
      ∀ j, r.coeff j = (a.circleConj.shift a.degree).coeff j) ∧
    ∃ p r s t, a.mul? b = .ok p ∧ a.reciprocal = .ok r ∧ b.reciprocal = .ok s ∧
      r.mul? s = .ok t ∧ p.reciprocal = .ok t := by
  refine ⟨fun hzero => ?_, ha.exists_reciprocal_mul? hb haordinary hbordinary⟩
  obtain ⟨k, hk⟩ := exists_isLeast haordinary hzero
  obtain ⟨r, hr⟩ := exists_reciprocal haordinary
  obtain ⟨q, hq⟩ := exists_reciprocal (form_of_reciprocal hr).2.1
  have hlast : a.degree = a.last := degree_eq_last hzero
  refine ⟨k, r, q, hk, hr, hq, ha.mul?_reciprocal_reciprocal haordinary hr hq hk,
    ha.equal_reciprocal_reciprocal haordinary hr hq hk, ?_, ?_, fun j => ?_⟩
  · rw [hlast]
    exact ((trimmed_of_reciprocal hr).degree_eq_of_isGreatest (ha.isGreatest_reciprocal hr hk)).2
  · rw [ha.coeff_reciprocal hr, sub_zero, map_ne_zero, ← hlast]
    exact (ha.isGreatest_degree hzero).1
  · rw [ha.coeff_reciprocal hr, coeff_shift, ha.coeff_circleConj, neg_sub, hlast]

/-- The complex polynomial `i s + s^2` has no constant term, so the reciprocal of its reciprocal is
not the polynomial but lacks the factor `s`. -/
theorem reciprocal_laws_without_constant :
    (complex (Poly.ofCoef #[0, Complex.I, 1] "s") : MixedPoly ℝ ℂ).Trimmed ∧
      (complex (Poly.ofCoef #[0, Complex.I, 1] "s") : MixedPoly ℝ ℂ).variant = .ordinary ∧
      (complex (Poly.ofCoef #[0, Complex.I, 1] "s") : MixedPoly ℝ ℂ).isZero = false ∧
      ∃ r q : MixedPoly ℝ ℂ,
        (complex (Poly.ofCoef #[0, Complex.I, 1] "s")).reciprocal = .ok r ∧
        r.reciprocal = .ok q ∧
        q.mul? (variablePower 1 "s") = .ok (complex (Poly.ofCoef #[0, Complex.I, 1] "s")) ∧
        q.equal (complex (Poly.ofCoef #[0, Complex.I, 1] "s")) = false := by
  let a : MixedPoly ℝ ℂ := complex (Poly.ofCoef #[0, Complex.I, 1] "s")
  have ha : a.Trimmed := Poly.trimmed_ofCoef _ _
  have hordinary : a.variant = .ordinary := Poly.variant_ofCoef _ _
  have hcoeff : ∀ j, a.coeff j = (Poly.ofCoef #[0, Complex.I, 1] "s").coeff j := coeff_complex _
  have hconstant : a.coeff 0 = 0 := by
    rw [hcoeff, Poly.coeff_ofCoef]
    rfl
  have hone : a.coeff 1 ≠ 0 := by
    rw [hcoeff, Poly.coeff_ofCoef]
    exact Complex.I_ne_zero
  have hzero : a.isZero = false := (isZero_eq_false_iff a).mpr ⟨1, hone⟩
  obtain ⟨k, r, q, hk, hr, hq, hproduct, hequal, -⟩ :=
    (reciprocal_laws ha ha hordinary hordinary).1 hzero
  have hkone : k = 1 := by
    have hle : (k : ℤ) ≤ 1 := hk.2 hone
    have hne : (k : ℤ) ≠ 0 := fun h => hk.1 (h ▸ hconstant)
    omega
  refine ⟨ha, hordinary, hzero, r, q, hr, hq, hkone ▸ hproduct "s", ?_⟩
  rw [Bool.eq_false_iff, Ne, hequal]
  exact fun h => h hconstant

end MixedPoly

end PolynomialEquations
