import PolynomialEquations.Proofs.Mixed.Basic

/-!
# Arithmetic of mixed polynomials

Every arithmetic operation on polynomials of either kind over the real or the complex numbers, and
on a polynomial and a number, returns a polynomial. Its coefficients are those of the sum, the
difference, the product or the quotient at every integer exponent, and it is ordinary exactly when
all polynomials that went into it are.
-/

namespace PolynomialEquations

namespace MixedPoly

/-- The computation returns a polynomial with coefficient `f k` at every exponent `k`, and the
polynomial is ordinary exactly under the given condition. -/
def Returns (x : Except Failure (MixedPoly ℝ ℂ)) (ordinary : Prop) (f : ℤ → ℂ) : Prop :=
  ∃ r : MixedPoly ℝ ℂ, x = .ok r ∧ (r.variant = .ordinary ↔ ordinary) ∧ ∀ k, r.coeff k = f k

/-- What a computation returns may be described in other words. -/
theorem Returns.congr {x : Except Failure (MixedPoly ℝ ℂ)} {p q : Prop} {f g : ℤ → ℂ}
    (h : Returns x p f) (hpq : p ↔ q) (hfg : ∀ k, f k = g k) : Returns x q g := by
  obtain ⟨r, hr, hvariant, hcoeff⟩ := h
  exact ⟨r, hr, hvariant.trans hpq, fun k => (hcoeff k).trans (hfg k)⟩

variable (a b : MixedPoly ℝ ℂ) (t : MixedScalar ℝ ℂ)

/-- A constant is ordinary, with one coefficient at exponent zero. -/
theorem variant_constant (s : String) : (constant s t).variant = .ordinary := by
  cases t <;> exact Poly.variant_ofCoef _ s

theorem coeff_constant (s : String) (k : ℤ) :
    (constant s t).coeff k = if k = 0 then t.toComplex else 0 := by
  cases t with
  | real t =>
    rw [constant, coeff_real, Poly.coeff_constant, apply_ite Complex.ofReal, Complex.ofReal_zero]
    rfl
  | complex z => exact Poly.coeff_constant z s k

/-- The negative is returned, of the same kind. -/
theorem returns_neg? : Returns a.neg? (a.variant = .ordinary) fun k => -a.coeff k := by
  cases a with
  | real p =>
    refine ⟨real (-p), ?_, ?_, fun k => ?_⟩
    · rw [neg?, Poly.neg?_eq]
      rfl
    · exact iff_of_eq (congrArg (· = _) (Poly.variant_neg p))
    · simp only [coeff_real, Poly.coeff_neg, Complex.ofReal_neg]
  | complex p =>
    refine ⟨complex (-p), ?_, ?_, fun k => ?_⟩
    · rw [neg?, Poly.neg?_eq]
      rfl
    · exact iff_of_eq (congrArg (· = _) (Poly.variant_neg p))
    · exact Poly.coeff_neg p k

/-- An operation that combines two polynomials over common scalars returns a polynomial if it does
so over the real and over the complex numbers. -/
theorem returns_ask₂ {onReal : Poly ℝ → Poly ℝ → Except Failure (Poly ℝ)}
    {onComplex : Poly ℂ → Poly ℂ → Except Failure (Poly ℂ)} {f : (ℤ → ℂ) → (ℤ → ℂ) → ℤ → ℂ}
    (hreal : ∀ p q, ∃ r, onReal p q = .ok r ∧ r.variant = p.variant.join q.variant ∧
      ∀ k, (r.coeff k : ℂ) = f (fun k => p.coeff k) (fun k => q.coeff k) k)
    (hcomplex : ∀ p q, ∃ r, onComplex p q = .ok r ∧ r.variant = p.variant.join q.variant ∧
      ∀ k, r.coeff k = f p.coeff q.coeff k) :
    Returns (ask₂ (fun p q => (onReal p q).map real) (fun p q => (onComplex p q).map complex) a b)
      (a.variant = .ordinary ∧ b.variant = .ordinary) (f a.coeff b.coeff) := by
  have hmixed : ∀ p q : MixedPoly ℝ ℂ,
      Returns ((onComplex p.toComplex q.toComplex).map complex)
        (p.variant = .ordinary ∧ q.variant = .ordinary) (f p.coeff q.coeff) := by
    intro p q
    obtain ⟨r, hr, hvariant, hcoeff⟩ := hcomplex p.toComplex q.toComplex
    refine ⟨complex r, by rw [hr]; rfl, ?_, hcoeff⟩
    rw [← variant_toComplex p, ← variant_toComplex q, ← Variant.join_eq_ordinary_iff, ← hvariant]
    rfl
  cases a with
  | complex p => exact hmixed (complex p) b
  | real p =>
    cases b with
    | complex q => exact hmixed (real p) (complex q)
    | real q =>
      obtain ⟨r, hr, hvariant, hcoeff⟩ := hreal p q
      refine ⟨real r, ?_, ?_, fun k => ?_⟩
      · change (onReal p q).map real = _
        rw [hr]
        rfl
      · change r.variant = .ordinary ↔ p.variant = .ordinary ∧ q.variant = .ordinary
        rw [hvariant, Variant.join_eq_ordinary_iff]
      · rw [coeff_real, hcoeff, funext (coeff_real p), funext (coeff_real q)]

/-- The sum is returned. -/
theorem returns_add? : Returns (a.add? b) (a.variant = .ordinary ∧ b.variant = .ordinary)
    fun k => a.coeff k + b.coeff k := by
  refine returns_ask₂ a b (f := fun u v k => u k + v k) (fun p q => ?_) fun p q => ?_
  · refine ⟨p + q, Poly.add?_eq p q, Poly.variant_add p q, fun k => ?_⟩
    rw [Poly.coeff_add, Complex.ofReal_add]
  · exact ⟨p + q, Poly.add?_eq p q, Poly.variant_add p q, Poly.coeff_add p q⟩

/-- The product is returned. -/
theorem returns_mul? : Returns (a.mul? b) (a.variant = .ordinary ∧ b.variant = .ordinary)
    fun k => ∑ᶠ i : ℤ, a.coeff i * b.coeff (k - i) := by
  refine returns_ask₂ a b (f := fun u v k => ∑ᶠ i, u i * v (k - i)) (fun p q => ?_) fun p q => ?_
  · refine ⟨p * q, Poly.mul?_eq p q, Poly.variant_mul p q, fun k => ?_⟩
    rw [Poly.coeff_mul]
    have hcast := Complex.ofRealHom.toAddMonoidHom.map_finsum_of_injective
      Complex.ofReal_injective fun i => p.coeff i * q.coeff (k - i)
    simpa using hcast
  · exact ⟨p * q, Poly.mul?_eq p q, Poly.variant_mul p q, Poly.coeff_mul p q⟩

/-- The coefficients of a product sum the products of coefficients whose exponents add up. -/
theorem coeff_of_mul? {a b r : MixedPoly ℝ ℂ} (h : a.mul? b = .ok r) (k : ℤ) :
    r.coeff k = ∑ᶠ i : ℤ, a.coeff i * b.coeff (k - i) := by
  obtain ⟨s, hs, -, hcoeff⟩ := returns_mul? a b
  obtain rfl := Except.ok.inj (h.symm.trans hs)
  exact hcoeff k

/-- The difference is returned. -/
theorem returns_sub? : Returns (a.sub? b) (a.variant = .ordinary ∧ b.variant = .ordinary)
    fun k => a.coeff k - b.coeff k := by
  obtain ⟨n, hn, hvariant, hcoeff⟩ := returns_neg? b
  rw [sub?, hn]
  refine (returns_add? a n).congr (and_congr_right' hvariant) fun k => ?_
  simp only [hcoeff, sub_eq_add_neg]

/-- The quotient by a number is returned. -/
theorem returns_divNumber? :
    Returns (a.divNumber? t) (a.variant = .ordinary) fun k => a.coeff k / t.toComplex := by
  have hmixed : ∀ (p : MixedPoly ℝ ℂ) (z : ℂ),
      Returns ((p.toComplex.divScalar? z).map complex) (p.variant = .ordinary)
        fun k => p.coeff k / z := by
    intro p z
    refine ⟨complex (p.toComplex.divScalar z), ?_, ?_, Poly.coeff_divScalar p.toComplex z⟩
    · rw [Poly.divScalar?_eq]
      rfl
    · rw [← variant_toComplex p]
      exact iff_of_eq (congrArg (· = _) (Poly.variant_mapCoef _ _))
  cases a with
  | complex p => exact hmixed (complex p) t.toComplex
  | real p =>
    cases t with
    | complex z => exact hmixed (real p) z
    | real t =>
      refine ⟨real (p.divScalar t), ?_, ?_, fun k => ?_⟩
      · rw [divNumber?, Poly.divScalar?_eq]
        rfl
      · exact iff_of_eq (congrArg (· = _) (Poly.variant_mapCoef _ p))
      · simp only [coeff_real, Poly.coeff_divScalar, Complex.ofReal_div]
        rfl

/-- A constant has no influence on the kind of a result. -/
theorem and_variant_constant (p : Prop) (s : String) :
    (p ∧ (constant s t).variant = .ordinary) ↔ p :=
  and_iff_left (variant_constant t s)

/-- The sum with a number is returned. -/
theorem returns_addNumber? : Returns (a.addNumber? t) (a.variant = .ordinary)
    fun k => a.coeff k + if k = 0 then t.toComplex else 0 := by
  refine (returns_add? a _).congr (and_variant_constant t _ a.symbol) fun k => ?_
  simp only [coeff_constant]

/-- The polynomial less a number is returned. -/
theorem returns_subNumber? : Returns (a.subNumber? t) (a.variant = .ordinary)
    fun k => a.coeff k - if k = 0 then t.toComplex else 0 := by
  refine (returns_sub? a _).congr (and_variant_constant t _ a.symbol) fun k => ?_
  simp only [coeff_constant]

/-- A number less the polynomial is returned. -/
theorem returns_numberSub? : Returns (numberSub? t a) (a.variant = .ordinary)
    fun k => (if k = 0 then t.toComplex else 0) - a.coeff k := by
  obtain ⟨n, hn, hvariant, hcoeff⟩ := returns_neg? a
  rw [numberSub?, hn]
  refine (returns_addNumber? n t).congr hvariant fun k => ?_
  simp only [hcoeff, neg_add_eq_sub]

/-- The product with a number is returned. -/
theorem returns_mulNumber? : Returns (a.mulNumber? t) (a.variant = .ordinary)
    fun k => t.toComplex * a.coeff k := by
  refine (returns_mul? a _).congr (and_variant_constant t _ a.symbol) fun k => ?_
  rw [finsum_eq_single _ k]
  · rw [coeff_constant, if_pos (sub_self k), mul_comm]
  · intro i hi
    rw [coeff_constant, if_neg (by omega), mul_zero]

/-- No arithmetic operation fails. Its result has the coefficients that the operation on Laurent
polynomials gives, a number counting as a constant, and is ordinary exactly when every polynomial
operand is. -/
theorem arithmetic_returns :
    Returns (a.add? b) (a.variant = .ordinary ∧ b.variant = .ordinary)
      (fun k => a.coeff k + b.coeff k) ∧
    Returns (a.sub? b) (a.variant = .ordinary ∧ b.variant = .ordinary)
      (fun k => a.coeff k - b.coeff k) ∧
    Returns a.neg? (a.variant = .ordinary) (fun k => -a.coeff k) ∧
    Returns (a.mul? b) (a.variant = .ordinary ∧ b.variant = .ordinary)
      (fun k => ∑ᶠ i : ℤ, a.coeff i * b.coeff (k - i)) ∧
    (t.toComplex ≠ 0 →
      Returns (a.divNumber? t) (a.variant = .ordinary) fun k => a.coeff k / t.toComplex) ∧
    Returns (a.addNumber? t) (a.variant = .ordinary)
      (fun k => a.coeff k + if k = 0 then t.toComplex else 0) ∧
    Returns (a.subNumber? t) (a.variant = .ordinary)
      (fun k => a.coeff k - if k = 0 then t.toComplex else 0) ∧
    Returns (numberSub? t a) (a.variant = .ordinary)
      (fun k => (if k = 0 then t.toComplex else 0) - a.coeff k) ∧
    Returns (a.mulNumber? t) (a.variant = .ordinary) (fun k => t.toComplex * a.coeff k) := by
  exact ⟨returns_add? a b, returns_sub? a b, returns_neg? a, returns_mul? a b,
    fun _ => returns_divNumber? a t, returns_addNumber? a t, returns_subNumber? a t,
    returns_numberSub? a t, returns_mulNumber? a t⟩

/-- Half of the Laurent polynomial `z⁻¹ + z` is one with the coefficient `1 / 2` at both
exponents. -/
theorem arithmetic_returns_half :
    (MixedScalar.real 2 : MixedScalar ℝ ℂ).toComplex ≠ 0 ∧
      ∃ r : MixedPoly ℝ ℂ,
        (real (Poly.ofWindow (-1) #[1, 0, 1] "z") : MixedPoly ℝ ℂ).divNumber? (.real 2) = .ok r ∧
        r.variant ≠ .ordinary ∧ r.coeff (-1) = 1 / 2 ∧ r.coeff 0 = 0 ∧ r.coeff 1 = 1 / 2 := by
  have htwo : (MixedScalar.real 2 : MixedScalar ℝ ℂ).toComplex ≠ 0 :=
    Complex.ofReal_ne_zero.mpr two_ne_zero
  let a : MixedPoly ℝ ℂ := real (Poly.ofWindow (-1) #[1, 0, 1] "z")
  have ha : ∀ k, a.coeff k = (windowCoeff (-1) #[(1 : ℝ), 0, 1] k : ℝ) := fun k => by
    rw [coeff_real, Poly.coeff_ofWindow]
  have hlaurent : a.variant = .laurent := Poly.variant_assemble .laurent (-1) #[(1 : ℝ), 0, 1] "z"
  obtain ⟨-, -, -, -, hdiv, -⟩ := arithmetic_returns a a (.real 2)
  obtain ⟨r, hr, hvariant, hcoeff⟩ := hdiv htwo
  refine ⟨htwo, r, hr, ?_, ?_, ?_, ?_⟩
  · rw [ne_eq, hvariant, hlaurent]
    exact Variant.noConfusion
  all_goals
    rw [hcoeff]
    dsimp only
    rw [ha]
    simp [windowCoeff, MixedScalar.toComplex]

end MixedPoly

end PolynomialEquations
