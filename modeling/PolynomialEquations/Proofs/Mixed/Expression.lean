import PolynomialEquations.Proofs.Mixed.Transform
import Mathlib.Order.Bounds.Basic

/-!
# Whatever is computed is trimmed

A polynomial is built from coefficients by a constructor and by operations on polynomials built
before. Every operation but the Laurent form assembles its result from a window of coefficients
anew, so whatever an expression evaluates to is trimmed, also after leading terms have cancelled.
The stored window is then determined by the coefficients: polynomials of one kind that agree at
every exponent are stored alike, the degree is the largest exponent with a coefficient other than
zero, and degrees add up in a product.
-/

namespace PolynomialEquations

namespace MixedPoly

variable {a b r : MixedPoly ℝ ℂ}

section Degree

/-- The degree of a polynomial other than zero is the largest exponent with a coefficient other than
zero. -/
theorem Trimmed.isGreatest_degree (ha : a.Trimmed) (hzero : a.isZero = false) :
    IsGreatest {k | a.coeff k ≠ 0} a.degree := by
  rw [degree_eq_last hzero, ← last_toComplex]
  exact ⟨ha.toComplex.coeff_last_ne_zero (by rwa [isZero_toComplex]),
    fun k hk => (Poly.mem_window_of_coeff_ne_zero hk).2⟩

/-- A polynomial with a largest exponent has that degree. -/
theorem Trimmed.degree_eq_of_isGreatest (ha : a.Trimmed) {n : ℤ}
    (h : IsGreatest {k | a.coeff k ≠ 0} n) : a.isZero = false ∧ a.degree = n := by
  have hzero : a.isZero = false := (isZero_eq_false_iff a).mpr ⟨n, h.1⟩
  exact ⟨hzero, (ha.isGreatest_degree hzero).unique h⟩

/-- The largest exponents of two families of coefficients add up in their convolution, where only
the two outermost coefficients meet. -/
theorem isGreatest_convolution {f g : ℤ → ℂ} {m n : ℤ} (hf : IsGreatest {k | f k ≠ 0} m)
    (hg : IsGreatest {k | g k ≠ 0} n) :
    IsGreatest {k | ∑ᶠ i, f i * g (k - i) ≠ 0} (m + n) := by
  have hbounds : ∀ {i k}, f i * g (k - i) ≠ 0 → i ≤ m ∧ k - i ≤ n := fun h =>
    ⟨hf.2 (left_ne_zero_of_mul h), hg.2 (right_ne_zero_of_mul h)⟩
  constructor
  · have hsingle : ∑ᶠ i, f i * g (m + n - i) = f m * g (m + n - m) := by
      refine finsum_eq_single _ m fun i hi => ?_
      by_contra hterm
      have := hbounds hterm
      omega
    change ∑ᶠ i, f i * g (m + n - i) ≠ 0
    rw [hsingle, add_sub_cancel_left]
    exact mul_ne_zero hf.1 hg.1
  · intro k hk
    by_contra hlt
    refine hk (finsum_eq_zero_of_forall_eq_zero fun i => ?_)
    by_contra hterm
    have := hbounds hterm
    omega

/-- The degrees of polynomials other than zero add up in their product. -/
theorem Trimmed.exists_mul?_degree (ha : a.Trimmed) (hb : b.Trimmed) (hazero : a.isZero = false)
    (hbzero : b.isZero = false) :
    ∃ r, a.mul? b = .ok r ∧ r.isZero = false ∧ r.degree = a.degree + b.degree := by
  obtain ⟨r, hr, -, hcoeff⟩ := returns_mul? a b
  refine ⟨r, hr, (trimmed_of_mul? hr).degree_eq_of_isGreatest ?_⟩
  simp only [hcoeff]
  exact isGreatest_convolution (ha.isGreatest_degree hazero) (hb.isGreatest_degree hbzero)

end Degree

section Window

/-- An ordinary polynomial starts at exponent zero. -/
theorem first_eq_zero_of_ordinary (hordinary : a.variant = .ordinary) : a.first = 0 := by
  rw [← first_toComplex]
  exact Poly.first_eq_zero_of_ordinary ((variant_toComplex a).trans hordinary)

/-- Polynomials of one kind with the same coefficients store the same window. -/
theorem Trimmed.window_eq (ha : a.Trimmed) (hb : b.Trimmed) (hvariant : a.variant = b.variant)
    (h : ∀ k, a.coeff k = b.coeff k) :
    a.first = b.first ∧ a.toComplex.coef = b.toComplex.coef := by
  have hfirst : a.toComplex.first = b.toComplex.first :=
    ha.toComplex.first_eq hb.toComplex (by rwa [variant_toComplex, variant_toComplex]) h
  refine ⟨?_, ha.toComplex.coef_eq_of_first_eq hb.toComplex hfirst h⟩
  rwa [first_toComplex, first_toComplex] at hfirst

end Window

section Arithmetic

theorem trimmed_of_neg? (h : a.neg? = .ok r) : r.Trimmed := by
  cases a <;>
    · obtain ⟨q, hq, rfl⟩ := exists_of_map_eq_ok h
      exact Poly.trimmed_of_assemble? hq

theorem trimmed_of_sub? (h : a.sub? b = .ok r) : r.Trimmed := by
  obtain ⟨n, hn, -⟩ := returns_neg? b
  rw [sub?, hn] at h
  exact trimmed_of_add? h

theorem trimmed_of_numberSub? {t : MixedScalar ℝ ℂ} (h : numberSub? t a = .ok r) :
    r.Trimmed := by
  obtain ⟨n, hn, -⟩ := returns_neg? a
  rw [numberSub?, hn] at h
  exact trimmed_of_add? h

theorem trimmed_of_divNumber? {t : MixedScalar ℝ ℂ} (h : a.divNumber? t = .ok r) :
    r.Trimmed := by
  cases a <;> cases t <;>
    · obtain ⟨q, hq, rfl⟩ := exists_of_map_eq_ok h
      exact Poly.trimmed_of_assemble? hq

end Arithmetic

end MixedPoly

/-- A real or complex number other than zero. -/
abbrev NonzeroScalar := {t : MixedScalar ℝ ℂ // t.toComplex ≠ 0}

/-- The coefficients that a polynomial is built from. Nothing below needs that there is at least
one. -/
inductive Coefficients where
  /-- Real coefficients. -/
  | real (c : Array ℝ)
  /-- Complex coefficients. -/
  | complex (c : Array ℂ)

/-- The polynomial that a constructor builds from the coefficients. -/
noncomputable def Coefficients.build (ofReal : Array ℝ → Poly ℝ) (ofComplex : Array ℂ → Poly ℂ) :
    Coefficients → MixedPoly ℝ ℂ
  | real c => .real (ofReal c)
  | complex c => .complex (ofComplex c)

/-- An operation on one polynomial. -/
inductive UnaryOperation where
  /-- The negative. -/
  | neg
  /-- The sum with a number. -/
  | addNumber (t : MixedScalar ℝ ℂ)
  /-- The polynomial less a number. -/
  | subNumber (t : MixedScalar ℝ ℂ)
  /-- A number less the polynomial. -/
  | numberSub (t : MixedScalar ℝ ℂ)
  /-- The product with a number. -/
  | mulNumber (t : MixedScalar ℝ ℂ)
  /-- The quotient by a number. -/
  | divNumber (t : NonzeroScalar)
  /-- The conjugated coefficients. -/
  | conj
  /-- The coefficients above a tolerance. -/
  | chop (tolerance : ℝ)
  /-- The variable replaced by a multiple of itself. -/
  | scale (factor : NonzeroScalar)
  /-- The conjugate across the imaginary axis. -/
  | axisConj
  /-- The conjugate across the unit circle. -/
  | circleConj
  /-- The conjugated coefficients in reverse order. -/
  | reciprocal
  /-- The product with a power of the variable. -/
  | shift (n : ℤ)
  /-- The Laurent form. -/
  | toLaurent

namespace UnaryOperation

/-- The result of an operation. -/
noncomputable def apply (a : MixedPoly ℝ ℂ) : UnaryOperation → Except Failure (MixedPoly ℝ ℂ)
  | neg => a.neg?
  | addNumber t => a.addNumber? t
  | subNumber t => a.subNumber? t
  | numberSub t => MixedPoly.numberSub? t a
  | mulNumber t => a.mulNumber? t
  | divNumber t => a.divNumber? t
  | conj => .ok a.conj
  | chop tolerance => .ok (a.chop tolerance)
  | scale factor => .ok (a.scale factor)
  | axisConj => .ok a.axisConj
  | circleConj => .ok a.circleConj
  | reciprocal => a.reciprocal
  | shift n => .ok (a.shift n)
  | toLaurent => .ok a.toLaurent

variable {a r : MixedPoly ℝ ℂ} {o : UnaryOperation}

/-- An operation on a trimmed polynomial returns a trimmed one. Only the Laurent form of a Laurent
polynomial takes the window over from its operand. -/
theorem trimmed_of_apply (ha : a.Trimmed) (h : o.apply a = .ok r) : r.Trimmed := by
  cases o with
  | neg => exact MixedPoly.trimmed_of_neg? h
  | addNumber t => exact MixedPoly.trimmed_of_add? h
  | subNumber t => exact MixedPoly.trimmed_of_sub? h
  | numberSub t => exact MixedPoly.trimmed_of_numberSub? h
  | mulNumber t => exact MixedPoly.trimmed_of_mul? h
  | divNumber t => exact MixedPoly.trimmed_of_divNumber? h
  | conj => exact Except.ok.inj h ▸ MixedPoly.trimmed_conj a
  | chop tolerance => exact Except.ok.inj h ▸ MixedPoly.trimmed_chop tolerance a
  | scale factor => exact Except.ok.inj h ▸ MixedPoly.trimmed_scale factor a
  | axisConj => exact Except.ok.inj h ▸ MixedPoly.trimmed_axisConj a
  | circleConj => exact Except.ok.inj h ▸ MixedPoly.Trimmed.circleConj a
  | reciprocal => exact MixedPoly.trimmed_of_reciprocal h
  | shift n => exact Except.ok.inj h ▸ MixedPoly.trimmed_shift n a
  | toLaurent => exact Except.ok.inj h ▸ ha.toLaurent

/-- What an operation refuses is the reciprocal of a Laurent polynomial. -/
theorem apply_eq_error {x : Failure} (h : o.apply a = .error x) :
    o = reciprocal ∧ a.variant = .laurent ∧ x = .laurentReciprocal := by
  have hreturns : ∀ {y p f}, MixedPoly.Returns y p f → y ≠ .error x := by
    rintro _ _ _ ⟨r, rfl, -⟩ herror
    cases herror
  cases o with
  | neg => exact absurd h (hreturns (MixedPoly.returns_neg? a))
  | addNumber t => exact absurd h (hreturns (MixedPoly.returns_addNumber? a t))
  | subNumber t => exact absurd h (hreturns (MixedPoly.returns_subNumber? a t))
  | numberSub t => exact absurd h (hreturns (MixedPoly.returns_numberSub? a t))
  | mulNumber t => exact absurd h (hreturns (MixedPoly.returns_mulNumber? a t))
  | divNumber t => exact absurd h (hreturns (MixedPoly.returns_divNumber? a t))
  | reciprocal =>
    change a.reciprocal = .error x at h
    cases hvariant : a.variant with
    | ordinary =>
      obtain ⟨r, hr⟩ := MixedPoly.exists_reciprocal hvariant
      exact nomatch hr.symm.trans h
    | laurent =>
      rw [MixedPoly.reciprocal_of_laurent hvariant] at h
      exact ⟨rfl, rfl, (Except.error.inj h).symm⟩
  | conj | chop | scale | axisConj | circleConj | shift | toLaurent => cases h

end UnaryOperation

/-- An operation on two polynomials. -/
inductive BinaryOperation where
  /-- The sum. -/
  | add
  /-- The difference. -/
  | sub
  /-- The product. -/
  | mul

namespace BinaryOperation

/-- The result of an operation. -/
noncomputable def apply (a b : MixedPoly ℝ ℂ) : BinaryOperation → Except Failure (MixedPoly ℝ ℂ)
  | add => a.add? b
  | sub => a.sub? b
  | mul => a.mul? b

variable {a b r : MixedPoly ℝ ℂ} {o : BinaryOperation}

/-- An operation on two polynomials returns a trimmed one. -/
theorem trimmed_of_apply (h : o.apply a b = .ok r) : r.Trimmed := by
  cases o with
  | add => exact MixedPoly.trimmed_of_add? h
  | sub => exact MixedPoly.trimmed_of_sub? h
  | mul => exact MixedPoly.trimmed_of_mul? h

/-- No operation on two polynomials fails. -/
theorem exists_apply (a b : MixedPoly ℝ ℂ) (o : BinaryOperation) : ∃ r, o.apply a b = .ok r := by
  cases o with
  | add => exact (MixedPoly.returns_add? a b).imp fun _ h => h.1
  | sub => exact (MixedPoly.returns_sub? a b).imp fun _ h => h.1
  | mul => exact (MixedPoly.returns_mul? a b).imp fun _ h => h.1

end BinaryOperation

/-- A computation with polynomials. -/
inductive Expression where
  /-- The ordinary polynomial with the given coefficients. -/
  | ordinary (c : Coefficients) (symbol : String)
  /-- The Laurent polynomial with the given coefficients from an exponent on. -/
  | laurent (first : ℤ) (c : Coefficients) (symbol : String)
  /-- An operation on what one expression evaluates to. -/
  | unary (o : UnaryOperation) (e : Expression)
  /-- An operation on what two expressions evaluate to. -/
  | binary (o : BinaryOperation) (e f : Expression)

section Sequences

variable {α β : Type} {x : Except Failure α} {g : α → Except Failure β}

/-- What a sequence of two computations returns comes from a value that the first one returned. -/
theorem exists_of_bind_eq_ok {y : β} (h : x >>= g = .ok y) : ∃ u, x = .ok u ∧ g u = .ok y := by
  cases x with
  | error e => cases h
  | ok u => exact ⟨u, rfl, h⟩

/-- A sequence of two computations fails when one of them does. -/
theorem or_exists_of_bind_eq_error {y : Failure} (h : x >>= g = .error y) :
    x = .error y ∨ ∃ u, x = .ok u ∧ g u = .error y := by
  cases x with
  | error e => exact Or.inl (congrArg Except.error (Except.error.inj h))
  | ok u => exact Or.inr ⟨u, rfl, h⟩

end Sequences

namespace Expression

/-- The polynomial that an expression evaluates to. -/
noncomputable def eval : Expression → Except Failure (MixedPoly ℝ ℂ)
  | ordinary c s => .ok (c.build (Poly.ofCoef · s) (Poly.ofCoef · s))
  | laurent first c s => .ok (c.build (Poly.ofWindow first · s) (Poly.ofWindow first · s))
  | unary o e => do
    let a ← e.eval
    o.apply a
  | binary o e f => do
    let a ← e.eval
    let b ← f.eval
    o.apply a b

variable {e f : Expression} {a b : MixedPoly ℝ ℂ}

/-- Whatever an expression evaluates to is trimmed. -/
theorem trimmed_of_eval (h : e.eval = .ok a) : a.Trimmed := by
  induction e generalizing a with
  | ordinary c s =>
    obtain rfl := Except.ok.inj h
    cases c <;> exact Poly.trimmed_ofCoef _ s
  | laurent first c s =>
    obtain rfl := Except.ok.inj h
    cases c <;> exact Poly.trimmed_ofWindow first _ s
  | unary o e ih =>
    obtain ⟨u, hu, hr⟩ := exists_of_bind_eq_ok h
    exact UnaryOperation.trimmed_of_apply (ih hu) hr
  | binary o e f _ _ =>
    obtain ⟨u, -, h⟩ := exists_of_bind_eq_ok h
    obtain ⟨v, -, hr⟩ := exists_of_bind_eq_ok h
    exact BinaryOperation.trimmed_of_apply hr

/-- An expression without a value asks for the reciprocal of a Laurent polynomial. -/
theorem eval_eq_error {x : Failure} (h : e.eval = .error x) : x = .laurentReciprocal := by
  induction e with
  | ordinary c s => cases h
  | laurent first c s => cases h
  | unary o e ih =>
    rcases or_exists_of_bind_eq_error h with he | ⟨u, -, hu⟩
    · exact ih he
    · exact (UnaryOperation.apply_eq_error hu).2.2
  | binary o e f ihe ihf =>
    rcases or_exists_of_bind_eq_error h with he | ⟨u, -, h⟩
    · exact ihe he
    · rcases or_exists_of_bind_eq_error h with hf | ⟨v, -, hv⟩
      · exact ihf hf
      · obtain ⟨r, hr⟩ := BinaryOperation.exists_apply u v o
        exact nomatch hr.symm.trans hv

/-- Whatever an expression evaluates to is trimmed, and an ordinary polynomial starts at exponent
zero; an expression without a value asks for the reciprocal of a Laurent polynomial. So the degree
of a polynomial other than zero is the largest exponent with a coefficient other than zero,
polynomials of one kind with the same coefficients store the same window, and the degrees of two
polynomials other than zero add up in their product. -/
theorem eval_normalForm (e f : Expression) :
    (∀ x, e.eval = .error x → x = .laurentReciprocal) ∧
    ∀ a, e.eval = .ok a →
      (a.Trimmed ∧ (a.variant = .ordinary → a.first = 0)) ∧
      (a.isZero = false → IsGreatest {k | a.coeff k ≠ 0} a.degree) ∧
      ∀ b, f.eval = .ok b →
        (a.variant = b.variant → (∀ k, a.coeff k = b.coeff k) →
          a.first = b.first ∧ a.toComplex.coef = b.toComplex.coef) ∧
        (a.isZero = false → b.isZero = false →
          ∃ r, a.mul? b = .ok r ∧ r.isZero = false ∧ r.degree = a.degree + b.degree) := by
  refine ⟨fun x => eval_eq_error, fun a hea => ?_⟩
  have ha := trimmed_of_eval hea
  refine ⟨⟨ha, MixedPoly.first_eq_zero_of_ordinary⟩, ha.isGreatest_degree, fun b hfb => ?_⟩
  have hb := trimmed_of_eval hfb
  exact ⟨ha.window_eq hb, ha.exists_mul?_degree hb⟩

/-- The ordinary polynomial `s`, given with a zero behind it, and its shift by minus two have the
degrees one and minus one, and their product has the degree zero. -/
theorem eval_normalForm_linear :
    ∃ a b r : MixedPoly ℝ ℂ, (ordinary (.real #[0, 1, 0]) "s").eval = .ok a ∧
      (unary (.shift (-2)) (ordinary (.real #[0, 1, 0]) "s")).eval = .ok b ∧
      a.degree = 1 ∧ b.degree = -1 ∧ a.mul? b = .ok r ∧ r.isZero = false ∧ r.degree = 0 := by
  let a : MixedPoly ℝ ℂ := .real (Poly.ofCoef #[0, 1, 0] "s")
  let e := ordinary (.real #[0, 1, 0]) "s"
  have hea : e.eval = .ok a := rfl
  have hfb : (unary (.shift (-2)) e).eval = .ok (a.shift (-2)) := rfl
  have hentry : ∀ n : ℕ, #[(0 : ℝ), 1, 0].getD n 0 = if n = 1 then 1 else 0
    | 0 | 1 | 2 => by simp
    | n + 3 => by simp
  have hcoeff : ∀ k, a.coeff k = if k = 1 then 1 else 0 := by
    intro k
    rw [MixedPoly.coeff_real, Poly.coeff_ofCoef, windowCoeff, hentry]
    split_ifs <;> first | omega | simp
  have hshift : ∀ k, (a.shift (-2)).coeff k = if k = -1 then 1 else 0 := fun k => by
    rw [MixedPoly.coeff_shift, hcoeff]
    exact if_congr (by omega) rfl rfl
  have hagreatest : IsGreatest {k | a.coeff k ≠ 0} 1 := by
    simp only [hcoeff]
    simp
  have hbgreatest : IsGreatest {k | (a.shift (-2)).coeff k ≠ 0} (-1) := by
    simp only [hshift]
    simp
  obtain ⟨-, hlaws⟩ := eval_normalForm e (unary (.shift (-2)) e)
  obtain ⟨⟨ha, -⟩, -, hproduct⟩ := hlaws a hea
  obtain ⟨hazero, hadegree⟩ := ha.degree_eq_of_isGreatest hagreatest
  obtain ⟨hbzero, hbdegree⟩ :=
    (MixedPoly.trimmed_shift (-2) a).degree_eq_of_isGreatest hbgreatest
  obtain ⟨r, hr, hzero, hdegree⟩ := (hproduct _ hfb).2 hazero hbzero
  refine ⟨a, a.shift (-2), r, hea, hfb, hadegree, hbdegree, hr, hzero, ?_⟩
  rw [hdegree, hadegree, hbdegree]
  rfl

end Expression

end PolynomialEquations
