/-!
# Failures

The causes for which an operation of the library refuses to answer, and their wording. Causes that
come out of a numerical kernel or out of data of the wrong shape carry no text of the library's
own.
-/

namespace PolynomialEquations

/-- Why an operation gave no answer. -/
inductive Failure where
  /-- The coefficients given do not form a sequence of single values. -/
  | notASequence
  /-- No coefficient was given. -/
  | noCoefficients
  /-- The coefficients are of the named kind, which is not a kind of number. -/
  | notNumeric (kind : String)
  /-- An ordinary polynomial was asked to start at a negative exponent. -/
  | negativePowers
  /-- A coefficient was asked for at something other than an integer exponent. -/
  | indexNotInteger
  /-- A polynomial was compared with a value of the named kind. -/
  | incomparable (kind : String)
  /-- A polynomial was expected in place of a value of the named kind. -/
  | notAPolynomial (kind : String)
  /-- The reciprocal was asked of a Laurent polynomial. -/
  | laurentReciprocal
  /-- A banded matrix was asked to have no columns. -/
  | noColumns
  /-- A block of a Sylvester matrix was given the negative width shown. -/
  | negativeWidth (widths : String)
  /-- A vector of the given length does not fit into the target length. -/
  | doesNotFit (length target : Int)
  /-- The factorisation mode shown does not exist. -/
  | unknownMode (mode : String)
  /-- The degree policy shown does not exist. -/
  | unknownPolicy (policy : String)
  /-- The factorisation method shown does not exist. -/
  | unknownMethod (method : String)
  /-- A triangular system has no solution. -/
  | inconsistent
  /-- A triangular system has more than one solution. -/
  | rankDeficient
  /-- A polynomial was divided by the zero polynomial. -/
  | zeroDivisor
  /-- An equation in two unknowns has a zero polynomial for a coefficient. -/
  | zeroCoefficient
  /-- The right side of a symmetric equation has a lower degree than its coefficient. -/
  | degreeTooLow (right coefficient : Int)
  /-- The equation of least absolute sum was posed with complex coefficients. -/
  | notReal
  /-- The equation of least absolute sum was posed with the zero polynomial. -/
  | zeroGenerator
  /-- The bound shown on the degree is below the least admissible degree. -/
  | boundTooLow (bound : String) (least : Int)
  /-- A linear program has no optimal solution, for the reason given. -/
  | programFailed (reason : String)
  /-- The exponents of a circle-symmetric polynomial run over an unsymmetric window. -/
  | unsymmetricWindow (first last : Int)
  /-- A value is of the wrong kind for the operation. -/
  | wrongKind
  /-- A value is of the right kind but cannot be used by the operation. -/
  | unusable
  /-- A value lacks what the operation reads from it. -/
  | lacking
  /-- An entry outside a vector or matrix was read. -/
  | outOfBounds
  /-- An integer is too large for a double. -/
  | tooLarge
  /-- A numerical kernel broke down. -/
  | breakdown
  deriving Repr, DecidableEq

/-- The wording of a failure, empty for causes without one. -/
def Failure.message : Failure → String
  | notASequence => "coefficients must form a 1-D sequence"
  | noCoefficients => "at least one coefficient is required"
  | notNumeric kind => s!"coefficients must be numeric, got {kind}"
  | negativePowers => "an ordinary polynomial cannot hold negative powers"
  | indexNotInteger => "polynomials are indexed by integer exponents"
  | incomparable kind => s!"cannot compare a polynomial with {kind}"
  | notAPolynomial kind => s!"expected a polynomial, got {kind}"
  | laurentReciprocal => "conjreciprocal is defined for ordinary polynomials only"
  | noColumns => "an LTBT matrix needs at least one column"
  | negativeWidth widths => s!"block widths must be non-negative, got {widths}"
  | doesNotFit length target => s!"cannot pad a vector of length {length} to {target}"
  | unknownMode mode => s!"unsupported QR mode {mode}"
  | unknownPolicy policy =>
    s!"unsupported option {policy} for the degree policy; expected one of 'miny', 'minx'"
  | unknownMethod method => s!"unsupported method {method}; available: roots"
  | inconsistent => "inconsistent system (no solution)"
  | rankDeficient => "rank deficient (infinitely many solutions)"
  | zeroDivisor => "division by the zero polynomial"
  | zeroCoefficient => "a and b must be non-zero polynomials"
  | degreeTooLow right coefficient =>
    s!"deg(b + b~)={right} is lower than deg(a)={coefficient}, no solution"
  | notReal => "axycminl1 requires real coefficients"
  | zeroGenerator => "a must be a non-zero polynomial"
  | boundTooLow bound least =>
    s!"dymax={bound} is below the smallest admissible deg(y)={least}"
  | programFailed reason => s!"linear program failed: {reason}"
  | unsymmetricWindow first last =>
    s!"a circle-symmetric Laurent polynomial spans [-n, n], got [{first}, {last}]"
  | wrongKind | unusable | lacking | outOfBounds | tooLarge | breakdown => ""

end PolynomialEquations
