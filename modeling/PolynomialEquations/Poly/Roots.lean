import PolynomialEquations.Poly.Arithmetic
import PolynomialEquations.Kernel.Basic

/-!
# Polynomials and their roots

The roots of a polynomial as a root finder gives them, and the monic polynomial with given roots.
Linear factors are multiplied in pairs, the products in pairs again, and so on.
-/

namespace PolynomialEquations

section Products

variable {K : Type} [Zero K] [Add K] [Mul K]

/-- Products of the first half of a list of coefficient vectors with the second half, entry by
entry; a factor left over at the end joins the first product. -/
def pairProducts (ps : List (Array K)) : List (Array K) :=
  let m := ps.length / 2
  let products := List.zipWith Poly.convolution (ps.take m) (ps.drop m)
  match products, ps.drop (2 * m) with
  | p :: rest, [q] => Poly.convolution p q :: rest
  | _, _ => products

theorem length_pairProducts (ps : List (Array K)) :
    (pairProducts ps).length = ps.length / 2 := by
  have hzip : (List.zipWith Poly.convolution (ps.take (ps.length / 2))
      (ps.drop (ps.length / 2))).length = ps.length / 2 := by
    simp only [List.length_zipWith, List.length_take, List.length_drop]
    omega
  unfold pairProducts
  simp only
  split
  · next p rest q hproducts _ =>
    rw [hproducts] at hzip
    simpa using hzip
  · exact hzip

/-- The product of a list of coefficient vectors, one for the empty list. -/
def treeProduct [One K] (ps : List (Array K)) : Array K :=
  match ps with
  | [] => #[1]
  | [p] => p
  | p :: q :: rest => treeProduct (pairProducts (p :: q :: rest))
termination_by ps.length
decreasing_by
  rw [length_pairProducts]
  simp only [List.length_cons]
  omega

/-- The coefficients of the monic polynomial with the given roots. -/
def monicCoef [One K] [Neg K] (roots : List K) : Array K :=
  treeProduct (roots.map fun r => #[-r, 1])

end Products

/-- The order of roots: by real part, then by imaginary part. -/
def rootBefore {R K : Type} [Scalar R K] [BEq R] [LE R] [DecidableLE R] [LT R] [DecidableLT R]
    (r s : K) : Bool :=
  let x : R := Scalar.re r
  let y : R := Scalar.re s
  decide (x < y) || (x == y && decide (Scalar.im r ≤ Scalar.im s))

/-- The coefficients of the monic polynomial with the given roots, whose factors are taken in the
order of the roots. -/
def coefOfRoots {R K : Type} [Zero K] [One K] [Neg K] [Add K] [Mul K] [Scalar R K] [BEq R] [LE R]
    [DecidableLE R] [LT R] [DecidableLT R] (roots : List K) : Array K :=
  monicCoef (roots.mergeSort rootBefore)

/-- The roots of a polynomial of either kind, those of its coefficients read from exponent zero
on. A polynomial with one coefficient has none. -/
def Poly.roots {K C : Type} (finder : RootFinder K C) (a : Poly K) : Except Failure (List C) :=
  if a.coef.size < 2 then .ok [] else finder a.coef

end PolynomialEquations
