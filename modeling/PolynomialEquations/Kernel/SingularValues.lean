import PolynomialEquations.Kernel.Basic

/-!
# Singular values by rotations of columns

The columns of a matrix `A` are made orthogonal by plane rotations of pairs of columns. With `V`
the product of the rotations, the columns of `A V` then have the singular values for their norms.
Rank, kernel and least squares solutions are read off; a singular value counts as zero when it is
at most the machine epsilon times the larger dimension times the largest singular value.
-/

namespace PolynomialEquations

variable {R K : Type} [Zero K] [Add K] [Sub K] [Mul K] [Div K] [Scalar R K]
  [Zero R] [One R] [Add R] [Sub R] [Mul R] [Div R] [Neg R] [BEq R]
  [LE R] [DecidableLE R] [LT R] [DecidableLT R] [RealFunctions R]

/-- The inner product of two vectors, conjugate in the first. -/
def innerProduct (u v : Array K) : K :=
  (u.zip v).foldl (fun s p => s + Scalar.conj p.1 * p.2) 0

/-- The columns of `A V` and of `V`, during the rotations. -/
structure RotatedColumns (K : Type) where
  /-- The columns of `A V`. -/
  image : Array (Array K)
  /-- The columns of `V`. -/
  basis : Array (Array K)
  /-- Whether the current sweep has rotated any columns. -/
  moved : Bool

/-- The pair of vectors `c u - s v` and `s u + c v`. -/
def rotatePair (c s : K) (u v : Array K) : Array K × Array K :=
  (u.zipWith (fun x y => c * x - s * y) v, u.zipWith (fun x y => s * x + c * y) v)

/-- Make columns `p` and `q` orthogonal, unless their inner product is already at most `eps`
relative to their norms or they are as short as `floor`. -/
def rotateColumns (eps floor : R) (S : RotatedColumns K) (p q : Nat) : RotatedColumns K :=
  let u := S.image.getD p #[]
  let v := S.image.getD q #[]
  let α := squaredNorm u
  let β := squaredNorm v
  let γ := innerProduct u v
  let size := Scalar.modulus γ
  if size ≤ eps * RealFunctions.sqrt (α * β) ∨ (α ≤ floor ∧ β ≤ floor) then S
  else
    let ζ := (β - α) / (size + size)
    let root := RealFunctions.sqrt (1 + ζ * ζ)
    let t := if ζ < 0 then -(1 / (root - ζ)) else 1 / (root + ζ)
    let c := 1 / RealFunctions.sqrt (1 + t * t)
    let phase := Scalar.conj (γ / Scalar.ofReal size)
    let turn (x : Array K) := x.map (· * phase)
    let (u', v') := rotatePair (Scalar.ofReal c) (Scalar.ofReal (c * t)) u (turn v)
    let (x', y') := rotatePair (Scalar.ofReal c) (Scalar.ofReal (c * t))
      (S.basis.getD p #[]) (turn (S.basis.getD q #[]))
    ⟨(S.image.setIfInBounds p u').setIfInBounds q v',
      (S.basis.setIfInBounds p x').setIfInBounds q y', true⟩

/-- One sweep over all pairs among `n` columns. -/
def sweepColumns (eps floor : R) (n : Nat) (S : RotatedColumns K) : RotatedColumns K :=
  (List.range n).foldl
    (fun S p => (List.range (n - p - 1)).foldl
      (fun S i => rotateColumns eps floor S p (p + 1 + i)) S)
    { S with moved := false }

/-- Sweeps until one rotates nothing, at most `fuel` of them. -/
def sweepsColumns (eps floor : R) (n : Nat) (S : RotatedColumns K) : Nat → RotatedColumns K
  | 0 => S
  | fuel + 1 =>
    let S := sweepColumns eps floor n S
    if S.moved then sweepsColumns eps floor n S fuel else S

/-- A singular value with its column of `A V` and its column of `V`. -/
structure SingularTriple (R K : Type) where
  /-- The singular value. -/
  value : R
  /-- The column of `A V`, whose norm is the singular value. -/
  image : Array K
  /-- The column of `V`. -/
  vector : Array K

/-- One triple for each column of `A`, the largest singular values first. -/
def singularTriples [One K] (eps : R) (A : Mat K) : List (SingularTriple R K) :=
  let n := A.cols
  let image := Array.ofFn fun j : Fin n => A.col j
  let basis := Array.ofFn fun j : Fin n => (Mat.identity n).col j
  let total := squaredNorm A.entries
  let S := sweepsColumns eps (eps * eps * eps * total) n ⟨image, basis, true⟩ 60
  let triples := (S.image.zip S.basis).toList.map fun (u, v) =>
    ({ value := euclideanNorm u, image := u, vector := v } : SingularTriple R K)
  triples.mergeSort fun a b => decide (b.value ≤ a.value)

/-- The natural number `n` as a real number. -/
def realOfNat (n : Nat) : R := sumTo (fun _ => 1) n

/-- The value up to which singular values of `A` count as zero. -/
def singularThreshold (eps : R) (A : Mat K) (triples : List (SingularTriple R K)) : R :=
  let top := match triples with
    | [] => 0
    | s :: _ => s.value
  top * (eps * realOfNat (max A.rows A.cols))

/-- Whether every entry is finite: one that is not differs from itself or gives an undefined
difference with itself. -/
def Mat.isFinite (A : Mat K) [BEq K] : Bool := A.entries.all fun x => x - x == 0

/-- The number of singular values above the threshold, among the first as many as the smaller
dimension. -/
def singularRank (eps : R) (A : Mat K) (triples : List (SingularTriple R K)) : Nat :=
  let threshold := singularThreshold eps A triples
  ((triples.take (min A.rows A.cols)).takeWhile fun s => decide (threshold < s.value)).length

/-- The rank of a matrix with finite entries. -/
def rankBySingularValues [One K] [BEq K] (eps : R) (A : Mat K) : Except Failure Nat :=
  if A.isFinite then .ok (singularRank eps A (singularTriples eps A)) else .error .breakdown

/-- The vectors of the singular values that count as zero, as columns. -/
def nullBasisBySingularValues [One K] [BEq K] (eps : R) (A : Mat K) : Except Failure (Mat K) :=
  if A.isFinite then
    let triples := singularTriples eps A
    let vectors := ((triples.drop (singularRank eps A triples)).map (·.vector)).toArray
    .ok (Mat.ofFn A.cols vectors.size fun i j => (vectors.getD j #[]).getD i 0)
  else .error .unusable

/-- The least squares solution of smallest norm of `A x = b`. A right side with an entry that is not
finite is replaced by one that is undefined in that place, and the solution is undefined too. -/
def leastSquaresBySingularValues [One K] [BEq K] (eps : R) (A : Mat K) (b : Array K) :
    Except Failure (Array K) :=
  if A.rows ≠ b.size then .error .breakdown
  else if A.isFinite then
    let b := if b.all fun x => x - x == 0 then b else b.map fun x => x - x
    let triples := singularTriples eps A
    let used := triples.take (singularRank eps A triples)
    let zero : Array K := Array.replicate A.cols 0
    .ok (used.foldl (fun x s =>
      let part := innerProduct s.image b / Scalar.ofReal (s.value * s.value)
      x.zipWith (fun xi vi => xi + part * vi) s.vector) zero)
  else .error .breakdown

end PolynomialEquations
