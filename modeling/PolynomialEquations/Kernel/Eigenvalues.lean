import PolynomialEquations.Kernel.Basic
import PolynomialEquations.Scalar.Floating

/-!
# Roots as eigenvalues

The roots of a polynomial are the eigenvalues of its companion matrix. Roots at zero are split off
first, one for each vanishing coefficient at the low end. The companion matrix is scaled so that
its rows and columns have comparable size, and its eigenvalues are found by shifted orthogonal
similarity steps on the part that has not split yet.
-/

namespace PolynomialEquations

namespace Companion

/-- A square matrix with zeros below its first subdiagonal, row by row. -/
abbrev Rows := Array (Array ComplexFloat)

/-- The entry in row `i` and column `j`. -/
def entry (H : Rows) (i j : Nat) : ComplexFloat := (H.getD i #[]).getD j 0

/-- The companion matrix of a polynomial, which holds the negative quotients by the last
coefficient, highest exponent first, in its first row and ones below the diagonal. Quotients are
taken before the coefficients are read as complex numbers. -/
def ofCoef {K : Type} [Zero K] [Neg K] [Div K] (embed : K → ComplexFloat) (c : Array K) : Rows :=
  let n := c.size - 1
  let top := c.getD n 0
  Array.ofFn fun i : Fin n => Array.ofFn fun j : Fin n =>
    if (i : Nat) = 0 then embed (-(c.getD (n - 1 - j) 0 / top))
    else if (i : Nat) = j + 1 then 1 else 0

/-- The power of two, as far as `fuel` reaches, that brings a row of size `r` and a column of
size `c` closest to each other when the column is multiplied and the row divided by it. -/
def balancingFactor (r c f : Float) : Nat → Float
  | 0 => f
  | fuel + 1 =>
    if c < r * 0.5 then balancingFactor (r * 0.5) (c * 2) (f * 2) fuel
    else if 2 * r ≤ c then balancingFactor (r * 2) (c * 0.5) (f * 0.5) fuel
    else f

/-- The sum of the moduli off the diagonal in row `i`. -/
def rowSize (H : Rows) (i : Nat) : Float :=
  sumTo (fun j => if j = i then 0 else (entry H i j).modulus) H.size

/-- The sum of the moduli off the diagonal in column `i`. -/
def colSize (H : Rows) (i : Nat) : Float :=
  sumTo (fun j => if j = i then 0 else (entry H j i).modulus) H.size

/-- Row and column `i` scaled against each other. -/
def balanceIndex (H : Rows) (i : Nat) : Rows :=
  let r := rowSize H i
  let c := colSize H i
  if r == 0 || c == 0 then H
  else
    let f := balancingFactor r c 1 1100
    H.mapIdx fun p row => row.mapIdx fun q x =>
      if p = i then (if q = i then x else ⟨x.re / f, x.im / f⟩)
      else if q = i then ⟨x.re * f, x.im * f⟩ else x

/-- Every row scaled against its column, `rounds` times over. -/
def balance (H : Rows) : Nat → Rows
  | 0 => H
  | rounds + 1 => balance ((List.range H.size).foldl balanceIndex H) rounds

/-- A plane rotation with a real cosine. -/
structure Rotation where
  /-- The cosine. -/
  c : Float
  /-- The sine. -/
  s : ComplexFloat

/-- The rotation that maps the pair `(x, y)` onto a pair with second entry zero. -/
def Rotation.clearing (x y : ComplexFloat) : Rotation :=
  let size := hypotenuse x.modulus y.modulus
  if y.modulus == 0 then ⟨1, 0⟩
  else if x.modulus == 0 then ⟨0, y.conj / ComplexFloat.ofReal y.modulus⟩
  else
    let phase := x / ComplexFloat.ofReal x.modulus
    ⟨x.modulus / size, phase * y.conj / ComplexFloat.ofReal size⟩

/-- The rotation applied to a pair from the left. -/
def Rotation.left (g : Rotation) (x y : ComplexFloat) : ComplexFloat × ComplexFloat :=
  (ComplexFloat.ofReal g.c * x + g.s * y, ComplexFloat.ofReal g.c * y - g.s.conj * x)

/-- The conjugate transposed rotation applied to a pair from the right. -/
def Rotation.right (g : Rotation) (x y : ComplexFloat) : ComplexFloat × ComplexFloat :=
  (x * ComplexFloat.ofReal g.c + y * g.s.conj, y * ComplexFloat.ofReal g.c - x * g.s)

/-- Rows `k` and `k + 1` rotated. -/
def rotateRows (H : Rows) (g : Rotation) (k : Nat) : Rows :=
  let u := H.getD k #[]
  let v := H.getD (k + 1) #[]
  let pairs := u.zipWith g.left v
  (H.setIfInBounds k (pairs.map (·.1))).setIfInBounds (k + 1) (pairs.map (·.2))

/-- Columns `k` and `k + 1` rotated. -/
def rotateCols (H : Rows) (g : Rotation) (k : Nat) : Rows :=
  H.map fun row =>
    let (x, y) := g.right (row.getD k 0) (row.getD (k + 1) 0)
    (row.setIfInBounds k x).setIfInBounds (k + 1) y

/-- The diagonal from `lo` to `hi` less the shift `σ`. -/
def shiftDiagonal (H : Rows) (σ : ComplexFloat) (lo hi : Nat) : Rows :=
  H.mapIdx fun i row => if lo ≤ i ∧ i ≤ hi then row.modify i (· - σ) else row

/-- One similarity step with shift `σ` on the rows and columns from `lo` to `hi`: factor into a
product of rotations and a triangular matrix, and multiply in reverse order. -/
def similarityStep (H : Rows) (σ : ComplexFloat) (lo hi : Nat) : Rows :=
  let (H, gs) := (List.range (hi - lo)).foldl
    (fun (H, gs) t =>
      let k := lo + t
      let g := Rotation.clearing (entry H k k) (entry H (k + 1) k)
      (rotateRows H g k, gs.push g))
    (shiftDiagonal H σ lo hi, (#[] : Array Rotation))
  let H := (List.range (hi - lo)).foldl
    (fun H t => rotateCols H (gs.getD t ⟨1, 0⟩) (lo + t)) H
  shiftDiagonal H (-σ) lo hi

/-- The eigenvalue of the last two by two block, ending at `hi`, that is closer to its last
diagonal entry. -/
def blockShift (H : Rows) (hi : Nat) : ComplexFloat :=
  let a := entry H (hi - 1) (hi - 1)
  let b := entry H (hi - 1) hi
  let c := entry H hi (hi - 1)
  let d := entry H hi hi
  let half := ComplexFloat.ofReal 0.5
  let p := (a - d) * half
  let root := (p * p + b * c).sqrt
  let q := if (p + root).modulus < (p - root).modulus then p - root else p + root
  if q.modulus == 0 then d else d - b * c / q

/-- The start of the block that ends at `hi`: the largest index whose subdiagonal entry is
negligible against its two diagonal neighbours. -/
def blockStart (H : Rows) : Nat → Nat
  | 0 => 0
  | k + 1 =>
    let size := (entry H k k).modulus + (entry H (k + 1) (k + 1)).modulus
    if (entry H (k + 1) k).modulus ≤ machineEpsilon * size then k + 1 else blockStart H k

/-- The eigenvalues of the rows and columns up to `hi`, added to those found so far. A block that
has not split after ten steps is shifted by the size of its subdiagonal instead. -/
def eigenvalues (H : Rows) (hi steps : Nat) (found : List ComplexFloat) :
    Nat → Except Failure (List ComplexFloat)
  | 0 => .error .breakdown
  | fuel + 1 =>
    let lo := blockStart H hi
    if lo = hi then
      match hi with
      | 0 => .ok (entry H 0 0 :: found)
      | rest + 1 => eigenvalues H rest 0 (entry H hi hi :: found) fuel
    else
      let σ :=
        if steps % 10 = 9 then
          entry H hi hi + ComplexFloat.ofReal ((entry H hi (hi - 1)).modulus)
        else blockShift H hi
      eigenvalues (similarityStep H σ lo hi) hi (steps + 1) found fuel

/-- Whether all entries are finite. -/
def isFinite (H : Rows) : Bool := H.all fun row => row.all fun x => x - x == 0

/-- The number of coefficients that are zero before the first other one. -/
def zeroRoots {K : Type} [Zero K] [BEq K] (c : Array K) : Nat :=
  (c.toList.takeWhile (· == 0)).length

/-- All roots of the polynomial with the given coefficients. The root of a polynomial of degree
one is the negative quotient of its coefficients, finite or not. -/
def roots {K : Type} [Zero K] [Neg K] [Div K] [BEq K] (embed : K → ComplexFloat) (c : Array K) :
    Except Failure (List ComplexFloat) :=
  let linear (c : Array K) := embed (-c.getD 0 0 / c.getD 1 0)
  if c.size < 2 then .ok []
  else if c.size = 2 then .ok [linear c]
  else if isFinite (ofCoef embed c) then
    let z := zeroRoots c
    let rest := c.extract z c.size
    let zeros := List.replicate z 0
    if rest.size < 2 then .ok zeros
    else if rest.size = 2 then .ok (zeros ++ [linear rest])
    else
      let n := rest.size - 1
      eigenvalues (balance (ofCoef embed rest) 8) (n - 1) 0 zeros (200 * n)
  else .error .breakdown

end Companion

end PolynomialEquations
