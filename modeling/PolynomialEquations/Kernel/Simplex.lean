import PolynomialEquations.Kernel.Basic

/-!
# Linear programs by the simplex method

A tableau over doubles, one row per constraint and a last row of reduced costs; the last column
holds the right side. Free variables are brought into the basis first and stay there. Rows that
have no basic variable yet carry an artificial one; its total is driven to zero before the costs
count. Rows of a model that is too large to be solved reliably are refused.
-/

namespace PolynomialEquations

namespace Simplex

/-- Entries of the constraint matrix of at least this size make a model unusable. -/
def largeEntry : Float := 1e15

/-- Right sides of at least this size count as infinite. -/
def infiniteBound : Float := 1e20

/-- Entries of the constraint matrix of at most this size count as zero. -/
def smallEntry : Float := 1e-9

/-- The size below which a reduced cost, a pivot or a right side counts as zero. -/
def slack : Float := 1e-9

/-- A simplex tableau. -/
structure Tableau where
  /-- The number of constraints. -/
  rows : Nat
  /-- The number of variables. -/
  vars : Nat
  /-- The entries row by row, each row with its right side last; the row after the constraints
  holds the reduced costs. -/
  cells : FloatArray
  /-- The basic variable of each constraint; `vars` and above stand for an artificial one. -/
  basis : Array Nat

/-- The number of entries of a row. -/
def Tableau.width (T : Tableau) : Nat := T.vars + 1

/-- The entry in row `i` and column `j`. -/
@[inline] def Tableau.cell (T : Tableau) (i j : Nat) : Float := T.cells.get! (i * T.width + j)

/-- Subtract `f` times the entries from `source` on from the entries from `target` on, `n` of
them. -/
def subtractRow (cells : FloatArray) (target source : Nat) (f : Float) : Nat → FloatArray
  | 0 => cells
  | n + 1 =>
    let x := cells.get! (target + n) - f * cells.get! (source + n)
    subtractRow (cells.set! (target + n) x) target source f n

/-- Divide the `n` entries from `start` on by `f`. -/
def divideRow (cells : FloatArray) (start : Nat) (f : Float) : Nat → FloatArray
  | 0 => cells
  | n + 1 => divideRow (cells.set! (start + n) (cells.get! (start + n) / f)) start f n

/-- Clear column `j` in the first `n` rows except row `p`, and make it exactly zero there. -/
def clearColumn (width p j : Nat) (cells : FloatArray) : Nat → FloatArray
  | 0 => cells
  | i + 1 =>
    let f := cells.get! (i * width + j)
    let cells :=
      if i = p || f == 0 then cells
      else (subtractRow cells (i * width) (p * width) f width).set! (i * width + j) 0
    clearColumn width p j cells i

/-- Make variable `j` basic in row `p`. -/
def Tableau.pivot (T : Tableau) (p j : Nat) : Tableau :=
  let w := T.width
  let cells := divideRow T.cells (p * w) (T.cells.get! (p * w + j)) w
  let cells := cells.set! (p * w + j) 1
  { T with cells := clearColumn w p j cells (T.rows + 1), basis := T.basis.setIfInBounds p j }

/-- Whether row `i` holds a free variable. -/
def Tableau.isFreeRow (T : Tableau) (free i : Nat) : Bool := T.basis.getD i 0 < free

/-- The row among the first `n` without a free variable whose entry in column `j` is largest. -/
def Tableau.freePivot (T : Tableau) (free j : Nat) : Nat → Option Nat
  | 0 => none
  | i + 1 =>
    let best := T.freePivot free j i
    if T.isFreeRow free i then best
    else
      let size := (T.cell i j).abs
      let bound := match best with
        | some r => (T.cell r j).abs
        | none => slack
      if bound < size then some i else best

/-- The tableau with the first `n` variables, all free, made basic where possible. -/
def Tableau.enterFree (T : Tableau) (free : Nat) : Nat → Tableau
  | 0 => T
  | n + 1 =>
    let T := T.enterFree free n
    match T.freePivot free n T.rows with
    | some p => T.pivot p n
    | none => T

/-- Row `i` with its sign changed where the right side is negative. -/
def Tableau.orientRow (T : Tableau) (i : Nat) : Tableau :=
  if T.cell i T.vars < 0 then
    { T with cells := divideRow T.cells (i * T.width) (-1) T.width }
  else T

/-- Whether column `j` is zero in all of the first `n` rows without a free variable, row `i`
apart. -/
def Tableau.isUnitColumn (T : Tableau) (free i j : Nat) : Nat → Bool
  | 0 => true
  | r + 1 =>
    (r = i || T.isFreeRow free r || T.cell r j == 0) && T.isUnitColumn free i j r

/-- The first variable from `j` on, among `n` of them, that can serve as the basic variable of row
`i` at once: its column is positive there and zero in the other rows without a free variable. -/
def Tableau.unitVariable (T : Tableau) (free i j : Nat) : Nat → Option Nat
  | 0 => none
  | n + 1 =>
    if T.cell i j > slack && T.isUnitColumn free i j T.rows then some j
    else T.unitVariable free i (j + 1) n

/-- The tableau in which each of the first `n` rows has a free variable, a variable that can serve
at once, or an artificial one. -/
def Tableau.start (T : Tableau) (free : Nat) : Nat → Tableau
  | 0 => T
  | i + 1 =>
    let T := T.start free i
    if T.isFreeRow free i then T
    else
      let T := T.orientRow i
      match T.unitVariable free i free (T.vars - free) with
      | some j => T.pivot i j
      | none => T

/-- Whether row `i` holds an artificial variable. -/
def Tableau.isArtificial (T : Tableau) (i : Nat) : Bool := T.vars ≤ T.basis.getD i 0

/-- The tableau with its cost row replaced by `cost`, reduced by the basic variables of the first
`n` rows. -/
def Tableau.reduceCosts (T : Tableau) (cost : Nat → Float) : Nat → Tableau
  | 0 => T
  | i + 1 =>
    let T := T.reduceCosts cost i
    let f := cost (T.basis.getD i 0)
    if f == 0 then T
    else { T with cells := subtractRow T.cells (T.rows * T.width) (i * T.width) f T.width }

/-- The `n` entries from `start` on set to `f 0, ..., f (n - 1)`. -/
def fillRow (cells : FloatArray) (start : Nat) (f : Nat → Float) : Nat → FloatArray
  | 0 => cells
  | n + 1 => fillRow (cells.set! (start + n) (f n)) start f n

/-- The tableau with reduced costs for the given cost of each variable. -/
def Tableau.withCosts (T : Tableau) (cost : Nat → Float) : Tableau :=
  let row := fun j => if j < T.vars then cost j else 0
  let T := { T with cells := fillRow T.cells (T.rows * T.width) row T.width }
  T.reduceCosts cost T.rows

/-- The variable from `free` on with the most negative reduced cost, or the first with a negative
one when `first` is set; `n` variables are looked at. -/
def Tableau.entering (T : Tableau) (free : Nat) (first : Bool) : Nat → Option Nat
  | 0 => none
  | n + 1 =>
    let best := T.entering free first n
    let d := T.cell T.rows (free + n)
    match best with
    | none => if d < -slack then some (free + n) else none
    | some b => if first || T.cell T.rows b ≤ d then some b else some (free + n)

/-- The row that limits variable `j`, among the first `n`: the least quotient of right side and
entry, of equal ones the largest entry. A row with an artificial variable at zero limits it in
both directions. -/
def Tableau.leaving (T : Tableau) (free j : Nat) : Nat → Option (Nat × Float)
  | 0 => none
  | i + 1 =>
    let best := T.leaving free j i
    let a := T.cell i j
    let b := T.cell i T.vars
    let blocked := T.isArtificial i && b.abs ≤ slack && a.abs > slack
    if T.isFreeRow free i || !(a > slack || blocked) then best
    else
      let q := if blocked then 0 else if b < 0 then 0 else b / a
      match best with
      | none => some (i, q)
      | some (r, q') =>
        let tied := (q - q').abs ≤ 1e-12 * (1 + q'.abs)
        if tied then (if (T.cell r j).abs < a.abs then some (i, q) else best)
        else if q < q' then some (i, q) else best

/-- Why the simplex method stopped without an optimum. -/
inductive Stop where
  /-- The cost has no lower bound. -/
  | unbounded
  /-- The step limit was reached. -/
  | stepLimit

/-- Pivot until no reduced cost is negative. After `patience` steps the first variable with a
negative reduced cost enters instead of the one with the most negative. -/
def Tableau.optimize (T : Tableau) (free patience : Nat) : Nat → Except Stop Tableau
  | 0 => .error .stepLimit
  | fuel + 1 =>
    match T.entering free (patience = 0) (T.vars - free) with
    | none => .ok T
    | some j =>
      match T.leaving free j T.rows with
      | none => .error .unbounded
      | some (i, _) => (T.pivot i j).optimize free (patience - 1) fuel

/-- The tableau of a linear program, without costs and with artificial variables only. -/
def Tableau.ofProgram (P : LinearProgram Float) : Tableau :=
  let m := P.matrix.rows
  let n := P.matrix.cols
  let w := n + 1
  let kept (x : Float) := if x.abs ≤ smallEntry then 0 else x
  let cells := (List.range m).foldl (fun cells i =>
      (fillRow cells (i * w) (fun j => kept (P.matrix.get i j)) n).set! (i * w + n)
        (P.rhs.getD i 0))
    (FloatArray.mk (Array.replicate ((m + 1) * w) 0))
  ⟨m, n, cells, Array.ofFn fun i : Fin m => n + i⟩

/-- The value of every variable: the right side of its row if it is basic, zero otherwise. -/
def Tableau.point (T : Tableau) : Array Float :=
  (List.range T.rows).foldl
    (fun x i => x.setIfInBounds (T.basis.getD i 0) (T.cell i T.vars))
    (Array.replicate T.vars 0)

/-- The total of the artificial variables. -/
def Tableau.artificialTotal (T : Tableau) : Float :=
  sumTo (fun i => if T.isArtificial i then T.cell i T.vars else 0) T.rows

/-- Whether every number of the program is finite. -/
def isFinite (P : LinearProgram Float) : Bool :=
  P.matrix.entries.all (fun x => x - x == 0) && P.rhs.all fun x => x - x == 0

/-- Whether some number of the program is too large for a model. -/
def isHuge (P : LinearProgram Float) : Bool :=
  P.matrix.entries.any (fun x => largeEntry ≤ x.abs) || P.rhs.any fun x => infiniteBound ≤ x.abs

/-- An optimal point of a linear program. -/
def solve (P : LinearProgram Float) : Except Failure (Optimum Float) :=
  if P.rhs.size ≠ P.matrix.rows || !isFinite P then .error .unusable
  else if isHuge P then .error (.programFailed "(HiGHS Status 2: Model error)")
  else
    let T := Tableau.ofProgram P
    let size := T.rows + T.vars
    let T := (T.enterFree P.free P.free).start P.free T.rows
    let feasible :=
      if (List.range T.rows).any T.isArtificial then
        (T.withCosts fun j => if j < T.vars then 0 else 1).optimize P.free (5 * size) (50 * size)
      else .ok T
    match feasible with
    | .error _ => .error (.programFailed "(HiGHS Status 4: Solve error)")
    | .ok T =>
      if T.artificialTotal > 1e-7 then
        .error (.programFailed
          "The problem is infeasible. (HiGHS Status 8: model_status is Infeasible)")
      else
        let costOf := fun j => if j < T.vars then P.cost.getD j 0 else 0
        match (T.withCosts costOf).optimize P.free (5 * size) (50 * size) with
        | .error .unbounded =>
          .error (.programFailed
            "The problem is unbounded. (HiGHS Status 10: model_status is Unbounded)")
        | .error .stepLimit => .error (.programFailed "(HiGHS Status 4: Solve error)")
        | .ok T =>
          let x := T.point
          .ok ⟨x, sumTo (fun j => P.cost.getD j 0 * x.getD j 0) x.size⟩

end Simplex

end PolynomialEquations
