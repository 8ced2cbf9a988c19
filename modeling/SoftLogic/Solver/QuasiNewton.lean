import SoftLogic.Solver.Search

/-!
# A quasi-Newton search

The direction of descent comes from an estimate of the inverse Hessian, which every step improves by what
the gradient did.  A step along a direction has to lower the cost enough and to flatten the slope enough;
it is found by doubling while the slope is still steep and by halving the interval after that.
-/

namespace SoftLogic.QuasiNewton

variable {R : Type} [Numeric R]

/-- The sum of the products of entries. -/
def dot (u v : List R) : R := (u.zipWith (· * ·) v).foldl (· + ·) 0

/-- `u + t * v`. -/
def along (u : List R) (t : R) (v : List R) : List R := u.zipWith (fun a b => a + t * b) v

/-- A matrix times a vector. -/
def apply (rows : List (List R)) (v : List R) : List R := rows.map (dot · v)

/-- The identity matrix. -/
def identity (n : Nat) : List (List R) :=
  (List.range n).map fun i => (List.range n).map fun j => if i = j then 1 else 0

/-- The matrix of the products of entries. -/
def outer (u v : List R) : List (List R) := u.map fun a => v.map fun b => a * b

/-- A matrix plus a multiple of another one. -/
def addScaled (m : List (List R)) (t : R) (m' : List (List R)) : List (List R) :=
  m.zipWith (along · t) m'

/-- A point with its cost and gradient. -/
structure Point (R : Type) where
  x : List R
  cost : R
  gradient : List R

/-- Improves the estimate of the inverse Hessian by a step from `p` to `q`, if the slope grew on the way. -/
def improve (inverse : List (List R)) (p q : Point R) : List (List R) :=
  let s := along q.x (-1) p.x
  let y := along q.gradient (-1) p.gradient
  let ys := dot y s
  if Numeric.lt 0 ys then
    let h := apply inverse y
    let scale := (1 + dot y h / ys) / ys
    let lowered := addScaled (addScaled inverse (-(1 / ys)) (outer s h)) (-(1 / ys)) (outer h s)
    addScaled lowered scale (outer s s)
  else inverse

/-- The direction in which to step, and the slope of the cost in it; without descent, straight down. -/
def direction (inverse : List (List R)) (p : Point R) : List R × R :=
  let d := (apply inverse p.gradient).map (-·)
  let slope := dot p.gradient d
  if Numeric.lt slope 0 then (d, slope)
  else
    let d := p.gradient.map (-·)
    (d, dot p.gradient d)

/-- The interval in which a step size is looked for; without an upper end it is open. -/
structure Bracket (R : Type) where
  low : R
  high : Option R

/-- The size to try after `t`. -/
def Bracket.next (b : Bracket R) (t : R) : R :=
  match b.high with
  | some high => Numeric.half * (b.low + high)
  | none => Numeric.two * t

/-- Looks for a step from `p` along `d`, first of size `t`, in at most `tries` probes; `accept` goes on from
the point found, and `fail` if there is none. -/
def lineSearch (p : Point R) (d : List R) (slope : R) (accept : Point R → Search R) (fail : Search R) :
    Nat → Bracket R → R → Search R
  | 0, _, _ => fail
  | tries + 1, bracket, t =>
    let x := along p.x t d
    .probe x fun cost gradient =>
      let bound := p.cost + Numeric.decimal 1 4 * t * slope
      if Numeric.lt cost bound || cost == bound then
        if Numeric.lt (dot gradient d) (Numeric.decimal 9 1 * slope) then
          let bracket := { bracket with low := t }
          lineSearch p d slope accept fail tries bracket (bracket.next t)
        else accept ⟨x, cost, gradient⟩
      else
        let bracket := { bracket with high := some t }
        lineSearch p d slope accept fail tries bracket (bracket.next t)

/-- The most probes for one step. -/
def maxTries : Nat := 60

/-- Whether every entry of a gradient is at most the tolerance in size. -/
def isFlat (tolerance : R) (gradient : List R) : Bool :=
  gradient.all fun g => !Numeric.lt tolerance (Numeric.abs g)

/-- Goes on from a point with an estimate of the inverse Hessian, in at most the given number of further
iterations after `count`. -/
def iterate (tolerance : R) : Nat → Nat → List (List R) → Point R → Search R
  | 0, count, _, p => .finish p.x count "Iteration limit reached"
  | left + 1, count, inverse, p =>
    if isFlat tolerance p.gradient then .finish p.x count "Gradient within tolerance"
    else
      let (d, slope) := direction inverse p
      lineSearch p d slope
        (fun q => iterate tolerance left (count + 1) (improve inverse p q) q)
        (.finish p.x count "No step lowers the cost")
        maxTries ⟨0, none⟩ 1

/-- The search from a start. -/
def search (config : Config R) (start : List R) : Search R :=
  .probe start fun cost gradient =>
    iterate config.tolerance config.iterations 0 (identity start.length) ⟨start, cost, gradient⟩

end SoftLogic.QuasiNewton
