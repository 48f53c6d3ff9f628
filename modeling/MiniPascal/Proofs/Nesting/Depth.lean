import MiniPascal.Program

/-!
# The depth of a program

`Program.depth` is the largest number of procedures, compound statements and expressions on a path
from the root to a leaf; the body of a block is a compound statement, too. A path either enters the
left operand of some infix operator or does not. `Program.leftDepth` and `Program.rightDepth` are
the lengths of the longest paths of either kind, and `Program.depth_eq_max` says that the depth is
the larger of the two.

The three lengths differ only in how they measure expressions and in what a node above adds, so
they are one recursion with a `Gauge` for both.
-/

set_option autoImplicit false
set_option relaxedAutoImplicit false

namespace MiniPascal

/-- The length of the longest path through an expression. -/
def Expression.depth : Expression → Nat
  | .constant _ _ => 1
  | .read _ => 1
  | .unary _ operand _ => operand.depth + 1
  | .binary _ left right _ => max left.depth right.depth + 1

/-- The length of a path with one more node above it. Zero stands for no path. -/
def deeper : Nat → Nat
  | 0 => 0
  | length + 1 => length + 2

/-- The length of the longest path that enters a left operand, and zero where there is none. -/
def Expression.leftDepth : Expression → Nat
  | .constant _ _ => 0
  | .read _ => 0
  | .unary _ operand _ => deeper operand.leftDepth
  | .binary _ left right _ => max (left.depth + 1) (deeper right.leftDepth)

/-- The length of the longest path that enters no left operand. -/
def Expression.rightDepth : Expression → Nat
  | .constant _ _ => 1
  | .read _ => 1
  | .unary _ operand _ => operand.rightDepth + 1
  | .binary _ _ right _ => right.rightDepth + 1

/-- A way to measure paths: those through an expression, and those with one more node above. -/
structure Gauge where
  leaf : Expression → Nat
  down : Nat → Nat

mutual

def Statement.measure (gauge : Gauge) : Statement → Nat
  | .compound inner => gauge.down (Statement.measureAll gauge inner)
  | .assign _ value _ => gauge.leaf value
  | .empty => 0

def Statement.measureAll (gauge : Gauge) : List Statement → Nat
  | [] => 0
  | first :: others => max (Statement.measure gauge first) (Statement.measureAll gauge others)

end

mutual

def Declaration.measure (gauge : Gauge) : Declaration → Nat
  | .var _ => 0
  | .procedure _ inner body =>
    gauge.down
      (max (Declaration.measureAll gauge inner) (gauge.down (Statement.measureAll gauge body)))

def Declaration.measureAll (gauge : Gauge) : List Declaration → Nat
  | [] => 0
  | first :: others => max (Declaration.measure gauge first) (Declaration.measureAll gauge others)

end

def Block.measure (gauge : Gauge) (block : Block) : Nat :=
  max (Declaration.measureAll gauge block.declarations)
    (gauge.down (Statement.measureAll gauge block.body))

namespace Gauge

def full : Gauge := ⟨Expression.depth, (· + 1)⟩

def left : Gauge := ⟨Expression.leftDepth, deeper⟩

def right : Gauge := ⟨Expression.rightDepth, (· + 1)⟩

end Gauge

namespace Program

/-- The largest number of procedures, compound statements and expressions on a path. -/
def depth (program : Program) : Nat := program.block.measure .full

/-- The same among the paths that enter a left operand, and zero where there are none. -/
def leftDepth (program : Program) : Nat := program.block.measure .left

/-- The same among the paths that enter no left operand. -/
def rightDepth (program : Program) : Nat := program.block.measure .right

end Program

/-! ### Paths of either kind -/

theorem max_deeper (first second : Nat) :
    max (deeper first) (second + 1) = max first second + 1 := by
  cases first with
  | zero => simp [deeper]
  | succ first =>
    simp only [deeper]
    omega

theorem Gauge.down_max (first second : Nat) :
    Gauge.full.down (max first second) = max (Gauge.left.down first) (Gauge.right.down second) :=
  (max_deeper first second).symm

theorem max_exchange (a b c d : Nat) : max (max a b) (max c d) = max (max a c) (max b d) := by
  omega

theorem Expression.rightDepth_pos (e : Expression) : 0 < e.rightDepth := by
  cases e <;> simp [rightDepth]

theorem Expression.depth_eq_max (e : Expression) : e.depth = max e.leftDepth e.rightDepth := by
  induction e with
  | constant value line => rfl
  | read mention => rfl
  | unary sign operand line induct => rw [depth, leftDepth, rightDepth, max_deeper, induct]
  | binary operator left right line _ induct =>
    rw [depth, leftDepth, rightDepth, induct, Nat.max_assoc, max_deeper]
    omega

namespace Statement

mutual

theorem measure_eq_max (s : Statement) :
    s.measure .full = max (s.measure .left) (s.measure .right) := by
  cases s with
  | compound inner =>
    have hinner := measureAll_eq_max inner
    simp only [measure, hinner, Gauge.down_max]
  | assign target value line => exact value.depth_eq_max
  | empty => rfl

theorem measureAll_eq_max (ss : List Statement) :
    measureAll .full ss = max (measureAll .left ss) (measureAll .right ss) := by
  cases ss with
  | nil => rfl
  | cons first others =>
    have hfirst := measure_eq_max first
    have hothers := measureAll_eq_max others
    simp only [measureAll, hfirst, hothers]
    exact max_exchange _ _ _ _

end

end Statement

namespace Declaration

mutual

theorem measure_eq_max (d : Declaration) :
    d.measure .full = max (d.measure .left) (d.measure .right) := by
  cases d with
  | var declared => rfl
  | procedure heading inner body =>
    have hinner := measureAll_eq_max inner
    have hbody := Statement.measureAll_eq_max body
    simp only [measure, hinner, hbody]
    rw [Gauge.down_max (Statement.measureAll .left body), max_exchange, Gauge.down_max]

theorem measureAll_eq_max (ds : List Declaration) :
    measureAll .full ds = max (measureAll .left ds) (measureAll .right ds) := by
  cases ds with
  | nil => rfl
  | cons first others =>
    have hfirst := measure_eq_max first
    have hothers := measureAll_eq_max others
    simp only [measureAll, hfirst, hothers]
    exact max_exchange _ _ _ _

end

end Declaration

theorem Program.depth_eq_max (p : Program) : p.depth = max p.leftDepth p.rightDepth := by
  have hdeclarations := Declaration.measureAll_eq_max p.block.declarations
  have hbody := Statement.measureAll_eq_max p.block.body
  simp only [depth, leftDepth, rightDepth, Block.measure, hdeclarations, hbody, Gauge.down_max]
  exact max_exchange _ _ _ _

end MiniPascal
