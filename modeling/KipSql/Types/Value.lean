import Mathlib

/-! Values and operators, modelled from the spec (types/value.rs is not among the repository's
files); integers are Int32 and their arithmetic wraps, one of the behaviours spec 4.A allows. -/

namespace KipSql

abbrev ColumnId := Nat

inductive LogicalType
  | boolean
  | integer
deriving DecidableEq, Repr

inductive TypeError
  | invalidType
deriving DecidableEq, Repr

/-- How a call ends without a result: a returned `TypeError`, a panic (`unreachable!`, `todo!`,
`unwrap` of `None`), or fuel running out. -/
inductive Fault
  | typeError (e : TypeError)
  | panic
  | exhausted
deriving DecidableEq, Repr

inductive BinaryOperator
  | plus | minus | multiply | divide
  | gt | lt | gtEq | ltEq | spaceship | eq | notEq
  | and | or | xor
deriving DecidableEq, Repr

inductive UnaryOperator
  | plus | minus | not
deriving DecidableEq, Repr

/-- A SQL value, NULL-able within its type. The integer variants are one variant, of the Int32
type of the spec's examples: what arithmetic computes is wrapped into Int32, a constant is read as
given. -/
inductive DataValue
  | null
  | boolean (v : Option Bool)
  | integer (v : Option Int)
deriving DecidableEq, Repr

namespace DataValue

def isNull : DataValue → Bool
  | null => true
  | boolean v => v.isNone
  | integer v => v.isNone

/-- `DataValue::cast`; NULL becomes the target type's NULL. -/
def cast : DataValue → LogicalType → Except TypeError DataValue
  | null, .boolean => .ok (boolean none)
  | null, .integer => .ok (integer none)
  | boolean v, .boolean => .ok (boolean v)
  | boolean v, .integer => .ok (integer (v.map fun b => if b then 1 else 0))
  | integer v, .integer => .ok (integer v)
  | integer v, .boolean => .ok (boolean (v.map (· != 0)))

end DataValue

open DataValue

/-- Two's-complement wrapping into Int32: of the overflow behaviours spec 4.A allows, the one this
model chooses, for every arithmetic operator. -/
def wrapInt32 (v : Int) : Int := v.bmod (2 ^ 32)

def InInt32 (v : Int) : Prop := -2 ^ 31 ≤ v ∧ v < 2 ^ 31

instance : DecidablePred InInt32 := fun _ => inferInstanceAs (Decidable (_ ∧ _))

lemma wrapInt32_of_mem {v : Int} (h : InInt32 v) : wrapInt32 v = v := by
  obtain ⟨h1, h2⟩ := h
  rw [wrapInt32, Int.bmod_def]
  split_ifs <;> push_cast at * <;> omega

/-- What an arithmetic operator computes on two integers before it wraps. -/
def exactArith : BinaryOperator → Int → Int → Option Int
  | .plus, x, y => some (x + y)
  | .minus, x, y => some (x - y)
  | .multiply, x, y => some (x * y)
  | .divide, x, y => some (x.tdiv y)
  | _, _, _ => none

/-- `binary_op` on two non-NULL integers. -/
def intBinary (x y : Int) : BinaryOperator → Except TypeError DataValue
  | .plus => .ok (integer (some (wrapInt32 (x + y))))
  | .minus => .ok (integer (some (wrapInt32 (x - y))))
  | .multiply => .ok (integer (some (wrapInt32 (x * y))))
  | .divide => if y = 0 then .error .invalidType else .ok (integer (some (wrapInt32 (x.tdiv y))))
  | .gt => .ok (boolean (some (decide (y < x))))
  | .lt => .ok (boolean (some (decide (x < y))))
  | .gtEq => .ok (boolean (some (decide (y ≤ x))))
  | .ltEq => .ok (boolean (some (decide (x ≤ y))))
  | .eq | .spaceship => .ok (boolean (some (decide (x = y))))
  | .notEq => .ok (boolean (some (decide (x ≠ y))))
  | .and | .or | .xor => .error .invalidType

lemma intBinary_of_exactArith {x y v : Int} {op : BinaryOperator} (hv : exactArith op x y = some v)
    (hop : op ≠ .divide) : intBinary x y op = .ok (integer (some (wrapInt32 v))) := by
  cases op <;> simp_all [exactArith, intBinary]

def boolBinary (x y : Bool) : BinaryOperator → Except TypeError DataValue
  | .and => .ok (boolean (some (x && y)))
  | .or => .ok (boolean (some (x || y)))
  | .xor => .ok (boolean (some (xor x y)))
  | .eq | .spaceship => .ok (boolean (some (x == y)))
  | .notEq => .ok (boolean (some (x != y)))
  | _ => .error .invalidType

/-- `binary_op`: a NULL operand gives NULL, operands of two types `InvalidType`. -/
def binaryOp : DataValue → DataValue → BinaryOperator → Except TypeError DataValue
  | integer (some x), integer (some y), op => intBinary x y op
  | boolean (some x), boolean (some y), op => boolBinary x y op
  | integer (some _), boolean (some _), _ | boolean (some _), integer (some _), _ =>
    .error .invalidType
  | _, _, _ => .ok null

/-- `unary_op`; NULL stays NULL. -/
def unaryOp : DataValue → UnaryOperator → Except TypeError DataValue
  | integer (some x), .plus => .ok (integer (some x))
  | integer (some x), .minus => .ok (integer (some (wrapInt32 (-x))))
  | boolean (some b), .not => .ok (boolean (some !b))
  | integer (some _), .not | boolean (some _), .plus | boolean (some _), .minus =>
    .error .invalidType
  | v, _ => .ok v

/-- Rust's `PartialOrd::partial_cmp`, the one comparison the range algebra reads. -/
class PartialCmp (α : Type) where
  partialCmp : α → α → Option Ordering

export PartialCmp (partialCmp)

instance (priority := low) {α : Type} [LinearOrder α] : PartialCmp α :=
  ⟨fun a b => some (compare a b)⟩

/-- Comparing NULL, or values of two types, yields `None`. -/
instance : PartialCmp DataValue where
  partialCmp
    | integer (some x), integer (some y) => some (compare x y)
    | boolean (some x), boolean (some y) => some (compare x y)
    | _, _ => none

@[simp] theorem partialCmp_integer (x y : Int) :
    partialCmp (integer (some x)) (integer (some y)) = some (compare x y) := rfl

theorem partialCmp_eq_some {α : Type} [LinearOrder α] (a b : α) :
    partialCmp a b = some (compare a b) := rfl

theorem bind_eq_ok {ε α β : Type} (x : Except ε α) (f : α → Except ε β) (b : β) :
    x >>= f = .ok b ↔ ∃ a, x = .ok a ∧ f a = .ok b := by
  cases x <;> simp [bind, Except.bind]

end KipSql
