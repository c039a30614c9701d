import KipSql.Types.Value

/-! Scalar expressions, columns and tuples, modelled from the spec: their types are not among the
repository's files. -/

namespace KipSql

/-- Modelled from the spec: a column handle. Of the catalog entry only `id` (read by
`new_binary`) and `name` (read by `eval_column`) are kept. -/
structure ColumnRef where
  id : Option ColumnId
  name : String
deriving DecidableEq, Repr

def c1 : ColumnRef := ⟨some 0, "c1"⟩

/-- Modelled from the spec: `ScalarExpression`. `TypeCast` keeps its target type only, and
`AggCall`, which the modelled code never looks into, keeps no field. -/
inductive ScalarExpression
  | constant (value : DataValue)
  | columnRef (col : ColumnRef)
  | alias (expr : ScalarExpression) (aliasName : String)
  | typeCast (expr : ScalarExpression) (ty : LogicalType)
  | isNull (expr : ScalarExpression) (negated : Bool)
  | unary (op : UnaryOperator) (expr : ScalarExpression) (ty : LogicalType)
  | binary (op : BinaryOperator) (leftExpr rightExpr : ScalarExpression) (ty : LogicalType)
  | aggCall
deriving DecidableEq, Repr

namespace ScalarExpression

def size : ScalarExpression → Nat
  | .alias expr _ | typeCast expr _ | isNull expr _ | unary _ expr _ => expr.size + 1
  | binary _ l r _ => l.size + r.size + 1
  | _ => 1

lemma one_le_size (e : ScalarExpression) : 1 ≤ e.size := by
  cases e <;> exact Nat.succ_pos _

def nodes : ScalarExpression → List ScalarExpression
  | e@(.alias expr _) | e@(typeCast expr _) | e@(isNull expr _) | e@(unary _ expr _) =>
    e :: expr.nodes
  | e@(binary _ l r _) => e :: (l.nodes ++ r.nodes)
  | e => [e]

lemma mem_nodes_self (e : ScalarExpression) : e ∈ e.nodes := by
  cases e <;> exact List.mem_cons_self _ _

def columnRefs : ScalarExpression → List ColumnRef
  | columnRef col => [col]
  | .alias expr _ | typeCast expr _ | isNull expr _ | unary _ expr _ => expr.columnRefs
  | binary _ l r _ => l.columnRefs ++ r.columnRefs
  | _ => []

end ScalarExpression

/-- Modelled from the spec: a row, one value per column. -/
structure Tuple where
  columns : List ColumnRef
  values : List DataValue
  length_eq : columns.length = values.length

def rowC1 (v : DataValue) : Tuple := ⟨[c1], [v], rfl⟩

/-- `eval_with_name`: the value at the position of the first column called `name`. The columns
are paired with the values, which `length_eq` makes the same as indexing `values`. -/
def evalWithName (t : Tuple) (name : String) : Option DataValue :=
  ((t.columns.zip t.values).find? (·.1.name == name)).map (·.2)

end KipSql
