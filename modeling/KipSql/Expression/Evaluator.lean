import KipSql.Expression.ScalarExpression

/-! `eval_column`, the row evaluator; `output_columns` is not among the repository's files, so the
output name is a parameter. -/

namespace KipSql

open ScalarExpression

section Eval

variable (outputName : ScalarExpression → String) (t : Tuple)

/-- `if let Some(value) = Self::eval_with_name(tuple, name) { return Ok(value) }`, then `rest`. -/
def lookupOr (name : String) (rest : Except TypeError DataValue) : Except TypeError DataValue :=
  match evalWithName t name with
  | some value => .ok value
  | none => rest

/-- `ScalarExpression::eval_column`, with `outputName e` for `e.output_columns().name()`. -/
def evalColumn : ScalarExpression → Except TypeError DataValue
  | e@(constant val) => lookupOr t (outputName e) (.ok val)
  | e@(columnRef col) => lookupOr t (outputName e) (.ok ((evalWithName t col.name).getD .null))
  | e@(.alias expr aliasName) => lookupOr t (outputName e) (lookupOr t aliasName (evalColumn expr))
  | e@(typeCast expr ty) => lookupOr t (outputName e) do (← evalColumn expr).cast ty
  | e@(binary op l r _) => lookupOr t (outputName e) do binaryOp (← evalColumn l) (← evalColumn r) op
  | e@(isNull expr negated) => lookupOr t (outputName e) do
    let value := (← evalColumn expr).isNull
    pure (.boolean (some (if negated then !value else value)))
  | e@(unary op expr _) => lookupOr t (outputName e) do unaryOp (← evalColumn expr) op
  | e@aggCall => lookupOr t (outputName e) (.ok ((evalWithName t (outputName e)).getD .null))

/-- The recursive evaluator of the spec: `eval_column` with no lookup by output name or alias. -/
def eval : ScalarExpression → Except TypeError DataValue
  | constant val => .ok val
  | columnRef col => .ok ((evalWithName t col.name).getD .null)
  | .alias expr _ => eval expr
  | typeCast expr ty => do (← eval expr).cast ty
  | binary op l r _ => do binaryOp (← eval l) (← eval r) op
  | isNull expr negated => do
    let value := (← eval expr).isNull
    pure (.boolean (some (if negated then !value else value)))
  | unary op expr _ => do unaryOp (← eval expr) op
  | aggCall => .ok .null

/-- The lookups `eval_column` makes at a node find nothing `eval` would not: a column reference's
output name names that column, and no other output name and no alias names a column of `t`. -/
def unshadowed : ScalarExpression → Bool
  | e@(columnRef col) => evalWithName t (outputName e) == evalWithName t col.name
  | e@(.alias _ aliasName) => (evalWithName t (outputName e)).isNone && (evalWithName t aliasName).isNone
  | e => (evalWithName t (outputName e)).isNone

/-- Where no node of `e` is shadowed, `eval_column` is `eval`. -/
theorem evalColumn_eq_eval (e : ScalarExpression) (h : ∀ n ∈ e.nodes, unshadowed outputName t n) :
    evalColumn outputName t e = eval t e := by
  have hroot := h e (mem_nodes_self e)
  induction e with
  | columnRef col =>
    simp only [unshadowed, beq_iff_eq] at hroot
    cases hv : evalWithName t col.name <;> simp [evalColumn, lookupOr, hroot, hv, eval]
  | «alias» expr aliasName ih =>
    simp only [unshadowed, Bool.and_eq_true, Option.isNone_iff_eq_none] at hroot
    simp only [evalColumn, lookupOr, hroot, eval]
    exact ih (fun n hn => h n (List.mem_cons_of_mem _ hn)) (h expr (List.mem_cons_of_mem _ (mem_nodes_self _)))
  | typeCast expr _ ih | isNull expr _ ih | unary _ expr _ ih =>
    simp only [unshadowed, Option.isNone_iff_eq_none] at hroot
    simp only [evalColumn, lookupOr, hroot, eval,
      ih (fun n hn => h n (List.mem_cons_of_mem _ hn)) (h expr (List.mem_cons_of_mem _ (mem_nodes_self _)))]
  | binary _ l r _ ihl ihr =>
    simp only [unshadowed, Option.isNone_iff_eq_none] at hroot
    simp only [evalColumn, lookupOr, hroot, eval,
      ihl (fun n hn => h n (List.mem_cons_of_mem _ (List.mem_append_left _ hn)))
        (h l (List.mem_cons_of_mem _ (List.mem_append_left _ (mem_nodes_self _)))),
      ihr (fun n hn => h n (List.mem_cons_of_mem _ (List.mem_append_right _ hn)))
        (h r (List.mem_cons_of_mem _ (List.mem_append_right _ (mem_nodes_self _))))]
  | constant _ | aggCall =>
    simp only [unshadowed, Option.isNone_iff_eq_none] at hroot
    simp [evalColumn, lookupOr, hroot, eval]

lemma evalColumn_eq_eval_of_names
    (hnames : ∀ n, (n matches .alias _ _) = false → unshadowed outputName t n) (e : ScalarExpression)
    (he : ∀ n ∈ e.nodes, (n matches .alias _ _) = false) : evalColumn outputName t e = eval t e :=
  evalColumn_eq_eval outputName t e fun n hn => hnames n (he n hn)

lemma evalColumn_congr_of_names
    (hnames : ∀ n, (n matches .alias _ _) = false → unshadowed outputName t n) {e e' : ScalarExpression}
    (he : ∀ n ∈ e.nodes, (n matches .alias _ _) = false)
    (he' : ∀ n ∈ e'.nodes, (n matches .alias _ _) = false) (h : eval t e = eval t e') :
    evalColumn outputName t e = evalColumn outputName t e' := by
  rw [evalColumn_eq_eval_of_names _ _ hnames _ he, evalColumn_eq_eval_of_names _ _ hnames _ he', h]

/-- The arithmetic of a node does not wrap on row `t`: what its operator computes on its operands'
values before wrapping lies in Int32. -/
def noWrapAt : ScalarExpression → Bool
  | binary op l r _ =>
    match eval t l, eval t r with
    | .ok (.integer (some a)), .ok (.integer (some b)) => (exactArith op a b).all fun v => decide (InInt32 v)
    | _, _ => true
  | unary .minus expr _ =>
    match eval t expr with
    | .ok (.integer (some a)) => decide (InInt32 (-a))
    | _ => true
  | _ => true

lemma inInt32_of_noWrapAt_binary {op : BinaryOperator} {l r : ScalarExpression} {ty : LogicalType}
    (h : noWrapAt t (binary op l r ty)) {a b v : Int} (hl : eval t l = .ok (.integer (some a)))
    (hr : eval t r = .ok (.integer (some b))) (hv : exactArith op a b = some v) : InInt32 v := by
  simpa [noWrapAt, hl, hr, hv] using h

lemma inInt32_of_noWrapAt_neg {expr : ScalarExpression} {ty : LogicalType}
    (h : noWrapAt t (unary .minus expr ty)) {a : Int} (he : eval t expr = .ok (.integer (some a))) :
    InInt32 (-a) := by
  simpa [noWrapAt, he] using h

lemma eval_binary_of_noWrapAt {op : BinaryOperator} {l r : ScalarExpression} {ty : LogicalType}
    (h : noWrapAt t (binary op l r ty)) {a b v : Int} (hl : eval t l = .ok (.integer (some a)))
    (hr : eval t r = .ok (.integer (some b))) (hv : exactArith op a b = some v) (hop : op ≠ .divide) :
    eval t (binary op l r ty) = .ok (.integer (some v)) := by
  rw [← wrapInt32_of_mem (inInt32_of_noWrapAt_binary t h hl hr hv)]
  simp only [eval, hl, hr, bind, Except.bind, binaryOp, intBinary_of_exactArith hv hop]

lemma eval_neg_of_noWrapAt {expr : ScalarExpression} {ty : LogicalType}
    (h : noWrapAt t (unary .minus expr ty)) {a : Int} (he : eval t expr = .ok (.integer (some a))) :
    eval t (unary .minus expr ty) = .ok (.integer (some (-a))) := by
  simp [eval, he, unaryOp, bind, Except.bind, wrapInt32_of_mem (inInt32_of_noWrapAt_neg t h he)]

end Eval

def columnNames : ScalarExpression → String
  | columnRef col => col.name
  | _ => ""

lemma unshadowed_columnNames_rowC1 (v : DataValue) (n : ScalarExpression)
    (hn : (n matches .alias _ _) = false) : unshadowed columnNames (rowC1 v) n := by
  cases n <;> simp [unshadowed, columnNames, evalWithName, rowC1, c1] at hn ⊢

end KipSql
