import KipSql.Expression.Unpack

/-! `simplify`; the `Option<Replace>` that `_simplify` and `fix_expr` share is threaded as state, and the
recursion runs on fuel, one unit a call. -/

namespace KipSql

open ScalarExpression

/-- `matches!(op, Plus | Divide | Minus | Multiply)` in `_simplify`. -/
def BinaryOperator.isArithmetic : BinaryOperator → Bool
  | .plus | .divide | .minus | .multiply => true
  | _ => false

/-- `comparison_flip` in `fix_binary`. `fix_unary` for `NOT` and `new_binary` for a column on the
right apply the same map. -/
def comparisonFlip : BinaryOperator → BinaryOperator
  | .gt => .lt
  | .gtEq => .ltEq
  | .lt => .gt
  | .ltEq => .gtEq
  | sourceOp => sourceOp

/-- `ReplaceBinary`. `_simplify` publishes one for an arithmetic operator only, which the field
`isArithmetic` records. -/
structure ReplaceBinary where
  columnExpr : ScalarExpression
  valExpr : ScalarExpression
  op : BinaryOperator
  ty : LogicalType
  isColumnLeft : Bool
  isArithmetic : op.isArithmetic

structure ReplaceUnary where
  childExpr : ScalarExpression
  op : UnaryOperator
  ty : LogicalType

inductive Replace
  | binary (binary : ReplaceBinary)
  | unary (unary : ReplaceUnary)

/-- `op_flip` in `fix_binary`; its `unreachable!()` arm is ruled out by `isArithmetic`. -/
def opFlip : (op : BinaryOperator) → op.isArithmetic → BinaryOperator
  | .plus, _ => .minus
  | .minus, _ => .plus
  | .multiply, _ => .divide
  | .divide, _ => .multiply

/-- `fix_unary`: the new `(col_expr, val_expr, op)`. The unary leaves the column side and wraps the
other operand. -/
def fixUnary (replaceUnary : ReplaceUnary) (valExpr : ScalarExpression) (op : BinaryOperator) :
    ScalarExpression × ScalarExpression × BinaryOperator :=
  (replaceUnary.childExpr, unary replaceUnary.op valExpr replaceUnary.ty,
    match replaceUnary.op with
    | .plus => op
    | .minus =>
      match op with
      | .plus => .minus
      | .minus => .plus
      | .multiply => .divide
      | .divide => .multiply
      | .gt => .lt
      | .lt => .gt
      | .gtEq => .ltEq
      | .ltEq => .gtEq
      | sourceOp => sourceOp
    | .not => comparisonFlip op)

/-- `fix_binary`: the new `(left_expr, right_expr, op)`. The column is left alone on the left, and
the other operand of its arithmetic moves into the right side. -/
def fixBinary (replaceBinary : ReplaceBinary) (rightExpr : ScalarExpression) (op : BinaryOperator) :
    ScalarExpression × ScalarExpression × BinaryOperator :=
  if replaceBinary.isColumnLeft then
    (replaceBinary.columnExpr,
      binary (opFlip replaceBinary.op replaceBinary.isArithmetic) rightExpr replaceBinary.valExpr
        replaceBinary.ty, op)
  else
    (replaceBinary.columnExpr, binary replaceBinary.op replaceBinary.valExpr rightExpr replaceBinary.ty,
      match replaceBinary.op with
      | .minus | .multiply => comparisonFlip op
      | _ => op)

/-- What `_simplify` publishes for an arithmetic node whose operands are `l` and `r`: the column
side and the other side, when exactly one side is a column (through `Alias` and `Unary`). -/
def publishBinary (op : BinaryOperator) (l r : ScalarExpression) (ty : LogicalType)
    (h : op.isArithmetic) (fixOption : Option Replace) : Option Replace :=
  match unpackCol true l, unpackCol true r with
  | some col, none => some (.binary ⟨columnRef col, r, op, ty, true, h⟩)
  | none, some col => some (.binary ⟨columnRef col, l, op, ty, false, h⟩)
  | _, _ => fixOption

mutual

/-- `_simplify` on `fuel`: the rewritten tree, and the `Replace` it leaves in `fix_option`. -/
def _simplify : Nat → Option Replace → ScalarExpression →
    Except Fault (ScalarExpression × Option Replace)
  | 0, _, _ => throw .exhausted
  | fuel + 1, fixOption, binary op l r ty => do
    let (l, r, op, fixOption) ← fixExpr fuel fixOption l r op
    let (r, l, op, fixOption) ← fixExpr fuel fixOption r l op
    pure (binary op l r ty,
      if h : op.isArithmetic then publishBinary op l r ty h fixOption else fixOption)
  | fuel + 1, fixOption, .alias expr aliasName => do
    let (expr, fixOption) ← _simplify fuel fixOption expr
    pure (.alias expr aliasName, fixOption)
  | _ + 1, fixOption, typeCast expr ty =>
    match unpackVal expr with
    | (some val, _) => pure (constant val, fixOption)
    | (none, expr) => pure (typeCast expr ty, fixOption)
  | _ + 1, fixOption, isNull expr negated =>
    match unpackVal expr with
    | (some val, _) => pure (constant (.boolean (some val.isNull)), fixOption)
    | (none, expr) => pure (isNull expr negated, fixOption)
  | _ + 1, fixOption, unary op expr ty =>
    match unpackVal expr with
    | (some val, _) => do
      let val ← (unaryOp val op).mapError .typeError
      pure (constant val, fixOption)
    | (none, expr) => pure (unary op expr ty, some (.unary ⟨expr, op, ty⟩))
  | _ + 1, fixOption, e => pure (e, fixOption)

/-- `fix_expr` on `fuel`: simplify `left`, then apply and clear what it published. After a
`fix_unary` the new left operand is simplified again. -/
def fixExpr : Nat → Option Replace → ScalarExpression → ScalarExpression → BinaryOperator →
    Except Fault (ScalarExpression × ScalarExpression × BinaryOperator × Option Replace)
  | 0, _, _, _, _ => throw .exhausted
  | fuel + 1, fixOption, left, right, op => do
    let (left, fixOption) ← _simplify fuel fixOption left
    match fixOption with
    | none => pure (left, right, op, none)
    | some (.binary replaceBinary) =>
      let (left, right, op) := fixBinary replaceBinary right op
      pure (left, right, op, none)
    | some (.unary replaceUnary) =>
      let (left, right, op) := fixUnary replaceUnary right op
      fixExpr fuel none left right op

end

/-- `simplify`: `_simplify` from an empty `fix_option`; what the root publishes is dropped. -/
def simplify (e : ScalarExpression) : Except Fault ScalarExpression :=
  (·.1) <$> _simplify (2 * e.size) none e

example : simplify (binary .gt (unary .minus (columnRef c1) .integer) (constant (.integer (some 5))) .boolean) =
    .ok (binary .lt (columnRef c1) (constant (.integer (some (-5)))) .boolean) := rfl

/-- The `Replace` a rewritten tree's root leaves in `fix_option`: `Replace::Binary` for an
arithmetic `Binary` with its column on one side only, `Replace::Unary` for a `Unary`, and through
`Alias` what its operand leaves. -/
def rootReplace : ScalarExpression → Option Replace
  | binary op l r ty => if h : op.isArithmetic then publishBinary op l r ty h none else none
  | .alias expr _ => rootReplace expr
  | unary op expr ty => some (.unary ⟨expr, op, ty⟩)
  | _ => none

lemma fixExpr_clears (fuel : Nat) {f f' : Option Replace} {l r l' r' : ScalarExpression}
    {op op' : BinaryOperator} (h : fixExpr fuel f l r op = .ok (l', r', op', f')) : f' = none := by
  induction fuel generalizing f l r op with
  | zero => cases h
  | succ fuel ih =>
    simp only [fixExpr] at h
    obtain ⟨⟨left, fo⟩, -, h⟩ := (bind_eq_ok _ _ _).mp h
    rcases fo with _ | (rb | ru)
    · cases h
      rfl
    · cases h
      rfl
    · exact ih h

lemma _simplify_publishes (fuel : Nat) {e e' : ScalarExpression} {f' : Option Replace}
    (h : _simplify fuel none e = .ok (e', f')) : f' = rootReplace e' := by
  induction fuel generalizing e e' f' with
  | zero => cases h
  | succ fuel ih =>
    cases e with
    | binary op l r ty =>
      simp only [_simplify] at h
      obtain ⟨⟨l₁, r₁, op₁, f₁⟩, -, h⟩ := (bind_eq_ok _ _ _).mp h
      obtain ⟨⟨r₂, l₂, op₂, f₂⟩, h₂, h⟩ := (bind_eq_ok _ _ _).mp h
      cases h
      rw [fixExpr_clears fuel h₂]
      rfl
    | «alias» expr aliasName =>
      simp only [_simplify] at h
      obtain ⟨⟨x, fx⟩, hx, h⟩ := (bind_eq_ok _ _ _).mp h
      cases h
      exact (ih hx :)
    | typeCast expr ty | isNull expr negated =>
      simp only [_simplify] at h
      split at h <;> cases h <;> rfl
    | unary op expr ty =>
      simp only [_simplify] at h
      split at h
      · obtain ⟨v, -, h⟩ := (bind_eq_ok _ _ _).mp h
        cases h
        rfl
      · cases h
        rfl
    | constant _ | columnRef _ | aggCall => cases h; rfl

/-- `fix_expr` always leaves `fix_option` empty, and `_simplify` from an empty `fix_option` leaves
the `Replace` of its result's root and nothing published below it. -/
theorem _simplify_leaves_rootReplace :
    (∀ fuel f l r op l' r' op' f', fixExpr fuel f l r op = .ok (l', r', op', f') → f' = none) ∧
      ∀ fuel e e' f', _simplify fuel none e = .ok (e', f') → f' = rootReplace e' :=
  ⟨fun fuel _ _ _ _ _ _ _ _ h => fixExpr_clears fuel h, fun fuel _ _ _ h => _simplify_publishes fuel h⟩

theorem _simplify_leaves_rootReplace_plus :
    fixExpr 3 none (unary .minus (columnRef c1) .integer) (constant (.integer (some 5))) .gt =
      .ok (columnRef c1, unary .minus (constant (.integer (some 5))) .integer, .lt, none) ∧
    _simplify 3 none (binary .plus (columnRef c1) (constant (.integer (some 1))) .integer) =
      .ok (binary .plus (columnRef c1) (constant (.integer (some 1))) .integer,
        some (.binary ⟨columnRef c1, constant (.integer (some 1)), .plus, .integer, true, rfl⟩)) ∧
    (none : Option Replace) = none ∧
    some (.binary ⟨columnRef c1, constant (.integer (some 1)), .plus, .integer, true, rfl⟩) =
      rootReplace (binary .plus (columnRef c1) (constant (.integer (some 1))) .integer) := by
  refine ⟨?h1, ?h2, _simplify_leaves_rootReplace.1 _ _ _ _ _ _ _ _ _ ?h1,
    _simplify_leaves_rootReplace.2 _ _ _ _ ?h2⟩ <;> rfl

/-- With the column on the right of `+`, `fix_binary` keeps `+` and adds the other side:
`1 + c1 = 3` becomes `c1 = 1 + 3`, and the row `c1 = 2` no longer passes. -/
theorem simplify_plus_column_right (outputName : ScalarExpression → String)
    (h : ∀ n ∈ (binary .eq (binary .plus (constant (.integer (some 1))) (columnRef c1) .integer)
        (constant (.integer (some 3))) .boolean).nodes ++
      (binary .eq (columnRef c1) (binary .plus (constant (.integer (some 1))) (constant (.integer (some 3)))
        .integer) .boolean).nodes, unshadowed outputName (rowC1 (.integer (some 2))) n) :
    simplify (binary .eq (binary .plus (constant (.integer (some 1))) (columnRef c1) .integer)
        (constant (.integer (some 3))) .boolean) =
      .ok (binary .eq (columnRef c1) (binary .plus (constant (.integer (some 1)))
        (constant (.integer (some 3))) .integer) .boolean) ∧
    evalColumn outputName (rowC1 (.integer (some 2))) (binary .eq (binary .plus (constant (.integer (some 1)))
      (columnRef c1) .integer) (constant (.integer (some 3))) .boolean) = .ok (.boolean (some true)) ∧
    evalColumn outputName (rowC1 (.integer (some 2))) (binary .eq (columnRef c1) (binary .plus
      (constant (.integer (some 1))) (constant (.integer (some 3))) .integer) .boolean) =
        .ok (.boolean (some false)) :=
  ⟨rfl, by rw [evalColumn_eq_eval _ _ _ fun n hn => h n (List.mem_append_left _ hn)]; rfl,
    by rw [evalColumn_eq_eval _ _ _ fun n hn => h n (List.mem_append_right _ hn)]; rfl⟩

theorem simplify_plus_column_right_named :
    (∀ n ∈ (binary .eq (binary .plus (constant (.integer (some 1))) (columnRef c1) .integer)
        (constant (.integer (some 3))) .boolean).nodes ++
      (binary .eq (columnRef c1) (binary .plus (constant (.integer (some 1))) (constant (.integer (some 3)))
        .integer) .boolean).nodes, unshadowed columnNames (rowC1 (.integer (some 2))) n) ∧
    simplify (binary .eq (binary .plus (constant (.integer (some 1))) (columnRef c1) .integer)
        (constant (.integer (some 3))) .boolean) =
      .ok (binary .eq (columnRef c1) (binary .plus (constant (.integer (some 1)))
        (constant (.integer (some 3))) .integer) .boolean) ∧
    evalColumn columnNames (rowC1 (.integer (some 2))) (binary .eq (binary .plus (constant (.integer (some 1)))
      (columnRef c1) .integer) (constant (.integer (some 3))) .boolean) = .ok (.boolean (some true)) ∧
    evalColumn columnNames (rowC1 (.integer (some 2))) (binary .eq (columnRef c1) (binary .plus
      (constant (.integer (some 1))) (constant (.integer (some 3))) .integer) .boolean) =
        .ok (.boolean (some false)) :=
  ⟨by decide, simplify_plus_column_right columnNames (by decide)⟩

/-- `_simplify` never looks under a `Unary` whose operand does not fold, and the `Replace::Unary`
the root publishes is dropped: `NOT (c1 + 1 > 2)` comes back as it was, and its comparison has
`c1 + 1` on one side and a constant on the other. -/
theorem simplify_keeps_comparison_under_not :
    simplify (unary .not (binary .gt (binary .plus (columnRef c1) (constant (.integer (some 1))) .integer)
        (constant (.integer (some 2))) .boolean) .boolean) =
      .ok (unary .not (binary .gt (binary .plus (columnRef c1) (constant (.integer (some 1))) .integer)
        (constant (.integer (some 2))) .boolean) .boolean) ∧
    binary .gt (binary .plus (columnRef c1) (constant (.integer (some 1))) .integer)
        (constant (.integer (some 2))) .boolean ∈
      (unary .not (binary .gt (binary .plus (columnRef c1) (constant (.integer (some 1))) .integer)
        (constant (.integer (some 2))) .boolean) .boolean).nodes ∧
    (binary .plus (columnRef c1) (constant (.integer (some 1))) .integer).columnRefs ++
      (constant (.integer (some 2))).columnRefs = [c1] ∧
    (binary .plus (columnRef c1) (constant (.integer (some 1))) .integer matches columnRef _) = false ∧
    (constant (.integer (some 2)) matches columnRef _) = false :=
  ⟨rfl, by decide, rfl, rfl, rfl⟩

/-- `fix_unary` wraps the other operand in the unary after that operand was simplified, so a second
pass finds new work: `1 = -c1` becomes `-1 = c1`, whose `-1` the second pass folds; `true = -c1`
becomes `-true = c1`, on which the second pass fails. -/
theorem simplify_second_pass_differs :
    simplify (binary .eq (constant (.integer (some 1))) (unary .minus (columnRef c1) .integer) .boolean) =
      .ok (binary .eq (unary .minus (constant (.integer (some 1))) .integer) (columnRef c1) .boolean) ∧
    simplify (binary .eq (unary .minus (constant (.integer (some 1))) .integer) (columnRef c1) .boolean) =
      .ok (binary .eq (constant (.integer (some (-1)))) (columnRef c1) .boolean) ∧
    binary .eq (constant (.integer (some (-1)))) (columnRef c1) .boolean ≠
      binary .eq (unary .minus (constant (.integer (some 1))) .integer) (columnRef c1) .boolean ∧
    simplify (binary .eq (constant (.boolean (some true))) (unary .minus (columnRef c1) .integer) .boolean) =
      .ok (binary .eq (unary .minus (constant (.boolean (some true))) .integer) (columnRef c1) .boolean) ∧
    simplify (binary .eq (unary .minus (constant (.boolean (some true))) .integer) (columnRef c1) .boolean) =
      .error (.typeError .invalidType) :=
  ⟨rfl, rfl, by decide, rfl, rfl⟩

end KipSql
