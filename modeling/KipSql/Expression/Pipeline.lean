import KipSql.Expression.RangeExtraction

/-! The planner's sequence on a predicate: `simplify`, then `convert_binary` for one column, then
`scope_aggregation` and `rearrange`, on the `AND`s of comparisons `simplify` is built for. -/

namespace KipSql

open ScalarExpression ConstantBinary

/-- The `AND`s of comparisons `simplify` is built for, whose rewrite does not wrap on row `t`: the
column side `ColumnShape.expr` on the left of a comparison, or on its right where the operand built
opposite it is ground, and on `t` neither the operator over the column nor the one built opposite
it wraps. -/
inductive ShapeConjunction (t : Tuple) : ScalarExpression → Prop
  | left {col : ColumnRef} {s : ColumnShape} {ty : LogicalType} {G : ScalarExpression}
      {cmp : BinaryOperator} (ty' : LogicalType) (hs : s.isGround) (hG : G.isGroundInt)
      (hcmp : cmp.isComparison) (hse : noWrapAt t (s.expr col ty)) (hso : noWrapAt t (s.other ty G)) :
      ShapeConjunction t (binary cmp (s.expr col ty) G ty')
  | right {col : ColumnRef} {s : ColumnShape} {ty : LogicalType} {G : ScalarExpression}
      {cmp : BinaryOperator} (ty' : LogicalType) (hs : s.isGround) (hG : G.isGroundInt)
      (hcmp : cmp.isComparison) (hother : (s.other ty G).isGroundInt) (hse : noWrapAt t (s.expr col ty))
      (hso : noWrapAt t (s.other ty G)) : ShapeConjunction t (binary cmp G (s.expr col ty) ty')
  | and {p q : ScalarExpression} (ty : LogicalType) :
      ShapeConjunction t p → ShapeConjunction t q → ShapeConjunction t (binary .and p q ty)

lemma isArithmetic_of_isComparison {cmp : BinaryOperator} (hcmp : cmp.isComparison) :
    cmp.isArithmetic = false := by
  cases cmp <;> first | rfl | cases hcmp

lemma isAndOfComparisons_comparison {cmp : BinaryOperator} {a b : ScalarExpression} {ty : LogicalType}
    (hcmp : cmp.isComparison) (h : a.isColumnOperand ∧ b.isGroundInt ∨ a.isGroundInt ∧ b.isColumnOperand) :
    (binary cmp a b ty).isAndOfComparisons := by
  cases cmp <;> (try cases hcmp) <;> simpa [isAndOfComparisons, BinaryOperator.isComparison] using h

namespace ColumnShape

lemma isComparison_cmp (s : ColumnShape) {cmp : BinaryOperator} (hcmp : cmp.isComparison) :
    (s.cmp cmp).isComparison := by
  cases s <;> simpa [ColumnShape.cmp] using hcmp

lemma expr_columnRefs (col : ColumnRef) (ty : LogicalType) {s : ColumnShape} (hs : s.isGround) :
    (s.expr col ty).columnRefs = [col] := by
  cases s <;> simp_all [expr, isGround, columnRefs, columnRefs_of_isGroundInt]

end ColumnShape

namespace ShapeConjunction

lemma not_alias {t : Tuple} {e : ScalarExpression} (he : ShapeConjunction t e) :
    ∀ n ∈ e.nodes, (n matches .alias _ _) = false := by
  induction he with
  | left _ hs hG _ _ _ => exact binary_not_alias (ColumnShape.expr_not_alias _ _ hs) (isGroundInt_not_alias hG)
  | right _ hs hG _ _ _ _ => exact binary_not_alias (isGroundInt_not_alias hG) (ColumnShape.expr_not_alias _ _ hs)
  | and _ _ _ ihp ihq => exact binary_not_alias ihp ihq

end ShapeConjunction

lemma _simplify_shapeConjunction (t : Tuple) {e : ScalarExpression} (he : ShapeConjunction t e)
    (hcols : ∀ col ∈ e.columnRefs, ∃ v, evalWithName t col.name = some (.integer (some v)))
    {fuel : Nat} (hf : 2 * e.size ≤ fuel) :
    ∃ e', _simplify fuel none e = .ok (e', none) ∧ e'.isAndOfComparisons ∧ e'.columnRefs = e.columnRefs ∧
      (∀ n ∈ e'.nodes, (n matches .alias _ _) = false) ∧ eval t e' = eval t e := by
  induction he generalizing fuel with
  | @left col s ty G cmp ty' hs hG hcmp hse hso =>
    simp only [size] at hf
    obtain ⟨F, rfl⟩ : ∃ F, fuel = F + 2 := ⟨fuel - 2, by omega⟩
    have hsize := s.other_size col ty G
    obtain ⟨R, hR, hRg, hRe⟩ : ∃ R, _simplify F none (s.other ty G) = .ok (R, none) ∧ R.isGroundInt ∧
        eval t R = eval t (s.other ty G) := s._simplify_other ty t hs hG (by omega)
    have h₁ : fixExpr (F + 1) none (s.expr col ty) G cmp = .ok (columnRef col, s.other ty G, s.cmp cmp, none) :=
      s.fixExpr_expr col ty hs G hcmp (by omega)
    obtain ⟨x, hx⟩ := hcols col
      (List.mem_append_left _ ((s.expr_columnRefs col ty hs).symm ▸ List.mem_singleton_self col))
    refine ⟨binary (s.cmp cmp) (columnRef col) R ty', ?_,
      isAndOfComparisons_comparison (s.isComparison_cmp hcmp) (.inl ⟨rfl, hRg⟩),
      by simp [columnRefs, s.expr_columnRefs col ty hs, columnRefs_of_isGroundInt hRg, columnRefs_of_isGroundInt hG],
      binary_not_alias (columnRef_not_alias col) (isGroundInt_not_alias hRg),
      s.eval_left col ty t hs hx G hG hse hso hcmp ty' hRe⟩
    simp [_simplify, h₁, fixExpr_of_publishes_none hR, bind, Except.bind, pure, Except.pure,
      isArithmetic_of_isComparison (s.isComparison_cmp hcmp)]
  | @right col s ty G cmp ty' hs hG hcmp hother hse hso =>
    simp only [size] at hf
    obtain ⟨F, rfl⟩ : ∃ F, fuel = F + 2 := ⟨fuel - 2, by omega⟩
    have h₁ : fixExpr (F + 1) none G (s.expr col ty) cmp = .ok (G, s.expr col ty, cmp, none) :=
      fixExpr_of_publishes_none (_simplify_of_isGroundInt hG (by omega)) _ _
    have h₂ : fixExpr (F + 1) none (s.expr col ty) G cmp = .ok (columnRef col, s.other ty G, s.cmp cmp, none) :=
      s.fixExpr_expr col ty hs G hcmp (by omega)
    obtain ⟨x, hx⟩ := hcols col
      (List.mem_append_right _ ((s.expr_columnRefs col ty hs).symm ▸ List.mem_singleton_self col))
    refine ⟨binary (s.cmp cmp) (s.other ty G) (columnRef col) ty', ?_,
      isAndOfComparisons_comparison (s.isComparison_cmp hcmp) (.inr ⟨hother, rfl⟩),
      by simp [columnRefs, s.expr_columnRefs col ty hs, s.other_columnRefs ty hs hG, columnRefs_of_isGroundInt hG],
      binary_not_alias (s.other_not_alias ty hs hG) (columnRef_not_alias col),
      s.eval_right col ty t hs hx G hG hse hso hcmp ty'⟩
    simp [_simplify, h₁, h₂, bind, Except.bind, pure, Except.pure,
      isArithmetic_of_isComparison (s.isComparison_cmp hcmp)]
  | @and p q ty _ _ ihp ihq =>
    simp only [size] at hf
    obtain ⟨F, rfl⟩ : ∃ F, fuel = F + 2 := ⟨fuel - 2, by have := one_le_size p; omega⟩
    obtain ⟨p', hp, hpa, hpr, hpn, hpe⟩ := ihp (fun col hc => hcols col (List.mem_append_left _ hc))
      (show 2 * p.size ≤ F by omega)
    obtain ⟨q', hq, hqa, hqr, hqn, hqe⟩ := ihq (fun col hc => hcols col (List.mem_append_right _ hc))
      (show 2 * q.size ≤ F by omega)
    refine ⟨binary .and p' q' ty, ?_, by simp [isAndOfComparisons, hpa, hqa],
      by simp [columnRefs, hpr, hqr], binary_not_alias hpn hqn, by simp only [eval, hpe, hqe]⟩
    simp [_simplify, fixExpr_of_publishes_none hp, fixExpr_of_publishes_none hq, bind, Except.bind, pure,
      Except.pure, BinaryOperator.isArithmetic]

/-- The planner's sequence on an `AND` of comparisons of the shapes `simplify` is built for, over
every row holding non-NULL integers in its columns on which no node but an `Alias` is shadowed and
the rewrite does not wrap: `simplify` succeeds and the tree it leaves gives the row the predicate's
answer. When moreover the predicate selects the row and `convert_binary` finds a range for a
column on the rewritten tree, `scope_aggregation` and `rearrange` succeed on it and return at most
one range, which admits the row's value of that column, and return none only when every member of
the range is a `NotEq`. -/
theorem simplify_then_ranges_sound (outputName : ScalarExpression → String) (t : Tuple)
    (colId : ColumnId) (e : ScalarExpression) (x : Int) (he : ShapeConjunction t e)
    (hnames : ∀ n, (n matches .alias _ _) = false → unshadowed outputName t n)
    (hcols : ∀ col ∈ e.columnRefs, ∃ v, evalWithName t col.name = some (.integer (some v)))
    (hx : ∀ col ∈ e.columnRefs, col.id = some colId → evalWithName t col.name = some (.integer (some x))) :
    ∃ e', simplify e = .ok e' ∧ evalColumn outputName t e' = evalColumn outputName t e ∧
      (evalColumn outputName t e = .ok (.boolean (some true)) →
        ∀ r e'', convertBinary colId e' = .ok (some r, e'') →
          ∃ r' ys, r.scopeAggregation = .ok r' ∧ r'.rearrange = .ok ys ∧ ys.length ≤ 1 ∧
            (∀ y ∈ ys, y.admits (.integer (some x))) ∧ (ys = [] → ∀ c ∈ r.members, ∃ v, c = notEq v)) := by
  obtain ⟨e', hs, hand, hrefs, hna, hev⟩ := _simplify_shapeConjunction t he hcols (le_refl _)
  have heval : evalColumn outputName t e' = evalColumn outputName t e :=
    evalColumn_congr_of_names _ _ hnames hna he.not_alias hev
  refine ⟨e', by simp [simplify, hs, Functor.map, Except.map], heval, fun htrue r e'' h => ?_⟩
  rw [← heval, evalColumn_eq_eval_of_names _ _ hnames _ hna] at htrue
  exact normalized_of_isAndOfComparisons t colId x hand (hrefs ▸ hcols) (hrefs ▸ hx) htrue h

theorem simplify_then_ranges_sound_between :
    ShapeConjunction (rowC1 (.integer (some 7))) (binary .and (binary .gt ((ColumnShape.plus
      (constant (.integer (some 1)))).expr c1 .integer) (constant (.integer (some 5))) .boolean)
      (binary .gtEq (constant (.integer (some 10))) ((ColumnShape.minus (constant (.integer (some 2)))).expr
        c1 .integer) .boolean) .boolean) ∧
    (∀ n, (n matches .alias _ _) = false → unshadowed columnNames (rowC1 (.integer (some 7))) n) ∧
    (∀ col ∈ (binary .and (binary .gt ((ColumnShape.plus (constant (.integer (some 1)))).expr c1 .integer)
      (constant (.integer (some 5))) .boolean) (binary .gtEq (constant (.integer (some 10)))
        ((ColumnShape.minus (constant (.integer (some 2)))).expr c1 .integer) .boolean) .boolean).columnRefs,
      ∃ v, evalWithName (rowC1 (.integer (some 7))) col.name = some (.integer (some v))) ∧
    (∀ col ∈ (binary .and (binary .gt ((ColumnShape.plus (constant (.integer (some 1)))).expr c1 .integer)
      (constant (.integer (some 5))) .boolean) (binary .gtEq (constant (.integer (some 10)))
        ((ColumnShape.minus (constant (.integer (some 2)))).expr c1 .integer) .boolean) .boolean).columnRefs,
      col.id = some 0 → evalWithName (rowC1 (.integer (some 7))) col.name = some (.integer (some 7))) ∧
    ∃ e', simplify (binary .and (binary .gt ((ColumnShape.plus (constant (.integer (some 1)))).expr c1 .integer)
      (constant (.integer (some 5))) .boolean) (binary .gtEq (constant (.integer (some 10)))
        ((ColumnShape.minus (constant (.integer (some 2)))).expr c1 .integer) .boolean) .boolean) = .ok e' ∧
      evalColumn columnNames (rowC1 (.integer (some 7))) e' =
        evalColumn columnNames (rowC1 (.integer (some 7))) (binary .and (binary .gt ((ColumnShape.plus
          (constant (.integer (some 1)))).expr c1 .integer) (constant (.integer (some 5))) .boolean)
          (binary .gtEq (constant (.integer (some 10))) ((ColumnShape.minus (constant (.integer (some 2)))).expr
            c1 .integer) .boolean) .boolean) ∧
      (evalColumn columnNames (rowC1 (.integer (some 7))) (binary .and (binary .gt ((ColumnShape.plus
          (constant (.integer (some 1)))).expr c1 .integer) (constant (.integer (some 5))) .boolean)
          (binary .gtEq (constant (.integer (some 10))) ((ColumnShape.minus (constant (.integer (some 2)))).expr
            c1 .integer) .boolean) .boolean) = .ok (.boolean (some true)) →
        ∀ r e'', convertBinary 0 e' = .ok (some r, e'') →
          ∃ r' ys, r.scopeAggregation = .ok r' ∧ r'.rearrange = .ok ys ∧ ys.length ≤ 1 ∧
            (∀ y ∈ ys, y.admits (.integer (some 7))) ∧ (ys = [] → ∀ c ∈ r.members, ∃ v, c = notEq v)) := by
  refine ⟨?he, unshadowed_columnNames_rowC1 _, ?hcols, by decide,
    simplify_then_ranges_sound columnNames _ 0 _ 7 ?he (unshadowed_columnNames_rowC1 _) ?hcols (by decide)⟩
  case he => exact .and _ (.left _ rfl rfl rfl rfl rfl) (.right _ rfl rfl rfl rfl rfl rfl)
  case hcols => simp [columnRefs, ColumnShape.expr, evalWithName, rowC1, c1]

end KipSql
