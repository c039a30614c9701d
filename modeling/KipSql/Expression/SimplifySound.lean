import KipSql.Expression.Simplify

/-! The comparisons `simplify` is built for, a column under at most one operator against a ground
expression, and that the rewrite keeps every answer on which its arithmetic does not wrap. -/

namespace KipSql

open ScalarExpression

def BinaryOperator.isComparison : BinaryOperator → Bool
  | .gt | .lt | .gtEq | .ltEq | .eq | .notEq | .spaceship => true
  | _ => false

@[simp] lemma isComparison_comparisonFlip (cmp : BinaryOperator) :
    (comparisonFlip cmp).isComparison = cmp.isComparison := by
  cases cmp <;> rfl

lemma intBinary_comparison_boolean {cmp : BinaryOperator} (hcmp : cmp.isComparison) (a b : Int) :
    ∃ v, intBinary a b cmp = .ok (.boolean (some v)) := by
  cases cmp <;> (try cases hcmp) <;> exact ⟨_, rfl⟩

lemma intBinary_comparison_congr {cmp : BinaryOperator} (hcmp : cmp.isComparison) {a b c d : Int}
    (h : a - b = c - d) : intBinary a b cmp = intBinary c d cmp := by
  cases cmp <;> (try cases hcmp) <;> simp [intBinary] <;> omega

lemma intBinary_comparison_flip {cmp : BinaryOperator} (hcmp : cmp.isComparison) {a b c d : Int}
    (h : a - b = d - c) : intBinary a b cmp = intBinary c d (comparisonFlip cmp) := by
  cases cmp <;> (try cases hcmp) <;> simp [intBinary, comparisonFlip] <;> omega


lemma binary_not_alias {op : BinaryOperator} {l r : ScalarExpression} {ty : LogicalType}
    (hl : ∀ n ∈ l.nodes, (n matches .alias _ _) = false) (hr : ∀ n ∈ r.nodes, (n matches .alias _ _) = false) :
    ∀ n ∈ (binary op l r ty).nodes, (n matches .alias _ _) = false :=
  List.forall_mem_cons.mpr ⟨rfl, List.forall_mem_append.mpr ⟨hl, hr⟩⟩

lemma columnRef_not_alias (col : ColumnRef) :
    ∀ n ∈ (columnRef col).nodes, (n matches .alias _ _) = false :=
  List.forall_mem_singleton.mpr rfl

/-- The column side of such a comparison: the column alone, `c + g`, `c - g`, `g - c`, `-c` or
`+c`, with `g` ground. `g + c` is not among them: `fix_binary` keeps its `+`. -/
inductive ColumnShape
  | bare
  | plus (g : ScalarExpression)
  | minus (g : ScalarExpression)
  | minusFrom (g : ScalarExpression)
  | neg
  | pos

namespace ColumnShape

variable (col : ColumnRef) (ty : LogicalType)

def expr : ColumnShape → ScalarExpression
  | bare => columnRef col
  | plus g => binary .plus (columnRef col) g ty
  | minus g => binary .minus (columnRef col) g ty
  | minusFrom g => binary .minus g (columnRef col) ty
  | neg => unary .minus (columnRef col) ty
  | pos => unary .plus (columnRef col) ty

def isGround : ColumnShape → Bool
  | plus g | minus g | minusFrom g => g.isGroundInt
  | _ => true

def cmp (op : BinaryOperator) : ColumnShape → BinaryOperator
  | minusFrom _ | neg => comparisonFlip op
  | _ => op

def other (G : ScalarExpression) : ColumnShape → ScalarExpression
  | bare => G
  | plus g => binary .minus G g ty
  | minus g => binary .plus G g ty
  | minusFrom g => binary .minus g G ty
  | neg => unary .minus G ty
  | pos => unary .plus G ty

lemma other_size (G : ScalarExpression) (s : ColumnShape) :
    (s.other ty G).size + 1 ≤ (s.expr col ty).size + G.size := by
  cases s <;> simp only [other, expr, size] <;> omega

lemma expr_not_alias {s : ColumnShape} (hs : s.isGround) :
    ∀ n ∈ (s.expr col ty).nodes, (n matches .alias _ _) = false := by
  cases s with
  | plus g | minus g | minusFrom g =>
    simp only [isGround] at hs
    first
    | exact binary_not_alias (columnRef_not_alias col) (isGroundInt_not_alias hs)
    | exact binary_not_alias (isGroundInt_not_alias hs) (columnRef_not_alias col)
  | bare => exact columnRef_not_alias col
  | neg | pos => exact List.forall_mem_cons.mpr ⟨rfl, columnRef_not_alias col⟩

lemma other_not_alias {s : ColumnShape} (hs : s.isGround) {G : ScalarExpression} (hG : G.isGroundInt) :
    ∀ n ∈ (s.other ty G).nodes, (n matches .alias _ _) = false := by
  have hGa := isGroundInt_not_alias hG
  cases s with
  | plus g | minus g | minusFrom g =>
    simp only [isGround] at hs
    first
    | exact binary_not_alias hGa (isGroundInt_not_alias hs)
    | exact binary_not_alias (isGroundInt_not_alias hs) hGa
  | bare => exact hGa
  | neg | pos =>
    simp only [other, nodes, List.mem_cons]
    rintro n (rfl | hn)
    exacts [rfl, hGa n hn]

lemma other_columnRefs {s : ColumnShape} (hs : s.isGround) {G : ScalarExpression} (hG : G.isGroundInt) :
    (s.other ty G).columnRefs = [] := by
  cases s with
  | plus g | minus g | minusFrom g =>
    simp only [isGround] at hs
    simp [other, columnRefs, columnRefs_of_isGroundInt hs, columnRefs_of_isGroundInt hG]
  | _ => simp [other, columnRefs, columnRefs_of_isGroundInt hG]

end ColumnShape

section Steps

lemma fixExpr_of_publishes_none {fuel : Nat} {l l' : ScalarExpression}
    (h : _simplify fuel none l = .ok (l', none)) (r : ScalarExpression) (op : BinaryOperator) :
    fixExpr (fuel + 1) none l r op = .ok (l', r, op, none) := by
  simp only [fixExpr, h]
  rfl

lemma fixExpr_of_publishes_binary {fuel : Nat} {l l' : ScalarExpression} {rb : ReplaceBinary}
    (h : _simplify fuel none l = .ok (l', some (.binary rb))) (r : ScalarExpression) (op : BinaryOperator) :
    fixExpr (fuel + 1) none l r op =
      .ok ((fixBinary rb r op).1, (fixBinary rb r op).2.1, (fixBinary rb r op).2.2, none) := by
  simp only [fixExpr, h]
  rfl

lemma fixExpr_of_publishes_unary {fuel : Nat} {l l' : ScalarExpression} {ru : ReplaceUnary}
    (h : _simplify fuel none l = .ok (l', some (.unary ru))) (r : ScalarExpression) (op : BinaryOperator) :
    fixExpr (fuel + 1) none l r op =
      fixExpr fuel none (fixUnary ru r op).1 (fixUnary ru r op).2.1 (fixUnary ru r op).2.2 := by
  simp only [fixExpr, h]
  rfl

lemma simplify_binary_of_fixExpr {fuel : Nat} {op op₁ op₂ : BinaryOperator}
    {l r l₁ r₁ l₂ r₂ : ScalarExpression} {ty : LogicalType}
    (h₁ : fixExpr fuel none l r op = .ok (l₁, r₁, op₁, none))
    (h₂ : fixExpr fuel none r₁ l₁ op₁ = .ok (r₂, l₂, op₂, none)) :
    (·.1) <$> _simplify (fuel + 1) none (binary op l r ty) = .ok (binary op₂ l₂ r₂ ty) := by
  simp only [_simplify, h₁, bind, Except.bind, h₂]
  rfl

lemma _simplify_columnRef (fuel : Nat) (col : ColumnRef) :
    _simplify (fuel + 1) none (columnRef col) = .ok (columnRef col, none) := rfl

lemma _simplify_of_isGroundInt {g : ScalarExpression} (hg : g.isGroundInt) {fuel : Nat}
    (hf : 2 * g.size ≤ fuel) : _simplify fuel none g = .ok (g, none) := by
  induction g generalizing fuel with
  | constant val =>
    obtain ⟨F, rfl⟩ : ∃ F, fuel = F + 1 := ⟨fuel - 1, by simp only [size] at hf; omega⟩
    rfl
  | binary op a b ty iha ihb =>
    obtain ⟨ha, hb, hop⟩ := isGroundInt_binary hg
    obtain ⟨F, rfl⟩ : ∃ F, fuel = F + 2 := ⟨fuel - 2, by simp only [size] at hf; omega⟩
    have hfa : _simplify F none a = .ok (a, none) := iha ha (by simp only [size] at hf; omega)
    have hfb : _simplify F none b = .ok (b, none) := ihb hb (by simp only [size] at hf; omega)
    have hpub : ∀ h : op.isArithmetic, publishBinary op a b ty h none = none := fun h => by
      simp [publishBinary, unpackCol_of_isGroundInt true ha, unpackCol_of_isGroundInt true hb]
    simp [_simplify, fixExpr_of_publishes_none hfa, fixExpr_of_publishes_none hfb, bind, Except.bind,
      pure, Except.pure, hpub]
  | _ => simp [isGroundInt] at hg

lemma _simplify_column_arith (op : BinaryOperator) (h : op.isArithmetic) {g : ScalarExpression}
    (hg : g.isGroundInt) (col : ColumnRef) (ty : LogicalType) {fuel : Nat} (hf : 2 * g.size + 1 ≤ fuel) :
    _simplify (fuel + 2) none (binary op (columnRef col) g ty) =
        .ok (binary op (columnRef col) g ty, some (.binary ⟨columnRef col, g, op, ty, true, h⟩)) ∧
      _simplify (fuel + 2) none (binary op g (columnRef col) ty) =
        .ok (binary op g (columnRef col) ty, some (.binary ⟨columnRef col, g, op, ty, false, h⟩)) := by
  obtain ⟨F, rfl⟩ : ∃ F, fuel = F + 1 := ⟨fuel - 1, by omega⟩
  have hc : fixExpr (F + 2) none (columnRef col) g op = .ok (columnRef col, g, op, none) :=
    fixExpr_of_publishes_none (_simplify_columnRef F col) g op
  have hg' : fixExpr (F + 2) none g (columnRef col) op = .ok (g, columnRef col, op, none) :=
    fixExpr_of_publishes_none (_simplify_of_isGroundInt hg (by omega)) _ op
  have hu := unpackCol_of_isGroundInt true hg
  constructor <;>
    simp [_simplify, hc, hg', dif_pos h, publishBinary, unpackCol, hu, bind, Except.bind, pure,
      Except.pure]

end Steps

namespace ColumnShape

variable (col : ColumnRef) (ty : LogicalType)

lemma fixExpr_expr {s : ColumnShape} (hs : s.isGround) (G : ScalarExpression) {op : BinaryOperator}
    (hop : op.isComparison) {fuel : Nat} (hf : 2 * (s.expr col ty).size + 1 ≤ fuel) :
    fixExpr fuel none (s.expr col ty) G op = .ok (columnRef col, s.other ty G, s.cmp op, none) := by
  cases s with
  | bare =>
    obtain ⟨F, rfl⟩ : ∃ F, fuel = F + 2 := ⟨fuel - 2, by simp only [expr, size] at hf; omega⟩
    exact fixExpr_of_publishes_none (_simplify_columnRef F col) G op
  | plus g | minus g | minusFrom g =>
    obtain ⟨F, rfl⟩ : ∃ F, fuel = F + 3 := ⟨fuel - 3, by simp only [expr, size] at hf; omega⟩
    have hF : 2 * g.size + 1 ≤ F := by simp only [expr, size] at hf; omega
    first
    | exact (fixExpr_of_publishes_binary (_simplify_column_arith .plus rfl hs col ty hF).1 G op).trans
        (by simp [fixBinary, opFlip, cmp, other])
    | exact (fixExpr_of_publishes_binary (_simplify_column_arith .minus rfl hs col ty hF).1 G op).trans
        (by simp [fixBinary, opFlip, cmp, other])
    | exact (fixExpr_of_publishes_binary (_simplify_column_arith .minus rfl hs col ty hF).2 G op).trans
        (by simp [fixBinary, cmp, other])
  | neg | pos =>
    obtain ⟨F, rfl⟩ : ∃ F, fuel = F + 3 := ⟨fuel - 3, by simp only [expr, size] at hf; omega⟩
    first
    | have hu : _simplify (F + 2) none (unary .minus (columnRef col) ty) =
          .ok (unary .minus (columnRef col) ty, some (.unary ⟨columnRef col, .minus, ty⟩)) := rfl
      refine (fixExpr_of_publishes_unary hu G op).trans
        ((fixExpr_of_publishes_none (_simplify_columnRef F col) _ _).trans ?_)
    | have hu : _simplify (F + 2) none (unary .plus (columnRef col) ty) =
          .ok (unary .plus (columnRef col) ty, some (.unary ⟨columnRef col, .plus, ty⟩)) := rfl
      refine (fixExpr_of_publishes_unary hu G op).trans
        ((fixExpr_of_publishes_none (_simplify_columnRef F col) _ _).trans ?_)
    all_goals cases op <;> (try cases hop) <;> rfl

lemma _simplify_other (t : Tuple) {s : ColumnShape} (hs : s.isGround) {G : ScalarExpression}
    (hG : G.isGroundInt) {fuel : Nat} (hf : 2 * (s.other ty G).size ≤ fuel) :
    ∃ R, _simplify fuel none (s.other ty G) = .ok (R, none) ∧ R.isGroundInt ∧
      eval t R = eval t (s.other ty G) := by
  cases s with
  | bare => exact ⟨G, _simplify_of_isGroundInt hG hf, hG, rfl⟩
  | plus g | minus g | minusFrom g =>
    simp only [isGround] at hs
    exact ⟨_, _simplify_of_isGroundInt (by simp [other, isGroundInt, hs, hG]) hf,
      by simp [other, isGroundInt, hs, hG], rfl⟩
  | neg =>
    obtain ⟨F, rfl⟩ : ∃ F, fuel = F + 1 := ⟨fuel - 1, by simp only [other, size] at hf; omega⟩
    obtain ⟨k, hk, hu⟩ := unpackVal_of_isGroundInt t hG
    refine ⟨constant (.integer (some (wrapInt32 (-k)))), ?_, rfl, ?_⟩ <;>
      simp [_simplify, other, eval, hu, hk, unaryOp, bind, Except.bind, pure, Except.pure,
        Except.mapError]
  | pos =>
    obtain ⟨F, rfl⟩ : ∃ F, fuel = F + 1 := ⟨fuel - 1, by simp only [other, size] at hf; omega⟩
    obtain ⟨k, hk, hu⟩ := unpackVal_of_isGroundInt t hG
    refine ⟨constant (.integer (some k)), ?_, rfl, ?_⟩ <;>
      simp [_simplify, other, eval, hu, hk, unaryOp, bind, Except.bind, pure, Except.pure,
        Except.mapError]

lemma eval_expr_other (t : Tuple) {s : ColumnShape} (hs : s.isGround) {x : Int}
    (hx : evalWithName t col.name = some (.integer (some x))) {G : ScalarExpression} (hG : G.isGroundInt)
    (hse : noWrapAt t (s.expr col ty)) (hso : noWrapAt t (s.other ty G)) :
    ∃ sv k rv, eval t (s.expr col ty) = .ok (.integer (some sv)) ∧ eval t G = .ok (.integer (some k)) ∧
      eval t (s.other ty G) = .ok (.integer (some rv)) ∧ ∀ op : BinaryOperator, op.isComparison →
        intBinary sv k op = intBinary x rv (s.cmp op) ∧ intBinary k sv op = intBinary rv x (s.cmp op) := by
  have hc : eval t (columnRef col) = .ok (.integer (some x)) := by simp [eval, hx]
  obtain ⟨k, hk, -⟩ := unpackVal_of_isGroundInt t hG
  cases s with
  | bare => exact ⟨x, k, k, hc, hk, hk, fun _ _ => ⟨rfl, rfl⟩⟩
  | plus g =>
    obtain ⟨gv, hgv, -⟩ := unpackVal_of_isGroundInt t (by simpa [isGround] using hs)
    exact ⟨x + gv, k, k - gv, eval_binary_of_noWrapAt t hse hc hgv rfl (by decide), hk,
      eval_binary_of_noWrapAt t hso hk hgv rfl (by decide), fun op hop =>
        ⟨intBinary_comparison_congr hop (by omega), intBinary_comparison_congr hop (by omega)⟩⟩
  | minus g =>
    obtain ⟨gv, hgv, -⟩ := unpackVal_of_isGroundInt t (by simpa [isGround] using hs)
    exact ⟨x - gv, k, k + gv, eval_binary_of_noWrapAt t hse hc hgv rfl (by decide), hk,
      eval_binary_of_noWrapAt t hso hk hgv rfl (by decide), fun op hop =>
        ⟨intBinary_comparison_congr hop (by omega), intBinary_comparison_congr hop (by omega)⟩⟩
  | minusFrom g =>
    obtain ⟨gv, hgv, -⟩ := unpackVal_of_isGroundInt t (by simpa [isGround] using hs)
    exact ⟨gv - x, k, gv - k, eval_binary_of_noWrapAt t hse hgv hc rfl (by decide), hk,
      eval_binary_of_noWrapAt t hso hgv hk rfl (by decide), fun op hop =>
        ⟨intBinary_comparison_flip hop (by omega), intBinary_comparison_flip hop (by omega)⟩⟩
  | neg =>
    exact ⟨-x, k, -k, eval_neg_of_noWrapAt t hse hc, hk, eval_neg_of_noWrapAt t hso hk, fun op hop =>
      ⟨intBinary_comparison_flip hop (by omega), intBinary_comparison_flip hop (by omega)⟩⟩
  | pos =>
    exact ⟨x, k, k, by simp [expr, eval, hx, unaryOp, bind, Except.bind], hk,
      by simp [other, eval, hk, unaryOp, bind, Except.bind], fun _ _ => ⟨rfl, rfl⟩⟩

lemma eval_left (t : Tuple) {s : ColumnShape} (hs : s.isGround) {x : Int}
    (hx : evalWithName t col.name = some (.integer (some x))) (G : ScalarExpression) (hG : G.isGroundInt)
    (hse : noWrapAt t (s.expr col ty)) (hso : noWrapAt t (s.other ty G))
    {cmp : BinaryOperator} (hcmp : cmp.isComparison) (ty' : LogicalType) {R : ScalarExpression}
    (hR : eval t R = eval t (s.other ty G)) :
    eval t (binary (s.cmp cmp) (columnRef col) R ty') = eval t (binary cmp (s.expr col ty) G ty') := by
  obtain ⟨sv, k, rv, hsv, hk, hrv, hvals⟩ := s.eval_expr_other col ty t hs hx hG hse hso
  simp only [eval, hx, hR, hrv, hsv, hk, binaryOp, Option.getD_some, bind, Except.bind]
  exact (hvals cmp hcmp).1.symm

lemma eval_right (t : Tuple) {s : ColumnShape} (hs : s.isGround) {x : Int}
    (hx : evalWithName t col.name = some (.integer (some x))) (G : ScalarExpression) (hG : G.isGroundInt)
    (hse : noWrapAt t (s.expr col ty)) (hso : noWrapAt t (s.other ty G))
    {cmp : BinaryOperator} (hcmp : cmp.isComparison) (ty' : LogicalType) :
    eval t (binary (s.cmp cmp) (s.other ty G) (columnRef col) ty') =
      eval t (binary cmp G (s.expr col ty) ty') := by
  obtain ⟨sv, k, rv, hsv, hk, hrv, hvals⟩ := s.eval_expr_other col ty t hs hx hG hse hso
  simp only [eval, hx, hrv, hsv, hk, binaryOp, Option.getD_some, bind, Except.bind]
  exact (hvals cmp hcmp).2.symm

lemma simplify_left_sound (outputName : ScalarExpression → String) (t : Tuple) {x : Int}
    {s : ColumnShape} (hs : s.isGround) (G : ScalarExpression) (hG : G.isGroundInt) {cmp : BinaryOperator}
    (hcmp : cmp.isComparison) (ty' : LogicalType) (hx : evalWithName t col.name = some (.integer (some x)))
    (hse : noWrapAt t (s.expr col ty)) (hso : noWrapAt t (s.other ty G))
    (hnames : ∀ n, (n matches .alias _ _) = false → unshadowed outputName t n) :
    ∃ R, simplify (binary cmp (s.expr col ty) G ty') = .ok (binary (s.cmp cmp) (columnRef col) R ty') ∧
      R.columnRefs = [] ∧
      evalColumn outputName t (binary (s.cmp cmp) (columnRef col) R ty') =
        evalColumn outputName t (binary cmp (s.expr col ty) G ty') := by
  have hsize := s.other_size col ty G
  obtain ⟨R, hR, hRg, hRe⟩ : ∃ R, _simplify (2 * (s.expr col ty).size + 2 * G.size) none (s.other ty G) =
      .ok (R, none) ∧ R.isGroundInt ∧ eval t R = eval t (s.other ty G) :=
    s._simplify_other ty t hs hG (by omega)
  refine ⟨R, ?_, columnRefs_of_isGroundInt hRg, evalColumn_congr_of_names _ _ hnames
    (binary_not_alias (columnRef_not_alias col) (isGroundInt_not_alias hRg))
    (binary_not_alias (s.expr_not_alias col ty hs) (isGroundInt_not_alias hG))
    (s.eval_left col ty t hs hx G hG hse hso hcmp ty' hRe)⟩
  rw [simplify, show 2 * (binary cmp (s.expr col ty) G ty').size =
    2 * (s.expr col ty).size + 2 * G.size + 1 + 1 by simp only [size]; omega]
  exact simplify_binary_of_fixExpr (s.fixExpr_expr col ty hs G hcmp (by omega))
    (fixExpr_of_publishes_none hR _ _)

lemma simplify_right {s : ColumnShape} (hs : s.isGround) (G : ScalarExpression) (hG : G.isGroundInt)
    {cmp : BinaryOperator} (hcmp : cmp.isComparison) (ty' : LogicalType) :
    simplify (binary cmp G (s.expr col ty) ty') = .ok (binary (s.cmp cmp) (s.other ty G) (columnRef col) ty') := by
  rw [simplify, show 2 * (binary cmp G (s.expr col ty) ty').size =
    2 * (s.expr col ty).size + 2 * G.size + 1 + 1 by simp only [size]; omega]
  exact simplify_binary_of_fixExpr (fixExpr_of_publishes_none (_simplify_of_isGroundInt hG (by omega)) _ _)
    (s.fixExpr_expr col ty hs G hcmp (by omega))

end ColumnShape

/-- A comparison of a ground expression with the column under at most one `+`, `-` or unary
operator other than `g + c`, on either side: `simplify` leaves the column alone on its side, a
column-free operand on the other, and the comparison turned round where the column's sign changes.
The answer is the same on every row holding an integer in the column on which neither the operator
over the column nor the one the rewrite builds opposite it wraps. -/
theorem simplify_column_shape_sound (outputName : ScalarExpression → String) (t : Tuple)
    (col : ColumnRef) (x : Int) (s : ColumnShape) (hs : s.isGround) (G : ScalarExpression)
    (hG : G.isGroundInt) (cmp : BinaryOperator) (hcmp : cmp.isComparison) (ty ty' : LogicalType)
    (hx : evalWithName t col.name = some (.integer (some x)))
    (hse : noWrapAt t (s.expr col ty)) (hso : noWrapAt t (s.other ty G))
    (hnames : ∀ n, (n matches .alias _ _) = false → unshadowed outputName t n) :
    (∃ R, simplify (binary cmp (s.expr col ty) G ty') = .ok (binary (s.cmp cmp) (columnRef col) R ty') ∧
      R.columnRefs = [] ∧
      evalColumn outputName t (binary (s.cmp cmp) (columnRef col) R ty') =
        evalColumn outputName t (binary cmp (s.expr col ty) G ty')) ∧
    (∃ R, simplify (binary cmp G (s.expr col ty) ty') = .ok (binary (s.cmp cmp) R (columnRef col) ty') ∧
      R.columnRefs = [] ∧
      evalColumn outputName t (binary (s.cmp cmp) R (columnRef col) ty') =
        evalColumn outputName t (binary cmp G (s.expr col ty) ty')) :=
  ⟨s.simplify_left_sound col ty outputName t hs G hG hcmp ty' hx hse hso hnames,
    ⟨s.other ty G, s.simplify_right col ty hs G hG hcmp ty', s.other_columnRefs ty hs hG,
      evalColumn_congr_of_names _ _ hnames
        (binary_not_alias (s.other_not_alias ty hs hG) (columnRef_not_alias col))
        (binary_not_alias (isGroundInt_not_alias hG) (s.expr_not_alias col ty hs))
        (s.eval_right col ty t hs hx G hG hse hso hcmp ty')⟩⟩

theorem simplify_column_shape_sound_minusFrom :
    (ColumnShape.minusFrom (constant (.integer (some 10)))).isGround ∧
    (binary .plus (constant (.integer (some 1))) (constant (.integer (some 2))) .integer).isGroundInt ∧
    BinaryOperator.gtEq.isComparison ∧
    evalWithName (rowC1 (.integer (some 7))) c1.name = some (.integer (some 7)) ∧
    noWrapAt (rowC1 (.integer (some 7))) ((ColumnShape.minusFrom (constant (.integer (some 10)))).expr c1
      .integer) ∧
    noWrapAt (rowC1 (.integer (some 7))) ((ColumnShape.minusFrom (constant (.integer (some 10)))).other
      .integer (binary .plus (constant (.integer (some 1))) (constant (.integer (some 2))) .integer)) ∧
    (∀ n, (n matches .alias _ _) = false → unshadowed columnNames (rowC1 (.integer (some 7))) n) ∧
    ((∃ R, simplify (binary .gtEq ((ColumnShape.minusFrom (constant (.integer (some 10)))).expr c1 .integer)
        (binary .plus (constant (.integer (some 1))) (constant (.integer (some 2))) .integer) .boolean) =
          .ok (binary ((ColumnShape.minusFrom (constant (.integer (some 10)))).cmp .gtEq) (columnRef c1) R
            .boolean) ∧
        R.columnRefs = [] ∧
        evalColumn columnNames (rowC1 (.integer (some 7))) (binary ((ColumnShape.minusFrom
          (constant (.integer (some 10)))).cmp .gtEq) (columnRef c1) R .boolean) =
          evalColumn columnNames (rowC1 (.integer (some 7))) (binary .gtEq ((ColumnShape.minusFrom
            (constant (.integer (some 10)))).expr c1 .integer)
            (binary .plus (constant (.integer (some 1))) (constant (.integer (some 2))) .integer) .boolean)) ∧
      (∃ R, simplify (binary .gtEq (binary .plus (constant (.integer (some 1))) (constant (.integer (some 2)))
          .integer) ((ColumnShape.minusFrom (constant (.integer (some 10)))).expr c1 .integer) .boolean) =
          .ok (binary ((ColumnShape.minusFrom (constant (.integer (some 10)))).cmp .gtEq) R (columnRef c1)
            .boolean) ∧
        R.columnRefs = [] ∧
        evalColumn columnNames (rowC1 (.integer (some 7))) (binary ((ColumnShape.minusFrom
          (constant (.integer (some 10)))).cmp .gtEq) R (columnRef c1) .boolean) =
          evalColumn columnNames (rowC1 (.integer (some 7))) (binary .gtEq (binary .plus
            (constant (.integer (some 1))) (constant (.integer (some 2))) .integer)
            ((ColumnShape.minusFrom (constant (.integer (some 10)))).expr c1 .integer) .boolean))) := by
  refine ⟨?h1, ?h2, ?h3, ?h4, ?h5, ?h6, ?h7, simplify_column_shape_sound columnNames _ c1 7 _ ?h1 _ ?h2
    .gtEq ?h3 .integer .boolean ?h4 ?h5 ?h6 ?h7⟩
  all_goals first | rfl | exact unshadowed_columnNames_rowC1 _

end KipSql
