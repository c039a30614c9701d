import KipSql.Expression.SimplifySound
import KipSql.Range.ScopeAggregation
import KipSql.Range.Rearrange

/-! `convert_binary`, which lowers a predicate over one column to a range; like the code's `&mut self`
it also returns the tree it leaves behind. -/

namespace KipSql

open ScalarExpression ConstantBinary

/-- `new_binary`: the range of `col op val`, read with the column on the right when `isFlip`.
`col.id.unwrap()` panics on a column without an id. -/
def newBinary (colId : ColumnId) (op : BinaryOperator) (col : ColumnRef) (val : DataValue)
    (isFlip : Bool) : Except Fault (Option (ConstantBinary DataValue)) :=
  match col.id with
  | none => throw .panic
  | some id =>
    if id ≠ colId then pure none
    else
      pure <| match if isFlip then comparisonFlip op else op with
        | .gt => some (scope (.excluded val) .unbounded)
        | .lt => some (scope .unbounded (.excluded val))
        | .gtEq => some (scope (.included val) .unbounded)
        | .ltEq => some (scope .unbounded (.included val))
        | .eq | .spaceship => some (eq val)
        | .notEq => some (notEq val)
        | _ => none

/-- The `(Some(left_binary), Some(right_binary))` arm of `convert_binary`. Only two leaves look at
`op`; `Xor` there is `todo!()`. -/
def combine (op : BinaryOperator) :
    ConstantBinary DataValue → ConstantBinary DataValue → Except Fault (Option (ConstantBinary DataValue))
  | .and left, .and right | .or left, .or right => pure (some (.and (left ++ right)))
  | .and left, .or right => pure (some (.or (right ++ left)))
  | .or left, .and right => pure (some (.or (left ++ right)))
  | .and binaries, b | b, .and binaries => pure (some (.and (binaries ++ [b])))
  | .or binaries, b | b, .or binaries => pure (some (.or (binaries ++ [b])))
  | left, right =>
    match op with
    | .and => pure (some (.and [left, right]))
    | .or => pure (some (.or [left, right]))
    | .xor => throw .panic
    | _ => pure none

/-- The `(None, None)` arm of `convert_binary`: a column on one side, a value that folds on the
other. -/
def convertLeaf (colId : ColumnId) (op : BinaryOperator) (l r : ScalarExpression) (ty : LogicalType) :
    Except Fault (Option (ConstantBinary DataValue) × ScalarExpression) :=
  let (val, r) := unpackVal r
  match unpackCol false l, val with
  | some col, some val => return (← newBinary colId op col val false, binary op l r ty)
  | _, _ =>
    let (val, l) := unpackVal l
    match val, unpackCol false r with
    | some val, some col => return (← newBinary colId op col val true, binary op l r ty)
    | _, _ => pure (none, binary op l r ty)

/-- `convert_binary`: the range of the predicate over column `colId`, and the tree left behind. -/
def convertBinary (colId : ColumnId) :
    ScalarExpression → Except Fault (Option (ConstantBinary DataValue) × ScalarExpression)
  | binary op l r ty => do
    let (lb, l) ← convertBinary colId l
    let (rb, r) ← convertBinary colId r
    match lb, rb with
    | some lb, some rb => return (← combine op lb rb, binary op l r ty)
    | none, none => convertLeaf colId op l r ty
    | some b, none | none, some b => pure (some b, binary op l r ty)
  | .alias expr aliasName => do
    let (b, expr) ← convertBinary colId expr
    pure (b, .alias expr aliasName)
  | typeCast expr ty => do
    let (b, expr) ← convertBinary colId expr
    pure (b, typeCast expr ty)
  | isNull expr negated => do
    let (b, expr) ← convertBinary colId expr
    pure (b, isNull expr negated)
  | unary op expr ty => do
    let (b, expr) ← convertBinary colId expr
    pure (b, unary op expr ty)
  | e => pure (none, e)

example : convertBinary 0 (binary .lt (columnRef c1) (constant (.integer (some 1))) .boolean) =
    .ok (some (scope .unbounded (.excluded (.integer (some 1)))),
      binary .lt (columnRef c1) (constant (.integer (some 1))) .boolean) := rfl

lemma newBinary_isLeaf {colId : ColumnId} {op : BinaryOperator} {col : ColumnRef} {val : DataValue}
    {isFlip : Bool} {b : ConstantBinary DataValue} (h : newBinary colId op col val isFlip = .ok (some b)) :
    b.isLeaf := by
  unfold newBinary at h
  split at h
  · cases h
  split_ifs at h
  · cases h
  all_goals split at h <;> cases h <;> rfl

lemma convertLeaf_newBinary {colId : ColumnId} {op : BinaryOperator} {l r e' : ScalarExpression}
    {ty : LogicalType} {b : ConstantBinary DataValue} (h : convertLeaf colId op l r ty = .ok (some b, e')) :
    ∃ col val isFlip, newBinary colId op col val isFlip = .ok (some b) := by
  unfold convertLeaf at h
  repeat' split at h
  all_goals first
    | cases h
    | obtain ⟨x, hx, h⟩ := (bind_eq_ok _ _ _).mp h
      cases h
      exact ⟨_, _, _, hx⟩

lemma convertLeaf_isLeaf {colId : ColumnId} {op : BinaryOperator} {l r e' : ScalarExpression}
    {ty : LogicalType} {b : ConstantBinary DataValue} (h : convertLeaf colId op l r ty = .ok (some b, e')) :
    b.isLeaf :=
  have ⟨_, _, _, hb⟩ := convertLeaf_newBinary h
  newBinary_isLeaf hb

lemma combine_members {op : BinaryOperator} {lb rb r : ConstantBinary DataValue}
    (h : combine op lb rb = .ok (some r)) : ∀ c ∈ r.members, c ∈ lb.members ∨ c ∈ rb.members := by
  unfold combine at h
  split at h <;> (try split at h) <;> cases h <;> simp [members] <;> tauto

lemma convertBinary_isFlat (colId : ColumnId) (e e' : ScalarExpression) (r : ConstantBinary DataValue)
    (h : convertBinary colId e = .ok (some r, e')) : r.IsFlat := by
  induction e generalizing r e' with
  | binary op l rt ty ihl ihr =>
    obtain ⟨⟨lb, l'⟩, hl, h⟩ := (bind_eq_ok _ _ _).mp h
    obtain ⟨⟨rb, r'⟩, hr, h⟩ := (bind_eq_ok _ _ _).mp h
    rcases lb with _ | lb <;> rcases rb with _ | rb
    · exact .inl (convertLeaf_isLeaf h)
    · cases h
      exact ihr _ _ hr
    · cases h
      exact ihl _ _ hl
    · obtain ⟨x, hx, h⟩ := (bind_eq_ok _ _ _).mp h
      cases h
      have hlf := (isFlat_iff_members _).mp (ihl _ _ hl)
      have hrf := (isFlat_iff_members _).mp (ihr _ _ hr)
      exact (isFlat_iff_members _).mpr fun c hc => (combine_members hx c hc).elim (hlf c) (hrf c)
  | «alias» expr _ ih | typeCast expr _ ih | isNull expr _ ih | unary _ expr _ ih =>
    obtain ⟨⟨b, x⟩, hx, h⟩ := (bind_eq_ok _ _ _).mp h
    cases h
    exact ih _ _ hx
  | _ => cases h

lemma normalizers_ok_of_isFlat {α : Type} [PartialCmp α] [DecidableEq α] {r : ConstantBinary α}
    (hr : r.IsFlat) : ∃ r', r.scopeAggregation = .ok r' ∧ ∃ ys, r'.rearrange = .ok ys := by
  rcases hr with hleaf | ⟨bs, rfl | rfl, hbs⟩
  · exact ⟨r, by cases r <;> simp [isLeaf] at hleaf <;> rfl, [r], by
      cases r <;> simp [isLeaf] at hleaf <;> rfl⟩
  · obtain ⟨ys, hys, -⟩ := _scopeAggregation_leaves bs hbs
    exact ⟨and ys, by simp [scopeAggregation, hys, Functor.map, Except.map], ys, rfl⟩
  · obtain ⟨-, ys, -, -, -, hys, -⟩ := rearrange_or_ok bs (fun b hb => .inl (hbs b hb))
    exact ⟨or bs, by simp [scopeAggregation, scopeAggregationAll_leaves bs hbs, Functor.map,
      Except.map], ys, hys⟩

/-- Every range `convert_binary` builds is a leaf or an `And` or `Or` of leaves, so neither
normalizer reaches an `InvalidType` branch or an `unreachable!()` on it. -/
theorem convertBinary_flat (colId : ColumnId) (e e' : ScalarExpression) (r : ConstantBinary DataValue)
    (h : convertBinary colId e = .ok (some r, e')) :
    r.IsFlat ∧ ∃ r', r.scopeAggregation = .ok r' ∧ ∃ ys, r'.rearrange = .ok ys :=
  have hflat := convertBinary_isFlat colId e e' r h
  ⟨hflat, normalizers_ok_of_isFlat hflat⟩

theorem convertBinary_flat_between :
    convertBinary 0 (binary .and (binary .gt (columnRef c1) (constant (.integer (some 1))) .boolean)
        (binary .lt (columnRef c1) (constant (.integer (some 5))) .boolean) .boolean) =
      .ok (some (and [scope (.excluded (.integer (some 1))) .unbounded,
          scope .unbounded (.excluded (.integer (some 5)))]),
        binary .and (binary .gt (columnRef c1) (constant (.integer (some 1))) .boolean)
          (binary .lt (columnRef c1) (constant (.integer (some 5))) .boolean) .boolean) ∧
    ((and [scope (.excluded (.integer (some 1))) .unbounded,
        scope .unbounded (.excluded (.integer (some 5)))] : ConstantBinary DataValue).IsFlat ∧
      ∃ r', (and [scope (.excluded (.integer (some 1))) .unbounded,
        scope .unbounded (.excluded (.integer (some 5)))] : ConstantBinary DataValue).scopeAggregation =
          .ok r' ∧ ∃ ys, r'.rearrange = .ok ys) :=
  by refine ⟨?h, convertBinary_flat 0 _ _ _ ?h⟩; rfl

/-- Two rows the predicate selects and the range leaves out. `convert_binary` looks through
`NOT`: `NOT (c1 = 1)` gives `Eq(1)`, which leaves out the row `c1 = 2`. It also joins two `Or`s
into an `And`: `(c1 = 1 OR c1 = 2) OR (c1 = 3 OR c1 = 4)` gives the `And` of the four `Eq`s, which
leaves out the row `c1 = 1`. -/
theorem convertBinary_misses_selected_rows (outputName : ScalarExpression → String)
    (hnot : ∀ n ∈ (unary .not (binary .eq (columnRef c1) (constant (.integer (some 1))) .boolean) .boolean).nodes,
      unshadowed outputName (rowC1 (.integer (some 2))) n)
    (hor : ∀ n ∈ (binary .or (binary .or (binary .eq (columnRef c1) (constant (.integer (some 1))) .boolean)
      (binary .eq (columnRef c1) (constant (.integer (some 2))) .boolean) .boolean)
      (binary .or (binary .eq (columnRef c1) (constant (.integer (some 3))) .boolean)
        (binary .eq (columnRef c1) (constant (.integer (some 4))) .boolean) .boolean) .boolean).nodes,
      unshadowed outputName (rowC1 (.integer (some 1))) n) :
    (evalColumn outputName (rowC1 (.integer (some 2))) (unary .not (binary .eq (columnRef c1) (constant (.integer (some 1))) .boolean) .boolean) = .ok (.boolean (some true)) ∧
      (·.1) <$> convertBinary 0 (unary .not (binary .eq (columnRef c1) (constant (.integer (some 1))) .boolean) .boolean) = .ok (some (eq (.integer (some 1)))) ∧
      ¬ (eq (.integer (some 1)) : ConstantBinary DataValue).admits (.integer (some 2))) ∧
    (evalColumn outputName (rowC1 (.integer (some 1))) (binary .or (binary .or (binary .eq (columnRef c1) (constant (.integer (some 1))) .boolean)
      (binary .eq (columnRef c1) (constant (.integer (some 2))) .boolean) .boolean)
      (binary .or (binary .eq (columnRef c1) (constant (.integer (some 3))) .boolean)
        (binary .eq (columnRef c1) (constant (.integer (some 4))) .boolean) .boolean) .boolean) = .ok (.boolean (some true)) ∧
      (·.1) <$> convertBinary 0 (binary .or (binary .or (binary .eq (columnRef c1) (constant (.integer (some 1))) .boolean)
      (binary .eq (columnRef c1) (constant (.integer (some 2))) .boolean) .boolean)
      (binary .or (binary .eq (columnRef c1) (constant (.integer (some 3))) .boolean)
        (binary .eq (columnRef c1) (constant (.integer (some 4))) .boolean) .boolean) .boolean) = .ok (some (and [eq (.integer (some 1)), eq (.integer (some 2)), eq (.integer (some 3)),
      eq (.integer (some 4))] : ConstantBinary DataValue)) ∧
      ¬ (and [eq (.integer (some 1)), eq (.integer (some 2)), eq (.integer (some 3)),
      eq (.integer (some 4))] : ConstantBinary DataValue).admits (.integer (some 1))) :=
  ⟨⟨by rw [evalColumn_eq_eval _ _ _ hnot]; rfl, rfl, by simp [admits]⟩,
    ⟨by rw [evalColumn_eq_eval _ _ _ hor]; rfl, rfl, by simp [admits]⟩⟩

theorem convertBinary_misses_selected_rows_named :
    ((∀ n ∈ (unary .not (binary .eq (columnRef c1) (constant (.integer (some 1))) .boolean) .boolean).nodes,
      unshadowed columnNames (rowC1 (.integer (some 2))) n) ∧
    (∀ n ∈ (binary .or (binary .or (binary .eq (columnRef c1) (constant (.integer (some 1))) .boolean)
      (binary .eq (columnRef c1) (constant (.integer (some 2))) .boolean) .boolean)
      (binary .or (binary .eq (columnRef c1) (constant (.integer (some 3))) .boolean)
        (binary .eq (columnRef c1) (constant (.integer (some 4))) .boolean) .boolean) .boolean).nodes,
      unshadowed columnNames (rowC1 (.integer (some 1))) n)) ∧
    (evalColumn columnNames (rowC1 (.integer (some 2))) (unary .not (binary .eq (columnRef c1) (constant (.integer (some 1))) .boolean) .boolean) = .ok (.boolean (some true)) ∧
      (·.1) <$> convertBinary 0 (unary .not (binary .eq (columnRef c1) (constant (.integer (some 1))) .boolean) .boolean) = .ok (some (eq (.integer (some 1)))) ∧
      ¬ (eq (.integer (some 1)) : ConstantBinary DataValue).admits (.integer (some 2))) ∧
    (evalColumn columnNames (rowC1 (.integer (some 1))) (binary .or (binary .or (binary .eq (columnRef c1) (constant (.integer (some 1))) .boolean)
      (binary .eq (columnRef c1) (constant (.integer (some 2))) .boolean) .boolean)
      (binary .or (binary .eq (columnRef c1) (constant (.integer (some 3))) .boolean)
        (binary .eq (columnRef c1) (constant (.integer (some 4))) .boolean) .boolean) .boolean) = .ok (.boolean (some true)) ∧
      (·.1) <$> convertBinary 0 (binary .or (binary .or (binary .eq (columnRef c1) (constant (.integer (some 1))) .boolean)
      (binary .eq (columnRef c1) (constant (.integer (some 2))) .boolean) .boolean)
      (binary .or (binary .eq (columnRef c1) (constant (.integer (some 3))) .boolean)
        (binary .eq (columnRef c1) (constant (.integer (some 4))) .boolean) .boolean) .boolean) = .ok (some (and [eq (.integer (some 1)), eq (.integer (some 2)), eq (.integer (some 3)),
      eq (.integer (some 4))] : ConstantBinary DataValue)) ∧
      ¬ (and [eq (.integer (some 1)), eq (.integer (some 2)), eq (.integer (some 3)),
      eq (.integer (some 4))] : ConstantBinary DataValue).admits (.integer (some 1))) :=
  ⟨⟨by decide, by decide⟩, convertBinary_misses_selected_rows columnNames (by decide) (by decide)⟩

namespace ScalarExpression

def isColumnOperand : ScalarExpression → Bool
  | columnRef _ => true
  | .alias e _ => e.isColumnOperand
  | _ => false

/-- `AND`s of comparisons between a column operand and a ground integer expression. -/
def isAndOfComparisons : ScalarExpression → Bool
  | binary .and p q _ => p.isAndOfComparisons && q.isAndOfComparisons
  | binary cmp a b _ => cmp.isComparison &&
      (a.isColumnOperand && b.isGroundInt || a.isGroundInt && b.isColumnOperand)
  | _ => false

section Ground

variable (t : Tuple) (colId : ColumnId)

lemma convertBinary_of_isGroundInt {g : ScalarExpression} (hg : g.isGroundInt) :
    ∃ g', convertBinary colId g = .ok (none, g') ∧ g'.isGroundInt ∧ eval t g' = eval t g := by
  induction g with
  | constant val => exact ⟨_, rfl, hg, rfl⟩
  | binary op a b ty iha ihb =>
    have hab := isGroundInt_binary hg
    obtain ⟨a', hca, hga, hea⟩ := iha hab.1
    obtain ⟨b', hcb, hgb, heb⟩ := ihb hab.2.1
    obtain ⟨va, hva, hua⟩ := unpackVal_of_isGroundInt t hga
    obtain ⟨vb, hvb, hub⟩ := unpackVal_of_isGroundInt t hgb
    refine ⟨binary op (constant (.integer (some va))) (constant (.integer (some vb))) ty, ?_, ?_, ?_⟩
    · rw [convertBinary, hca, hcb]
      simp only [bind, Except.bind, convertLeaf, hua, hub, unpackCol_of_isGroundInt false hga, unpackCol]
      rfl
    · rcases hab.2.2 with rfl | rfl <;> rfl
    · simp only [eval, ← hea, ← heb, hva, hvb, bind, Except.bind]
  | _ => simp [isGroundInt] at hg

lemma isColumnOperand_spec {a : ScalarExpression} (ha : a.isColumnOperand) :
    ∃ col ∈ a.columnRefs, unpackCol false a = some col ∧ convertBinary colId a = .ok (none, a) ∧
      unpackVal a = (none, a) ∧ eval t a = .ok ((evalWithName t col.name).getD .null) := by
  induction a with
  | columnRef col => exact ⟨col, by simp [columnRefs], rfl, rfl, rfl, rfl⟩
  | «alias» e aliasName ih =>
    obtain ⟨col, hmem, hcol, hconv, hval, heval⟩ := ih (by simpa [isColumnOperand] using ha)
    exact ⟨col, by simpa [columnRefs] using hmem, by simpa [unpackCol] using hcol,
      by simp [convertBinary, hconv, bind, Except.bind, pure, Except.pure],
      by simp [unpackVal, hval], by simpa [eval] using heval⟩
  | _ => simp [isColumnOperand] at ha

end Ground

lemma newBinary_some {colId : ColumnId} {op : BinaryOperator} {col : ColumnRef} {val : DataValue}
    {isFlip : Bool} {b : ConstantBinary DataValue} (h : newBinary colId op col val isFlip = .ok (some b)) :
    op.isComparison ∧ col.id = some colId := by
  unfold newBinary at h
  split at h
  · cases h
  rename_i id hid
  split_ifs at h with hne hflip
  · cases h
  · refine ⟨?_, by rw [hid, not_not.mp hne]⟩
    rw [← isComparison_comparisonFlip]
    generalize comparisonFlip op = o at h ⊢
    cases o <;> first | rfl | cases h
  · refine ⟨?_, by rw [hid, not_not.mp hne]⟩
    cases op <;> first | rfl | cases h

lemma newBinary_admits {colId : ColumnId} {op : BinaryOperator} {col : ColumnRef} {v x : Int}
    {b : ConstantBinary DataValue} (h : newBinary colId op col (.integer (some v)) false = .ok (some b))
    (htrue : intBinary x v op = .ok (.boolean (some true))) : b.admits (.integer (some x)) := by
  obtain ⟨hcmp, hid⟩ := newBinary_some h
  simp only [newBinary, hid, ne_eq, not_true_eq_false, if_false, Bool.false_eq_true] at h
  cases op <;> (try cases hcmp) <;> cases h <;> simp [intBinary] at htrue <;>
    simp [admits, Bound.admitsAbove, Bound.admitsBelow, compare_lt_iff_lt, compare_eq_iff_eq] <;> omega

lemma combine_and_not_or {lb rb r : ConstantBinary DataValue} (hl : ∀ bs, lb ≠ .or bs)
    (hr : ∀ bs, rb ≠ .or bs) (h : combine .and lb rb = .ok (some r)) : ∀ bs, r ≠ .or bs := by
  cases lb <;> cases rb <;> simp only [combine] at h <;> cases h <;>
    first | exact fun _ h => ConstantBinary.noConfusion h | exact absurd rfl (hl _) | exact absurd rfl (hr _)

section Conjunctions

variable (t : Tuple) (colId : ColumnId) (xv : DataValue)

lemma newBinary_sound {cmp : BinaryOperator} {col : ColumnRef} {v x : Int} {r : ConstantBinary DataValue}
    (hnb : newBinary colId cmp col (.integer (some v)) false = .ok (some r))
    (hxv : evalWithName t col.name = some (.integer (some x)))
    (hx : col.id = some colId → evalWithName t col.name = some xv)
    (htrue : intBinary x v cmp = .ok (.boolean (some true))) :
    (∀ bs, r ≠ .or bs) ∧ ∀ c ∈ r.members, c.admits xv := by
  have hleaf := newBinary_isLeaf hnb
  obtain rfl : xv = .integer (some x) := Option.some.inj ((hx (newBinary_some hnb).2).symm.trans hxv)
  refine ⟨ne_or_of_isLeaf hleaf, ?_⟩
  rw [members_of_isLeaf hleaf]
  simpa using newBinary_admits hnb htrue

lemma isAndOfComparisons_sound {e : ScalarExpression} (he : e.isAndOfComparisons)
    (hcols : ∀ col ∈ e.columnRefs, ∃ v, evalWithName t col.name = some (.integer (some v)))
    (hx : ∀ col ∈ e.columnRefs, col.id = some colId → evalWithName t col.name = some xv) :
    (∃ b, eval t e = .ok (.boolean (some b))) ∧
    ∀ r e', eval t e = .ok (.boolean (some true)) → convertBinary colId e = .ok (some r, e') →
      (∀ bs, r ≠ .or bs) ∧ ∀ c ∈ r.members, c.admits xv := by
  induction e with
  | binary op l rt ty ihl ihr =>
    by_cases hop : op = .and
    · subst hop
      simp only [isAndOfComparisons, Bool.and_eq_true] at he
      obtain ⟨⟨bl, hbl⟩, hl⟩ := ihl he.1 (fun col hc => hcols col (List.mem_append_left _ hc))
        (fun col hc => hx col (List.mem_append_left _ hc))
      obtain ⟨⟨br, hbr⟩, hr⟩ := ihr he.2 (fun col hc => hcols col (List.mem_append_right _ hc))
        (fun col hc => hx col (List.mem_append_right _ hc))
      have heval : eval t (binary .and l rt ty) = .ok (.boolean (some (bl && br))) := by
        simp [eval, hbl, hbr, bind, Except.bind, binaryOp, boolBinary]
      refine ⟨⟨_, heval⟩, fun r e' htrue h => ?_⟩
      obtain ⟨rfl, rfl⟩ : bl = true ∧ br = true := by simpa [heval] using htrue
      obtain ⟨⟨lb, l'⟩, hlc, h⟩ := (bind_eq_ok _ _ _).mp h
      obtain ⟨⟨rb, r'⟩, hrc, h⟩ := (bind_eq_ok _ _ _).mp h
      rcases lb with _ | lb <;> rcases rb with _ | rb
      · obtain ⟨_, _, _, hnb⟩ := convertLeaf_newBinary h
        exact absurd (newBinary_some hnb).1 (by decide)
      · cases h
        exact hr _ _ hbr hrc
      · cases h
        exact hl _ _ hbl hlc
      · obtain ⟨x, hxc, h⟩ := (bind_eq_ok _ _ _).mp h
        cases h
        obtain ⟨hlo, hlm⟩ := hl _ _ hbl hlc
        obtain ⟨hro, hrm⟩ := hr _ _ hbr hrc
        exact ⟨combine_and_not_or hlo hro hxc,
          fun c hc => (combine_members hxc c hc).elim (hlm c) (hrm c)⟩
    · obtain ⟨hcmp, ⟨hcol, hgr⟩ | ⟨hgr, hcol⟩⟩ : op.isComparison ∧
          (l.isColumnOperand ∧ rt.isGroundInt ∨ l.isGroundInt ∧ rt.isColumnOperand) := by
        simpa [isAndOfComparisons, hop] using he
      · obtain ⟨col, hmem, hun, hconv, -, heval⟩ := isColumnOperand_spec t colId hcol
        obtain ⟨g', hcg, hgg, heg⟩ := convertBinary_of_isGroundInt t colId hgr
        obtain ⟨v, hv, hu⟩ := unpackVal_of_isGroundInt t hgg
        obtain ⟨x, hxv⟩ := hcols col (by simp [columnRefs, hmem])
        have hev : eval t (binary op l rt ty) = intBinary x v op := by
          simp [eval, heval, hxv, ← heg, hv, bind, Except.bind, binaryOp]
        refine ⟨hev ▸ intBinary_comparison_boolean hcmp x v, fun r e' htrue h => ?_⟩
        obtain ⟨⟨lb, l'⟩, hlc, h⟩ := (bind_eq_ok _ _ _).mp h
        obtain ⟨⟨rb, r'⟩, hrc, h⟩ := (bind_eq_ok _ _ _).mp h
        rw [hconv] at hlc
        rw [hcg] at hrc
        cases hlc
        cases hrc
        simp only [convertLeaf, hu, hun] at h
        obtain ⟨b, hnb, h⟩ := (bind_eq_ok _ _ _).mp h
        cases h
        exact newBinary_sound t colId xv hnb hxv (hx col (by simp [columnRefs, hmem])) (hev ▸ htrue)
      · obtain ⟨col, hmem, hun, hconv, hval, heval⟩ := isColumnOperand_spec t colId hcol
        obtain ⟨g', hcg, hgg, heg⟩ := convertBinary_of_isGroundInt t colId hgr
        obtain ⟨v, hv, hu⟩ := unpackVal_of_isGroundInt t hgg
        obtain ⟨x, hxv⟩ := hcols col (by simp [columnRefs, hmem])
        have hev : eval t (binary op l rt ty) = intBinary x v (comparisonFlip op) := by
          rw [← intBinary_comparison_flip hcmp (a := v) (b := x) (c := x) (d := v) rfl]
          simp [eval, heval, hxv, ← heg, hv, bind, Except.bind, binaryOp]
        refine ⟨hev ▸ intBinary_comparison_boolean (by simpa using hcmp) x v, fun r e' htrue h => ?_⟩
        obtain ⟨⟨lb, l'⟩, hlc, h⟩ := (bind_eq_ok _ _ _).mp h
        obtain ⟨⟨rb, r'⟩, hrc, h⟩ := (bind_eq_ok _ _ _).mp h
        rw [hcg] at hlc
        rw [hconv] at hrc
        cases hlc
        cases hrc
        simp only [convertLeaf, hval, hu, hun, unpackCol_of_isGroundInt false hgg] at h
        obtain ⟨b, hnb, h⟩ := (bind_eq_ok _ _ _).mp h
        cases h
        exact newBinary_sound t colId xv hnb hxv (hx col (by simp [columnRefs, hmem])) (hev ▸ htrue)
  | _ => simp [isAndOfComparisons] at he

end Conjunctions

end ScalarExpression

end KipSql
