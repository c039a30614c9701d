import KipSql.Expression.ConvertBinary
import KipSql.Range.Embedding

/-! `convert_binary`, `scope_aggregation` and `rearrange` composed on `AND`s of comparisons, the ranges
read over `Int` through `scopeAggregation_map`. -/

namespace KipSql

open ScalarExpression ConstantBinary

lemma convertLeaf_tree {colId : ColumnId} {op : BinaryOperator} {l r e' : ScalarExpression}
    {ty : LogicalType} {b : Option (ConstantBinary DataValue)}
    (h : convertLeaf colId op l r ty = .ok (b, e')) :
    ∃ l₂, (l₂ = l ∨ l₂ = (unpackVal l).2) ∧ e' = binary op l₂ (unpackVal r).2 ty := by
  unfold convertLeaf at h
  rcases hr : unpackVal r with ⟨val, r'⟩
  rcases hl : unpackVal l with ⟨lval, l'⟩
  simp only [hr, hl] at h
  repeat' split at h
  all_goals first
    | (obtain ⟨_, _, h⟩ := (bind_eq_ok _ _ _).mp h; cases h)
    | cases h
  exacts [⟨_, .inl rfl, rfl⟩, ⟨_, .inr rfl, rfl⟩, ⟨_, .inr rfl, rfl⟩]

section Tree

variable (t : Tuple) (colId : ColumnId)

lemma convertBinary_eval {e e' : ScalarExpression} {b : Option (ConstantBinary DataValue)}
    (he : NoIsNull e) (h : convertBinary colId e = .ok (b, e')) :
    NoIsNull e' ∧ eval t e' = eval t e := by
  induction e generalizing b e' with
  | binary op l r ty ihl ihr =>
    rw [noIsNull_binary] at he
    obtain ⟨⟨lb, l'⟩, hlc, h⟩ := (bind_eq_ok _ _ _).mp h
    obtain ⟨⟨rb, r'⟩, hrc, h⟩ := (bind_eq_ok _ _ _).mp h
    obtain ⟨hl', hle⟩ := ihl he.1 hlc
    obtain ⟨hr', hre⟩ := ihr he.2 hrc
    have hbin : NoIsNull (binary op l' r' ty) ∧ eval t (binary op l' r' ty) = eval t (binary op l r ty) :=
      ⟨(noIsNull_binary _).mpr ⟨hl', hr'⟩, by simp only [eval, hle, hre]⟩
    rcases lb with _ | lb <;> rcases rb with _ | rb
    · obtain ⟨l₂, hl₂, rfl⟩ := convertLeaf_tree h
      have hr₂ := (unpackVal_eval t r' hr').2
      rcases hl₂ with rfl | rfl
      · exact ⟨(noIsNull_binary _).mpr ⟨hl', (unpackVal_of_noIsNull hr').1⟩,
          by simp only [eval, hr₂, hle, hre]⟩
      · exact ⟨(noIsNull_binary _).mpr ⟨(unpackVal_of_noIsNull hl').1, (unpackVal_of_noIsNull hr').1⟩,
          by simp only [eval, (unpackVal_eval t l' hl').2, hr₂, hle, hre]⟩
    all_goals first
      | (cases h; exact hbin)
      | (obtain ⟨_, _, h⟩ := (bind_eq_ok _ _ _).mp h; cases h; exact hbin)
  | «alias» expr _ ih | typeCast expr _ ih | unary _ expr _ ih =>
    obtain ⟨⟨x, ex⟩, hx, h⟩ := (bind_eq_ok _ _ _).mp h
    cases h
    obtain ⟨h1, h2⟩ := ih (by simpa using he) hx
    exact ⟨by simpa using h1, by simp only [eval, h2]⟩
  | isNull => exact absurd he (not_noIsNull_isNull _)
  | _ =>
    cases h
    exact ⟨he, rfl⟩

end Tree

/-- `convert_binary` folds operands in place. On a tree with no `IS NULL` node the tree it leaves
behind gives the answer the predicate gave, on every row on which no node of either tree is
shadowed, so the predicate can still filter the rows the ranges select. -/
theorem convertBinary_keeps_predicate (outputName : ScalarExpression → String) (t : Tuple)
    (colId : ColumnId) (e e' : ScalarExpression) (b : Option (ConstantBinary DataValue))
    (hnull : NoIsNull e) (hnames : ∀ n ∈ e.nodes, unshadowed outputName t n)
    (hnames' : ∀ n ∈ e'.nodes, unshadowed outputName t n) (h : convertBinary colId e = .ok (b, e')) :
    evalColumn outputName t e' = evalColumn outputName t e := by
  rw [evalColumn_eq_eval _ _ _ hnames, evalColumn_eq_eval _ _ _ hnames']
  exact (convertBinary_eval t colId hnull h).2

theorem convertBinary_keeps_predicate_folded :
    NoIsNull (binary .gt (columnRef c1) (binary .plus (constant (.integer (some 1)))
      (constant (.integer (some 2))) .integer) .boolean) ∧
    (∀ n ∈ (binary .gt (columnRef c1) (binary .plus (constant (.integer (some 1)))
      (constant (.integer (some 2))) .integer) .boolean).nodes, unshadowed columnNames (rowC1 (.integer (some 5))) n) ∧
    (∀ n ∈ (binary .gt (columnRef c1) (constant (.integer (some 3))) .boolean).nodes,
      unshadowed columnNames (rowC1 (.integer (some 5))) n) ∧
    convertBinary 0 (binary .gt (columnRef c1) (binary .plus (constant (.integer (some 1)))
      (constant (.integer (some 2))) .integer) .boolean) =
      .ok (some (scope (.excluded (.integer (some 3))) .unbounded),
        binary .gt (columnRef c1) (constant (.integer (some 3))) .boolean) ∧
    evalColumn columnNames (rowC1 (.integer (some 5)))
        (binary .gt (columnRef c1) (constant (.integer (some 3))) .boolean) =
      evalColumn columnNames (rowC1 (.integer (some 5))) (binary .gt (columnRef c1)
        (binary .plus (constant (.integer (some 1))) (constant (.integer (some 2))) .integer) .boolean) := by
  refine ⟨?hn, ?h1, ?h2, ?hc, convertBinary_keeps_predicate columnNames _ 0 _ _ _ ?hn ?h1 ?h2 ?hc⟩
  all_goals first | decide | rfl

lemma newBinary_intValue {colId : ColumnId} {op : BinaryOperator} {col : ColumnRef} {v : Int}
    {isFlip : Bool} {b : ConstantBinary DataValue}
    (h : newBinary colId op col (intValue v) isFlip = .ok (some b)) :
    ∃ b₀ : ConstantBinary Int, b = b₀.map intValue ∧ b₀ ≠ scope .unbounded .unbounded := by
  unfold newBinary at h
  generalize (if isFlip then comparisonFlip op else op) = o at h
  split at h
  · cases h
  split_ifs at h
  · cases h
  cases o <;> cases h
  exacts [⟨scope (.excluded v) .unbounded, rfl, by simp⟩, ⟨scope .unbounded (.excluded v), rfl, by simp⟩,
    ⟨scope (.included v) .unbounded, rfl, by simp⟩, ⟨scope .unbounded (.included v), rfl, by simp⟩,
    ⟨eq v, rfl, by simp⟩, ⟨eq v, rfl, by simp⟩, ⟨notEq v, rfl, by simp⟩]

lemma convertBinary_comparison_newBinary {colId : ColumnId} {op : BinaryOperator}
    {l r e' : ScalarExpression} {ty : LogicalType} {b : ConstantBinary DataValue}
    (hlr : l.isColumnOperand ∧ r.isGroundInt ∨ l.isGroundInt ∧ r.isColumnOperand)
    (h : convertBinary colId (binary op l r ty) = .ok (some b, e')) :
    ∃ col v isFlip, newBinary colId op col (intValue v) isFlip = .ok (some b) := by
  have t : Tuple := ⟨[], [], rfl⟩
  obtain ⟨⟨lb, l'⟩, hlc, h⟩ := (bind_eq_ok _ _ _).mp h
  obtain ⟨⟨rb, r'⟩, hrc, h⟩ := (bind_eq_ok _ _ _).mp h
  rcases hlr with ⟨hcol, hgr⟩ | ⟨hgr, hcol⟩
  · obtain ⟨col, -, hun, hconv, -, -⟩ := isColumnOperand_spec t colId hcol
    obtain ⟨g', hcg, hgg, -⟩ := convertBinary_of_isGroundInt t colId hgr
    obtain ⟨v, -, hu⟩ := unpackVal_of_isGroundInt t hgg
    rw [hconv] at hlc
    rw [hcg] at hrc
    cases hlc
    cases hrc
    simp only [convertLeaf, hu, hun] at h
    obtain ⟨_, hnb, h⟩ := (bind_eq_ok _ _ _).mp h
    cases h
    exact ⟨col, v, false, hnb⟩
  · obtain ⟨col, -, hun, hconv, hval, -⟩ := isColumnOperand_spec t colId hcol
    obtain ⟨g', hcg, hgg, -⟩ := convertBinary_of_isGroundInt t colId hgr
    obtain ⟨v, -, hu⟩ := unpackVal_of_isGroundInt t hgg
    rw [hcg] at hlc
    rw [hconv] at hrc
    cases hlc
    cases hrc
    simp only [convertLeaf, hval, hu, hun, unpackCol_of_isGroundInt false hgg] at h
    obtain ⟨_, hnb, h⟩ := (bind_eq_ok _ _ _).mp h
    cases h
    exact ⟨col, v, true, hnb⟩

lemma isAndOfComparisons_integer {colId : ColumnId} {e e' : ScalarExpression} (he : e.isAndOfComparisons)
    {r : ConstantBinary DataValue} (h : convertBinary colId e = .ok (some r, e')) :
    ∀ c ∈ r.members, ∃ c₀ : ConstantBinary Int, c = c₀.map intValue ∧ c₀ ≠ scope .unbounded .unbounded := by
  induction e generalizing r e' with
  | binary op l rt ty ihl ihr =>
    by_cases hop : op = .and
    · subst hop
      simp only [isAndOfComparisons, Bool.and_eq_true] at he
      obtain ⟨⟨lb, l'⟩, hlc, h⟩ := (bind_eq_ok _ _ _).mp h
      obtain ⟨⟨rb, r'⟩, hrc, h⟩ := (bind_eq_ok _ _ _).mp h
      rcases lb with _ | lb <;> rcases rb with _ | rb
      · obtain ⟨_, _, _, hnb⟩ := convertLeaf_newBinary h
        exact absurd (newBinary_some hnb).1 (by decide)
      · cases h
        exact ihr he.2 hrc
      · cases h
        exact ihl he.1 hlc
      · obtain ⟨_, hxc, h⟩ := (bind_eq_ok _ _ _).mp h
        cases h
        exact fun c hc => (combine_members hxc c hc).elim (ihl he.1 hlc c) (ihr he.2 hrc c)
    · obtain ⟨-, hlr⟩ : op.isComparison ∧
          (l.isColumnOperand ∧ rt.isGroundInt ∨ l.isGroundInt ∧ rt.isColumnOperand) := by
        simpa [isAndOfComparisons, hop] using he
      obtain ⟨col, v, isFlip, hnb⟩ := convertBinary_comparison_newBinary hlr h
      rw [members_of_isLeaf (newBinary_isLeaf hnb)]
      obtain ⟨b₀, rfl, hb₀⟩ := newBinary_intValue hnb
      exact List.forall_mem_singleton.mpr ⟨b₀, rfl, hb₀⟩
  | _ => simp [isAndOfComparisons] at he

lemma exists_eq_map_of_forall_mem {α β : Type} {f : α → β} {P : ConstantBinary α → Prop}
    {bs : List (ConstantBinary β)} (h : ∀ c ∈ bs, ∃ c₀, c = c₀.map f ∧ P c₀) :
    ∃ bs₀ : List (ConstantBinary α), bs = bs₀.map (map f) ∧ ∀ c₀ ∈ bs₀, P c₀ := by
  induction bs with
  | nil => exact ⟨[], rfl, by simp⟩
  | cons c bs ih =>
    obtain ⟨c₀, rfl, hc₀⟩ := h c (List.mem_cons_self _ _)
    obtain ⟨bs₀, rfl, hbs₀⟩ := ih fun c hc => h c (List.mem_cons_of_mem _ hc)
    exact ⟨c₀ :: bs₀, rfl, List.forall_mem_cons.mpr ⟨hc₀, hbs₀⟩⟩

lemma normalized_of_isAndOfComparisons (t : Tuple) (colId : ColumnId) {e e' : ScalarExpression}
    {r : ConstantBinary DataValue} (x : Int) (he : e.isAndOfComparisons)
    (hcols : ∀ col ∈ e.columnRefs, ∃ v, evalWithName t col.name = some (.integer (some v)))
    (hx : ∀ col ∈ e.columnRefs, col.id = some colId → evalWithName t col.name = some (.integer (some x)))
    (htrue : eval t e = .ok (.boolean (some true))) (h : convertBinary colId e = .ok (some r, e')) :
    ∃ r' ys, r.scopeAggregation = .ok r' ∧ r'.rearrange = .ok ys ∧ ys.length ≤ 1 ∧
      (∀ y ∈ ys, y.admits (.integer (some x))) ∧ (ys = [] → ∀ c ∈ r.members, ∃ v, c = notEq v) := by
  obtain ⟨hor, hmem⟩ := (isAndOfComparisons_sound t colId (intValue x) he hcols hx).2 r e' htrue h
  have hint := isAndOfComparisons_integer he h
  rcases convertBinary_isFlat colId e e' r h with hleaf | ⟨bs, rfl | rfl, hbs⟩
  · have hmem' := hmem r (by rw [members_of_isLeaf hleaf]; exact List.mem_singleton_self r)
    refine ⟨r, [r], ?_, ?_, by simp, by simpa using hmem', by simp⟩ <;>
      cases r <;> first | rfl | cases hleaf
  · obtain ⟨bs₀, rfl, hbs₀⟩ := exists_eq_map_of_forall_mem hint
    have hleaf₀ : ∀ b ∈ bs₀, b.isLeaf := fun b hb => by
      simpa using hbs _ (List.mem_map_of_mem _ hb)
    have hadm₀ : ∀ b ∈ bs₀, b.admits x := fun b hb =>
      (admits_map partialCmp_intValue intValue_injective b x).mp (hmem _ (List.mem_map_of_mem _ hb))
    obtain ⟨ys₀, hys₀, hlen, hys_adm, hempty⟩ := _scopeAggregation_of_admits bs₀ hleaf₀ x hadm₀
    refine ⟨and (ys₀.map (map intValue)), ys₀.map (map intValue), ?_, rfl, by simpa using hlen,
      fun y hy => ?_, fun hys c hc => ?_⟩
    · rw [← map_and, scopeAggregation_map partialCmp_intValue intValue_injective]
      simp [scopeAggregation, hys₀, Functor.map, Except.map]
    · obtain ⟨y₀, hy₀, rfl⟩ := List.mem_map.mp hy
      exact (admits_map partialCmp_intValue intValue_injective y₀ x).mpr (hys_adm y₀ hy₀)
    · obtain ⟨c₀, hc₀, rfl⟩ := List.mem_map.mp hc
      rcases hempty (List.map_eq_nil_iff.mp hys) c₀ hc₀ with ⟨v, rfl⟩ | ⟨lo, hi, rfl, hall⟩
      · exact ⟨intValue v, rfl⟩
      · obtain ⟨rfl, rfl⟩ := unbounded_of_admits_all hall
        exact absurd rfl (hbs₀ _ hc₀)
  · exact absurd rfl (hor _)

end KipSql
