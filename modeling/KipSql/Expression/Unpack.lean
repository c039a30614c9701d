import KipSql.Expression.Evaluator

/-! `unpack_val`, the constant folder, which like the code's `&mut self` returns the tree it leaves
behind, and `unpack_col`, the column finder. -/

namespace KipSql

namespace ScalarExpression

/-- `unpack_val`: the folded value, and the tree left behind. -/
def unpackVal : ScalarExpression → Option DataValue × ScalarExpression
  | constant val => (some val, constant val)
  | .alias expr aliasName =>
    let (val, expr) := unpackVal expr
    (val, .alias expr aliasName)
  | typeCast expr ty =>
    let (val, expr) := unpackVal expr
    (val.bind fun val => (val.cast ty).toOption, typeCast expr ty)
  | isNull expr negated =>
    let (val, expr) := unpackVal expr
    (some (.boolean (val.map DataValue.isNull)), isNull expr negated)
  | unary op expr ty =>
    let (val, expr) := unpackVal expr
    (val.bind fun val => (unaryOp val op).toOption, unary op expr ty)
  | binary op l r ty =>
    match unpackVal l with
    | (none, l) => (none, binary op l r ty)
    | (some left, l) =>
      match unpackVal r with
      | (none, r) => (none, binary op l r ty)
      | (some right, r) =>
        match binaryOp left right op with
        | .ok val => (some val, constant val)
        | .error _ => (none, binary op l r ty)
  | e => (none, e)

/-- `unpack_col`: the one column of the tree, through `Alias`, `Unary` and, unless
`isBinaryThenReturn`, `Binary`. -/
def unpackCol (isBinaryThenReturn : Bool) : ScalarExpression → Option ColumnRef
  | columnRef col => some col
  | .alias expr _ => unpackCol isBinaryThenReturn expr
  | binary _ l r _ =>
    if isBinaryThenReturn then none
    else
      match unpackCol isBinaryThenReturn l, unpackCol isBinaryThenReturn r with
      | some col, none | none, some col => some col
      | _, _ => none
  | unary _ expr _ => unpackCol isBinaryThenReturn expr
  | _ => none

lemma unpackCol_eq_none_of_unpackVal (b : Bool) {e : ScalarExpression} {v : DataValue}
    (h : (unpackVal e).1 = some v) : unpackCol b e = none := by
  induction e generalizing v with
  | columnRef _ => cases h
  | «alias» expr _ ih | unary _ expr _ ih =>
    rcases hx : unpackVal expr with ⟨_ | w, x⟩
    · simp only [unpackVal, hx, Option.bind_none] at h
      cases h
    · exact ih (v := w) (by rw [hx])
  | binary op l r ty ihl ihr =>
    rcases hl : unpackVal l with ⟨_ | a, l'⟩
    · simp only [unpackVal, hl] at h
      cases h
    rcases hr : unpackVal r with ⟨_ | c, r'⟩
    · simp only [unpackVal, hl, hr] at h
      cases h
    cases b <;> simp only [unpackCol, ihl (v := a) (by rw [hl]), ihr (v := c) (by rw [hr])] <;> rfl
  | _ => rfl

section Sound

variable (t : Tuple)

/-- No node is an `IS NULL`, the one node `unpack_val` folds to a value `eval_column` does not
compute. -/
def NoIsNull (e : ScalarExpression) : Prop := ∀ n ∈ e.nodes, (n matches isNull _ _) = false

instance : DecidablePred NoIsNull := fun e => inferInstanceAs (Decidable (∀ n ∈ e.nodes, _))

section NoIsNull

variable {expr l r : ScalarExpression} {ty : LogicalType}

@[simp] lemma noIsNull_constant (v : DataValue) : NoIsNull (constant v) :=
  List.forall_mem_singleton.mpr rfl
@[simp] lemma noIsNull_columnRef (col : ColumnRef) : NoIsNull (columnRef col) :=
  List.forall_mem_singleton.mpr rfl
@[simp] lemma noIsNull_aggCall : NoIsNull aggCall := List.forall_mem_singleton.mpr rfl
@[simp] lemma noIsNull_alias (aliasName : String) :
    NoIsNull (.alias expr aliasName) ↔ NoIsNull expr :=
  List.forall_mem_cons.trans (and_iff_right rfl)
@[simp] lemma noIsNull_typeCast : NoIsNull (typeCast expr ty) ↔ NoIsNull expr :=
  List.forall_mem_cons.trans (and_iff_right rfl)
@[simp] lemma not_noIsNull_isNull (negated : Bool) : ¬ NoIsNull (isNull expr negated) :=
  fun h => Bool.noConfusion (List.forall_mem_cons.mp h).1
@[simp] lemma noIsNull_unary (op : UnaryOperator) : NoIsNull (unary op expr ty) ↔ NoIsNull expr :=
  List.forall_mem_cons.trans (and_iff_right rfl)
@[simp] lemma noIsNull_binary (op : BinaryOperator) :
    NoIsNull (binary op l r ty) ↔ NoIsNull l ∧ NoIsNull r :=
  List.forall_mem_cons.trans ((and_iff_right rfl).trans List.forall_mem_append)

end NoIsNull

lemma unpackVal_eval (e : ScalarExpression) (h : NoIsNull e) :
    (∀ v, (unpackVal e).1 = some v → eval t e = .ok v) ∧ eval t (unpackVal e).2 = eval t e := by
  induction e with
  | isNull expr negated => exact absurd h (not_noIsNull_isNull _)
  | «alias» expr _ ih =>
    obtain ⟨ih1, ih2⟩ := ih ((noIsNull_alias _).mp h)
    rcases hx : unpackVal expr with ⟨val, x⟩
    simp only [hx] at ih1 ih2
    exact ⟨fun v hv => by simpa [eval] using ih1 v (by simpa [unpackVal, hx] using hv),
      by simpa [unpackVal, hx, eval] using ih2⟩
  | typeCast expr ty ih =>
    obtain ⟨ih1, ih2⟩ := ih (noIsNull_typeCast.mp h)
    rcases hx : unpackVal expr with ⟨_ | w, x⟩ <;> simp only [hx] at ih1 ih2
    · exact ⟨by simp [unpackVal, hx], by simp [unpackVal, hx, eval, ih2]⟩
    refine ⟨fun v hv => ?_, by simp [unpackVal, hx, eval, ih2]⟩
    cases hc : w.cast ty <;> simp [unpackVal, hx, hc, Except.toOption] at hv
    simp [eval, ih1 w rfl, hc, hv, bind, Except.bind]
  | unary op expr ty ih =>
    obtain ⟨ih1, ih2⟩ := ih ((noIsNull_unary _).mp h)
    rcases hx : unpackVal expr with ⟨_ | w, x⟩ <;> simp only [hx] at ih1 ih2
    · exact ⟨by simp [unpackVal, hx], by simp [unpackVal, hx, eval, ih2]⟩
    refine ⟨fun v hv => ?_, by simp [unpackVal, hx, eval, ih2]⟩
    cases hc : unaryOp w op <;> simp [unpackVal, hx, hc, Except.toOption] at hv
    simp [eval, ih1 w rfl, hc, hv, bind, Except.bind]
  | binary op l r ty ihl ihr =>
    obtain ⟨ihl1, ihl2⟩ := ihl ((noIsNull_binary _).mp h).1
    obtain ⟨ihr1, ihr2⟩ := ihr ((noIsNull_binary _).mp h).2
    rcases hl : unpackVal l with ⟨_ | a, l'⟩ <;> simp only [hl] at ihl1 ihl2
    · exact ⟨by simp [unpackVal, hl], by simp [unpackVal, hl, eval, ihl2]⟩
    rcases hr : unpackVal r with ⟨_ | c, r'⟩ <;> simp only [hr] at ihr1 ihr2
    · exact ⟨by simp [unpackVal, hl, hr], by simp [unpackVal, hl, hr, eval, ihl2, ihr2]⟩
    cases hop : binaryOp a c op with
    | ok v =>
      have hv : eval t (binary op l r ty) = .ok v := by
        simp [eval, ihl1 a rfl, ihr1 c rfl, hop, bind, Except.bind]
      exact ⟨by simp [unpackVal, hl, hr, hop, hv], by rw [hv]; simp [unpackVal, hl, hr, hop, eval]⟩
    | error _ => exact ⟨by simp [unpackVal, hl, hr, hop], by simp [unpackVal, hl, hr, hop, eval, ihl2, ihr2]⟩
  | _ => exact ⟨by simp [unpackVal, eval], rfl⟩

end Sound

/-- Under `NoIsNull`, a value `unpack_val` folds is the value of the tree on the row, and the tree
it leaves behind evaluates as the tree did. -/
theorem unpackVal_sound (outputName : ScalarExpression → String) (t : Tuple) (e : ScalarExpression)
    (hnull : NoIsNull e) (he : ∀ n ∈ e.nodes, unshadowed outputName t n)
    (he' : ∀ n ∈ (unpackVal e).2.nodes, unshadowed outputName t n) :
    (∀ v, (unpackVal e).1 = some v → evalColumn outputName t e = .ok v) ∧
      evalColumn outputName t (unpackVal e).2 = evalColumn outputName t e := by
  rw [evalColumn_eq_eval _ _ _ he, evalColumn_eq_eval _ _ _ he']
  exact unpackVal_eval t e hnull

theorem unpackVal_sound_folded_operand :
    NoIsNull (binary .plus (binary .plus (constant (.integer (some 1))) (constant (.integer (some 2))) .integer)
      (columnRef c1) .integer) ∧
    (∀ n ∈ (binary .plus (binary .plus (constant (.integer (some 1))) (constant (.integer (some 2))) .integer)
      (columnRef c1) .integer).nodes, unshadowed columnNames (rowC1 (.integer (some 5))) n) ∧
    (∀ n ∈ (unpackVal (binary .plus (binary .plus (constant (.integer (some 1))) (constant (.integer (some 2)))
      .integer) (columnRef c1) .integer)).2.nodes, unshadowed columnNames (rowC1 (.integer (some 5))) n) ∧
    ((∀ v, (unpackVal (binary .plus (binary .plus (constant (.integer (some 1))) (constant (.integer (some 2)))
      .integer) (columnRef c1) .integer)).1 = some v →
        evalColumn columnNames (rowC1 (.integer (some 5))) (binary .plus (binary .plus
          (constant (.integer (some 1))) (constant (.integer (some 2))) .integer) (columnRef c1) .integer) = .ok v) ∧
      evalColumn columnNames (rowC1 (.integer (some 5))) (unpackVal (binary .plus (binary .plus
        (constant (.integer (some 1))) (constant (.integer (some 2))) .integer) (columnRef c1) .integer)).2 =
      evalColumn columnNames (rowC1 (.integer (some 5))) (binary .plus (binary .plus
        (constant (.integer (some 1))) (constant (.integer (some 2))) .integer) (columnRef c1) .integer)) :=
  ⟨by decide, by decide, by decide, unpackVal_sound _ _ _ (by decide) (by decide) (by decide)⟩

/-- `IS NULL` of a column folds to a NULL boolean, which no row gives: on a row holding a value
`eval_column` answers `false`. -/
theorem unpackVal_isNull_column (outputName : ScalarExpression → String)
    (h : ∀ n ∈ (isNull (columnRef c1) false).nodes, unshadowed outputName (rowC1 (.integer (some 1))) n) :
    unpackVal (isNull (columnRef c1) false) = (some (.boolean none), isNull (columnRef c1) false) ∧
      evalColumn outputName (rowC1 (.integer (some 1))) (isNull (columnRef c1) false) =
        .ok (.boolean (some false)) :=
  ⟨rfl, by rw [evalColumn_eq_eval _ _ _ h]; rfl⟩

theorem unpackVal_isNull_column_named :
    (∀ n ∈ (isNull (columnRef c1) false).nodes, unshadowed columnNames (rowC1 (.integer (some 1))) n) ∧
    unpackVal (isNull (columnRef c1) false) = (some (.boolean none), isNull (columnRef c1) false) ∧
      evalColumn columnNames (rowC1 (.integer (some 1))) (isNull (columnRef c1) false) =
        .ok (.boolean (some false)) :=
  ⟨by decide, unpackVal_isNull_column columnNames (by decide)⟩

lemma columnRefs_of_unpackCol_true {e : ScalarExpression} {col : ColumnRef}
    (h : unpackCol true e = some col) : e.columnRefs = [col] := by
  induction e with
  | columnRef c => cases h; rfl
  | «alias» expr _ ih | unary _ expr _ ih => exact ih h
  | _ => simp [unpackCol] at h

lemma columnRefs_unpackVal_sublist (e : ScalarExpression) : (unpackVal e).2.columnRefs.Sublist e.columnRefs := by
  induction e with
  | «alias» expr _ ih | typeCast expr _ ih | isNull expr _ ih | unary _ expr _ ih =>
    rcases hx : unpackVal expr with ⟨_, x⟩
    simp only [hx] at ih
    simpa only [unpackVal, hx, columnRefs] using ih
  | binary op l r ty ihl ihr =>
    simp only [unpackVal]
    rcases hl : unpackVal l with ⟨_ | a, l'⟩ <;> simp only [hl] at ihl
    · exact ihl.append (List.Sublist.refl _)
    rcases hr : unpackVal r with ⟨_ | c, r'⟩ <;> simp only [hr] at ihr
    · exact ihl.append ihr
    simp only
    split
    · exact List.nil_sublist _
    · exact ihl.append ihr
  | _ => exact List.Sublist.refl _

lemma unpackVal_of_noIsNull {e : ScalarExpression} (h : NoIsNull e) :
    NoIsNull (unpackVal e).2 ∧ (unpackVal e).2.columnRefs = e.columnRefs ∧
      ∀ v, (unpackVal e).1 = some v → e.columnRefs = [] := by
  induction e with
  | «alias» expr _ ih | typeCast expr _ ih | unary _ expr _ ih =>
    simp only [noIsNull_alias, noIsNull_typeCast, noIsNull_unary] at h
    obtain ⟨ih1, ih2, ih3⟩ := ih h
    rcases hx : unpackVal expr with ⟨_ | w, x⟩ <;> simp only [hx] at ih1 ih2 ih3
    · simp [unpackVal, hx, columnRefs, ih1, ih2]
    · simp [unpackVal, hx, columnRefs, ih1, ih2, ih3 w rfl]
  | isNull => exact absurd h (not_noIsNull_isNull _)
  | binary op l r ty ihl ihr =>
    simp only [noIsNull_binary] at h
    obtain ⟨ihl1, ihl2, ihl3⟩ := ihl h.1
    obtain ⟨ihr1, ihr2, ihr3⟩ := ihr h.2
    rcases hl : unpackVal l with ⟨_ | a, l'⟩ <;> simp only [hl] at ihl1 ihl2 ihl3
    · simp [unpackVal, hl, columnRefs, ihl1, ihl2, h.2]
    rcases hr : unpackVal r with ⟨_ | c, r'⟩ <;> simp only [hr] at ihr1 ihr2 ihr3
    · simp [unpackVal, hl, hr, columnRefs, ihl1, ihl2, ihr1, ihr2]
    cases hop : binaryOp a c op
    · simp [unpackVal, hl, hr, hop, columnRefs, ihl1, ihl2, ihr1, ihr2]
    · simp [unpackVal, hl, hr, hop, columnRefs, ihl3 a rfl, ihr3 c rfl]
  | columnRef _ => simp [unpackVal]
  | _ => simp [unpackVal, columnRefs]

/-- An integer expression without a column: integer constants under `+` and `-`. -/
def isGroundInt : ScalarExpression → Bool
  | constant (.integer (some _)) => true
  | binary .plus a b _ | binary .minus a b _ => a.isGroundInt && b.isGroundInt
  | _ => false

section Ground

variable (t : Tuple)

lemma isGroundInt_binary {op : BinaryOperator} {a b : ScalarExpression} {ty : LogicalType}
    (h : (binary op a b ty).isGroundInt) : a.isGroundInt ∧ b.isGroundInt ∧ (op = .plus ∨ op = .minus) := by
  cases op
  case plus | minus =>
    obtain ⟨ha, hb⟩ := Bool.and_eq_true_iff.mp h
    exact ⟨ha, hb, by simp⟩
  all_goals cases h

lemma unpackVal_of_isGroundInt {g : ScalarExpression} (hg : g.isGroundInt) :
    ∃ v, eval t g = .ok (.integer (some v)) ∧
      unpackVal g = (some (.integer (some v)), constant (.integer (some v))) := by
  induction g with
  | constant val =>
    rcases val with _ | _ | _ | v <;> simp [isGroundInt] at hg
    exact ⟨v, rfl, rfl⟩
  | binary op a b ty iha ihb =>
    have hab := isGroundInt_binary hg
    obtain ⟨va, hea, hua⟩ := iha hab.1
    obtain ⟨vb, heb, hub⟩ := ihb hab.2.1
    rcases hab.2.2 with rfl | rfl
    · exact ⟨wrapInt32 (va + vb), by simp [eval, hea, heb, bind, Except.bind, binaryOp, intBinary],
        by simp [unpackVal, hua, hub, binaryOp, intBinary]⟩
    · exact ⟨wrapInt32 (va - vb), by simp [eval, hea, heb, bind, Except.bind, binaryOp, intBinary],
        by simp [unpackVal, hua, hub, binaryOp, intBinary]⟩
  | _ => simp [isGroundInt] at hg

lemma unpackCol_of_isGroundInt (b : Bool) {g : ScalarExpression} (hg : g.isGroundInt) :
    unpackCol b g = none := by
  obtain ⟨v, -, hu⟩ := unpackVal_of_isGroundInt ⟨[], [], rfl⟩ hg
  exact unpackCol_eq_none_of_unpackVal b (by rw [hu])

lemma isGroundInt_not_alias {g : ScalarExpression} (hg : g.isGroundInt) :
    ∀ n ∈ g.nodes, (n matches .alias _ _) = false := by
  induction g with
  | constant _ => simp [nodes]
  | binary op a b ty iha ihb =>
    obtain ⟨ha, hb, -⟩ := isGroundInt_binary hg
    simp only [nodes, List.mem_cons, List.mem_append]
    rintro n (rfl | hn | hn)
    exacts [rfl, iha ha n hn, ihb hb n hn]
  | _ => simp [isGroundInt] at hg

lemma columnRefs_of_isGroundInt {g : ScalarExpression} (hg : g.isGroundInt) : g.columnRefs = [] := by
  induction g with
  | constant _ => rfl
  | binary op a b ty iha ihb =>
    obtain ⟨ha, hb, -⟩ := isGroundInt_binary hg
    simp [columnRefs, iha ha, ihb hb]
  | _ => simp [isGroundInt] at hg

end Ground

end ScalarExpression

end KipSql
