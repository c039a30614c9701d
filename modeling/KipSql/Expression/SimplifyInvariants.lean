import KipSql.Expression.Simplify

/-! What every run of `_simplify` keeps: it terminates on twice the tree's size in fuel, never grows
the tree, and moves column references without copying them. -/

namespace KipSql

open ScalarExpression

lemma _simplify_of_simplify_ok {e e' : ScalarExpression} (h : simplify e = .ok e') :
    ∃ f', _simplify (2 * e.size) none e = .ok (e', f') := by
  rw [simplify] at h
  cases hs : _simplify (2 * e.size) none e with
  | error _ => rw [hs] at h; cases h
  | ok r => rw [hs] at h; cases h; exact ⟨r.2, rfl⟩

lemma _simplify_induction (P : ScalarExpression → ScalarExpression → Prop)
    (Q : ScalarExpression → ScalarExpression → ScalarExpression → ScalarExpression → Prop)
    (hbinary : ∀ op l r ty l₁ r₁ l₂ r₂ op₂, Q l r l₁ r₁ → Q r₁ l₁ r₂ l₂ →
      P (binary op l r ty) (binary op₂ l₂ r₂ ty))
    (halias : ∀ expr x aliasName, P expr x → P (.alias expr aliasName) (.alias x aliasName))
    (hleaf : ∀ fuel e e' f', (∀ op l r ty, e ≠ binary op l r ty) →
      (∀ x aliasName, e ≠ .alias x aliasName) → _simplify (fuel + 1) none e = .ok (e', f') → P e e')
    (hnone : ∀ l l₁ r, P l l₁ → rootReplace l₁ = none → Q l r l₁ r)
    (hfixBinary : ∀ l l₁ r op rb, P l l₁ → rootReplace l₁ = some (.binary rb) →
      Q l r (fixBinary rb r op).1 (fixBinary rb r op).2.1)
    (hfixUnary : ∀ l l₁ r op ru l' r', P l l₁ → rootReplace l₁ = some (.unary ru) →
      Q (fixUnary ru r op).1 (fixUnary ru r op).2.1 l' r' → Q l r l' r')
    (fuel : Nat) :
    (∀ {e e' f'}, _simplify fuel none e = .ok (e', f') → P e e') ∧
      ∀ {l r op l' r' op' f'}, fixExpr fuel none l r op = .ok (l', r', op', f') → Q l r l' r' := by
  induction fuel with
  | zero => refine ⟨fun h => ?_, fun h => ?_⟩ <;> cases h
  | succ fuel ih =>
    refine ⟨fun {e e' f'} h => ?_, fun {l r op l' r' op' f'} h => ?_⟩
    · cases e with
      | binary op l r ty =>
        simp only [_simplify] at h
        obtain ⟨⟨l₁, r₁, op₁, f₁⟩, h₁, h⟩ := (bind_eq_ok _ _ _).mp h
        obtain ⟨⟨r₂, l₂, op₂, f₂⟩, h₂, h⟩ := (bind_eq_ok _ _ _).mp h
        cases h
        obtain rfl := fixExpr_clears fuel h₁
        exact hbinary op l r ty l₁ r₁ l₂ r₂ op₂ (ih.2 h₁) (ih.2 h₂)
      | «alias» expr aliasName =>
        simp only [_simplify] at h
        obtain ⟨⟨x, fx⟩, hx, h⟩ := (bind_eq_ok _ _ _).mp h
        cases h
        exact halias expr x aliasName (ih.1 hx)
      | _ => exact hleaf fuel _ e' f' (fun _ _ _ _ => nofun) (fun _ _ => nofun) h
    · simp only [fixExpr] at h
      obtain ⟨⟨l₁, fo⟩, h₁, h⟩ := (bind_eq_ok _ _ _).mp h
      have hP := ih.1 h₁
      obtain rfl := _simplify_publishes fuel h₁
      rcases hfo : rootReplace l₁ with _ | (rb | ru) <;> simp only [hfo] at h
      · cases h
        exact hnone _ _ _ hP hfo
      · rcases hfb : fixBinary rb r op with ⟨l₂, r₂, op₂⟩
        have hQ := hfixBinary l l₁ r op rb hP hfo
        simp only [hfb] at h hQ
        cases h
        exact hQ
      · exact hfixUnary l l₁ r op ru l' r' hP hfo (ih.2 h)

lemma size_unpackVal_le (e : ScalarExpression) : (unpackVal e).2.size ≤ e.size := by
  induction e with
  | «alias» expr _ ih | typeCast expr _ ih | isNull expr _ ih | unary _ expr _ ih =>
    rcases hx : unpackVal expr with ⟨_, x⟩
    simp only [hx] at ih
    simp only [unpackVal, hx, size]
    omega
  | binary op l r ty ihl ihr =>
    simp only [unpackVal]
    rcases hl : unpackVal l with ⟨_ | a, l'⟩ <;> simp only [hl] at ihl
    · simp only [size]; omega
    rcases hr : unpackVal r with ⟨_ | c, r'⟩ <;> simp only [hr] at ihr
    · simp only [size]; omega
    simp only
    split <;> simp only [size] <;> omega
  | _ => simp [unpackVal]

lemma size_of_rootReplace (e : ScalarExpression) :
    (∀ ru, rootReplace e = some (.unary ru) → ru.childExpr.size < e.size) ∧
      ∀ rb, rootReplace e = some (.binary rb) → rb.columnExpr.size + rb.valExpr.size < e.size := by
  induction e with
  | «alias» expr _ ih =>
    exact ⟨fun ru h => Nat.lt_succ_of_lt (ih.1 ru h), fun rb h => Nat.lt_succ_of_lt (ih.2 rb h)⟩
  | unary op expr ty =>
    refine ⟨fun ru h => ?_, fun rb h => by cases h⟩
    cases h
    exact Nat.lt_succ_self _
  | binary op l r ty =>
    simp only [rootReplace, publishBinary]
    split_ifs
    · have := one_le_size l
      have := one_le_size r
      constructor <;> intro x h <;> split at h <;> cases h <;> simp only [size] <;> omega
    · simp
  | _ => simp [rootReplace]

lemma size_fixBinary (rb : ReplaceBinary) (right : ScalarExpression) (op : BinaryOperator) :
    (fixBinary rb right op).1.size + (fixBinary rb right op).2.1.size =
      rb.columnExpr.size + rb.valExpr.size + right.size + 1 := by
  unfold fixBinary
  split <;> simp only [size] <;> omega

lemma _simplify_size_le (fuel : Nat) :
    (∀ {e e' f'}, _simplify fuel none e = .ok (e', f') → e'.size ≤ e.size) ∧
    ∀ {l r op l' r' op' f'}, fixExpr fuel none l r op = .ok (l', r', op', f') →
      l'.size + r'.size ≤ l.size + r.size := by
  refine _simplify_induction _ _ ?binary ?«alias» ?leaf ?none ?fixBinary ?fixUnary fuel
  case binary =>
    intro _ _ _ _ _ _ _ _ _ h₁ h₂
    simp only [size]
    omega
  case «alias» => exact fun _ _ _ h => Nat.succ_le_succ h
  case leaf =>
    intro fuel e e' f' hb ha h
    cases e with
    | binary => exact absurd rfl (hb _ _ _ _)
    | «alias» => exact absurd rfl (ha _ _)
    | typeCast expr ty | isNull expr negated | unary op expr ty =>
      have := size_unpackVal_le expr
      simp only [_simplify] at h
      split at h
      · try obtain ⟨_, -, h⟩ := (bind_eq_ok _ _ _).mp h
        cases h
        simp only [size]
        omega
      · rename_i heq
        cases h
        simp only [heq] at this
        simp only [size]
        omega
    | constant _ | columnRef _ | aggCall => cases h; exact le_rfl
  case none => exact fun _ _ _ h _ => Nat.add_le_add_right h _
  case fixBinary =>
    intro l l₁ r op rb h hfo
    have := (size_of_rootReplace l₁).2 rb hfo
    have := size_fixBinary rb r op
    omega
  case fixUnary =>
    intro l l₁ r op ru l' r' h hfo hQ
    have := (size_of_rootReplace l₁).1 ru hfo
    simp only [fixUnary, size] at hQ
    omega

lemma bind_ne_exhausted {α β : Type} {x : Except Fault α} {g : α → Except Fault β}
    (hx : x ≠ .error .exhausted) (hg : ∀ a, x = .ok a → g a ≠ .error .exhausted) :
    x >>= g ≠ .error .exhausted := by
  cases x <;> simp_all [bind, Except.bind]

lemma _simplify_ne_exhausted (fuel : Nat) :
    (∀ e, 2 * e.size ≤ fuel → _simplify fuel none e ≠ .error .exhausted) ∧
    ∀ l r op, 2 * l.size + 1 ≤ fuel → fixExpr fuel none l r op ≠ .error .exhausted := by
  induction fuel with
  | zero => exact ⟨fun e h => absurd h (by have := one_le_size e; omega), fun _ _ _ h => by omega⟩
  | succ fuel ih =>
    refine ⟨fun e he => ?_, fun l r op hl => ?_⟩
    · cases e with
      | binary op l r ty =>
        simp only [size] at he
        refine bind_ne_exhausted (ih.2 _ _ _ (by omega)) fun ⟨l₁, r₁, op₁, f₁⟩ h₁ => ?_
        obtain rfl := fixExpr_clears fuel h₁
        have := (_simplify_size_le fuel).2 h₁
        have := one_le_size l₁
        exact bind_ne_exhausted (ih.2 _ _ _ (by omega)) fun _ _ => Except.noConfusion
      | «alias» expr aliasName =>
        simp only [size] at he
        exact bind_ne_exhausted (ih.1 _ (by omega)) fun _ _ => Except.noConfusion
      | typeCast expr ty | isNull expr negated | unary op expr ty =>
        simp only [_simplify]
        split
        · first
            | exact Except.noConfusion
            | refine bind_ne_exhausted ?_ fun _ _ => Except.noConfusion
              unfold Except.mapError
              split <;> simp
        · exact Except.noConfusion
      | constant _ | columnRef _ | aggCall => exact Except.noConfusion
    · refine bind_ne_exhausted (ih.1 _ (by omega)) fun ⟨l₁, fo⟩ h₁ => ?_
      obtain rfl := _simplify_publishes fuel h₁
      have := (_simplify_size_le fuel).1 h₁
      rcases hfo : rootReplace l₁ with _ | (rb | ru)
      · exact Except.noConfusion
      · exact Except.noConfusion
      · have := (size_of_rootReplace l₁).1 ru hfo
        exact ih.2 _ _ _ (by omega)

lemma bind_congr_of_ne_exhausted {α β : Type} {x x' : Except Fault α} {g g' : α → Except Fault β}
    (hx : x ≠ .error .exhausted → x' = x) (hg : ∀ a, g a ≠ .error .exhausted → g' a = g a)
    (h : x >>= g ≠ .error .exhausted) : x' >>= g' = x >>= g := by
  cases x <;> simp_all [bind, Except.bind]

lemma _simplify_fuel_mono (n : Nat) :
    (∀ m f e, n ≤ m → _simplify n f e ≠ .error .exhausted → _simplify m f e = _simplify n f e) ∧
    ∀ m f l r op, n ≤ m → fixExpr n f l r op ≠ .error .exhausted →
      fixExpr m f l r op = fixExpr n f l r op := by
  induction n with
  | zero => exact ⟨fun _ _ _ _ h => absurd rfl h, fun _ _ _ _ _ _ h => absurd rfl h⟩
  | succ n ih =>
    refine ⟨fun m f e hm h => ?_, fun m f l r op hm h => ?_⟩
    · obtain ⟨m, rfl⟩ : ∃ k, m = k + 1 := ⟨m - 1, by omega⟩
      cases e with
      | binary op l r ty =>
        exact bind_congr_of_ne_exhausted (ih.2 _ _ _ _ _ (by omega)) (fun ⟨_, _, _, _⟩ h =>
          bind_congr_of_ne_exhausted (ih.2 _ _ _ _ _ (by omega)) (fun _ _ => rfl) h) h
      | «alias» expr _ =>
        exact bind_congr_of_ne_exhausted (ih.1 _ _ _ (by omega)) (fun _ _ => rfl) h
      | _ => rfl
    · obtain ⟨m, rfl⟩ : ∃ k, m = k + 1 := ⟨m - 1, by omega⟩
      refine bind_congr_of_ne_exhausted (ih.1 _ _ _ (by omega)) (fun ⟨_, fo⟩ h => ?_) h
      rcases fo with _ | (_ | _)
      · rfl
      · rfl
      · exact ih.2 _ _ _ _ _ (by omega) h

/-- The recursion of `_simplify` through `fix_expr` terminates on every tree: from twice the tree's
size on, the fuel never runs out and the result no longer depends on it. The rewritten tree has at
most as many nodes as the tree. -/
theorem _simplify_terminates (e : ScalarExpression) :
    (∀ fuel, 2 * e.size ≤ fuel →
      _simplify fuel none e ≠ .error .exhausted ∧ _simplify fuel none e = _simplify (2 * e.size) none e) ∧
    ∀ e', simplify e = .ok e' → e'.size ≤ e.size := by
  refine ⟨fun fuel hf => ⟨(_simplify_ne_exhausted fuel).1 e hf,
    (_simplify_fuel_mono _).1 fuel none e hf ((_simplify_ne_exhausted _).1 e le_rfl)⟩, fun e' he => ?_⟩
  obtain ⟨_, hs⟩ := _simplify_of_simplify_ok he
  exact (_simplify_size_le _).1 hs

theorem _simplify_terminates_neg :
    2 * (binary .gt (unary .minus (columnRef c1) .integer) (constant (.integer (some 5))) .boolean).size ≤ 20 ∧
    (_simplify 20 none (binary .gt (unary .minus (columnRef c1) .integer) (constant (.integer (some 5)))
        .boolean) ≠ .error .exhausted ∧
      _simplify 20 none (binary .gt (unary .minus (columnRef c1) .integer) (constant (.integer (some 5)))
        .boolean) =
      _simplify (2 * (binary .gt (unary .minus (columnRef c1) .integer) (constant (.integer (some 5)))
        .boolean).size) none (binary .gt (unary .minus (columnRef c1) .integer)
          (constant (.integer (some 5))) .boolean)) ∧
    simplify (binary .gt (unary .minus (columnRef c1) .integer) (constant (.integer (some 5))) .boolean) =
      .ok (binary .lt (columnRef c1) (constant (.integer (some (-5)))) .boolean) ∧
    (binary .lt (columnRef c1) (constant (.integer (some (-5)))) .boolean).size ≤
      (binary .gt (unary .minus (columnRef c1) .integer) (constant (.integer (some 5))) .boolean).size := by
  refine ⟨?h1, (_simplify_terminates _).1 20 ?h1, ?h2, (_simplify_terminates _).2 _ ?h2⟩
  · decide
  · rfl

lemma columnRefs_of_rootReplace (e : ScalarExpression) :
    (∀ ru, rootReplace e = some (.unary ru) →
      ru.childExpr.columnRefs = e.columnRefs ∧ (NoIsNull e → NoIsNull ru.childExpr)) ∧
    ∀ rb, rootReplace e = some (.binary rb) →
      (rb.columnExpr.columnRefs ++ rb.valExpr.columnRefs).Perm e.columnRefs ∧
        (NoIsNull e → NoIsNull rb.columnExpr ∧ NoIsNull rb.valExpr) := by
  induction e with
  | «alias» expr _ ih => simpa only [rootReplace, columnRefs, noIsNull_alias] using ih
  | unary op expr ty =>
    refine ⟨fun ru h => ?_, fun rb h => by cases h⟩
    cases h
    exact ⟨rfl, (noIsNull_unary op).mp⟩
  | binary op l r ty =>
    simp only [rootReplace, publishBinary]
    split_ifs
    · constructor <;> intro x h <;> split at h <;> cases h
      · rename_i hl _
        simp [columnRefs, columnRefs_of_unpackCol_true hl]
      · rename_i hr
        simp only [columnRefs, columnRefs_of_unpackCol_true hr, noIsNull_binary, noIsNull_columnRef,
          true_and]
        exact ⟨List.perm_append_comm, And.left⟩
    · simp
  | _ => simp [rootReplace]

lemma columnRefs_fixBinary (rb : ReplaceBinary) (right : ScalarExpression) (op : BinaryOperator) :
    ((fixBinary rb right op).1.columnRefs ++ (fixBinary rb right op).2.1.columnRefs).Perm
      (rb.columnExpr.columnRefs ++ rb.valExpr.columnRefs ++ right.columnRefs) ∧
    (NoIsNull rb.columnExpr → NoIsNull rb.valExpr → NoIsNull right →
      NoIsNull (fixBinary rb right op).1 ∧ NoIsNull (fixBinary rb right op).2.1) := by
  unfold fixBinary
  split
  · simp only [columnRefs, noIsNull_binary, List.append_assoc]
    exact ⟨List.perm_append_comm.append_left _, fun h1 h2 h3 => ⟨h1, h3, h2⟩⟩
  · simp only [columnRefs, noIsNull_binary, List.append_assoc]
    exact ⟨List.Perm.refl _, fun h1 h2 h3 => ⟨h1, h2, h3⟩⟩

lemma _simplify_columnRefs (fuel : Nat) :
    (∀ {e e' f'}, _simplify fuel none e = .ok (e', f') →
      e'.columnRefs.Subperm e.columnRefs ∧ (NoIsNull e → NoIsNull e' ∧ e'.columnRefs.Perm e.columnRefs)) ∧
    ∀ {l r op l' r' op' f'}, fixExpr fuel none l r op = .ok (l', r', op', f') →
      (l'.columnRefs ++ r'.columnRefs).Subperm (l.columnRefs ++ r.columnRefs) ∧
        (NoIsNull l → NoIsNull r → NoIsNull l' ∧ NoIsNull r' ∧
          (l'.columnRefs ++ r'.columnRefs).Perm (l.columnRefs ++ r.columnRefs)) := by
  refine _simplify_induction _ _ ?binary ?«alias» ?leaf ?none ?fixBinary ?fixUnary fuel
  case binary =>
    intro _ _ _ _ _ _ _ _ _ ⟨hs₁, hp₁⟩ ⟨hs₂, hp₂⟩
    simp only [columnRefs, noIsNull_binary]
    refine ⟨(List.perm_append_comm.subperm.trans hs₂).trans (List.perm_append_comm.subperm.trans hs₁),
      fun ⟨hl, hr⟩ => ?_⟩
    obtain ⟨hl₁, hr₁, hp₁⟩ := hp₁ hl hr
    obtain ⟨hr₂, hl₂, hp₂⟩ := hp₂ hr₁ hl₁
    exact ⟨⟨hl₂, hr₂⟩, (List.perm_append_comm.trans hp₂).trans (List.perm_append_comm.trans hp₁)⟩
  case «alias» => exact fun _ _ _ h => by simpa only [columnRefs, noIsNull_alias] using h
  case leaf =>
    intro fuel e e' f' hb ha h
    cases e with
    | binary => exact absurd rfl (hb _ _ _ _)
    | «alias» => exact absurd rfl (ha _ _)
    | typeCast expr ty | isNull expr negated | unary op expr ty =>
      simp only [_simplify] at h
      split at h <;> rename_i heq
      · try obtain ⟨_, -, h⟩ := (bind_eq_ok _ _ _).mp h
        cases h
        refine ⟨List.nil_subperm, fun hn => ⟨noIsNull_constant _, ?_⟩⟩
        simp only [noIsNull_typeCast, noIsNull_unary, not_noIsNull_isNull] at hn <;>
          exact .of_eq ((unpackVal_of_noIsNull hn).2.2 _ (by rw [heq])).symm
      · cases h
        have hsub := columnRefs_unpackVal_sublist expr
        rw [heq] at hsub
        refine ⟨hsub.subperm, fun hn => ?_⟩
        simp only [noIsNull_typeCast, noIsNull_unary, not_noIsNull_isNull] at hn ⊢ <;>
          obtain ⟨h1, h2, -⟩ := unpackVal_of_noIsNull hn <;>
          rw [heq] at h1 h2 <;>
          exact ⟨h1, .of_eq h2⟩
    | constant _ | columnRef _ | aggCall =>
      cases h
      exact ⟨List.Subperm.refl _, fun h => ⟨h, List.Perm.refl _⟩⟩
  case none =>
    intro _ _ _ ⟨hs₁, hp₁⟩ _
    exact ⟨(List.subperm_append_right _).mpr hs₁, fun hl hr => ⟨(hp₁ hl).1, hr, (hp₁ hl).2.append_right _⟩⟩
  case fixBinary =>
    intro l l₁ r op rb ⟨hs₁, hp₁⟩ hfo
    obtain ⟨hcb, hnb⟩ := (columnRefs_of_rootReplace l₁).2 rb hfo
    obtain ⟨hc, hn⟩ := columnRefs_fixBinary rb r op
    have hperm := hc.trans (hcb.append_right _)
    refine ⟨hperm.subperm.trans ((List.subperm_append_right _).mpr hs₁), fun hl hr => ?_⟩
    obtain ⟨h1, h2⟩ := hp₁ hl
    obtain ⟨hc1, hv⟩ := hnb h1
    exact ⟨(hn hc1 hv hr).1, (hn hc1 hv hr).2, hperm.trans (h2.append_right _)⟩
  case fixUnary =>
    intro l l₁ r op ru l' r' ⟨hs₁, hp₁⟩ hfo ⟨hs₂, hp₂⟩
    obtain ⟨hcu, hnu⟩ := (columnRefs_of_rootReplace l₁).1 ru hfo
    simp only [fixUnary, columnRefs, noIsNull_unary, hcu] at hs₂ hp₂
    refine ⟨hs₂.trans ((List.subperm_append_right _).mpr hs₁), fun hl hr => ?_⟩
    obtain ⟨h1, h2⟩ := hp₁ hl
    obtain ⟨n1, n2, hp⟩ := hp₂ (hnu h1) hr
    exact ⟨n1, n2, hp.trans (h2.append_right _)⟩

/-- `simplify` never duplicates or invents a column reference, and on a tree with no `IS NULL` it
keeps every one: the rewritten tree refers to the same columns, each as often. -/
theorem simplify_keeps_columnRefs (e e' : ScalarExpression) (h : simplify e = .ok e') :
    e'.columnRefs.Subperm e.columnRefs ∧ (NoIsNull e → e'.columnRefs.Perm e.columnRefs) := by
  obtain ⟨_, hs⟩ := _simplify_of_simplify_ok h
  obtain ⟨hsub, hperm⟩ := (_simplify_columnRefs _).1 hs
  exact ⟨hsub, fun hn => (hperm hn).2⟩

theorem simplify_keeps_columnRefs_neg :
    simplify (binary .gt (unary .minus (columnRef c1) .integer) (constant (.integer (some 5))) .boolean) =
      .ok (binary .lt (columnRef c1) (constant (.integer (some (-5)))) .boolean) ∧
    NoIsNull (binary .gt (unary .minus (columnRef c1) .integer) (constant (.integer (some 5))) .boolean) ∧
    (binary .lt (columnRef c1) (constant (.integer (some (-5)))) .boolean).columnRefs.Subperm
      (binary .gt (unary .minus (columnRef c1) .integer) (constant (.integer (some 5))) .boolean).columnRefs ∧
    (binary .lt (columnRef c1) (constant (.integer (some (-5)))) .boolean).columnRefs.Perm
      (binary .gt (unary .minus (columnRef c1) .integer) (constant (.integer (some 5))) .boolean).columnRefs := by
  refine ⟨?h1, ?h2, (simplify_keeps_columnRefs _ _ ?h1).1, (simplify_keeps_columnRefs _ _ ?h1).2 ?h2⟩
  · rfl
  · decide

end KipSql
