import KipSql.Range.ScopeAggregation
import KipSql.Range.Rearrange

/-! The two normalizers on the shapes the comments on `ConstantBinary` document. -/

namespace KipSql

namespace ConstantBinary

variable {α : Type}

section Order

variable [LinearOrder α]

end Order

end ConstantBinary

/-- The closure `op` of `is_null`: a bound holding a NULL value. -/
def Bound.isNullBound : Bound DataValue → Bool
  | .included v | .excluded v => v.isNull
  | .unbounded => false

namespace ConstantBinary

/-- `ConstantBinary::is_null`. -/
def isNull : ConstantBinary DataValue → Except Fault Bool
  | scope min max =>
    if min.isNullBound || max.isNullBound then pure true
    else pure ((min, max) matches (.unbounded, .unbounded))
  | eq v | notEq v => pure v.isNull
  | and _ | or _ => throw (.typeError .invalidType)

def Aggregation.NullFree (st : Aggregation DataValue) : Prop :=
  st.scopeMin.isNullBound = false ∧ st.scopeMax.isNullBound = false ∧ ∀ v ∈ st.eqSet, v.isNull = false

lemma tighten_eq_or {β : Type} [PartialCmp β] (cur new : Bound β) (m : Bool) (hit : Ordering → Bool) :
    tighten cur new m hit = cur ∨ tighten cur new m hit = new := by
  unfold tighten
  split
  · split_ifs <;> simp
  · exact .inl rfl

lemma aggregate_nullFree {st st' : Aggregation DataValue} (hst : st.NullFree) {c : ConstantBinary DataValue}
    (hc : c.isNull = .ok false) (h : aggregate st c = .ok st') : st'.NullFree := by
  obtain ⟨hmin, hmax, heq⟩ := hst
  cases c with
  | scope lo hi =>
    have hb : lo.isNullBound = false ∧ hi.isNullBound = false := by
      cases hlo : lo.isNullBound <;> cases hhi : hi.isNullBound <;>
        simp [isNull, hlo, hhi, pure, Except.pure] at hc ⊢
    simp only [aggregate] at h
    split_ifs at h <;> cases h
    · exact ⟨hmin, hmax, heq⟩
    · refine ⟨?_, ?_, heq⟩ <;>
        [rcases tighten_eq_or st.scopeMin lo true Ordering.isLT with h | h;
          rcases tighten_eq_or st.scopeMax hi false Ordering.isGT with h | h] <;>
        simp only [h, hmin, hmax, hb]
  | eq v =>
    cases h
    refine ⟨hmin, hmax, fun w hw => ?_⟩
    rcases List.mem_insert_iff.mp hw with rfl | hw
    exacts [by simpa [isNull, pure, Except.pure] using hc, heq w hw]
  | notEq v =>
    cases h
    exact ⟨hmin, hmax, fun w hw => heq w (List.mem_of_mem_erase hw)⟩
  | and _ | or _ => cases hc

lemma foldlM_aggregate_nullFree (l : List (ConstantBinary DataValue)) (hl : ∀ c ∈ l, c.isNull = .ok false)
    {st : Aggregation DataValue} (hst : st.NullFree) {st' : Aggregation DataValue}
    (h : l.foldlM aggregate st = .ok st') : st'.NullFree := by
  induction l generalizing st with
  | nil =>
    cases h
    exact hst
  | cons c l ih =>
    obtain ⟨st₁, h₁, h⟩ := (bind_eq_ok _ _ _).mp h
    exact ih (fun d hd => hl d (List.mem_cons_of_mem _ hd))
      (aggregate_nullFree hst (hl c (List.mem_cons_self _ _)) h₁) h

lemma aggregated_not_isNull {st : Aggregation DataValue} (hst : st.NullFree) :
    ∀ y ∈ aggregated st, y.isNull = .ok false := by
  obtain ⟨hmin, hmax, heq⟩ := hst
  intro y hy
  simp only [aggregated] at hy
  split_ifs at hy with _ hu
  · obtain ⟨v, hv, rfl⟩ := List.mem_map.mp hy
    simp [isNull, heq v ((List.perm_insertionSort _ _).subset hv), pure, Except.pure]
  · rw [List.mem_singleton.mp hy]
    simp only [isNull, hmin, hmax, Bool.or_self, Bool.false_eq_true, if_false]
    revert hu
    cases st.scopeMin <;> cases st.scopeMax <;> simp [pure, Except.pure]
  · cases hy

/-- `_scope_aggregation` builds only ranges `is_null` answers `false` for from leaves it answers
`false` for: its `Eq`s and bounds are values of the leaves, and it never builds the `Scope`
unbounded both ways. -/
theorem _scopeAggregation_keeps_not_isNull (xs : List (ConstantBinary DataValue))
    (hxs : ∀ b ∈ xs, b.isNull = .ok false) :
    ∃ ys, _scopeAggregation xs = .ok ys ∧ ∀ y ∈ ys, y.isNull = .ok false := by
  have hleaf : ∀ b ∈ xs, b.isLeaf := fun b hb => by
    have := hxs b hb
    cases b <;> first | rfl | cases this
  obtain ⟨st, hst⟩ := foldlM_aggregate_ok _
    (fun b hb => hleaf b ((List.perm_insertionSort (fun a b : ConstantBinary DataValue =>
      a.aggregationRank ≤ b.aggregationRank) xs).subset hb)) ⟨.unbounded, .unbounded, [], List.nodup_nil⟩
  have hinit : Aggregation.NullFree ⟨.unbounded, .unbounded, [], List.nodup_nil⟩ := ⟨rfl, rfl, by simp⟩
  refine ⟨aggregated st, by simp [_scopeAggregation, hst, bind, Except.bind, pure, Except.pure],
    aggregated_not_isNull (foldlM_aggregate_nullFree _ (fun c hc => hxs c ?_) hinit hst)⟩
  exact (List.perm_insertionSort _ xs).subset hc

theorem _scopeAggregation_keeps_not_isNull_mixed :
    (∀ b ∈ [scope (.included (DataValue.integer (some 0))) .unbounded, eq (.integer (some 2)),
      notEq (.integer (some 2)), scope .unbounded (.excluded (.integer (some 5)))], b.isNull = .ok false) ∧
    ∃ ys, _scopeAggregation [scope (.included (DataValue.integer (some 0))) .unbounded, eq (.integer (some 2)),
      notEq (.integer (some 2)), scope .unbounded (.excluded (.integer (some 5)))] = .ok ys ∧
      ∀ y ∈ ys, y.isNull = .ok false := by
  refine ⟨?h, _scopeAggregation_keeps_not_isNull _ ?h⟩
  intro b hb
  simp only [List.mem_cons, List.mem_nil_iff, or_false] at hb
  rcases hb with rfl | rfl | rfl | rfl <;> rfl

end ConstantBinary

end KipSql
