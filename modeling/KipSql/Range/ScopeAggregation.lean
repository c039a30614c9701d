import KipSql.Range.ConstantBinary

/-! `scope_aggregation`, the AND-narrowing of a range: over a NULL-free total order an `And` of
leaves becomes its sorted surviving `Eq`s, or the intersection of its `Scope`s, or nothing. -/

namespace KipSql

namespace ConstantBinary

variable {α : Type} [PartialCmp α] [DecidableEq α]

/-- The key `sort_op` of `_scope_aggregation`. -/
def aggregationRank : ConstantBinary α → Nat
  | and _ | or _ => 0
  | eq _ => 1
  | notEq _ => 2
  | scope .. => 3

/-- The loop state of `_scope_aggregation`; the hash set `eq_set` is a list without duplicates. -/
structure Aggregation (α : Type) where
  scopeMin : Bound α
  scopeMax : Bound α
  eqSet : List α
  nodup : eqSet.Nodup

/-- `if let Some(order) = bound_compared(cur, new, is_min) { if hit(order) { cur = new } }`. -/
def tighten (cur new : Bound α) (isMin : Bool) (hit : Ordering → Bool) : Bound α :=
  match boundCompared cur new isMin with
  | some o => if hit o then new else cur
  | none => cur

/-- One pass of the loop of `_scope_aggregation`. -/
def aggregate (st : Aggregation α) : ConstantBinary α → Except Fault (Aggregation α)
  | scope min max =>
    if !st.eqSet.isEmpty then pure st
    else pure { st with
      scopeMin := tighten st.scopeMin min true Ordering.isLT
      scopeMax := tighten st.scopeMax max false Ordering.isGT }
  | eq v => pure { st with eqSet := st.eqSet.insert v, nodup := st.nodup.insert }
  | notEq v => pure { st with eqSet := st.eqSet.erase v, nodup := st.nodup.erase v }
  | and _ | or _ => throw (.typeError .invalidType)

/-- The end of `_scope_aggregation`: the list that replaces `binaries` after the loop. -/
def aggregated (st : Aggregation α) : List (ConstantBinary α) :=
  let eqBinaries := (st.eqSet.insertionSort (fun a b => (partialCmp a b).getD .eq ≠ .gt)).map eq
  if !eqBinaries.isEmpty then eqBinaries
  else if !(st.scopeMin matches .unbounded && st.scopeMax matches .unbounded) then
    [scope st.scopeMin st.scopeMax]
  else []

/-- `ConstantBinary::_scope_aggregation`; Rust's stable sorts are `List.insertionSort`. -/
def _scopeAggregation (binaries : List (ConstantBinary α)) :
    Except Fault (List (ConstantBinary α)) := do
  let st ← (binaries.insertionSort (fun a b => a.aggregationRank ≤ b.aggregationRank)).foldlM
    aggregate ⟨.unbounded, .unbounded, [], List.nodup_nil⟩
  pure (aggregated st)

mutual
/-- `ConstantBinary::scope_aggregation`. -/
def scopeAggregation : ConstantBinary α → Except Fault (ConstantBinary α)
  | and binaries => and <$> _scopeAggregation binaries
  | or binaries => or <$> scopeAggregationAll binaries
  | b => pure b

def scopeAggregationAll : List (ConstantBinary α) → Except Fault (List (ConstantBinary α))
  | [] => pure []
  | b :: bs => do
    let b ← scopeAggregation b
    let bs ← scopeAggregationAll bs
    pure (b :: bs)
end

example : _scopeAggregation [scope (.excluded (0 : Int)) (.included 3),
    scope (.included 1) (.excluded 2), scope (.excluded 1) (.included 2),
    scope (.included 0) (.excluded 3), scope .unbounded .unbounded, eq 1, eq 0, notEq 1] =
    .ok [eq 0] := rfl

lemma foldlM_aggregate_ok (l : List (ConstantBinary α)) (hl : ∀ b ∈ l, b.isLeaf)
    (st : Aggregation α) : ∃ st', l.foldlM aggregate st = .ok st' := by
  induction l generalizing st with
  | nil => exact ⟨st, rfl⟩
  | cons b l ih =>
    obtain ⟨st₁, h₁⟩ : ∃ st₁, aggregate st b = .ok st₁ := by
      have hb := hl b (List.mem_cons_self _ _)
      cases b <;> simp [isLeaf] at hb <;> simp only [aggregate] <;> (try split) <;> exact ⟨_, rfl⟩
    obtain ⟨st', h'⟩ := ih (fun c hc => hl c (List.mem_cons_of_mem _ hc)) st₁
    exact ⟨st', by simp [h₁, h', bind, Except.bind]⟩

omit [DecidableEq α] in
lemma aggregated_leaves (st : Aggregation α) : ∀ b ∈ aggregated st, b.isLeaf := by
  intro b hb
  simp only [aggregated] at hb
  split_ifs at hb
  · obtain ⟨v, -, rfl⟩ := List.mem_map.mp hb
    rfl
  · rw [List.mem_singleton.mp hb]
    rfl
  · cases hb

lemma _scopeAggregation_leaves (xs : List (ConstantBinary α)) (hxs : ∀ b ∈ xs, b.isLeaf) :
    ∃ ys, _scopeAggregation xs = .ok ys ∧ ∀ y ∈ ys, y.isLeaf := by
  obtain ⟨st, hst⟩ := foldlM_aggregate_ok _
    (fun b hb => hxs b ((List.perm_insertionSort (fun a b : ConstantBinary α =>
      a.aggregationRank ≤ b.aggregationRank) xs).subset hb)) ⟨.unbounded, .unbounded, [], List.nodup_nil⟩
  exact ⟨aggregated st, by simp [_scopeAggregation, hst, bind, Except.bind, pure, Except.pure],
    aggregated_leaves st⟩

lemma scopeAggregationAll_leaves (xs : List (ConstantBinary α)) (hxs : ∀ b ∈ xs, b.isLeaf) :
    scopeAggregationAll xs = .ok xs := by
  induction xs with
  | nil => rfl
  | cons b xs ih =>
    have hb := hxs b (List.mem_cons_self _ _)
    rw [scopeAggregationAll, ih (fun c hc => hxs c (List.mem_cons_of_mem _ hc))]
    cases b <;> simp [isLeaf] at hb <;> rfl

section Order

variable {α : Type} [LinearOrder α]

lemma tighten_min (a b : Bound α) :
    tighten a b true Ordering.isLT = if a.key true < b.key true then b else a := by
  obtain ⟨o, ho⟩ := Option.isSome_iff_exists.mp (boundCompared_isSome a b true)
  have h := boundCompared_eq_lt a b true
  rw [ho] at h
  cases o <;> simp [tighten, ho, Ordering.isLT, ← h]

lemma tighten_max (a b : Bound α) :
    tighten a b false Ordering.isGT = if b.key false < a.key false then b else a := by
  obtain ⟨o, ho⟩ := Option.isSome_iff_exists.mp (boundCompared_isSome a b false)
  have h := boundCompared_eq_gt a b false
  rw [ho] at h
  cases o <;> simp [tighten, ho, Ordering.isGT, ← h]

lemma admitsAbove_tighten (a b : Bound α) (x : α) :
    (tighten a b true Ordering.isLT).admitsAbove x ↔ a.admitsAbove x ∧ b.admitsAbove x := by
  rw [tighten_min]
  simp only [admitsAbove_iff]
  split_ifs with h
  · exact ⟨fun hb => ⟨h.le.trans hb, hb⟩, And.right⟩
  · exact ⟨fun ha => ⟨ha, (not_lt.mp h).trans ha⟩, And.left⟩

lemma admitsBelow_tighten (a b : Bound α) (x : α) :
    (tighten a b false Ordering.isGT).admitsBelow x ↔ a.admitsBelow x ∧ b.admitsBelow x := by
  rw [tighten_max]
  simp only [admitsBelow_iff]
  split_ifs with h
  · exact ⟨fun hb => ⟨hb.trans h.le, hb⟩, And.right⟩
  · exact ⟨fun ha => ⟨ha, ha.trans (not_lt.mp h)⟩, And.left⟩

lemma foldlM_eqs (l : List (ConstantBinary α)) (hl : ∀ b ∈ l, ∃ v, b = eq v)
    (st : Aggregation α) : ∃ st', l.foldlM aggregate st = .ok st' ∧ st'.scopeMin = st.scopeMin ∧
      st'.scopeMax = st.scopeMax ∧ ∀ v, v ∈ st'.eqSet ↔ v ∈ st.eqSet ∨ eq v ∈ l := by
  induction l generalizing st with
  | nil => exact ⟨st, rfl, rfl, rfl, by simp⟩
  | cons b l ih =>
    obtain ⟨w, rfl⟩ := hl b (List.mem_cons_self _ _)
    obtain ⟨st', h, hmin, hmax, hmem⟩ := ih (fun b hb => hl b (List.mem_cons_of_mem _ hb)) _
    refine ⟨st', h, hmin, hmax, fun v => ?_⟩
    rw [hmem v]
    simp [List.mem_insert_iff, or_assoc, or_left_comm]

lemma foldlM_notEqs (l : List (ConstantBinary α)) (hl : ∀ b ∈ l, ∃ v, b = notEq v)
    (st : Aggregation α) : ∃ st', l.foldlM aggregate st = .ok st' ∧ st'.scopeMin = st.scopeMin ∧
      st'.scopeMax = st.scopeMax ∧ ∀ v, v ∈ st'.eqSet ↔ v ∈ st.eqSet ∧ notEq v ∉ l := by
  induction l generalizing st with
  | nil => exact ⟨st, rfl, rfl, rfl, by simp⟩
  | cons b l ih =>
    obtain ⟨w, rfl⟩ := hl b (List.mem_cons_self _ _)
    obtain ⟨st', h, hmin, hmax, hmem⟩ := ih (fun b hb => hl b (List.mem_cons_of_mem _ hb)) _
    refine ⟨st', h, hmin, hmax, fun v => ?_⟩
    rw [hmem v]
    simp only [List.mem_cons, notEq.injEq, not_or, st.nodup.mem_erase_iff, ne_eq]
    tauto

lemma foldlM_scopes_skipped (l : List (ConstantBinary α)) (hl : ∀ b ∈ l, b.isScope)
    (st : Aggregation α) (hst : st.eqSet ≠ []) : l.foldlM aggregate st = .ok st := by
  induction l with
  | nil => rfl
  | cons b l ih =>
    obtain ⟨lo, hi, rfl⟩ := exists_eq_scope (hl b (List.mem_cons_self _ _))
    have hstep : aggregate st (scope lo hi) = .ok st := by simp [aggregate, hst, List.isEmpty_iff]; rfl
    simpa [hstep, bind, Except.bind] using ih fun c hc => hl c (List.mem_cons_of_mem _ hc)

lemma foldlM_scopes (l : List (ConstantBinary α)) (hl : ∀ b ∈ l, b.isScope)
    (st : Aggregation α) (hst : st.eqSet = []) : ∃ st', l.foldlM aggregate st = .ok st' ∧
      st'.eqSet = [] ∧ ∀ x, (st'.scopeMin.admitsAbove x ∧ st'.scopeMax.admitsBelow x ↔
        (st.scopeMin.admitsAbove x ∧ st.scopeMax.admitsBelow x) ∧
          ∀ lo hi, scope lo hi ∈ l → lo.admitsAbove x ∧ hi.admitsBelow x) := by
  induction l generalizing st with
  | nil => exact ⟨st, rfl, hst, by simp⟩
  | cons b l ih =>
    cases b with
    | scope lo hi =>
      obtain ⟨st', h, hnil, hadm⟩ := ih (fun b hb => hl b (List.mem_cons_of_mem _ hb))
        { st with scopeMin := tighten st.scopeMin lo true Ordering.isLT
                  scopeMax := tighten st.scopeMax hi false Ordering.isGT } hst
      refine ⟨st', by simpa [aggregate, hst] using h, hnil, fun x => ?_⟩
      rw [hadm x, admitsAbove_tighten, admitsBelow_tighten]
      simp only [List.mem_cons, scope.injEq]
      constructor
      · rintro ⟨⟨⟨h1, h2⟩, h3, h4⟩, h5⟩
        exact ⟨⟨h1, h3⟩, fun lo' hi' h => h.elim (fun ⟨e1, e2⟩ => e1 ▸ e2 ▸ ⟨h2, h4⟩) (h5 lo' hi')⟩
      · rintro ⟨⟨h1, h3⟩, h5⟩
        obtain ⟨h2, h4⟩ := h5 lo hi (Or.inl ⟨rfl, rfl⟩)
        exact ⟨⟨⟨h1, h2⟩, h3, h4⟩, fun lo' hi' h => h5 lo' hi' (Or.inr h)⟩
    | _ => cases hl _ (List.mem_cons_self _ _)

lemma filter_append_filter_of_pairwise {β : Type} (f : β → ℕ) (k : ℕ) :
    ∀ {l : List β}, l.Pairwise (fun a b => f a ≤ f b) →
      l.filter (fun b => f b < k) ++ l.filter (fun b => k ≤ f b) = l
  | [], _ => rfl
  | a :: l, h => by
    obtain ⟨ha, hl⟩ := List.pairwise_cons.mp h
    by_cases hk : f a < k
    · simp [hk, filter_append_filter_of_pairwise f k hl]
    · have hge : ∀ b ∈ l, k ≤ f b := fun b hb => by have := ha b hb; omega
      rw [List.filter_cons_of_neg (by simpa using hk),
        List.filter_cons_of_pos (by simpa using not_lt.mp hk),
        List.filter_eq_nil_iff.mpr (fun b hb => by simpa using hge b hb),
        List.filter_eq_self.mpr (fun b hb => by simpa using hge b hb)]
      rfl

omit [LinearOrder α] in
lemma leaf_of_aggregationRank {b : ConstantBinary α} (hb : b.isLeaf) :
    (b.aggregationRank < 2 → ∃ v, b = eq v) ∧
      (2 ≤ b.aggregationRank → b.aggregationRank < 3 → ∃ v, b = notEq v) ∧
      (3 ≤ b.aggregationRank → b.isScope) := by
  cases b <;> simp_all [isLeaf, aggregationRank, isScope]

lemma foldlM_sorted (xs : List (ConstantBinary α)) (hxs : ∀ b ∈ xs, b.isLeaf) :
    ∃ st, (xs.insertionSort (fun a b => a.aggregationRank ≤ b.aggregationRank)).foldlM aggregate
        ⟨.unbounded, .unbounded, [], List.nodup_nil⟩ = .ok st ∧
      (∀ v, v ∈ st.eqSet ↔ eq v ∈ xs ∧ notEq v ∉ xs) ∧
      (st.eqSet = [] → ∀ x, (st.scopeMin.admitsAbove x ∧ st.scopeMax.admitsBelow x ↔
        ∀ lo hi, scope lo hi ∈ xs → lo.admitsAbove x ∧ hi.admitsBelow x)) := by
  set r := fun a b : ConstantBinary α => a.aggregationRank ≤ b.aggregationRank
  haveI : IsTotal (ConstantBinary α) r := ⟨fun a b => le_total _ _⟩
  haveI : IsTrans (ConstantBinary α) r := ⟨fun _ _ _ => le_trans⟩
  set l := xs.insertionSort r
  have hmem : ∀ b, b ∈ l ↔ b ∈ xs := fun b => (List.perm_insertionSort r xs).mem_iff
  have hsorted : l.Pairwise r := List.sorted_insertionSort r xs
  set R := l.filter (fun b => 2 ≤ b.aggregationRank)
  have hl : l = l.filter (fun b => b.aggregationRank < 2) ++
      (R.filter (fun b => b.aggregationRank < 3) ++ R.filter (fun b => 3 ≤ b.aggregationRank)) := by
    rw [filter_append_filter_of_pairwise _ 3 (hsorted.filter _),
      filter_append_filter_of_pairwise _ 2 hsorted]
  have hleaf : ∀ b ∈ l, b.isLeaf := fun b hb => hxs b ((hmem b).mp hb)
  obtain ⟨st₁, h₁, hmin₁, hmax₁, hmem₁⟩ := foldlM_eqs (l.filter (fun b => b.aggregationRank < 2))
    (fun b hb => by
      obtain ⟨hb, hr⟩ := List.mem_filter.mp hb
      exact (leaf_of_aggregationRank (hleaf b hb)).1 (by simpa using hr))
    ⟨.unbounded, .unbounded, [], List.nodup_nil⟩
  obtain ⟨st₂, h₂, hmin₂, hmax₂, hmem₂⟩ := foldlM_notEqs (R.filter (fun b => b.aggregationRank < 3))
    (fun b hb => by
      simp only [R, List.mem_filter, decide_eq_true_eq] at hb
      exact (leaf_of_aggregationRank (hleaf b hb.1.1)).2.1 hb.1.2 hb.2) st₁
  have hscope : ∀ b ∈ R.filter (fun b => 3 ≤ b.aggregationRank), b.isScope := fun b hb => by
    simp only [R, List.mem_filter, decide_eq_true_eq] at hb
    exact (leaf_of_aggregationRank (hleaf b hb.1.1)).2.2 hb.2
  have heq : ∀ v, v ∈ st₂.eqSet ↔ eq v ∈ xs ∧ notEq v ∉ xs := fun v => by
    simp [hmem₂, hmem₁, R, hmem, aggregationRank]
  have hscopes : ∀ lo hi, scope lo hi ∈ R.filter (fun b => 3 ≤ b.aggregationRank) ↔
      scope lo hi ∈ xs := fun lo hi => by simp [R, hmem, aggregationRank]
  rw [hl, List.foldlM_append, h₁]
  by_cases hnil : st₂.eqSet = []
  · obtain ⟨st, h, hnil', hadm⟩ := foldlM_scopes _ hscope st₂ hnil
    refine ⟨st, ?_, fun v => ?_, fun _ x => ?_⟩
    · simp [List.foldlM_append, h₂, h, bind, Except.bind]
    · rw [← heq, hnil, hnil']
    · rw [hadm, hmin₂, hmax₂, hmin₁, hmax₁]
      simp [hscopes]
  · refine ⟨st₂, ?_, heq, fun h => absurd h hnil⟩
    simp [List.foldlM_append, h₂, foldlM_scopes_skipped _ hscope st₂ hnil, bind, Except.bind]

lemma eqOrder_iff (a b : α) : (partialCmp a b).getD .eq ≠ .gt ↔ a ≤ b := by
  simp [partialCmp_eq_some, compare_gt_iff_gt]

lemma aggregated_of_ne_nil (st : Aggregation α) (h : st.eqSet ≠ []) :
    ∃ vs : List α, aggregated st = vs.map eq ∧ vs.Sorted (· < ·) ∧ ∀ v, v ∈ vs ↔ v ∈ st.eqSet := by
  set r := fun a b : α => (partialCmp a b).getD .eq ≠ .gt
  haveI : IsTotal α r := ⟨fun a b => by simp only [r, eqOrder_iff]; exact le_total a b⟩
  haveI : IsTrans α r := ⟨fun a b c => by simp only [r, eqOrder_iff]; exact le_trans⟩
  have hperm := List.perm_insertionSort r st.eqSet
  refine ⟨st.eqSet.insertionSort r, ?_, ?_, fun v => hperm.mem_iff⟩
  · have : st.eqSet.insertionSort r ≠ [] := fun h' => h (List.perm_nil.mp (h' ▸ hperm).symm)
    simp [aggregated, r, List.isEmpty_iff, this]
  · exact List.Sorted.lt_of_le
      ((List.sorted_insertionSort r st.eqSet).imp (fun h => (eqOrder_iff _ _).mp h))
      (hperm.nodup_iff.mpr st.nodup)

lemma aggregated_of_nil (st : Aggregation α) (h : st.eqSet = []) :
    (aggregated st = [] ∨ ∃ lo hi, aggregated st = [scope lo hi]) ∧
      ∀ x, (∀ y ∈ aggregated st, y.admits x) ↔
        st.scopeMin.admitsAbove x ∧ st.scopeMax.admitsBelow x := by
  obtain ⟨lo, hi, eqSet, nodup⟩ := st
  subst h
  simp only [aggregated, List.insertionSort, List.map_nil, List.isEmpty_nil, Bool.not_true,
    Bool.false_eq_true, if_false]
  split_ifs with hu
  · simp [admits]
  · cases lo <;> cases hi <;> simp_all [Bound.admitsAbove, Bound.admitsBelow]

/-- What `scope_aggregation` leaves of an `And` of leaves `xs`: the sorted `Eq`s that no `NotEq`
removes when there are any, else nothing or the one `Scope` that admits exactly what every
`Scope` admits; read as a conjunction, `ys` admits whatever `xs` admits. -/
structure AggregatedAnd (xs ys : List (ConstantBinary α)) : Prop where
  eqs : (∃ v, eq v ∈ xs ∧ notEq v ∉ xs) →
    ∃ vs : List α, ys = vs.map eq ∧ vs.Sorted (· < ·) ∧ ∀ v, v ∈ vs ↔ eq v ∈ xs ∧ notEq v ∉ xs
  scopes : (¬ ∃ v, eq v ∈ xs ∧ notEq v ∉ xs) →
    (ys = [] ∨ ∃ lo hi, ys = [scope lo hi]) ∧
      ∀ x, (∀ y ∈ ys, y.admits x) ↔ ∀ lo hi, scope lo hi ∈ xs → lo.admitsAbove x ∧ hi.admitsBelow x
  sound : ∀ x, (∀ b ∈ xs, b.admits x) → ∀ y ∈ ys, y.admits x

theorem scopeAggregation_and_normal_form (xs : List (ConstantBinary α))
    (hxs : ∀ b ∈ xs, b.isLeaf) :
    ∃ ys, (and xs).scopeAggregation = .ok (and ys) ∧ AggregatedAnd xs ys := by
  obtain ⟨st, hfold, heq, hscope⟩ := foldlM_sorted xs hxs
  refine ⟨aggregated st, by simp [scopeAggregation, _scopeAggregation, hfold, bind, Except.bind,
    Functor.map, Except.map, pure, Except.pure], ?_⟩
  by_cases hnil : st.eqSet = []
  · have hP : ¬ ∃ v, eq v ∈ xs ∧ notEq v ∉ xs := fun ⟨v, hv⟩ => by simpa [hnil] using (heq v).mpr hv
    obtain ⟨hshape, hadm⟩ := aggregated_of_nil st hnil
    refine ⟨fun h => absurd h hP, fun _ => ⟨hshape, fun x => (hadm x).trans (hscope hnil x)⟩,
      fun x hx => (hadm x).mpr ((hscope hnil x).mpr fun lo hi h => ?_)⟩
    simpa [admits] using hx _ h
  · obtain ⟨vs, hys, hsorted, hmem⟩ := aggregated_of_ne_nil st hnil
    obtain ⟨v, hv⟩ := List.exists_mem_of_ne_nil _ hnil
    refine ⟨fun _ => ⟨vs, hys, hsorted, fun v => (hmem v).trans (heq v)⟩,
      fun h => absurd ⟨v, (heq v).mp hv⟩ h, fun x hx y hy => ?_⟩
    obtain ⟨w, hw, rfl⟩ := List.mem_map.mp (hys ▸ hy)
    exact hx _ ((heq w).mp ((hmem w).mp hw)).1

theorem scopeAggregation_and_normal_form_mixed :
    (∀ b ∈ [eq (2 : Int), notEq 1, eq 0, scope (.included 0) .unbounded], b.isLeaf) ∧
      ∃ ys, (and [eq (2 : Int), notEq 1, eq 0, scope (.included 0) .unbounded]).scopeAggregation =
        .ok (and ys) ∧ AggregatedAnd [eq (2 : Int), notEq 1, eq 0, scope (.included 0) .unbounded] ys :=
  ⟨by decide, scopeAggregation_and_normal_form _ (by decide)⟩

lemma length_le_one_of_sorted_lt {vs : List α} (hs : vs.Sorted (· < ·)) {x : α} (hx : ∀ v ∈ vs, v = x) :
    vs.length ≤ 1 := by
  match vs, hs with
  | [], _ | [_], _ => simp
  | a :: b :: _, hs =>
    have hab := List.rel_of_sorted_cons hs b (List.mem_cons_self _ _)
    rw [hx a (List.mem_cons_self _ _), hx b (List.mem_cons_of_mem _ (List.mem_cons_self _ _))] at hab
    exact absurd hab (lt_irrefl x)

lemma unbounded_of_admits_all [NoMinOrder α] [NoMaxOrder α] {lo hi : Bound α}
    (h : ∀ x, lo.admitsAbove x ∧ hi.admitsBelow x) : lo = .unbounded ∧ hi = .unbounded := by
  constructor
  · cases lo with
    | unbounded => rfl
    | included v | excluded v =>
      obtain ⟨w, hw⟩ := exists_lt v
      have := (h w).1
      simp [Bound.admitsAbove, partialCmp_eq_some, compare_lt_iff_lt, compare_eq_iff_eq] at this
      first | exact absurd (le_of_lt_or_eq this) (not_le.mpr hw) | exact absurd this.le (not_le.mpr hw)
  · cases hi with
    | unbounded => rfl
    | included v | excluded v =>
      obtain ⟨w, hw⟩ := exists_gt v
      have := (h w).2
      simp [Bound.admitsBelow, partialCmp_eq_some, compare_lt_iff_lt, compare_eq_iff_eq] at this
      first | exact absurd (le_of_lt_or_eq this) (not_le.mpr hw) | exact absurd this.le (not_le.mpr hw)

lemma _scopeAggregation_of_admits (xs : List (ConstantBinary α)) (hxs : ∀ b ∈ xs, b.isLeaf) (x : α)
    (hx : ∀ b ∈ xs, b.admits x) :
    ∃ ys, _scopeAggregation xs = .ok ys ∧ ys.length ≤ 1 ∧ (∀ y ∈ ys, y.admits x) ∧
      (ys = [] → ∀ b ∈ xs, (∃ v, b = notEq v) ∨
        ∃ lo hi, b = scope lo hi ∧ ∀ x', lo.admitsAbove x' ∧ hi.admitsBelow x') := by
  obtain ⟨st, hfold, heq, hscope⟩ := foldlM_sorted xs hxs
  refine ⟨aggregated st, by simp [_scopeAggregation, hfold, bind, Except.bind, pure, Except.pure], ?_⟩
  by_cases hnil : st.eqSet = []
  · obtain ⟨hshape, hadm⟩ := aggregated_of_nil st hnil
    have hall : ∀ x', (∀ y ∈ aggregated st, y.admits x') ↔
        ∀ lo hi, scope lo hi ∈ xs → lo.admitsAbove x' ∧ hi.admitsBelow x' :=
      fun x' => (hadm x').trans (hscope hnil x')
    refine ⟨by rcases hshape with h | ⟨_, _, h⟩ <;> simp [h],
      (hall x).mpr fun lo hi h => hx _ h, fun hys b hb => ?_⟩
    cases b with
    | eq v =>
      have hv : x = v := hx _ hb
      subst hv
      have : x ∈ st.eqSet := (heq x).mpr ⟨hb, fun h => hx _ h rfl⟩
      simp [hnil] at this
    | notEq v => exact .inl ⟨v, rfl⟩
    | scope lo hi => exact .inr ⟨lo, hi, rfl, fun x' => (hall x').mp (by simp [hys]) lo hi hb⟩
    | _ => cases hxs _ hb
  · obtain ⟨vs, hys, hsorted, hmem⟩ := aggregated_of_ne_nil st hnil
    have hvs : ∀ v ∈ vs, v = x := fun v hv => (hx _ ((heq v).mp ((hmem v).mp hv)).1).symm
    refine ⟨by simpa [hys] using length_le_one_of_sorted_lt hsorted hvs, fun y hy => ?_, fun h => ?_⟩
    · obtain ⟨w, hw, rfl⟩ := List.mem_map.mp (hys ▸ hy)
      exact (hvs w hw).symm
    · obtain ⟨v, hv⟩ := List.exists_mem_of_ne_nil _ hnil
      simp [hys, List.map_eq_nil_iff] at h
      simp [h] at hmem
      exact (hmem v hv).elim

end Order

end ConstantBinary

end KipSql
