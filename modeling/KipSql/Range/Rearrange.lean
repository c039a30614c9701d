import KipSql.Range.ConstantBinary

/-! `rearrange`, the OR-merge of a range; `merged` is kept most recent first, so the scan
`merged.iter_mut().rev()` walks from its head. -/

namespace KipSql

namespace ConstantBinary

variable {α : Type} [PartialCmp α]

/-- The first loop of `rearrange`: `And` arms spliced in, universal `Scope`s dropped, a nested `Or`
rejected. -/
def collectConditions : List (ConstantBinary α) → Except Fault (List (ConstantBinary α))
  | [] => pure []
  | or _ :: _ => throw (.typeError .invalidType)
  | and bs :: rest => (bs ++ ·) <$> collectConditions rest
  | scope .unbounded .unbounded :: rest => collectConditions rest
  | b :: rest => (b :: ·) <$> collectConditions rest

/-- The closure `op` of the sort: the lower bound a leaf sorts by. The sort never compares an
`And` or `Or` (see `sortConditions`), so their bound is immaterial. -/
def sortBound : ConstantBinary α → Bound α
  | scope min _ => min
  | eq v => .included v
  | notEq v => .excluded v
  | _ => .unbounded

/-- The comparator of the sort, `bound_compared(..).unwrap_or(Equal)`, as "not after". -/
def sortLe (a b : ConstantBinary α) : Prop :=
  (boundCompared a.sortBound b.sortBound true).getD .eq ≠ .gt

instance : DecidableRel (sortLe (α := α)) := fun _ _ => inferInstanceAs (Decidable (_ ≠ _))

/-- `condition_binaries.sort_by(..)`: a stable sort, which with two elements or more passes each
to `op`, whose `unreachable!()` fires on an `And` or `Or`. -/
def sortConditions (conditions : List (ConstantBinary α)) :
    Except Fault (List (ConstantBinary α)) :=
  if 2 ≤ conditions.length ∧ conditions.any (!·.isLeaf) then throw .panic
  else pure (conditions.insertionSort sortLe)

/-- The closure `op` of the merge loop: `Eq(v)` as `(Unbounded, Included(v))`, `NotEq(v)` as
`(Unbounded, Excluded(v))`. -/
def mergeBounds : ConstantBinary α → Except Fault (Bound α × Bound α)
  | scope min max => pure (min, max)
  | eq v => pure (.unbounded, .included v)
  | notEq v => pure (.unbounded, .excluded v)
  | _ => throw .panic

/-- The scan of `merged` from its most recent element: at the first `Scope` it may raise that
`Scope`'s `max` and decides `is_push`; with no `Scope`, `is_push` keeps `merged.is_empty()`. -/
def visitMerged (condition : ConstantBinary α) :
    List (ConstantBinary α) → Except Fault (List (ConstantBinary α) × Bool)
  | [] => pure ([], false)
  | scope min max :: rest => do
    let (cmin, cmax) ← mergeBounds condition
    let isLtMin := ((boundCompared max cmin false).getD .eq).isLT
    let isLtMax := ((boundCompared max cmax false).getD .eq).isLT
    if !isLtMin && isLtMax then pure (scope min cmax :: rest, false)
    else if !condition.isScope then pure (scope min max :: rest, isLtMax)
    else if isLtMin && isLtMax then pure (scope min max :: rest, true)
    else pure (scope min max :: rest, false)
  | b :: rest => do
    let (rest, isPush) ← visitMerged condition rest
    pure (b :: rest, isPush)

/-- One pass of the merge loop over `merged`, most recent first. -/
def mergeStep (merged : List (ConstantBinary α)) (condition : ConstantBinary α) :
    Except Fault (List (ConstantBinary α)) :=
  match merged with
  | [] => pure [condition]
  | _ => do
    let (merged, isPush) ← visitMerged condition merged
    pure (if isPush then condition :: merged else merged)

omit [PartialCmp α] in
/-- The `min` of the most recent `Scope` of `merged`, the one the scan of `visitMerged` stops at. -/
def leadMin : List (ConstantBinary α) → Option (Bound α)
  | [] => none
  | scope min _ :: _ => some min
  | _ :: rest => leadMin rest

/-- `ConstantBinary::rearrange`. -/
def rearrange : ConstantBinary α → Except Fault (List (ConstantBinary α))
  | or binaries => do
    let conditions ← collectConditions binaries
    let sorted ← sortConditions conditions
    let merged ← sorted.foldlM mergeStep []
    pure merged.reverse
  | and binaries => pure binaries
  | source => pure [source]

example : (or [scope (.excluded (6 : Int)) (.included 10), scope (.excluded 0) (.included 3),
    scope (.included 1) (.excluded 2), scope (.excluded 1) (.included 2),
    scope (.included 0) (.excluded 3), scope (.included 6) (.included 7), scope .unbounded .unbounded,
    notEq 8, eq 5, eq 0, eq 1]).rearrange =
    .ok [scope (.included 0) (.included 3), eq 5, scope (.included 6) (.included 10)] := rfl

/-- An `Eq` with the least lower bound leaves `merged` without a `Scope`, and every later arm is
dropped: `c = 1 OR c = 2` merges to `c = 1`. -/
theorem rearrange_drops_after_leading_eq :
    (or [eq (1 : Int), eq 2]).rearrange = .ok [eq 1] ∧ (eq (2 : Int)).admits 2 ∧
      ¬ (eq (1 : Int)).admits 2 :=
  ⟨rfl, rfl, by simp [admits]⟩

/-- Against a lower bound `Unbounded` reads as `+∞`, so a second `Scope` from `Unbounded` is pushed
beside the first, and both admit `0`. -/
theorem rearrange_keeps_overlapping_scopes :
    (or [scope .unbounded (.included (3 : Int)), scope .unbounded (.included 5)]).rearrange =
      .ok [scope .unbounded (.included 3), scope .unbounded (.included 5)] ∧
    (scope .unbounded (.included (3 : Int))).admits 0 ∧
    (scope .unbounded (.included (5 : Int))).admits 0 :=
  ⟨rfl, by simp [admits, Bound.key], by simp [admits, Bound.key]⟩

/-- `Eq(0)` and a `Scope` from `Included(0)` tie in the sort, which keeps their order, and the two
orders merge to different sets: `3` is kept in one only. -/
theorem rearrange_depends_on_order :
    (or [eq (0 : Int), scope (.included 0) (.included 5)]).rearrange = .ok [eq 0] ∧
    (or [scope (.included (0 : Int)) (.included 5), eq 0]).rearrange =
      .ok [scope (.included 0) (.included 5)] ∧
    (scope (.included (0 : Int)) (.included 5)).admits 3 ∧ ¬ (eq (0 : Int)).admits 3 :=
  ⟨rfl, rfl, by simp [admits, Bound.key], by simp [admits]⟩

omit [PartialCmp α] in
lemma collectConditions_leaf {b : ConstantBinary α} (hb : b.isLeaf)
    (hu : b ≠ scope .unbounded .unbounded) (xs : List (ConstantBinary α)) :
    collectConditions (b :: xs) = (b :: ·) <$> collectConditions xs := by
  cases b with
  | scope min max => cases min <;> cases max <;> first | rfl | exact absurd rfl hu
  | eq _ | notEq _ => rfl
  | and _ | or _ => simp [isLeaf] at hb

omit [PartialCmp α] in
lemma collectConditions_ok (xs : List (ConstantBinary α))
    (hxs : ∀ b ∈ xs, b.isLeaf ∨ ∃ bs, b = and bs ∧ ∀ c ∈ bs, c.isLeaf) :
    ∃ cs, collectConditions xs = .ok cs ∧ (∀ c ∈ cs, c.isLeaf) ∧
      ∀ c ∈ xs, c.isLeaf → c ≠ scope .unbounded .unbounded → c ∈ cs := by
  induction xs with
  | nil => exact ⟨[], rfl, by simp, by simp⟩
  | cons b xs ih =>
    obtain ⟨cs, h, hleaf, hmem⟩ := ih (fun b hb => hxs b (List.mem_cons_of_mem _ hb))
    rcases hxs b (List.mem_cons_self _ _) with hb | ⟨bs, rfl, hbs⟩
    · by_cases hu : b = scope .unbounded .unbounded
      · subst hu
        refine ⟨cs, h, hleaf, fun c hc hl hu' => ?_⟩
        rcases List.mem_cons.mp hc with rfl | hc
        exacts [absurd rfl hu', hmem c hc hl hu']
      · refine ⟨b :: cs, by simp [collectConditions_leaf hb hu, h, Functor.map, Except.map],
          fun c hc => ?_, fun c hc hl hu' => ?_⟩
        · rcases List.mem_cons.mp hc with rfl | hc
          exacts [hb, hleaf c hc]
        · rcases List.mem_cons.mp hc with rfl | hc
          exacts [List.mem_cons_self _ _, List.mem_cons_of_mem _ (hmem c hc hl hu')]
    · refine ⟨bs ++ cs, by simp [collectConditions, h, Functor.map, Except.map], fun c hc => ?_,
        fun c hc hl hu => ?_⟩
      · rcases List.mem_append.mp hc with hc | hc
        exacts [hbs c hc, hleaf c hc]
      · rcases List.mem_cons.mp hc with rfl | hc
        · simp [isLeaf] at hl
        · exact List.mem_append_right _ (hmem c hc hl hu)

omit [PartialCmp α] in
lemma collectConditions_of_leaves (xs : List (ConstantBinary α)) (hxs : ∀ b ∈ xs, b.isLeaf)
    (hu : scope .unbounded .unbounded ∉ xs) : collectConditions xs = .ok xs := by
  induction xs with
  | nil => rfl
  | cons b xs ih =>
    rw [collectConditions_leaf (hxs b (List.mem_cons_self _ _)) (fun h => hu (h ▸ List.mem_cons_self _ _)),
      ih (fun c hc => hxs c (List.mem_cons_of_mem _ hc)) (fun h => hu (List.mem_cons_of_mem _ h))]
    rfl

lemma sortConditions_ok (cs : List (ConstantBinary α)) (hcs : ∀ c ∈ cs, c.isLeaf) :
    sortConditions cs = .ok (cs.insertionSort sortLe) := by
  have : cs.any (!·.isLeaf) = false := by simpa using hcs
  simp [sortConditions, this, pure, Except.pure]

omit [PartialCmp α] in
lemma mergeBounds_ok (c : ConstantBinary α) (hc : c.isLeaf) :
    ∃ lo hi, mergeBounds c = .ok (lo, hi) := by
  cases c <;> simp_all [mergeBounds, isLeaf, pure, Except.pure]

lemma visitMerged_cons_of_not_isScope {b : ConstantBinary α} (hb : b.isScope = false)
    (c : ConstantBinary α) (rest : List (ConstantBinary α)) :
    visitMerged c (b :: rest) = (fun r => (b :: r.1, r.2)) <$> visitMerged c rest := by
  cases b <;> first | rfl | cases hb

lemma visitMerged_ok (c : ConstantBinary α) (hc : c.isLeaf) (merged : List (ConstantBinary α)) :
    ∃ merged' isPush, visitMerged c merged = .ok (merged', isPush) ∧
      merged'.map sortBound = merged.map sortBound := by
  induction merged with
  | nil => exact ⟨[], false, rfl, rfl⟩
  | cons b merged ih =>
    obtain ⟨m, p, h, hm⟩ := ih
    by_cases hs : b.isScope
    · obtain ⟨min, max, rfl⟩ := exists_eq_scope hs
      obtain ⟨lo, hi, hb⟩ := mergeBounds_ok c hc
      simp only [visitMerged, hb, bind, Except.bind, pure, Except.pure]
      split_ifs <;> exact ⟨_, _, rfl, rfl⟩
    · refine ⟨b :: m, p, ?_, by simp [hm]⟩
      rw [visitMerged_cons_of_not_isScope (by simpa using hs), h]
      rfl

lemma foldlM_mergeStep_ok (l merged : List (ConstantBinary α)) (hl : ∀ c ∈ l, c.isLeaf) :
    ∃ merged', l.foldlM mergeStep merged = .ok merged' ∧
      (merged'.reverse.map sortBound).Sublist (merged.reverse.map sortBound ++ l.map sortBound) := by
  induction l generalizing merged with
  | nil => exact ⟨merged, rfl, by simp⟩
  | cons c l ih =>
    have hc := hl c (List.mem_cons_self _ _)
    have hstep : ∃ m, mergeStep merged c = .ok m ∧
        (m.reverse.map sortBound).Sublist (merged.reverse.map sortBound ++ [c.sortBound]) := by
      match merged with
      | [] => exact ⟨[c], rfl, by simp⟩
      | b :: bs =>
        obtain ⟨m, p, h, hm⟩ := visitMerged_ok c hc (b :: bs)
        refine ⟨if p then c :: m else m, by simp [mergeStep, h, bind, Except.bind, pure,
          Except.pure], ?_⟩
        have hm' : m.reverse.map sortBound = (b :: bs).reverse.map sortBound := by
          rw [List.map_reverse, hm, ← List.map_reverse]
        split_ifs
        · rw [List.reverse_cons, List.map_append, hm']
          exact List.Sublist.refl _
        · rw [hm']
          exact List.sublist_append_left _ _
    obtain ⟨m, hm, hsub⟩ := hstep
    obtain ⟨m', h', hsub'⟩ := ih m (fun c hc => hl c (List.mem_cons_of_mem _ hc))
    refine ⟨m', by simp [hm, h', bind, Except.bind], hsub'.trans ?_⟩
    simpa using hsub.append_right (l.map sortBound)

lemma rearrange_or_ok (xs : List (ConstantBinary α))
    (hxs : ∀ b ∈ xs, b.isLeaf ∨ ∃ bs, b = and bs ∧ ∀ c ∈ bs, c.isLeaf) :
    ∃ cs ys, collectConditions xs = .ok cs ∧ (∀ c ∈ cs, c.isLeaf) ∧
      (∀ c ∈ xs, c.isLeaf → c ≠ scope .unbounded .unbounded → c ∈ cs) ∧
      (or xs).rearrange = .ok ys ∧
      (ys.map sortBound).Sublist ((cs.insertionSort sortLe).map sortBound) := by
  obtain ⟨cs, hcs, hleaf, hmem⟩ := collectConditions_ok xs hxs
  obtain ⟨m, hm, hsub⟩ := foldlM_mergeStep_ok (cs.insertionSort sortLe) []
    (fun c hc => hleaf c ((List.perm_insertionSort sortLe cs).subset hc))
  refine ⟨cs, m.reverse, hcs, hleaf, hmem, ?_, by simpa using hsub⟩
  simp [rearrange, hcs, sortConditions_ok cs hleaf, hm, bind, Except.bind, pure, Except.pure]

section Order

variable {α : Type} [LinearOrder α]

lemma sortLe_iff (a b : ConstantBinary α) : sortLe a b ↔ a.sortBound.key true ≤ b.sortBound.key true :=
  boundCompared_getD_ne_gt _ _ _

instance : IsTotal (ConstantBinary α) sortLe :=
  ⟨fun a b => (le_total _ _).imp (sortLe_iff a b).mpr (sortLe_iff b a).mpr⟩

instance : IsTrans (ConstantBinary α) sortLe :=
  ⟨fun a b c hab hbc => (sortLe_iff a c).mpr (((sortLe_iff a b).mp hab).trans ((sortLe_iff b c).mp hbc))⟩

/-- `rearrange` returns its list sorted by the sort's own order: by a `Scope`'s `min`,
`Included(v)` for `Eq(v)` and `Excluded(v)` for `NotEq(v)`. -/
theorem rearrange_sorted (xs : List (ConstantBinary α))
    (hxs : ∀ b ∈ xs, b.isLeaf ∨ ∃ bs, b = and bs ∧ ∀ c ∈ bs, c.isLeaf) :
    ∃ ys, (or xs).rearrange = .ok ys ∧ ys.Sorted sortLe := by
  obtain ⟨cs, ys, -, -, -, hys, hsub⟩ := rearrange_or_ok xs hxs
  refine ⟨ys, hys, ?_⟩
  have hsorted : ((cs.insertionSort sortLe).map sortBound).Pairwise
      (fun x y : Bound α => x.key true ≤ y.key true) :=
    List.pairwise_map.mpr ((List.sorted_insertionSort sortLe cs).imp (fun h => (sortLe_iff _ _).mp h))
  exact (List.pairwise_map.mp (hsorted.sublist hsub)).imp (fun h => (sortLe_iff _ _).mpr h)

theorem rearrange_sorted_mixed :
    (∀ b ∈ [eq (5 : Int), and [scope (.included 1) .unbounded, notEq 3], scope .unbounded (.excluded 0)],
      b.isLeaf ∨ ∃ bs, b = and bs ∧ ∀ c ∈ bs, c.isLeaf) ∧
    ∃ ys, (or [eq (5 : Int), and [scope (.included 1) .unbounded, notEq 3],
      scope .unbounded (.excluded 0)]).rearrange = .ok ys ∧ ys.Sorted sortLe :=
  by
  refine ⟨?h, rearrange_sorted _ ?h⟩
  rintro b (_ | ⟨_, _ | ⟨_, _ | ⟨_, ⟨⟩⟩⟩⟩)
  exacts [.inl rfl, .inr ⟨_, rfl, by decide⟩, .inl rfl]

end Order

/- When the least condition is a `Scope`, `merged` always holds a `Scope`, and each condition is
either pushed, or lies below the `max` of the most recent `Scope`, or raises that `max` to its own.
Every value a condition admits is then admitted by the merged list. -/

section Cover

variable {α : Type} [LinearOrder α]

omit [LinearOrder α] in
lemma leadMin_cons_of_not_isScope {b : ConstantBinary α} (hb : b.isScope = false)
    (rest : List (ConstantBinary α)) : leadMin (b :: rest) = leadMin rest := by
  cases b <;> first | rfl | cases hb

omit [LinearOrder α] in
lemma isLeaf_of_eq_or_scope {c : ConstantBinary α} (hc : c.isScope ∨ ∃ v, c = eq v) : c.isLeaf := by
  rcases hc with hc | ⟨v, rfl⟩
  · cases c <;> simp_all [isScope, isLeaf]
  · rfl

lemma admits_between {c : ConstantBinary α} (hc : c.isScope ∨ ∃ v, c = eq v) {cmin cmax : Bound α}
    (h : mergeBounds c = .ok (cmin, cmax)) {x : α} (hx : c.admits x) :
    c.sortBound.key true ≤ point x false ∧ point x true ≤ cmax.key false := by
  rcases hc with hc | ⟨v, rfl⟩
  · cases c <;> simp [isScope] at hc
    cases h
    simpa [admits, sortBound] using hx
  · cases h
    cases hx
    simp [sortBound, Bound.key]

lemma visitMerged_covers {c : ConstantBinary α} (hc : c.isScope ∨ ∃ v, c = eq v) {lo : Bound α}
    (hlo : lo.key true ≤ c.sortBound.key true) (merged : List (ConstantBinary α))
    (hlead : leadMin merged = some lo) :
    ∃ merged' isPush, visitMerged c merged = .ok (merged', isPush) ∧ leadMin merged' = some lo ∧
      (∀ x, anyAdmits merged x → anyAdmits merged' x) ∧
      (isPush = false → ∀ x, c.admits x → anyAdmits merged' x) := by
  obtain ⟨cmin, cmax, hb⟩ := mergeBounds_ok c (isLeaf_of_eq_or_scope hc)
  induction merged with
  | nil => cases hlead
  | cons b merged ih =>
    by_cases hs : b.isScope
    · obtain ⟨smin, smax, rfl⟩ := exists_eq_scope hs
      obtain rfl : smin = lo := Option.some.inj hlead
      have hcov : cmax.key false ≤ smax.key false → ∀ x, c.admits x →
          anyAdmits (scope smin smax :: merged) x := fun hle x hx =>
        Or.inl (by simpa [admits] using
          ⟨hlo.trans (admits_between hc hb hx).1, (admits_between hc hb hx).2.trans hle⟩)
      have hle : ((boundCompared smax cmax false).getD .eq).isLT = false →
          cmax.key false ≤ smax.key false := fun h =>
        not_lt.mp fun hlt => by simp [(boundCompared_getD_isLT _ _ _).mpr hlt] at h
      simp only [visitMerged, hb, bind, Except.bind, pure, Except.pure]
      split_ifs with h1 h2 h3
      · simp only [Bool.and_eq_true, Bool.not_eq_true', boundCompared_getD_isLT] at h1
        refine ⟨_, _, rfl, rfl, fun x hx => hx.imp_left fun hx => ?_, fun _ x hx => Or.inl ?_⟩
        · simp only [admits, admitsAbove_iff, admitsBelow_iff] at hx ⊢
          exact ⟨hx.1, hx.2.trans h1.2.le⟩
        · simpa [admits] using ⟨hlo.trans (admits_between hc hb hx).1, (admits_between hc hb hx).2⟩
      · exact ⟨_, _, rfl, rfl, fun _ hx => hx, fun hp => hcov (hle hp)⟩
      · exact ⟨_, _, rfl, rfl, fun _ hx => hx, nofun⟩
      · refine ⟨_, _, rfl, rfl, fun _ hx => hx, fun _ => hcov (hle ?_)⟩
        revert h1 h3
        cases ((boundCompared smax cmin false).getD .eq).isLT <;> simp
    · obtain ⟨m, p, h, hl, hcov, hc'⟩ := ih (by rwa [leadMin_cons_of_not_isScope (by simpa using hs)] at hlead)
      refine ⟨b :: m, p, ?_, by rwa [leadMin_cons_of_not_isScope (by simpa using hs)],
        fun x hx => hx.imp_right (hcov x), fun hp x hx => Or.inr (hc' hp x hx)⟩
      rw [visitMerged_cons_of_not_isScope (by simpa using hs), h]
      rfl

lemma mergeStep_covers {c : ConstantBinary α} (hc : c.isScope ∨ ∃ v, c = eq v) {lo : Bound α}
    (hlo : lo.key true ≤ c.sortBound.key true) (merged : List (ConstantBinary α))
    (hlead : leadMin merged = some lo) :
    ∃ m lo', mergeStep merged c = .ok m ∧ leadMin m = some lo' ∧ (lo' = lo ∨ lo' = c.sortBound) ∧
      (∀ x, anyAdmits merged x → anyAdmits m x) ∧ ∀ x, c.admits x → anyAdmits m x := by
  obtain ⟨m, p, h, hl, hcov, hc'⟩ := visitMerged_covers hc hlo merged hlead
  obtain ⟨b, bs, rfl⟩ : ∃ b bs, merged = b :: bs := by
    cases merged with
    | nil => cases hlead
    | cons b bs => exact ⟨b, bs, rfl⟩
  simp only [mergeStep, h, bind, Except.bind, pure, Except.pure]
  cases p
  · exact ⟨m, lo, rfl, hl, .inl rfl, hcov, hc' rfl⟩
  · obtain ⟨lo', hl', hlo'⟩ : ∃ lo', leadMin (c :: m) = some lo' ∧ (lo' = lo ∨ lo' = c.sortBound) := by
      rcases hc with hc | ⟨v, rfl⟩
      · obtain ⟨cmin, cmax, rfl⟩ := exists_eq_scope hc
        exact ⟨cmin, rfl, .inr rfl⟩
      · exact ⟨lo, hl, .inl rfl⟩
    exact ⟨c :: m, lo', rfl, hl', hlo', fun x hx => Or.inr (hcov x hx), fun x hx => Or.inl hx⟩

lemma foldlM_mergeStep_covers (l : List (ConstantBinary α)) (hl : ∀ c ∈ l, c.isScope ∨ ∃ v, c = eq v)
    (hsorted : l.Sorted sortLe) (merged : List (ConstantBinary α)) (lo : Bound α)
    (hlead : leadMin merged = some lo) (hlo : ∀ c ∈ l, lo.key true ≤ c.sortBound.key true) :
    ∃ m, l.foldlM mergeStep merged = .ok m ∧ (∀ x, anyAdmits merged x → anyAdmits m x) ∧
      ∀ c ∈ l, ∀ x, c.admits x → anyAdmits m x := by
  induction l generalizing merged lo with
  | nil => exact ⟨merged, rfl, fun _ h => h, by simp⟩
  | cons c l ih =>
    obtain ⟨hcl, hsorted⟩ := List.sorted_cons.mp hsorted
    obtain ⟨m₁, lo₁, h₁, hlead₁, hlo₁, hcov₁, hc₁⟩ :=
      mergeStep_covers (hl c (List.mem_cons_self _ _)) (hlo c (List.mem_cons_self _ _)) merged hlead
    have hrest : ∀ d ∈ l, lo₁.key true ≤ d.sortBound.key true := by
      rcases hlo₁ with rfl | rfl
      · exact fun d hd => hlo d (List.mem_cons_of_mem _ hd)
      · exact fun d hd => (sortLe_iff _ _).mp (hcl d hd)
    obtain ⟨m, h, hcov, hl'⟩ :=
      ih (fun d hd => hl d (List.mem_cons_of_mem _ hd)) hsorted m₁ lo₁ hlead₁ hrest
    refine ⟨m, by rw [List.foldlM_cons, h₁]; exact h, fun x hx => hcov x (hcov₁ x hx), ?_⟩
    rintro d hd x hx
    rcases List.mem_cons.mp hd with rfl | hd
    exacts [hcov x (hc₁ x hx), hl' d hd x hx]


lemma visitMerged_of_leadMin_none (c : ConstantBinary α) (merged : List (ConstantBinary α))
    (h : leadMin merged = none) : visitMerged c merged = .ok (merged, false) := by
  induction merged with
  | nil => rfl
  | cons b merged ih =>
    by_cases hs : b.isScope
    · cases b <;> simp [isScope, leadMin] at hs h
    · rw [leadMin_cons_of_not_isScope (by simpa using hs)] at h
      rw [visitMerged_cons_of_not_isScope (by simpa using hs), ih h]
      rfl

lemma foldlM_mergeStep_of_not_isScope {b : ConstantBinary α} (hb : b.isScope = false)
    (l : List (ConstantBinary α)) : l.foldlM mergeStep [b] = .ok [b] := by
  induction l with
  | nil => rfl
  | cons c l ih =>
    have hstep : mergeStep [b] c = .ok [b] := by
      simp only [mergeStep, visitMerged_of_leadMin_none c [b]
        (by rw [leadMin_cons_of_not_isScope hb]; rfl)]
      rfl
    rw [List.foldlM_cons, hstep]
    exact ih

lemma insertionSort_ne_nil {xs : List (ConstantBinary α)} {b : ConstantBinary α} (hb : b ∈ xs) :
    ∃ h t, xs.insertionSort sortLe = h :: t :=
  List.exists_cons_of_ne_nil fun hnil => by
    simpa [hnil] using (List.perm_insertionSort sortLe xs).symm.subset hb

lemma insertionSort_cons_le {xs : List (ConstantBinary α)} {h : ConstantBinary α}
    {t : List (ConstantBinary α)} (hs : xs.insertionSort sortLe = h :: t) :
    h ∈ xs ∧ ∀ c ∈ xs, h.sortBound.key true ≤ c.sortBound.key true := by
  have hperm := List.perm_insertionSort sortLe xs
  have hsorted := List.sorted_insertionSort sortLe xs
  rw [hs] at hperm hsorted
  refine ⟨hperm.subset (List.mem_cons_self _ _), fun c hc => ?_⟩
  rcases List.mem_cons.mp (hperm.symm.subset hc) with rfl | hc
  exacts [le_rfl, (sortLe_iff _ _).mp (List.rel_of_sorted_cons hsorted c hc)]

lemma insertionSort_head {xs : List (ConstantBinary α)} {b : ConstantBinary α} (hb : b ∈ xs)
    (hlt : ∀ c ∈ xs, c ≠ b → b.sortBound.key true < c.sortBound.key true) :
    ∃ t, xs.insertionSort sortLe = b :: t := by
  obtain ⟨h, t, hs⟩ := insertionSort_ne_nil hb
  obtain ⟨hmem, hle⟩ := insertionSort_cons_le hs
  obtain rfl : h = b := by_contra fun hne => absurd (hle b hb) (not_le.mpr (hlt h hmem hne))
  exact ⟨t, hs⟩

/-- When the least sort key belongs to an `Eq` or a `NotEq` alone, `rearrange` returns that one
leaf: `merged` never holds a `Scope`, so no later condition is pushed. -/
theorem rearrange_of_leaf_first (xs : List (ConstantBinary α)) (hxs : ∀ b ∈ xs, b.isLeaf)
    (hu : scope .unbounded .unbounded ∉ xs) (b : ConstantBinary α) (hb : b ∈ xs)
    (hbs : b.isScope = false) (hlt : ∀ c ∈ xs, c ≠ b → b.sortBound.key true < c.sortBound.key true) :
    (or xs).rearrange = .ok [b] := by
  obtain ⟨t, hs⟩ := insertionSort_head hb hlt
  have hfold : (b :: t).foldlM mergeStep [] = .ok [b] := by
    rw [List.foldlM_cons]
    exact foldlM_mergeStep_of_not_isScope hbs t
  simp only [rearrange, collectConditions_of_leaves xs hxs hu, sortConditions_ok xs hxs, hs, hfold,
    bind, Except.bind, pure, Except.pure, List.reverse_singleton]

theorem rearrange_of_leaf_first_eq_range :
    (∀ b ∈ [scope (.included (2 : Int)) .unbounded, eq 1], b.isLeaf) ∧
    scope .unbounded .unbounded ∉ [scope (.included (2 : Int)) .unbounded, eq 1] ∧
    eq 1 ∈ [scope (.included (2 : Int)) .unbounded, eq 1] ∧ (eq (1 : Int)).isScope = false ∧
    (∀ c ∈ [scope (.included (2 : Int)) .unbounded, eq 1], c ≠ eq 1 →
      (eq (1 : Int)).sortBound.key true < c.sortBound.key true) ∧
    (or [scope (.included (2 : Int)) .unbounded, eq 1]).rearrange = .ok [eq 1] := by
  refine ⟨?h1, ?h2, ?h3, ?h4, ?h5, rearrange_of_leaf_first _ ?h1 ?h2 _ ?h3 ?h4 ?h5⟩ <;>
    simp [isLeaf, isScope, sortBound, Bound.key]

lemma insertionSort_scope_first {xs : List (ConstantBinary α)}
    (hxs : ∀ b ∈ xs, b.isScope ∨ ∃ v, b = eq v) {lo hi : Bound α} (hmem : scope lo hi ∈ xs)
    (hlt : ∀ v, eq v ∈ xs → lo.key true < point v false) :
    ∃ hmin hmax t, xs.insertionSort sortLe = scope hmin hmax :: t := by
  obtain ⟨h, t, hs⟩ := insertionSort_ne_nil hmem
  obtain ⟨hh, hle⟩ := insertionSort_cons_le hs
  rcases hxs h hh with hsc | ⟨v, rfl⟩
  · cases h <;> simp [isScope] at hsc
    exact ⟨_, _, t, hs⟩
  · exact absurd (hle _ hmem) (not_le.mpr (hlt v hh))

/-- When a `Scope` starts below every `Eq`, the list `rearrange` returns covers the disjunction:
every value a disjunct admits is admitted by some range of the result. -/
theorem rearrange_covers_of_scope_first (xs : List (ConstantBinary α))
    (hxs : ∀ b ∈ xs, b.isScope ∨ ∃ v, b = eq v) (hu : scope .unbounded .unbounded ∉ xs)
    (hfirst : ∃ lo hi, scope lo hi ∈ xs ∧ ∀ v, eq v ∈ xs → lo.key true < point v false) :
    ∃ ys, (or xs).rearrange = .ok ys ∧ ∀ x, (or xs).admits x → (or ys).admits x := by
  obtain ⟨lo, hi, hmem, hlt⟩ := hfirst
  obtain ⟨hmin, hmax, t, hs⟩ := insertionSort_scope_first hxs hmem hlt
  have hleaf : ∀ b ∈ xs, b.isLeaf := fun b hb => isLeaf_of_eq_or_scope (hxs b hb)
  have hperm := List.perm_insertionSort sortLe xs
  have hsorted := List.sorted_insertionSort sortLe xs
  rw [hs] at hsorted hperm
  obtain ⟨hht, htsorted⟩ := List.sorted_cons.mp hsorted
  obtain ⟨m, hm, hhead, hcov⟩ := foldlM_mergeStep_covers t
    (fun c hc => hxs c (hperm.subset (List.mem_cons_of_mem _ hc))) htsorted [scope hmin hmax] hmin rfl
    (fun d hd => (sortLe_iff _ _).mp (hht d hd))
  refine ⟨m.reverse, ?_, fun x hx => ?_⟩
  · have hfold : (scope hmin hmax :: t).foldlM mergeStep [] = .ok m := by
      rw [List.foldlM_cons]
      exact hm
    simp only [rearrange, collectConditions_of_leaves xs hleaf hu, sortConditions_ok xs hleaf, hs, hfold,
      bind, Except.bind, pure, Except.pure]
  · obtain ⟨b, hb, hbx⟩ := anyAdmits_iff.mp hx
    obtain ⟨y, hy, hyx⟩ : ∃ y ∈ m, y.admits x := by
      rcases List.mem_cons.mp (hperm.symm.subset hb) with rfl | hb
      exacts [anyAdmits_iff.mp (hhead x (Or.inl hbx)), anyAdmits_iff.mp (hcov b hb x hbx)]
    exact anyAdmits_iff.mpr ⟨y, List.mem_reverse.mpr hy, hyx⟩

theorem rearrange_covers_of_scope_first_mixed :
    (∀ b ∈ [eq (5 : Int), scope .unbounded (.included 3), scope (.included 4) (.included 10)],
      b.isScope ∨ ∃ v, b = eq v) ∧
    scope .unbounded .unbounded ∉ [eq (5 : Int), scope .unbounded (.included 3),
      scope (.included 4) (.included 10)] ∧
    (∃ lo hi, scope lo hi ∈ [eq (5 : Int), scope .unbounded (.included 3),
      scope (.included 4) (.included 10)] ∧ ∀ v, eq v ∈ [eq (5 : Int), scope .unbounded (.included 3),
        scope (.included 4) (.included 10)] → lo.key true < point v false) ∧
    ∃ ys, (or [eq (5 : Int), scope .unbounded (.included 3), scope (.included 4) (.included 10)]).rearrange =
      .ok ys ∧ ∀ x, (or [eq (5 : Int), scope .unbounded (.included 3),
        scope (.included 4) (.included 10)]).admits x → (or ys).admits x := by
  refine ⟨?h1, ?h2, ?h3, rearrange_covers_of_scope_first _ ?h1 ?h2 ?h3⟩
  · simp [isScope]
  · simp
  · exact ⟨.unbounded, .included 3, by simp, by simp⟩

end Cover

end ConstantBinary

end KipSql
