import KipSql.Range.ScopeAggregation
import KipSql.Range.Rearrange

/-! Mapping a range's values through a map that keeps `partial_cmp` and equality commutes with the
normalizers, so what holds over `Int` holds of non-NULL integer `DataValue`s. -/

namespace KipSql

variable {α β : Type}

def Bound.map (f : α → β) : Bound α → Bound β
  | .unbounded => .unbounded
  | .included v => .included (f v)
  | .excluded v => .excluded (f v)

namespace ConstantBinary

mutual
def map (f : α → β) : ConstantBinary α → ConstantBinary β
  | scope min max => scope (min.map f) (max.map f)
  | eq v => eq (f v)
  | notEq v => notEq (f v)
  | and bs => and (mapAll f bs)
  | or bs => or (mapAll f bs)

def mapAll (f : α → β) : List (ConstantBinary α) → List (ConstantBinary β)
  | [] => []
  | b :: bs => map f b :: mapAll f bs
end

@[simp] lemma mapAll_eq (f : α → β) (bs : List (ConstantBinary α)) : mapAll f bs = bs.map (map f) := by
  induction bs <;> simp [mapAll, *]

@[simp] lemma map_and (f : α → β) (bs : List (ConstantBinary α)) :
    (and bs).map f = and (bs.map (map f)) := by
  simp [map]

@[simp] lemma map_or (f : α → β) (bs : List (ConstantBinary α)) :
    (or bs).map f = or (bs.map (map f)) := by
  simp [map]

@[simp] lemma isLeaf_map (f : α → β) (c : ConstantBinary α) : (c.map f).isLeaf = c.isLeaf := by
  cases c <;> rfl

@[simp] lemma isScope_map (f : α → β) (c : ConstantBinary α) : (c.map f).isScope = c.isScope := by
  cases c <;> rfl

@[simp] lemma aggregationRank_map [PartialCmp β] (f : α → β) (c : ConstantBinary α) :
    (c.map f).aggregationRank = c.aggregationRank := by
  cases c <;> rfl

lemma collectConditions_map (xs : List (ConstantBinary α)) :
    collectConditions (xs.map (map f)) = List.map (map f) <$> collectConditions xs := by
  induction xs with
  | nil => rfl
  | cons b xs ih =>
    cases b with
    | scope lo hi =>
      cases lo <;> cases hi <;> simp only [List.map, map, Bound.map, collectConditions, ih] <;>
        cases collectConditions xs <;> rfl
    | eq _ | notEq _ =>
      simp only [List.map, map, collectConditions, ih]
      cases collectConditions xs <;> rfl
    | and bs =>
      simp only [List.map, map_and, collectConditions, ih]
      cases collectConditions xs <;> simp [Functor.map, Except.map]
    | or _ => rfl

lemma mergeBounds_map (c : ConstantBinary α) :
    mergeBounds (c.map f) = Prod.map (Bound.map f) (Bound.map f) <$> mergeBounds c := by
  cases c <;> rfl

lemma sortBound_map [PartialCmp β] (f : α → β) (c : ConstantBinary α) :
    (c.map f).sortBound = c.sortBound.map f := by
  cases c <;> rfl

end ConstantBinary

lemma foldlM_map_state {σ τ γ ε : Type} (φ : σ → τ) {g : σ → γ → Except ε σ} {g' : τ → γ → Except ε τ}
    (h : ∀ s c, g' (φ s) c = φ <$> g s c) (l : List γ) (s : σ) :
    l.foldlM g' (φ s) = φ <$> l.foldlM g s := by
  induction l generalizing s with
  | nil => rfl
  | cons c l ih =>
    simp only [List.foldlM_cons, h]
    cases g s c with
    | error e => rfl
    | ok s' => exact ih s'

lemma map_insert_of_injective [DecidableEq α] [DecidableEq β] {f : α → β} (hinj : Function.Injective f)
    (l : List α) (v : α) : (l.map f).insert (f v) = (l.insert v).map f := by
  by_cases h : v ∈ l <;> simp [h, List.mem_map_of_injective hinj]

section Embedding

variable [PartialCmp α] [PartialCmp β] {f : α → β}
  (hf : ∀ a b, partialCmp (f a) (f b) = partialCmp a b)

include hf

lemma boundCompared_map (a b : Bound α) (m : Bool) :
    boundCompared (a.map f) (b.map f) m = boundCompared a b m := by
  cases a <;> cases b <;> simp [boundCompared, Bound.map, hf]

lemma admitsAbove_map (b : Bound α) (x : α) : (b.map f).admitsAbove (f x) ↔ b.admitsAbove x := by
  cases b <;> simp [Bound.admitsAbove, Bound.map, hf]

lemma admitsBelow_map (b : Bound α) (x : α) : (b.map f).admitsBelow (f x) ↔ b.admitsBelow x := by
  cases b <;> simp [Bound.admitsBelow, Bound.map, hf]

namespace ConstantBinary

lemma sortLe_map (a b : ConstantBinary α) : sortLe (a.map f) (b.map f) ↔ sortLe a b := by
  simp only [sortLe, sortBound_map, boundCompared_map hf]

lemma sortConditions_map (cs : List (ConstantBinary α)) :
    sortConditions (cs.map (map f)) = List.map (map f) <$> sortConditions cs := by
  have hany : (cs.map (map f)).any (!·.isLeaf) = cs.any (!·.isLeaf) := by
    induction cs <;> simp_all
  simp only [sortConditions, List.length_map, hany]
  split_ifs
  · rfl
  · rw [← List.map_insertionSort sortLe sortLe (map f) cs fun a _ b _ => (sortLe_map hf a b).symm]
    rfl

lemma visitMerged_map (c : ConstantBinary α) (merged : List (ConstantBinary α)) :
    visitMerged (c.map f) (merged.map (map f)) =
      Prod.map (List.map (map f)) id <$> visitMerged c merged := by
  induction merged with
  | nil => rfl
  | cons b merged ih =>
    cases b with
    | scope lo hi =>
      simp only [List.map, map, visitMerged, mergeBounds_map]
      cases mergeBounds c with
      | error _ => rfl
      | ok p =>
        simp only [Functor.map, Except.map, bind, Except.bind, Prod.map, boundCompared_map hf,
          isScope_map]
        split_ifs <;> rfl
    | _ =>
      simp only [List.map, map, visitMerged, ih]
      cases visitMerged c merged <;> rfl

lemma mergeStep_map (merged : List (ConstantBinary α)) (c : ConstantBinary α) :
    mergeStep (merged.map (map f)) (c.map f) = List.map (map f) <$> mergeStep merged c := by
  cases merged with
  | nil => rfl
  | cons b merged =>
    have h := visitMerged_map hf c (b :: merged)
    simp only [List.map] at h
    simp only [mergeStep, List.map, h]
    cases visitMerged c (b :: merged) with
    | error _ => rfl
    | ok r =>
      obtain ⟨m, p⟩ := r
      cases p <;> rfl

/-- `rearrange` of the mapped range is the mapped `rearrange`. -/
theorem rearrange_map (b : ConstantBinary α) : (b.map f).rearrange = List.map (map f) <$> b.rearrange := by
  cases b with
  | or bs =>
    simp only [map_or, rearrange, collectConditions_map]
    cases collectConditions bs with
    | error _ => rfl
    | ok cs =>
      simp only [Functor.map, Except.map, bind, Except.bind]
      rw [sortConditions_map hf]
      cases sortConditions cs with
      | error _ => rfl
      | ok sorted =>
        simp only [Functor.map, Except.map]
        rw [show ([] : List (ConstantBinary β)) = List.map (map f) [] from rfl, List.foldlM_map,
          foldlM_map_state (List.map (map f)) (fun m c => mergeStep_map hf m c)]
        cases sorted.foldlM mergeStep [] <;> simp [Functor.map, Except.map, pure, Except.pure]
  | and _ => simp [rearrange, Functor.map, Except.map, pure, Except.pure]
  | _ => rfl

lemma tighten_map (cur new : Bound α) (m : Bool)
    (hit : Ordering → Bool) : tighten (cur.map f) (new.map f) m hit = (tighten cur new m hit).map f := by
  unfold tighten
  rw [boundCompared_map hf]
  cases boundCompared cur new m with
  | none => rfl
  | some o => by_cases h : hit o <;> simp [h]

variable [DecidableEq α] [DecidableEq β] (hinj : Function.Injective f)

def Aggregation.map (st : Aggregation α) : Aggregation β :=
  ⟨st.scopeMin.map f, st.scopeMax.map f, st.eqSet.map f, st.nodup.map hinj⟩

include hinj

lemma aggregate_map (st : Aggregation α) (c : ConstantBinary α) :
    aggregate (Aggregation.map hinj st) (c.map f) = Aggregation.map hinj <$> aggregate st c := by
  cases c with
  | scope lo hi =>
    have hempty : (st.eqSet.map f).isEmpty = st.eqSet.isEmpty := by cases st.eqSet <;> rfl
    simp only [map, aggregate, Aggregation.map, hempty]
    split_ifs <;> simp [Aggregation.map, Functor.map, Except.map, pure, Except.pure, tighten_map hf]
  | eq v => simp [map, aggregate, Aggregation.map, map_insert_of_injective hinj, Functor.map, Except.map, pure,
      Except.pure]
  | notEq v => simp [map, aggregate, Aggregation.map, List.map_erase hinj, Functor.map, Except.map,
      pure, Except.pure]
  | and _ | or _ => rfl

omit [DecidableEq α] [DecidableEq β] in
lemma aggregated_map (st : Aggregation α) :
    aggregated (Aggregation.map hinj st) = (aggregated st).map (map f) := by
  obtain ⟨lo, hi, eqSet, nodup⟩ := st
  have hsort := List.map_insertionSort (fun a b : α => (partialCmp a b).getD .eq ≠ .gt)
    (fun a b : β => (partialCmp a b).getD .eq ≠ .gt) f eqSet fun a _ b _ => by simp only [hf]
  simp only [aggregated, Aggregation.map, ← hsort]
  generalize eqSet.insertionSort (fun a b : α => (partialCmp a b).getD .eq ≠ .gt) = s
  cases s with
  | nil => cases lo <;> cases hi <;> rfl
  | cons a s => simp [map]

lemma _scopeAggregation_map (bs : List (ConstantBinary α)) :
    _scopeAggregation (bs.map (map f)) = List.map (map f) <$> _scopeAggregation bs := by
  have hsort := List.map_insertionSort (fun a b : ConstantBinary α => a.aggregationRank ≤ b.aggregationRank)
    (fun a b : ConstantBinary β => a.aggregationRank ≤ b.aggregationRank) (map f) bs
    fun a _ b _ => by simp
  have hinit : (⟨.unbounded, .unbounded, [], List.nodup_nil⟩ : Aggregation β) =
      Aggregation.map hinj ⟨.unbounded, .unbounded, [], List.nodup_nil⟩ := rfl
  simp only [_scopeAggregation, ← hsort, List.foldlM_map, hinit]
  rw [foldlM_map_state (Aggregation.map hinj) (fun st c => aggregate_map hf hinj st c)]
  cases (bs.insertionSort fun a b => a.aggregationRank ≤ b.aggregationRank).foldlM aggregate
      ⟨.unbounded, .unbounded, [], List.nodup_nil⟩ <;>
    simp [bind, Except.bind, Functor.map, Except.map, pure, Except.pure, aggregated_map hf hinj]

end ConstantBinary

end Embedding

namespace ConstantBinary

variable [PartialCmp α] [PartialCmp β] [DecidableEq α] [DecidableEq β] {f : α → β}

mutual
/-- `scope_aggregation` of the mapped range is the mapped `scope_aggregation`. -/
theorem scopeAggregation_map (hf : ∀ a b, partialCmp (f a) (f b) = partialCmp a b)
    (hinj : Function.Injective f) :
    ∀ b : ConstantBinary α, (b.map f).scopeAggregation = map f <$> b.scopeAggregation
  | and bs => by
    show and <$> _scopeAggregation (mapAll f bs) = map f <$> (and <$> _scopeAggregation bs)
    rw [mapAll_eq, _scopeAggregation_map hf hinj]
    cases _scopeAggregation bs <;> simp [Functor.map, Except.map]
  | or bs => by
    show or <$> scopeAggregationAll (mapAll f bs) = map f <$> (or <$> scopeAggregationAll bs)
    rw [scopeAggregationAll_map hf hinj bs]
    cases scopeAggregationAll bs <;> rfl
  | scope .. | eq _ | notEq _ => rfl

theorem scopeAggregationAll_map (hf : ∀ a b, partialCmp (f a) (f b) = partialCmp a b)
    (hinj : Function.Injective f) : ∀ bs : List (ConstantBinary α),
    scopeAggregationAll (mapAll f bs) = mapAll f <$> scopeAggregationAll bs
  | [] => rfl
  | b :: bs => by
    simp only [mapAll, scopeAggregationAll, scopeAggregation_map hf hinj b,
      scopeAggregationAll_map hf hinj bs]
    cases scopeAggregation b <;> cases scopeAggregationAll bs <;> rfl
end

omit [DecidableEq α] [DecidableEq β] in
mutual
/-- A mapped range admits the image of what the range admits, and nothing else. -/
theorem admits_map (hf : ∀ a b, partialCmp (f a) (f b) = partialCmp a b)
    (hinj : Function.Injective f) :
    ∀ (b : ConstantBinary α) (x : α), (b.map f).admits (f x) ↔ b.admits x
  | scope min max, x => and_congr (admitsAbove_map hf min x) (admitsBelow_map hf max x)
  | eq _, _ => hinj.eq_iff
  | notEq _, _ => not_congr hinj.eq_iff
  | and bs, x => allAdmit_map hf hinj bs x
  | or bs, x => anyAdmits_map hf hinj bs x

theorem allAdmit_map (hf : ∀ a b, partialCmp (f a) (f b) = partialCmp a b)
    (hinj : Function.Injective f) : ∀ (bs : List (ConstantBinary α)) (x : α),
    allAdmit (mapAll f bs) (f x) ↔ allAdmit bs x
  | [], _ => Iff.rfl
  | b :: bs, x => and_congr (admits_map hf hinj b x) (allAdmit_map hf hinj bs x)

theorem anyAdmits_map (hf : ∀ a b, partialCmp (f a) (f b) = partialCmp a b)
    (hinj : Function.Injective f) : ∀ (bs : List (ConstantBinary α)) (x : α),
    anyAdmits (mapAll f bs) (f x) ↔ anyAdmits bs x
  | [], _ => Iff.rfl
  | b :: bs, x => or_congr (admits_map hf hinj b x) (anyAdmits_map hf hinj bs x)
end

end ConstantBinary

def intValue (v : Int) : DataValue := .integer (some v)

lemma partialCmp_intValue (a b : Int) : partialCmp (intValue a) (intValue b) = partialCmp a b := rfl

lemma intValue_injective : Function.Injective intValue :=
  fun _ _ h => Option.some.inj (DataValue.integer.inj h)

open ConstantBinary in
/-- On ranges of non-NULL integers the code's ranges of `DataValue`s are ranges of `Int`: both
normalizers compute on them what they compute over `Int`, and such a range admits an integer as
its `Int` range does. -/
theorem integerRanges_refine (b : ConstantBinary Int) :
    (b.map intValue).scopeAggregation = map intValue <$> b.scopeAggregation ∧
      (b.map intValue).rearrange = List.map (map intValue) <$> b.rearrange ∧
      ∀ x, (b.map intValue).admits (intValue x) ↔ b.admits x :=
  ⟨scopeAggregation_map partialCmp_intValue intValue_injective b, rearrange_map partialCmp_intValue b,
    admits_map partialCmp_intValue intValue_injective b⟩

end KipSql
