import KipSql.Types.Value

/-! The range algebra `ConstantBinary`, `bound_compared`, and what a range admits. -/

namespace KipSql

/-- `std::collections::Bound`. -/
inductive Bound (α : Type)
  | unbounded
  | included (v : α)
  | excluded (v : α)
deriving DecidableEq, Repr

inductive ConstantBinary (α : Type)
  | scope (min max : Bound α)
  | eq (v : α)
  | notEq (v : α)
  | and (binaries : List (ConstantBinary α))
  | or (binaries : List (ConstantBinary α))
deriving Repr

namespace ConstantBinary

variable {α : Type}

def isLeaf : ConstantBinary α → Bool
  | scope .. | eq _ | notEq _ => true
  | _ => false

def isScope : ConstantBinary α → Bool
  | scope .. => true
  | _ => false

lemma exists_eq_scope {b : ConstantBinary α} (h : b.isScope) : ∃ min max, b = scope min max := by
  cases b <;> first | exact ⟨_, _, rfl⟩ | cases h

/-- Flat: a leaf, or an `And` or `Or` of leaves. -/
def IsFlat (b : ConstantBinary α) : Prop :=
  b.isLeaf ∨ ∃ bs, (b = and bs ∨ b = or bs) ∧ ∀ c ∈ bs, c.isLeaf

def members : ConstantBinary α → List (ConstantBinary α)
  | and bs | or bs => bs
  | b => [b]

lemma members_of_isLeaf {b : ConstantBinary α} (hb : b.isLeaf) : b.members = [b] := by
  cases b <;> first | rfl | cases hb

lemma ne_or_of_isLeaf {b : ConstantBinary α} (hb : b.isLeaf) (bs : List (ConstantBinary α)) :
    b ≠ or bs := by
  rintro rfl
  cases hb

lemma isFlat_iff_members (b : ConstantBinary α) : b.IsFlat ↔ ∀ c ∈ b.members, c.isLeaf := by
  cases b with
  | and bs | or bs =>
    refine ⟨fun h => ?_, fun h => .inr ⟨bs, by simp, h⟩⟩
    obtain h | ⟨bs', hb | hb, h'⟩ := h
    · cases h
    all_goals cases hb <;> exact h'
  | _ => exact ⟨fun _ => List.forall_mem_singleton.mpr rfl, fun _ => .inl rfl⟩

end ConstantBinary

/-- The closure `op` of `bound_compared`: minima compare as given, maxima reversed. -/
def orient : Bool → Ordering → Ordering
  | true, o => o
  | false, o => o.swap

/-- `ConstantBinary::bound_compared`. -/
def boundCompared {α : Type} [PartialCmp α] (left right : Bound α) (isMin : Bool) :
    Option Ordering :=
  match left, right with
  | .unbounded, .unbounded => some .eq
  | .unbounded, _ => some (orient isMin .lt)
  | _, .unbounded => some (orient isMin .gt)
  | .included l, .included r => partialCmp l r
  | .included l, .excluded r => (partialCmp l r).map (·.then (orient isMin .lt))
  | .excluded l, .excluded r => partialCmp l r
  | .excluded l, .included r => (partialCmp l r).map (·.then (orient isMin .gt))

section Semantics

variable {α : Type} [PartialCmp α]

def Bound.admitsAbove : Bound α → α → Prop
  | .unbounded, _ => True
  | .included v, x => partialCmp v x = some .lt ∨ partialCmp v x = some .eq
  | .excluded v, x => partialCmp v x = some .lt

def Bound.admitsBelow : Bound α → α → Prop
  | .unbounded, _ => True
  | .included v, x => partialCmp x v = some .lt ∨ partialCmp x v = some .eq
  | .excluded v, x => partialCmp x v = some .lt

mutual
/-- What a range admits: `And` as intersection, `Or` as union. -/
def ConstantBinary.admits : ConstantBinary α → α → Prop
  | .scope min max, x => min.admitsAbove x ∧ max.admitsBelow x
  | .eq v, x => x = v
  | .notEq v, x => x ≠ v
  | .and bs, x => ConstantBinary.allAdmit bs x
  | .or bs, x => ConstantBinary.anyAdmits bs x

def ConstantBinary.allAdmit : List (ConstantBinary α) → α → Prop
  | [], _ => True
  | b :: bs, x => b.admits x ∧ ConstantBinary.allAdmit bs x

def ConstantBinary.anyAdmits : List (ConstantBinary α) → α → Prop
  | [], _ => False
  | b :: bs, x => b.admits x ∨ ConstantBinary.anyAdmits bs x
end

@[simp] lemma ConstantBinary.allAdmit_iff {bs : List (ConstantBinary α)} {x : α} :
    ConstantBinary.allAdmit bs x ↔ ∀ b ∈ bs, b.admits x := by
  induction bs <;> simp [ConstantBinary.allAdmit, *]

@[simp] lemma ConstantBinary.anyAdmits_iff {bs : List (ConstantBinary α)} {x : α} :
    ConstantBinary.anyAdmits bs x ↔ ∃ b ∈ bs, b.admits x := by
  induction bs <;> simp [ConstantBinary.anyAdmits, *]

end Semantics

section Keys

variable {α : Type}

abbrev Key (α : Type) := WithBot (WithTop (α ×ₗ Bool))

def point (v : α) (b : Bool) : Key α := ((toLex (v, b) : α ×ₗ Bool) : WithTop (α ×ₗ Bool))

/-- A bound read as a lower (`isMin`) or upper bound: `Unbounded` is `⊥` or `⊤`, and at one value
an excluded minimum sorts after, an excluded maximum before, the included one. -/
def Bound.key (isMin : Bool) : Bound α → Key α
  | .unbounded => if isMin then ⊥ else ⊤
  | .included v => point v !isMin
  | .excluded v => point v isMin

@[simp] lemma key_true_unbounded : (Bound.unbounded : Bound α).key true = ⊥ := rfl

@[simp] lemma key_false_unbounded : (Bound.unbounded : Bound α).key false = ⊤ := rfl

variable [LinearOrder α]

@[simp] lemma point_lt_point {v w : α} {b c : Bool} :
    point v b < point w c ↔ v < w ∨ v = w ∧ b < c := by
  simp [point, WithBot.coe_lt_coe, WithTop.coe_lt_coe, Prod.Lex.lt_iff]

@[simp] lemma point_le_point {v w : α} {b c : Bool} :
    point v b ≤ point w c ↔ v < w ∨ v = w ∧ b ≤ c := by
  simp [point, WithBot.coe_le_coe, WithTop.coe_le_coe, Prod.Lex.le_iff]

@[simp] lemma point_lt_top {v : α} {b : Bool} : point v b < (⊤ : Key α) :=
  WithBot.coe_lt_coe.mpr (WithTop.coe_lt_top _)

@[simp] lemma bot_lt_point {v : α} {b : Bool} : (⊥ : Key α) < point v b := WithBot.bot_lt_coe _

lemma boundCompared_isSome (a b : Bound α) (m : Bool) : (boundCompared a b m).isSome := by
  cases a <;> cases b <;> simp [boundCompared, partialCmp_eq_some]

lemma boundCompared_eq_lt (a b : Bound α) (m : Bool) :
    boundCompared a b m = some .lt ↔ a.key m < b.key m := by
  cases a <;> cases b <;> cases m <;>
    simp [boundCompared, Bound.key, orient, partialCmp_eq_some, Ordering.then_eq_lt,
      compare_lt_iff_lt, compare_eq_iff_eq, Ordering.swap]

lemma boundCompared_eq_gt (a b : Bound α) (m : Bool) :
    boundCompared a b m = some .gt ↔ b.key m < a.key m := by
  cases a <;> cases b <;> cases m <;>
    simp [boundCompared, Bound.key, orient, partialCmp_eq_some, Ordering.then_eq_gt,
      compare_gt_iff_gt, compare_eq_iff_eq, Ordering.swap] <;> exact or_congr_right eq_comm

lemma boundCompared_getD_isLT (a b : Bound α) (m : Bool) :
    ((boundCompared a b m).getD .eq).isLT ↔ a.key m < b.key m := by
  rw [← boundCompared_eq_lt]
  obtain ⟨o, ho⟩ := Option.isSome_iff_exists.mp (boundCompared_isSome a b m)
  cases o <;> simp [ho, Ordering.isLT]

lemma boundCompared_getD_ne_gt (a b : Bound α) (m : Bool) :
    (boundCompared a b m).getD .eq ≠ .gt ↔ a.key m ≤ b.key m := by
  rw [← not_lt, ← boundCompared_eq_gt]
  obtain ⟨o, ho⟩ := Option.isSome_iff_exists.mp (boundCompared_isSome a b m)
  cases o <;> simp [ho]

@[simp] lemma admitsAbove_iff {b : Bound α} {x : α} : b.admitsAbove x ↔ b.key true ≤ point x false := by
  cases b <;> simp [Bound.admitsAbove, Bound.key, partialCmp_eq_some, compare_lt_iff_lt,
    compare_eq_iff_eq]

@[simp] lemma admitsBelow_iff {b : Bound α} {x : α} : b.admitsBelow x ↔ point x true ≤ b.key false := by
  cases b <;> simp [Bound.admitsBelow, Bound.key, partialCmp_eq_some, compare_lt_iff_lt,
    compare_eq_iff_eq]

end Keys

end KipSql
