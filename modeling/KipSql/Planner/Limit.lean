import Mathlib.Data.Nat.Digits
import Mathlib.Tactic.IntervalCases
import Mathlib.Tactic.Ring

/-! The planner's Limit operator (planner/operator/limit.rs) and the line its Display writes for
EXPLAIN. -/

namespace KipSql

/-- LimitOperator. -/
structure LimitOperator where
  offset : Option Nat
  limit : Option Nat
deriving DecidableEq, Repr

namespace LimitOperator

/-- fmt of impl Display: the three write! calls, in order. -/
def fmt (op : LimitOperator) : String :=
  (match op.limit with
    | some limit => "Limit " ++ toString limit
    | none => "") ++
  (if op.limit.isSome && op.offset.isSome then ", " else "") ++
  (match op.offset with
    | some offset => "Offset " ++ toString offset
    | none => "")

def decimalValue (cs : List Char) : Nat :=
  cs.foldl (fun n c => 10 * n + (c.toNat - 48)) 0

lemma decimalValue_append (cs ds : List Char) :
    decimalValue (cs ++ ds) = decimalValue cs * 10 ^ ds.length + decimalValue ds := by
  induction ds using List.reverseRecOn with
  | nil => simp [decimalValue]
  | append_singleton ds d ih =>
    simp only [decimalValue, ← List.append_assoc, List.foldl_append, List.foldl_cons,
      List.foldl_nil, List.length_append, List.length_singleton] at ih ⊢
    rw [ih]
    ring

lemma digitChar_value {d : Nat} (h : d < 10) : (Nat.digitChar d).toNat - 48 = d := by
  interval_cases d <;> rfl

lemma digitChar_ne_comma {d : Nat} (h : d < 10) : Nat.digitChar d ≠ ',' := by
  interval_cases d <;> decide

lemma decimalValue_toDigitsCore (f n : Nat) (ds : List Char) (hn : n < f) :
    decimalValue (Nat.toDigitsCore 10 f n ds) = n * 10 ^ ds.length + decimalValue ds := by
  induction f generalizing n ds with
  | zero => omega
  | succ f ih =>
    have hd := digitChar_value (Nat.mod_lt n (show 10 > 0 by omega))
    have hcons : decimalValue (Nat.digitChar (n % 10) :: ds) = n % 10 * 10 ^ ds.length + decimalValue ds := by
      simpa [decimalValue, hd] using decimalValue_append [Nat.digitChar (n % 10)] ds
    simp only [Nat.toDigitsCore]
    split_ifs with h0
    · rw [hcons, Nat.mod_eq_of_lt (by omega)]
    · rw [ih (n / 10) _ (by omega), hcons, List.length_cons]
      conv_rhs => rw [← Nat.div_add_mod n 10]
      ring

lemma comma_not_mem_toDigitsCore (f n : Nat) (ds : List Char) (hds : ',' ∉ ds) :
    ',' ∉ Nat.toDigitsCore 10 f n ds := by
  induction f generalizing n ds with
  | zero => exact hds
  | succ f ih =>
    have hd := digitChar_ne_comma (Nat.mod_lt n (show 10 > 0 by omega))
    have hcons : ',' ∉ Nat.digitChar (n % 10) :: ds := by simpa [Ne.symm hd] using hds
    simp only [Nat.toDigitsCore]
    split_ifs
    · exact hcons
    · exact ih _ _ hcons

lemma decimalValue_toString (n : Nat) : decimalValue (toString n).data = n := by
  simpa using decimalValue_toDigitsCore (n + 1) n [] (by omega)

lemma comma_not_mem_toString (n : Nat) : ',' ∉ (toString n).data :=
  comma_not_mem_toDigitsCore _ n [] (List.not_mem_nil _)

lemma append_cons_cancel {c : Char} :
    ∀ {xs ys zs ws : List Char}, c ∉ xs → c ∉ ys → xs ++ c :: zs = ys ++ c :: ws → xs = ys ∧ zs = ws
  | [], [], _, _, _, _, h => ⟨rfl, by simpa using h⟩
  | [], y :: ys, _, _, _, hy, h => by simp only [List.nil_append, List.cons_append, List.cons.injEq] at h; simp [h.1] at hy
  | x :: xs, [], _, _, hx, _, h => by simp only [List.nil_append, List.cons_append, List.cons.injEq] at h; simp [h.1] at hx
  | x :: xs, y :: ys, _, _, hx, hy, h => by
    simp only [List.cons_append, List.cons.injEq] at h
    obtain ⟨rfl, h⟩ := h
    obtain ⟨rfl, rfl⟩ := append_cons_cancel (List.not_mem_of_not_mem_cons hx) (List.not_mem_of_not_mem_cons hy) h
    exact ⟨rfl, rfl⟩

lemma toString_inj {m n : Nat} (h : (toString m).data = (toString n).data) : m = n := by
  rw [← decimalValue_toString m, ← decimalValue_toString n, h]

lemma toString_append_comma_inj {l l' : Nat} {xs ys : List Char}
    (h : (toString l).data ++ ',' :: xs = (toString l').data ++ ',' :: ys) : l = l' ∧ xs = ys := by
  obtain ⟨hl, rfl⟩ := append_cons_cancel (comma_not_mem_toString l) (comma_not_mem_toString l') h
  exact ⟨toString_inj hl, rfl⟩

lemma toString_ne_append_comma (l l' : Nat) (xs : List Char) :
    (toString l).data ≠ (toString l').data ++ ',' :: xs := fun h =>
  comma_not_mem_toString l (h ▸ by simp)

/-- EXPLAIN tells any two Limit operators apart: fmt writes different lines for them. -/
theorem fmt_injective : Function.Injective fmt := by
  rintro ⟨oa, la⟩ ⟨ob, lb⟩ h
  have hd := congrArg String.data h
  cases la <;> cases oa <;> cases lb <;> cases ob <;>
    simp [fmt, toString_ne_append_comma, (toString_ne_append_comma _ _ _).symm] at hd ⊢
  all_goals first
    | exact toString_inj hd
    | obtain ⟨hl, ho⟩ := toString_append_comma_inj hd
      simp only [List.cons.injEq, true_and] at ho
      exact ⟨toString_inj ho, hl⟩

end LimitOperator

end KipSql
