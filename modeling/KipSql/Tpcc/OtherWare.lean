import KipSql.Types.Value

/-! other_ware of the TPC-C driver (tpcc/src/main.rs); the generator is the list of raw words it hands
out, and a run that uses them up ends in Fault.exhausted. -/

namespace KipSql

/-- rng.gen_range(low..high) on the generator's next raw word: every value of the range is
reached by some word, and an empty range panics, as rand's does. -/
def genRange (low high raw : Nat) : Except Fault Nat :=
  if low < high then .ok (low + raw % (high - low)) else .error .panic

/-- The loop of other_ware. -/
def otherWareLoop (homeWare numWare : Nat) : List Nat → Except Fault Nat
  | [] => .error .exhausted
  | raw :: rng => do
    let tmp ← genRange 1 numWare raw
    if tmp ≠ homeWare then pure tmp else otherWareLoop homeWare numWare rng

/-- other_ware(rng, home_ware, num_ware). -/
def otherWare (rng : List Nat) (homeWare numWare : Nat) : Except Fault Nat :=
  if numWare = 1 then pure homeWare else otherWareLoop homeWare numWare rng

/-- What other_ware is for once 1..num_ware holds a value: the first warehouse drawn that is
not the home one. -/
def firstOtherDraw (homeWare numWare : Nat) (rng : List Nat) : Option Nat :=
  (rng.map fun raw => 1 + raw % (numWare - 1)).find? (· ≠ homeWare)

lemma otherWareLoop_eq_firstOtherDraw {homeWare numWare : Nat} (h : 2 ≤ numWare) (rng : List Nat) :
    otherWareLoop homeWare numWare rng =
      match firstOtherDraw homeWare numWare rng with
      | some w => .ok w
      | none => .error .exhausted := by
  induction rng with
  | nil => rfl
  | cons raw rng ih =>
    have hlt : 1 < numWare := h
    by_cases hw : 1 + raw % (numWare - 1) = homeWare <;>
      simp_all [otherWareLoop, firstOtherDraw, genRange, bind, Except.bind, pure, Except.pure]

lemma otherWareLoop_zero (homeWare : Nat) (rng : List Nat) (w : Nat) :
    otherWareLoop homeWare 0 rng ≠ .ok w := by
  cases rng <;> simp [otherWareLoop, genRange, bind, Except.bind]

lemma firstOtherDraw_spec {homeWare numWare w : Nat} {rng : List Nat} (h : 2 ≤ numWare)
    (hw : firstOtherDraw homeWare numWare rng = some w) : w ≠ homeWare ∧ 1 ≤ w ∧ w < numWare := by
  have hne := List.find?_some hw
  obtain ⟨raw, -, rfl⟩ := List.mem_map.mp (List.mem_of_find?_eq_some hw)
  have hmod := Nat.mod_lt raw (show 0 < numWare - 1 by omega)
  exact ⟨by simpa using hne, by omega, by omega⟩

lemma otherWare_eq_ok_iff {rng : List Nat} {homeWare numWare w : Nat} :
    otherWare rng homeWare numWare = .ok w ↔
      (numWare = 1 ∧ w = homeWare) ∨ (2 ≤ numWare ∧ firstOtherDraw homeWare numWare rng = some w) := by
  unfold otherWare
  split_ifs with h1
  · simp [h1, pure, Except.pure, eq_comm]
  · rcases Nat.lt_or_ge numWare 2 with h | h
    · obtain rfl : numWare = 0 := by omega
      simpa using otherWareLoop_zero homeWare rng w
    · rw [otherWareLoop_eq_firstOtherDraw h]
      cases firstOtherDraw homeWare numWare rng <;> simp [h, h1]

/-- Once 1..num_ware holds a value, other_ware returns the first warehouse drawn that is not the
home one, and does not return while every draw is the home warehouse. -/
theorem otherWare_eq_firstOtherDraw (rng : List Nat) (homeWare numWare : Nat) (h : 2 ≤ numWare) :
    otherWare rng homeWare numWare =
      match firstOtherDraw homeWare numWare rng with
      | some w => .ok w
      | none => .error .exhausted := by
  rw [otherWare, if_neg (by omega), otherWareLoop_eq_firstOtherDraw h]

theorem otherWare_eq_firstOtherDraw_three :
    2 ≤ 3 ∧ otherWare [4, 1] 1 3 = .ok 2 :=
  ⟨by decide, (otherWare_eq_firstOtherDraw [4, 1] 1 3 (by decide)).trans rfl⟩

/-- other_ware returns the home warehouse only when there is one warehouse, and otherwise a
warehouse of 1..num_ware other than the home one: never num_ware itself. -/
theorem otherWare_ne_home (rng : List Nat) (homeWare numWare w : Nat)
    (h : otherWare rng homeWare numWare = .ok w) :
    (numWare = 1 ∧ w = homeWare) ∨ (w ≠ homeWare ∧ 1 ≤ w ∧ w < numWare) := by
  rcases otherWare_eq_ok_iff.mp h with h1 | ⟨h2, hw⟩
  · exact .inl h1
  · exact .inr (firstOtherDraw_spec h2 hw)

theorem otherWare_ne_home_two :
    otherWare [0] 2 2 = .ok 1 ∧ (2 = 1 ∧ 1 = 2 ∨ 1 ≠ 2 ∧ 1 ≤ 1 ∧ 1 < 2) :=
  ⟨rfl, otherWare_ne_home [0] 2 2 1 rfl⟩

/-- Some draws make other_ware return exactly when 1..num_ware holds a warehouse other than the
home one, or there is one warehouse: with two warehouses and home warehouse 1 the loop never
returns, and with none it panics or runs on. -/
theorem otherWare_returns_iff (homeWare numWare : Nat) :
    (∃ rng w, otherWare rng homeWare numWare = .ok w) ↔
      numWare = 1 ∨ (2 ≤ numWare ∧ (3 ≤ numWare ∨ homeWare ≠ 1)) := by
  constructor
  · rintro ⟨rng, w, hw⟩
    rcases otherWare_eq_ok_iff.mp hw with ⟨h1, -⟩ | ⟨h2, hw⟩
    · exact .inl h1
    · have := firstOtherDraw_spec h2 hw
      omega
  · rintro (h1 | ⟨h2, h3⟩)
    · exact ⟨[], homeWare, otherWare_eq_ok_iff.mpr (.inl ⟨h1, rfl⟩)⟩
    · let raw := if homeWare = 1 then 1 else 0
      have hdraw : 1 + raw % (numWare - 1) ≠ homeWare := by
        by_cases hh : homeWare = 1
        · simp only [raw, hh, if_true, Nat.mod_eq_of_lt (show 1 < numWare - 1 by omega)]
          omega
        · simpa [raw, hh] using Ne.symm hh
      refine ⟨[raw], 1 + raw % (numWare - 1), otherWare_eq_ok_iff.mpr (.inr ⟨h2, ?_⟩)⟩
      simp [firstOtherDraw, hdraw]

end KipSql
