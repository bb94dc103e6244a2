import ApiFirewall.Wire.Double
import Mathlib.Data.List.Basic

/-!
# Maxima and minima of doubles

Doubles other than NaN are linearly ordered. The two selections compare their arguments in a way that
keeps a first argument which is a NaN and skips a second one, so a maximum accumulated from a number
is the largest element of a list that is not a NaN, in whatever order the list comes.
-/

namespace ApiFirewall.Wire

namespace Double

variable {K : Type} [LinearOrder K]

theorem lt_trans {x y z : Double K} (hxy : lt x y = true) (hyz : lt y z = true) : lt x z = true := by
  cases x <;> cases y <;> cases z <;> simp [lt] at hxy hyz ⊢
  exact hxy.trans hyz

theorem lt_of_lt_of_le {x y z : Double K} (hxy : lt x y = true) (hyz : le y z = true) :
    lt x z = true := by
  cases x <;> cases y <;> cases z <;> simp [lt, le] at hxy hyz ⊢
  exact hxy.trans_le hyz

theorem lt_irrefl (x : Double K) : lt x x = false := by
  cases x <;> simp [lt]

/-- Doubles other than NaN are comparable. -/
theorem le_of_not_lt {x y : Double K} (hx : x ≠ .nan) (hy : y ≠ .nan) (h : ¬ lt x y = true) :
    le y x = true := by
  cases x <;> cases y <;> simp [lt, le] at hx hy h ⊢
  exact h

theorem eq_of_le_of_le {x y : Double K} (hxy : le x y = true) (hyx : le y x = true) : x = y := by
  cases x <;> cases y <;> simp [le] at hxy hyx ⊢
  exact le_antisymm hxy hyx

/-- A double that exceeds something is not a NaN. -/
theorem ne_nan_of_lt {x y : Double K} (h : lt x y = true) : y ≠ .nan := by
  rintro rfl
  cases x <;> simp [lt] at h

/-- Doubles other than NaN are equal if they exceed the same doubles. -/
theorem ext_lt {x y : Double K} (hx : x ≠ .nan) (hy : y ≠ .nan)
    (h : ∀ t, lt t x = true ↔ lt t y = true) : x = y := by
  apply eq_of_le_of_le
  · apply le_of_not_lt hy hx
    intro hlt
    exact absurd ((h y).mp hlt) (by simp [lt_irrefl])
  · apply le_of_not_lt hx hy
    intro hlt
    exact absurd ((h x).mpr hlt) (by simp [lt_irrefl])

/-- A maximum exceeds what one of its arguments exceeds. -/
theorem lt_max_iff {t x y : Double K} (hx : x ≠ .nan) :
    lt t (x.max y) = true ↔ lt t x = true ∨ lt t y = true := by
  unfold max
  by_cases h : lt x y = true
  · rw [if_pos h]
    exact ⟨.inr, fun hor => hor.elim (fun htx => lt_trans htx h) id⟩
  · rw [if_neg h]
    refine ⟨.inl, fun hor => hor.elim id fun hty => ?_⟩
    exact lt_of_lt_of_le hty (le_of_not_lt hx (ne_nan_of_lt hty) h)

theorem max_ne_nan {x y : Double K} (hx : x ≠ .nan) : x.max y ≠ .nan := by
  unfold max
  by_cases h : lt x y = true
  · rw [if_pos h]
    exact ne_nan_of_lt h
  · rwa [if_neg h]

/-- Two doubles are taken into a maximum in either order. -/
theorem max_right_comm (w x y : Double K) : (w.max x).max y = (w.max y).max x := by
  by_cases hw : w = .nan
  · subst hw
    rfl
  · refine ext_lt (max_ne_nan (max_ne_nan hw)) (max_ne_nan (max_ne_nan hw)) fun t => ?_
    rw [lt_max_iff (max_ne_nan hw), lt_max_iff hw, lt_max_iff (max_ne_nan hw), lt_max_iff hw,
      or_right_comm]

end Double

end ApiFirewall.Wire
