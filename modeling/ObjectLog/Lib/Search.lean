import Mathlib

/-!
# Binary search

The search of a sorted slice as a library does it: the window that can hold the target is
halved until one element is left, and only that one is compared for equality. On a list
that is strictly sorted by its keys, the search finds a target exactly when it is there.
-/

namespace Search

variable {α κ : Type} [LinearOrder κ]

/-- The loop. The target can only be among the `size` elements from `base` on, and every
turn halves them, so a `fuel` of `size` is never short. -/
def narrow (xs : List α) (key : α → κ) (target : κ) : Nat → Nat → Nat → Nat
  | 0, base, _ => base
  | fuel + 1, base, size =>
      if 1 < size then
        let half := size / 2
        let mid := base + half
        -- the middle element is in range, since the window is
        let base := if xs[mid]?.any fun x => decide (target < key x) then base else mid
        narrow xs key target fuel base (size - half)
      else base

/-- The position of an element with the target as its key. -/
def binarySearchByKey (xs : List α) (key : α → κ) (target : κ) : Option Nat :=
  let base := narrow xs key target xs.length 0 xs.length
  if xs[base]?.any fun x => decide (key x = target) then some base else none

theorem any_eq_true {o : Option α} {p : α → Bool} :
    o.any p = true ↔ ∃ x, o = some x ∧ p x = true := by
  cases o <;> simp

/-- Positions of a strictly sorted list are ordered as their keys. -/
theorem lt_of_key_lt {xs : List α} {key : α → κ} (hs : xs.Pairwise fun x y => key x < key y)
    {i j : Nat} {x y : α} (hx : xs[i]? = some x) (hy : xs[j]? = some y) (h : key x < key y) :
    i < j := by
  by_contra hge
  obtain ⟨hi, rfl⟩ := List.getElem?_eq_some_iff.1 hx
  obtain ⟨hj, rfl⟩ := List.getElem?_eq_some_iff.1 hy
  rcases Nat.lt_or_eq_of_le (Nat.le_of_not_lt hge) with hlt | rfl
  · exact absurd (List.pairwise_iff_getElem.1 hs j i hj hi hlt) (not_lt_of_gt h)
  · exact lt_irrefl _ h

/-- **The window closes in on the target.** A target inside the window is at the position
where the loop ends. -/
theorem narrow_eq {xs : List α} {key : α → κ} {target : κ}
    (hs : xs.Pairwise fun x y => key x < key y) {i : Nat} {x : α} (hx : xs[i]? = some x)
    (hkey : key x = target) :
    ∀ {fuel base size : Nat}, size ≤ fuel → base + size ≤ xs.length → base ≤ i →
      i < base + size → narrow xs key target fuel base size = i := by
  intro fuel
  induction fuel with
  | zero =>
      intro base size hfuel _ hlo hhi
      omega
  | succ fuel ih =>
      intro base size hfuel hlen hlo hhi
      unfold narrow
      by_cases hsize : 1 < size
      · rw [if_pos hsize]
        obtain ⟨y, hy⟩ : ∃ y, xs[base + size / 2]? = some y :=
          ⟨_, List.getElem?_eq_getElem (by omega)⟩
        simp only [hy, Option.any_some, decide_eq_true_eq]
        by_cases hgt : target < key y
        · -- the target is before the middle
          have hlt : i < base + size / 2 := lt_of_key_lt hs hx hy (hkey ▸ hgt)
          rw [if_pos hgt]
          exact ih (by omega) (by omega) hlo (by omega)
        · have hge : base + size / 2 ≤ i := by
            by_contra hlt
            have hyx : key x < key y := by
              obtain ⟨hi, rfl⟩ := List.getElem?_eq_some_iff.1 hx
              obtain ⟨hm, rfl⟩ := List.getElem?_eq_some_iff.1 hy
              exact List.pairwise_iff_getElem.1 hs i _ hi hm (by omega)
            exact hgt (hkey ▸ hyx)
          rw [if_neg hgt]
          exact ih (by omega) (by omega) hge (by omega)
      · rw [if_neg hsize]
        omega

/-- **The search of a strictly sorted list finds exactly the keys that are there.** -/
theorem isSome_binarySearchByKey {xs : List α} {key : α → κ} {target : κ}
    (hs : xs.Pairwise fun x y => key x < key y) :
    (binarySearchByKey xs key target).isSome = true ↔ ∃ x ∈ xs, key x = target := by
  unfold binarySearchByKey
  dsimp only
  constructor
  · intro h
    split at h
    case isTrue hany =>
      obtain ⟨x, hx, hkey⟩ := any_eq_true.1 hany
      exact ⟨x, List.mem_of_getElem? hx, of_decide_eq_true hkey⟩
    case isFalse => cases h
  · rintro ⟨x, hmem, hkey⟩
    obtain ⟨i, hx⟩ := List.getElem?_of_mem hmem
    obtain ⟨hi, -⟩ := List.getElem?_eq_some_iff.1 hx
    have hbase : narrow xs key target xs.length 0 xs.length = i :=
      narrow_eq hs hx hkey (Nat.le_refl _) (by omega) (Nat.zero_le i) (by omega)
    rw [hbase]
    rw [if_pos (any_eq_true.2 ⟨x, hx, decide_eq_true hkey⟩)]
    rfl

end Search
