import Mathlib.Data.List.Nodup

/-!
# Point updates

Memories and tables are functions here, and a store is `update`.
-/

namespace Sbckernel.Lib

open Function

/-- What is read after a store is what was stored, or was there before. -/
theorem update_eq_iff {ι α : Type*} [DecidableEq ι] {f : ι → α} {i j : ι} {x y : α} :
    update f i x j = y ↔ j = i ∧ x = y ∨ j ≠ i ∧ f j = y := by
  rw [update_apply]
  split <;> simp_all

theorem erase_middle {ι : Type*} [DecidableEq ι] {x : ι} {xs ys : List ι}
    (h : (xs ++ x :: ys).Nodup) : (xs ++ x :: ys).erase x = xs ++ ys := by
  have hx : x ∉ xs := fun hmem => (List.nodup_append.mp h).2.2 x hmem x List.mem_cons_self rfl
  rw [List.erase_append_right _ hx, List.erase_cons_head]

/-! ## Lists that have no member in common -/

section
variable {κ ι : Type*} [DecidableEq κ] {W : κ → List ι} {q : κ} {l : List ι}

theorem nodup_update (h : ∀ k, (W k).Nodup) (hl : l.Nodup) (k : κ) : (update W q l k).Nodup :=
  (forall_update_iff W fun _ l => l.Nodup).mpr ⟨hl, fun k _ => h k⟩ k

theorem apart_update (h : ∀ i j x, x ∈ W i → x ∈ W j → i = j) (hl : ∀ x ∈ l, ∀ k ≠ q, x ∉ W k)
    (i j : κ) (x : ι) (hi : x ∈ update W q l i) (hj : x ∈ update W q l j) : i = j := by
  rcases eq_or_ne i q with rfl | hiq
  · by_contra hne
    rw [update_self] at hi
    rw [update_of_ne (Ne.symm hne)] at hj
    exact hl x hi j (Ne.symm hne) hj
  · rw [update_of_ne hiq] at hi
    rcases eq_or_ne j q with rfl | hjq
    · rw [update_self] at hj
      exact absurd hi (hl x hj i hiq)
    · rw [update_of_ne hjq] at hj
      exact h i j x hi hj

/-- A list with a new member. -/
theorem mem_update_insert {x : ι} (hl : ∀ y, y ∈ l ↔ y ∈ W q ∨ y = x) {k : κ} {y : ι} :
    y ∈ update W q l k ↔ y ∈ W k ∨ k = q ∧ y = x := by
  rcases eq_or_ne k q with rfl | hk
  · simp [hl]
  · simp [hk]

theorem mem_update_erase [DecidableEq ι] {x : ι} (hnd : (W q).Nodup) (hx : ∀ k, x ∈ W k → k = q)
    {k : κ} {y : ι} : y ∈ update W q ((W q).erase x) k ↔ y ∈ W k ∧ y ≠ x := by
  rcases eq_or_ne k q with rfl | hk
  · rw [update_self, hnd.mem_erase_iff, and_comm]
  · rw [update_of_ne hk]
    exact ⟨fun hy => ⟨hy, fun heq => hk (hx k (heq ▸ hy))⟩, And.left⟩

end

end Sbckernel.Lib
