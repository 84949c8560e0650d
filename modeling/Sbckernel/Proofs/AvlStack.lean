import Sbckernel.Mm.Mmap

/-!
# The stack of the AVL operations is high enough

What is written lies below the height of the tree, also through `stack_ptr_to_delete`. Areas of
at least a page below `MAX_USER_ADDR` are at most 786432, and a balanced tree of so many nodes
has height 39 at most. The order of the keys does not matter.
-/

namespace Sbckernel.Mm

open Lib AvlTree List

variable {α κ : Type _} [LT κ] [DecidableLT κ] {key : α → κ} {k : κ} {t : AvlTree α} {n i : Nat}

theorem avlInsertWrites_lt (h : t.Balanced) (hi : i ∈ avlInsertWrites key k t n) :
    i < n + t.heightof := by
  induction t generalizing n with
  | empty => cases hi
  | node l v height r ihl ihr =>
    obtain ⟨hheight, -, -, hbl, hbr⟩ := h
    rw [heightof_node]
    rcases mem_cons.mp hi with rfl | hi
    · omega
    · split at hi
      · have hlt := ihl hbl hi
        omega
      · have hlt := ihr hbr hi
        omega

theorem avlRightmostWrites_lt (h : t.Balanced) (hi : i ∈ avlRightmostWrites t n) :
    i < n + t.heightof := by
  induction t generalizing n with
  | empty => cases hi
  | node l v height r _ ihr =>
    obtain ⟨hheight, -, -, -, hbr⟩ := h
    rw [heightof_node]
    rcases mem_cons.mp hi with rfl | hi
    · omega
    · have hlt := ihr hbr hi
      omega

theorem avlRemoveWrites_lt [DecidableEq κ] (h : t.Balanced) (hi : i ∈ avlRemoveWrites key k t n) :
    i < n + t.heightof := by
  induction t generalizing n with
  | empty => cases hi
  | node l v height r ihl ihr =>
    obtain ⟨hheight, -, -, hbl, hbr⟩ := h
    rw [heightof_node]
    rcases mem_cons.mp hi with rfl | hi
    · omega
    · split at hi
      · cases l with
        | empty => cases hi
        | node ll lv lh lr =>
          obtain ⟨hlh, -, -, -, hblr⟩ := hbl
          rw [heightof_node] at hheight
          rcases mem_append.mp hi with hi | hi
          · have hlt := avlRightmostWrites_lt hblr hi
            omega
          · cases mem_singleton.mp hi
            omega
      · split at hi
        · have hlt := ihl hbl hi
          omega
        · have hlt := ihr hbr hi
          omega

/-- The nodes are disjoint areas of whole pages that a task can have. -/
structure UserAreas (vmStart vmEnd : α → Nat) (l : List α) : Prop where
  aligned : ∀ a ∈ l, pageSize ∣ vmStart a ∧ pageSize ∣ vmEnd a
  bounds : ∀ a ∈ l, vmStart a < vmEnd a ∧ vmEnd a ≤ maxUserAddr
  apart : l.Pairwise fun a b => vmEnd a ≤ vmStart b ∨ vmEnd b ≤ vmStart a

variable {vmStart vmEnd : α → Nat}

theorem UserAreas.length_le {l : List α} (h : UserAreas vmStart vmEnd l) : l.length ≤ 786432 := by
  have hend : ∀ a ∈ l, vmEnd a = 4096 * (vmEnd a / 4096) :=
    fun a ha => (Nat.mul_div_cancel' (h.aligned a ha).2).symm
  have hnodup : (l.map fun a => vmEnd a / 4096).Nodup := by
    refine pairwise_map.mpr (h.apart.imp_of_mem fun ha hb hab heq => ?_)
    have := hend _ ha
    have := hend _ hb
    have := h.bounds _ ha
    have := h.bounds _ hb
    omega
  have hsub : (l.map fun a => vmEnd a / 4096) ⊆ range' 1 786432 := by
    intro page hpage
    obtain ⟨a, ha, rfl⟩ := mem_map.mp hpage
    obtain ⟨hlt, hle⟩ := h.bounds a ha
    rw [show maxUserAddr = 4096 * 786432 from rfl] at hle
    have := hend a ha
    rw [mem_range'_1]
    omega
  simpa using (subperm_of_subset hnodup hsub).length_le

/-- No operation writes behind the stack, whatever the key it looks for. -/
theorem avl_stack_fits (h : t.Balanced) (hareas : UserAreas vmStart vmEnd t.inorder) (k : Nat) :
    ∀ i ∈ avlInsertWrites vmEnd k t 0 ++ avlRemoveWrites vmEnd k t 0, i < avlMaxheight := by
  have hlength := hareas.length_le
  have hheight : t.heightof / 2 < 20 := by
    refine (Nat.pow_lt_pow_iff_right Nat.one_lt_two).mp (h.two_pow_le.trans_lt ?_)
    omega
  have hmax : avlMaxheight = 41 := rfl
  intro i hi
  rcases mem_append.mp hi with hi | hi
  · have hlt := avlInsertWrites_lt h hi
    omega
  · have hlt := avlRemoveWrites_lt h hi
    omega

/-- The predecessor is the left son itself. -/
theorem avl_stack_fits_two :
    avlRemoveWrites (4096 * ·) 8192 (.node (.node .empty 1 1 .empty) 2 2 .empty) 0 = [0, 1] ∧
      1 < avlMaxheight := by
  have hareas : UserAreas (fun p => 4096 * (p - 1)) (4096 * ·) [1, 2] :=
    ⟨by decide, by decide, by decide⟩
  exact ⟨by decide, avl_stack_fits (t := .node (.node .empty 1 1 .empty) 2 2 .empty) (by decide)
    hareas 8192 1 (by decide)⟩

end Sbckernel.Mm
