import Mathlib.Algebra.Order.Ring.Int

/-!
# Height-annotated binary trees and the paths into them

A binary tree whose nodes store a height, as an AVL tree does. A descent
through such a tree is a list of frames, deepest first, each holding the
ancestor passed and the subtree not taken; `plug` puts a subtree back below
its frames. An algorithm that walks down with a stack and repairs on the way
up is a recursion over that list.

Two facts carry everything. The in-order sequence of a plugged tree is what
lies left of the path, the subtree, and what lies right of it. And a path is
`Fits c` when a balanced subtree of height `c` can be plugged into it, so that
a repair only has to compare the height it has with the height the path
expects.
-/

namespace Sbckernel.Lib

inductive AvlTree (α : Type _) where
  | empty
  | node (left : AvlTree α) (val : α) (height : Nat) (right : AvlTree α)
  deriving DecidableEq, Repr

namespace AvlTree

variable {α : Type _}

def heightof : AvlTree α → Nat
  | empty => 0
  | node _ _ h _ => h

def inorder : AvlTree α → List α
  | empty => []
  | node l v _ r => l.inorder ++ v :: r.inorder

@[simp] theorem heightof_empty : heightof (empty : AvlTree α) = 0 := rfl

@[simp] theorem heightof_node (l : AvlTree α) (v : α) (h : Nat) (r : AvlTree α) :
    heightof (node l v h r) = h := rfl

@[simp] theorem inorder_empty : inorder (empty : AvlTree α) = [] := rfl

@[simp] theorem inorder_node (l : AvlTree α) (v : α) (h : Nat) (r : AvlTree α) :
    inorder (node l v h r) = l.inorder ++ v :: r.inorder := rfl

/-- Every stored height is one more than the higher son's, and the sons'
heights differ by at most one. -/
def Balanced : AvlTree α → Prop
  | empty => True
  | node l _ h r => h = 1 + max l.heightof r.heightof ∧
      l.heightof ≤ r.heightof + 1 ∧ r.heightof ≤ l.heightof + 1 ∧
      l.Balanced ∧ r.Balanced

instance decidableBalanced : (t : AvlTree α) → Decidable t.Balanced
  | empty => inferInstanceAs (Decidable True)
  | node l _ h r =>
    have := decidableBalanced l
    have := decidableBalanced r
    inferInstanceAs (Decidable (h = 1 + max l.heightof r.heightof ∧
      l.heightof ≤ r.heightof + 1 ∧ r.heightof ≤ l.heightof + 1 ∧
      l.Balanced ∧ r.Balanced))

@[simp] theorem balanced_empty : Balanced (empty : AvlTree α) := trivial

theorem balanced_node {l r : AvlTree α} {v : α} {h : Nat} :
    Balanced (node l v h r) ↔ h = 1 + max l.heightof r.heightof ∧
      l.heightof ≤ r.heightof + 1 ∧ r.heightof ≤ l.heightof + 1 ∧
      l.Balanced ∧ r.Balanced := Iff.rfl

/-- The size of a balanced tree doubles with every second level. -/
theorem Balanced.two_pow_le {t : AvlTree α} (h : t.Balanced) :
    2 ^ (t.heightof / 2) ≤ t.inorder.length + 1 := by
  induction t with
  | empty => simp
  | node l v height r ihl ihr =>
    obtain ⟨hheight, hle, hge, hbl, hbr⟩ := h
    -- either son is at most two levels lower
    have hson : ∀ n, height ≤ n + 2 → 2 ^ ((height - 2) / 2) ≤ 2 ^ (n / 2) :=
      fun n hn => Nat.pow_le_pow_right Nat.two_pos (by omega)
    have hl := (hson l.heightof (by omega)).trans (ihl hbl)
    have hr := (hson r.heightof (by omega)).trans (ihr hbr)
    have hpow : 2 ^ (height / 2) ≤ 2 ^ ((height - 2) / 2) * 2 := by
      rw [← Nat.pow_succ]
      exact Nat.pow_le_pow_right Nat.two_pos (by omega)
    simp only [heightof_node, inorder_node, List.length_append, List.length_cons]
    omega

/-- The keys of the in-order sequence strictly increase. -/
def Ordered {κ : Type _} [LT κ] (key : α → κ) (t : AvlTree α) : Prop :=
  t.inorder.Pairwise fun a b => key a < key b

instance {κ : Type _} [LT κ] [DecidableLT κ] (key : α → κ) (t : AvlTree α) :
    Decidable (t.Ordered key) :=
  inferInstanceAs (Decidable (t.inorder.Pairwise fun a b => key a < key b))

/-- One ancestor on the way down: the side taken is the missing one. -/
inductive Frame (α : Type _) where
  | left (val : α) (height : Nat) (right : AvlTree α)
  | right (left : AvlTree α) (val : α) (height : Nat)

namespace Frame

def attach : Frame α → AvlTree α → AvlTree α
  | left v h r, t => node t v h r
  | right l v h, t => node l v h t

def height : Frame α → Nat
  | left _ h _ => h
  | right _ _ h => h

def sibling : Frame α → AvlTree α
  | left _ _ r => r
  | right l _ _ => l

/-- A balanced subtree of height `c` below this frame makes a balanced tree. -/
def Fits (c : Nat) (f : Frame α) : Prop :=
  f.height = 1 + max c f.sibling.heightof ∧ c ≤ f.sibling.heightof + 1 ∧
    f.sibling.heightof ≤ c + 1 ∧ f.sibling.Balanced

theorem Fits.attach {f : Frame α} {t : AvlTree α} (hf : f.Fits t.heightof)
    (ht : t.Balanced) : (f.attach t).Balanced ∧ (f.attach t).heightof = f.height := by
  obtain ⟨hh, hl, hr, hb⟩ := hf
  cases f with
  | left v h r => exact ⟨⟨hh, hl, hr, ht, hb⟩, rfl⟩
  | right l v h =>
    refine ⟨⟨?_, hr, hl, hb, ht⟩, rfl⟩
    rw [max_comm]
    exact hh

end Frame

/-- The subtree `t` below the frames of `path`, deepest frame first. -/
def plug : List (Frame α) → AvlTree α → AvlTree α
  | [], t => t
  | f :: path, t => plug path (f.attach t)

/-- What lies before the hole of a path, in order. -/
def before : List (Frame α) → List α
  | [] => []
  | .left _ _ _ :: path => before path
  | .right l v _ :: path => before path ++ (l.inorder ++ [v])

/-- What lies behind the hole of a path, in order. -/
def behind : List (Frame α) → List α
  | [] => []
  | .left v _ r :: path => v :: r.inorder ++ behind path
  | .right _ _ _ :: path => behind path

theorem inorder_plug (path : List (Frame α)) (t : AvlTree α) :
    (plug path t).inorder = before path ++ t.inorder ++ behind path := by
  induction path generalizing t with
  | nil => simp [plug, before, behind]
  | cons f path ih =>
    cases f with
    | left | right => simp [plug, before, behind, Frame.attach, ih]

theorem before_append (p q : List (Frame α)) : before (p ++ q) = before q ++ before p := by
  induction p with
  | nil => simp [before]
  | cons f p ih => cases f <;> simp [before, ih]

theorem behind_append (p q : List (Frame α)) : behind (p ++ q) = behind p ++ behind q := by
  induction p with
  | nil => simp [behind]
  | cons f p ih => cases f <;> simp [behind, ih]

/-- Every frame of the path fits the height that arrives from below, which is
`c` at the hole. -/
def FitsPath : Nat → List (Frame α) → Prop
  | _, [] => True
  | c, f :: path => f.Fits c ∧ FitsPath f.height path

theorem FitsPath.balanced_plug {path : List (Frame α)} {t : AvlTree α}
    (hp : FitsPath t.heightof path) (ht : t.Balanced) : (plug path t).Balanced := by
  induction path generalizing t with
  | nil => exact ht
  | cons f path ih =>
    obtain ⟨hb, hh⟩ := hp.1.attach ht
    exact ih (hh ▸ hp.2) hb

/-- Descending from a node leaves a path that fits. -/
theorem FitsPath.descend_left {l r : AvlTree α} {v : α} {h : Nat} {path : List (Frame α)}
    (ht : (node l v h r).Balanced) (hp : FitsPath h path) :
    FitsPath l.heightof (.left v h r :: path) :=
  ⟨⟨ht.1, ht.2.1, ht.2.2.1, ht.2.2.2.2⟩, hp⟩

theorem FitsPath.descend_right {l r : AvlTree α} {v : α} {h : Nat} {path : List (Frame α)}
    (ht : (node l v h r).Balanced) (hp : FitsPath h path) :
    FitsPath r.heightof (.right l v h :: path) := by
  refine ⟨⟨?_, ht.2.2.1, ht.2.1, ht.2.2.2.1⟩, hp⟩
  rw [max_comm]
  exact ht.1

end AvlTree

end Sbckernel.Lib
