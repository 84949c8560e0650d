import Sbckernel.Lib.AvlTree

/-!
# The AVL tree of areas (`mm/mmap.c`)

`avl_rebalance`, `avl_insert`, `avl_insert_neighbours`, `avl_remove` and
`avl_neighbours`. The code keeps a stack of pointer cells, the places through
which it came down; `stack[i]` holds the address of the cell that points to
the i-th node of the path. Here the stack is the list of frames above the
current cell, deepest first, and storing through a cell is plugging a subtree
into the path. A node is a value of any type `α` and `key` reads its
`vm_avl_key`.
-/

namespace Sbckernel.Mm

open Lib
open AvlTree (Frame heightof plug)

variable {α κ : Type _}

/-- One round of the loop of `avl_rebalance` on the node in the current cell:
the subtree the cell holds afterwards, and whether the loop breaks off. -/
def avlRebalanceNode : AvlTree α → AvlTree α × Bool
  | .empty => (.empty, true)
  | .node nodeleft v h noderight =>
    let heightleft := heightof nodeleft
    let heightright := heightof noderight
    if heightright + 1 < heightleft then
      match nodeleft with
      | .empty => (.node nodeleft v h noderight, true)
      | .node nodeleftleft lv lh nodeleftright =>
        let heightleftright := heightof nodeleftright
        if heightof nodeleftleft ≥ heightleftright then
          (.node nodeleftleft lv (1 + (1 + heightleftright))
            (.node nodeleftright v (1 + heightleftright) noderight), false)
        else
          match nodeleftright with
          | .empty => (.node (.node nodeleftleft lv lh .empty) v h noderight, true)
          | .node l lrv _ r =>
            (.node (.node nodeleftleft lv heightleftright l) lrv heightleft
              (.node r v heightleftright noderight), false)
    else if heightleft + 1 < heightright then
      match noderight with
      | .empty => (.node nodeleft v h noderight, true)
      | .node noderightleft rv rh noderightright =>
        let heightrightleft := heightof noderightleft
        if heightof noderightright ≥ heightrightleft then
          (.node (.node nodeleft v (1 + heightrightleft) noderightleft) rv
            (1 + (1 + heightrightleft)) noderightright, false)
        else
          match noderightleft with
          | .empty => (.node nodeleft v h (.node .empty rv rh noderightright), true)
          | .node l rlv _ r =>
            (.node (.node nodeleft v heightrightleft l) rlv heightright
              (.node r rv heightrightleft noderightright), false)
    else
      let height := (if heightleft < heightright then heightright else heightleft) + 1
      if height = h then (.node nodeleft v h noderight, true)
      else (.node nodeleft v height noderight, false)

/-- `avl_rebalance`: `path` is the stack of cells, `t` what stands below the
deepest one. -/
def avlRebalance : List (Frame α) → AvlTree α → AvlTree α
  | [], t => t
  | f :: path, t =>
    match avlRebalanceNode (f.attach t) with
    | (node, true) => plug path node
    | (node, false) => avlRebalance path node

section
variable [LT κ]

/-- The consistency and balancing rules of the source, the third one strict. -/
structure AvlRules (key : α → κ) (tree : AvlTree α) : Prop where
  balanced : tree.Balanced
  ordered : tree.Ordered key

variable [DecidableLT κ]

/-- The descent of `avl_insert` to the empty cell where a node with this key
goes. -/
def avlInsertPath (key : α → κ) (k : κ) : AvlTree α → List (Frame α) → List (Frame α)
  | .empty, stack => stack
  | .node l v h r, stack =>
    if k < key v then avlInsertPath key k l (.left v h r :: stack)
    else avlInsertPath key k r (.right l v h :: stack)

def avlInsert (key : α → κ) (newNode : α) (tree : AvlTree α) : AvlTree α :=
  avlRebalance (avlInsertPath key (key newNode) tree [])
    (.node .empty newNode 1 .empty)

def avlMaxheight : Nat := 41

/-- The indices of `stack` that `avl_insert` writes from `stack_count` on, and that
`avl_insert_neighbours` writes in the same way. -/
def avlInsertWrites (key : α → κ) (k : κ) : AvlTree α → (stackCount : Nat) → List Nat
  | .empty, _ => []
  | .node l v _ r, stackCount =>
    stackCount ::
      if k < key v then avlInsertWrites key k l (stackCount + 1)
      else avlInsertWrites key k r (stackCount + 1)

/-- The descent of `avl_insert_neighbours`: the stack, `*to_the_left` and
`*to_the_right`. -/
def avlInsertNeighboursPath (key : α → κ) (k : κ) :
    AvlTree α → List (Frame α) → Option α → Option α →
      List (Frame α) × Option α × Option α
  | .empty, stack, toTheLeft, toTheRight => (stack, toTheLeft, toTheRight)
  | .node l v h r, stack, toTheLeft, toTheRight =>
    if k < key v then
      avlInsertNeighboursPath key k l (.left v h r :: stack) toTheLeft (some v)
    else avlInsertNeighboursPath key k r (.right l v h :: stack) (some v) toTheRight

def avlInsertNeighbours (key : α → κ) (newNode : α) (tree : AvlTree α) :
    AvlTree α × Option α × Option α :=
  match avlInsertNeighboursPath key (key newNode) tree [] none none with
  | (stack, toTheLeft, toTheRight) =>
    (avlRebalance stack (.node .empty newNode 1 .empty), toTheLeft, toTheRight)

variable [DecidableEq κ]

/-- The search of `avl_remove`: the stack above the cell of the node with this
key and the node in it, `none` when the search falls off the tree. -/
def avlRemovePath (key : α → κ) (k : κ) :
    AvlTree α → List (Frame α) → Option (List (Frame α) × AvlTree α × α × Nat × AvlTree α)
  | .empty, _ => none
  | .node l v h r, stack =>
    if k = key v then some (stack, l, v, h, r)
    else if k < key v then avlRemovePath key k l (.left v h r :: stack)
    else avlRemovePath key k r (.right l v h :: stack)

/-- The walk of `avl_remove` to the rightmost node of the non-empty left
subtree `node l v h r`: the stack above its cell, its left son and itself. -/
def avlRightmost (l : AvlTree α) (v : α) (h : Nat) :
    AvlTree α → List (Frame α) → List (Frame α) × AvlTree α × α
  | .empty, stack => (stack, l, v)
  | .node l' v' h' r', stack => avlRightmost l' v' h' r' (.right l v h :: stack)

/-- The indices written on that walk, below the right cell of a node of the left subtree. -/
def avlRightmostWrites : AvlTree α → (stackCount : Nat) → List Nat
  | .empty, _ => []
  | .node _ _ _ r, stackCount => stackCount :: avlRightmostWrites r (stackCount + 1)

/-- The indices that `avl_remove` writes, the one of `stack_ptr_to_delete` last. -/
def avlRemoveWrites (key : α → κ) (k : κ) : AvlTree α → (stackCount : Nat) → List Nat
  | .empty, _ => []
  | .node l v _ r, stackCount =>
    stackCount ::
      if k = key v then
        match l with
        | .empty => []
        | .node _ _ _ lr => avlRightmostWrites lr (stackCount + 1) ++ [stackCount + 1]
      else if k < key v then avlRemoveWrites key k l (stackCount + 1)
      else avlRemoveWrites key k r (stackCount + 1)

/-- `avl_remove`. The node found by its key is `node_to_delete`; its sons and
height are the ones it has in the tree. The predecessor takes its place, with
its height, before the subtree the predecessor came from is repaired. -/
def avlRemove (key : α → κ) (nodeToDelete : α) (tree : AvlTree α) : AvlTree α :=
  match avlRemovePath key (key nodeToDelete) tree [] with
  | none => tree
  | some (stack, .empty, _, _, right) => avlRebalance stack right
  | some (stack, .node l v h r, _, height, right) =>
    match avlRightmost l v h r [] with
    | (stackLeft, left, node) =>
      avlRebalance (stackLeft ++ .left node height right :: stack) left

/-- `*to_the_left` of `avl_neighbours` behind the search: the rightmost node of
the left subtree if that is not empty. -/
def avlLast : AvlTree α → Option α → Option α
  | .empty, last => last
  | .node _ v _ r, _ => avlLast r (some v)

/-- `*to_the_right` in the same way. -/
def avlFirst : AvlTree α → Option α → Option α
  | .empty, first => first
  | .node l v _ _, _ => avlFirst l (some v)

/-- `avl_neighbours`: `*to_the_left` and `*to_the_right`, which come in as the
last two arguments, for a node of the tree. -/
def avlNeighbours [DecidableEq α] (key : α → κ) (node : α) :
    AvlTree α → Option α → Option α → Option α × Option α
  | .empty, toTheLeft, toTheRight => (toTheLeft, toTheRight)
  | .node l v _ r, toTheLeft, toTheRight =>
    if key node = key v then
      if v ≠ node then (toTheLeft, toTheRight)
      else (avlLast l toTheLeft, avlFirst r toTheRight)
    else if key node < key v then avlNeighbours key node l toTheLeft (some v)
    else avlNeighbours key node r (some v) toTheRight

end

end Sbckernel.Mm
