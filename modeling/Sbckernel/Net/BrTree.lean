import Mathlib.Data.List.Lex
import Mathlib.Order.Fin.Basic
import Sbckernel.Mm.Avl

/-!
# Learning addresses in a bridge (`net/bridge/br_tree.c`, `br_learn` of `net/bridge/br.c`)

The tree hangs below `*fhpp`, where `fdb_head` stands first with the address of six zeroes. The
code is that of the tree of areas; `br_avl_rebalance` and `br_avl_remove` are taken over from it,
and `br_avl_insert` has the call of `br_avl_rebalance` between `#if (0)` and `#endif`. The arrays
of `avl_maxheight` places are not checked by the code, so the model says how many of their entries
a call writes. Left out are the chains of a port, which only `br_learn` writes, and messages.
-/

namespace Sbckernel.Net.BrTree

open Lib Mm

def avlMaxheight : Nat := 127

/-- `unsigned char ula[6]`. -/
abbrev Ula := { a : List (Fin 256) // a.length = 6 }

instance : DecidableEq Ula := LinearOrder.toDecidableEq

instance : DecidableLT Ula := LinearOrder.toDecidableLT

/-- The loop of `addr_cmp`, with the bytes that are left. -/
def addrCmp : List (Fin 256) → List (Fin 256) → Int
  | b1 :: a1, b2 :: a2 => if b1 > b2 then 1 else if b1 < b2 then -1 else addrCmp a1 a2
  | _, _ => 0

structure Fdb where
  ula : Ula
  port : Nat
  timer : Nat
  flags : Nat
  deriving DecidableEq

def fdbEntValid : Nat := 1

def zeroes : Ula := ⟨List.replicate 6 0, rfl⟩

/-- The tree of `fdb_init`. -/
def fdbHead : AvlTree Fdb := .node .empty ⟨zeroes, 0, 0, 0⟩ 0 .empty

def brAvlFindAddr (addr : Ula) : AvlTree Fdb → Option Fdb
  | .empty => none
  | .node l tree _ r =>
    if addrCmp addr.1 tree.ula.1 = 0 then some tree
    else if addrCmp addr.1 tree.ula.1 < 0 then brAvlFindAddr addr l
    else brAvlFindAddr addr r

/-- `br_avl_insert`: the tree and how many entries of the stack were written. -/
def brAvlInsert (newNode : Fdb) : AvlTree Fdb → AvlTree Fdb × Nat
  | .empty => (.node .empty newNode 1 .empty, 0)
  | .node l node h r =>
    if addrCmp newNode.ula.1 node.ula.1 = 0 then
      (.node l { node with flags := newNode.flags, timer := newNode.timer } h r, 1)
    else if addrCmp newNode.ula.1 node.ula.1 < 0 then
      let p := brAvlInsert newNode l
      (.node p.1 node h r, p.2 + 1)
    else
      let p := brAvlInsert newNode r
      (.node l node h p.1, p.2 + 1)

/-- `br_avl_remove`: the tree and how many entries of the stack were written. The entry behind
that of the node is written once more at the end, whether the walk has put one there or not. -/
def brAvlRemove (nodeToDelete : Fdb) (tree : AvlTree Fdb) : AvlTree Fdb × Nat :=
  (avlRemove Fdb.ula nodeToDelete tree,
    match avlRemovePath Fdb.ula nodeToDelete.ula tree [] with
    | none => (avlInsertPath Fdb.ula nodeToDelete.ula tree []).length
    | some (stack, .empty, _) => stack.length + 1
    | some (stack, .node l v h r, _) =>
      stack.length + 1 + max 1 (avlRightmost l v h r []).1.length)

inductive PortState where
  | disabled | listening | learning | forwarding | blocking
  deriving DecidableEq

/-- A frame as `br_learn` sees it: its source, the port with its state, the time, and whether
`kmalloc` has memory. -/
structure Frame where
  source : Ula
  port : Nat
  state : PortState
  time : Nat
  memory : Bool

/-- The frame gets as far as the tree. -/
def Frame.learned (skb : Frame) : Bool :=
  (skb.state = .learning ∨ skb.state = .forwarding) ∧ ¬skb.source.1.head?.any (·.val % 2 = 1) ∧
    skb.memory

def brLearn (tree : AvlTree Fdb) (skb : Frame) : AvlTree Fdb × Nat :=
  if skb.learned then
    brAvlInsert ⟨skb.source, skb.port, skb.time, fdbEntValid⟩ tree
  else (tree, 0)

inductive Op where
  | learn (skb : Frame)
  | remove (node : Fdb)

/-- One call: the tree and the entries of the stack. A node that is removed is one of the tree. -/
def Op.run (tree : AvlTree Fdb) : Op → AvlTree Fdb × Nat
  | .learn skb => brLearn tree skb
  | .remove node => if node ∈ tree.inorder then brAvlRemove node tree else (tree, 0)

/-- The tree after some calls. -/
def after (ops : List Op) : AvlTree Fdb := ops.foldl (fun tree op => (op.run tree).1) fdbHead

end Sbckernel.Net.BrTree
