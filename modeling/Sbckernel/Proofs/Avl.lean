import Sbckernel.Mm.Avl

/-!
# The AVL operations keep the tree's rules

`avl_rebalance` is entered with a subtree whose height is at most one off what
the path above it was built for. One round either brings the node's own height
back, and the loop may stop, or leaves it one off for the cell above; that is
all the loop needs, and it does not matter whether a node was added or taken
away. The in-order sequence is another matter entirely: no rotation changes
it, so it can be read off the path.
-/

namespace Sbckernel.Mm

open Lib AvlTree List

variable {α κ : Type _} {c h : Nat} {l r : AvlTree α} {node : α}
variable {v : α} {path stack : List (Frame α)} {t : AvlTree α} {a b : List α}

/-- The sons' heights `a` and `b` of a node with stored height `h`, when one of
them has moved by at most one since the node was balanced. -/
def OneOff (h a b : Nat) : Prop :=
  a ≤ b + 2 ∧ b ≤ a + 2 ∧ max a b ≤ h ∧ h ≤ max a b + 2 ∧
    (b + 1 < a ∨ a + 1 < b → h ≤ max a b + 1)

theorem OneOff.of_fits {f : Frame α} {s : AvlTree α} (hf : f.Fits c)
    (h1 : s.heightof ≤ c + 1) (h2 : c ≤ s.heightof + 1) :
    ∃ l v r, f.attach s = .node l v f.height r ∧
      OneOff f.height l.heightof r.heightof ∧ (s.Balanced → l.Balanced ∧ r.Balanced) := by
  obtain ⟨hh, hl, hr, hb⟩ := hf
  cases f with
  | left v h r =>
    refine ⟨s, v, r, rfl, ?_, fun hs => ⟨hs, hb⟩⟩
    simp only [Frame.height, Frame.sibling] at hh hl hr ⊢
    unfold OneOff
    omega
  | right l v h =>
    refine ⟨l, v, s, rfl, ?_, fun hs => ⟨hb, hs⟩⟩
    simp only [Frame.height, Frame.sibling] at hh hl hr ⊢
    unfold OneOff
    omega

theorem inorder_avlRebalanceNode (t : AvlTree α) : (avlRebalanceNode t).1.inorder = t.inorder := by
  fun_cases avlRebalanceNode t <;> simp_all

theorem avlRebalanceNode_balanced
    (hl : l.Balanced) (hr : r.Balanced) (ho : OneOff h l.heightof r.heightof) :
    (avlRebalanceNode (.node l v h r)).1.Balanced ∧
      (avlRebalanceNode (.node l v h r)).1.heightof ≤ h + 1 ∧
      h ≤ (avlRebalanceNode (.node l v h r)).1.heightof + 1 ∧
      ((avlRebalanceNode (.node l v h r)).2 = true →
        (avlRebalanceNode (.node l v h r)).1.heightof = h) := by
  unfold OneOff at ho
  simp only [avlRebalanceNode]
  split
  next hheavy =>
    cases l with
    | empty => simp at hheavy
    | node ll lv lh lr =>
      simp only [balanced_node, heightof_node] at hl ho hheavy ⊢
      split
      · simp [balanced_node, *]; omega
      next hlr =>
        cases lr with
        | empty => simp at hlr
        | node a w k b =>
          simp only [balanced_node, heightof_node] at hl hlr
          simp [balanced_node, *]; omega
  next hleft =>
    split
    next hheavy =>
      cases r with
      | empty => simp at hheavy
      | node rl rv rh rr =>
        simp only [balanced_node, heightof_node] at hr ho hheavy hleft ⊢
        split
        · simp [balanced_node, *]; omega
        next hrl =>
          cases rl with
          | empty => simp at hrl
          | node a w k b =>
            simp only [balanced_node, heightof_node] at hr hrl
            simp [balanced_node, *]; omega
    next hright =>
      split
      all_goals
        split
        · simp [balanced_node, *]; omega
        · simp [balanced_node, *]; omega

theorem inorder_avlRebalance (path : List (Frame α)) (t : AvlTree α) :
    (avlRebalance path t).inorder = before path ++ t.inorder ++ behind path := by
  rw [← inorder_plug]
  induction path generalizing t with
  | nil => rfl
  | cons f path ih =>
    have hnode := inorder_avlRebalanceNode (f.attach t)
    rw [avlRebalance]
    split
    next node heq => rw [plug, inorder_plug, inorder_plug, ← hnode, heq]
    next node heq => rw [ih, plug, inorder_plug, inorder_plug, ← hnode, heq]

/-- The loop repairs a path whose hole got a subtree one higher or one lower
than the one it was built for. -/
theorem avlRebalance_balanced (hp : FitsPath c path) (ht : t.Balanced)
    (h1 : t.heightof ≤ c + 1) (h2 : c ≤ t.heightof + 1) : (avlRebalance path t).Balanced := by
  induction path generalizing t c with
  | nil => exact ht
  | cons f path ih =>
    obtain ⟨l, v, r, hnode, hoff, hsons⟩ := OneOff.of_fits hp.1 h1 h2
    obtain ⟨hl, hr⟩ := hsons ht
    obtain ⟨hb, hle, hge, hstop⟩ := avlRebalanceNode_balanced (v := v) hl hr hoff
    rw [avlRebalance, hnode]
    split
    next node heq =>
      rw [heq] at hb hstop
      have hsame : node.heightof = f.height := hstop rfl
      exact FitsPath.balanced_plug (hsame ▸ hp.2) hb
    next node heq =>
      rw [heq] at hb hle hge
      exact ih hp.2 hb hle hge

section Order

variable [LinearOrder κ] (key : α → κ)

theorem plug_avlInsertPath (k : κ) (t : AvlTree α) (stack : List (Frame α)) :
    plug (avlInsertPath key k t stack) .empty = plug stack t := by
  induction t generalizing stack with
  | empty => rfl
  | node l v h r ihl ihr =>
    rw [avlInsertPath]
    split
    · rw [ihl]; rfl
    · rw [ihr]; rfl

theorem avlInsertPath_fits (k : κ) (ht : t.Balanced) (hs : FitsPath t.heightof stack) :
    FitsPath 0 (avlInsertPath key k t stack) := by
  induction t generalizing stack with
  | empty => exact hs
  | node l v h r ihl ihr =>
    rw [avlInsertPath]
    split
    · exact ihl ht.2.2.2.1 (hs.descend_left ht)
    · exact ihr ht.2.2.2.2 (hs.descend_right ht)

/-- The cell where `avl_insert` stops has the smaller keys before it and the
larger ones behind it. -/
theorem avlInsertPath_separates (k : κ) (stack : List (Frame α)) (ht : t.Ordered key)
    (hbefore : ∀ a ∈ before stack, key a ≤ k) (hbehind : ∀ a ∈ behind stack, k < key a) :
    (∀ a ∈ before (avlInsertPath key k t stack), key a ≤ k) ∧
      ∀ a ∈ behind (avlInsertPath key k t stack), k < key a := by
  induction t generalizing stack with
  | empty => exact ⟨hbefore, hbehind⟩
  | node l v h r ihl ihr =>
    obtain ⟨hl, hvr, hlv⟩ := pairwise_append.mp ht
    obtain ⟨hv, hr⟩ := pairwise_cons.mp hvr
    rw [avlInsertPath]
    split
    next hlt =>
      refine ihl (.left v h r :: stack) hl hbefore fun a ha => ?_
      simp only [behind, cons_append, mem_cons, mem_append] at ha
      rcases ha with rfl | ha | ha
      · exact hlt
      · exact hlt.trans (hv a ha)
      · exact hbehind a ha
    next hge =>
      have hvk : key v ≤ k := not_lt.mp hge
      refine ihr (.right l v h :: stack) hr (fun a ha => ?_) hbehind
      simp only [before, mem_append, mem_singleton] at ha
      rcases ha with ha | ha | rfl
      · exact hbefore a ha
      · exact (hlv a ha v (mem_cons_self ..)).le.trans hvk
      · exact hvk

/-- `*to_the_left` and `*to_the_right` are the ends of the two halves at every
step of the descent. -/
theorem avlInsertNeighboursPath_eq (k : κ) (t : AvlTree α) (stack : List (Frame α)) :
    avlInsertNeighboursPath key k t stack (before stack).getLast? (behind stack).head? =
      (avlInsertPath key k t stack,
        (before (avlInsertPath key k t stack)).getLast?,
        (behind (avlInsertPath key k t stack)).head?) := by
  induction t generalizing stack with
  | empty => rfl
  | node l v h r ihl ihr =>
    rw [avlInsertNeighboursPath, avlInsertPath]
    split
    · rw [← ihl]; rfl
    · rw [← ihr]; simp [before, behind]

theorem avlInsertNeighbours_eq (newNode : α) (t : AvlTree α) :
    avlInsertNeighbours key newNode t =
      (avlInsert key newNode t,
        (before (avlInsertPath key (key newNode) t [])).getLast?,
        (behind (avlInsertPath key (key newNode) t [])).head?) := by
  have hpath := avlInsertNeighboursPath_eq key (key newNode) t []
  simp only [before, behind, getLast?_nil, head?_nil] at hpath
  rw [avlInsertNeighbours, hpath, avlInsert]

/-- What `avl_insert` of a new key does, with the place the node goes to. -/
theorem avlInsert_spec (ht : AvlRules key t) {newNode : α}
    (hnew : ∀ a ∈ t.inorder, key a ≠ key newNode) :
    t.inorder = before (avlInsertPath key (key newNode) t []) ++
        behind (avlInsertPath key (key newNode) t []) ∧
      (avlInsert key newNode t).inorder =
        before (avlInsertPath key (key newNode) t []) ++
          newNode :: behind (avlInsertPath key (key newNode) t []) ∧
      AvlRules key (avlInsert key newNode t) := by
  obtain ⟨hbefore, hbehind⟩ := avlInsertPath_separates key (key newNode) []
    ht.ordered (by simp [before]) (by simp [behind])
  have hfits : FitsPath 0 (avlInsertPath key (key newNode) t []) :=
    avlInsertPath_fits key (key newNode) ht.balanced trivial
  have hplug := congrArg inorder (plug_avlInsertPath key (key newNode) t [])
  have hinorder : (avlInsert key newNode t).inorder = _ := inorder_avlRebalance _ _
  have hbalanced : (avlInsert key newNode t).Balanced :=
    avlRebalance_balanced hfits (by simp [balanced_node]) (by simp) (by simp)
  generalize avlInsertPath key (key newNode) t [] = path at *
  have hold : t.inorder = before path ++ behind path := by
    rw [inorder_plug] at hplug
    simpa [plug] using hplug.symm
  have hordered := ht.ordered
  rw [Ordered, hold] at hordered
  rw [inorder_node, inorder_empty, nil_append, append_assoc] at hinorder
  refine ⟨hold, hinorder, hbalanced, ?_⟩
  rw [Ordered, hinorder, singleton_append, pairwise_append]
  obtain ⟨hl, hr, hlr⟩ := pairwise_append.mp hordered
  refine ⟨hl, pairwise_cons.mpr ⟨hbehind, hr⟩, fun a ha => forall_mem_cons.mpr ⟨?_, hlr a ha⟩⟩
  exact lt_of_le_of_ne (hbefore a ha) (hnew a (by simp [hold, ha]))

/-- A node that `avl_remove` finds has the key, and the descent cut the tree
open at it. -/
theorem avlRemovePath_some {k : κ}
    (hfound : avlRemovePath key k t stack = some (path, l, v, h, r)) :
    k = key v ∧ plug path (.node l v h r) = plug stack t ∧
      (t.Balanced → FitsPath t.heightof stack →
        (AvlTree.node l v h r).Balanced ∧ FitsPath h path) := by
  induction t generalizing stack with
  | empty => simp [avlRemovePath] at hfound
  | node l' v' h' r' ihl ihr =>
    rw [avlRemovePath] at hfound
    split at hfound
    next hk =>
      cases hfound
      exact ⟨hk, rfl, fun hb hs => ⟨hb, hs⟩⟩
    · split at hfound
      · obtain ⟨hk, hplug, hfit⟩ := ihl hfound
        exact ⟨hk, hplug, fun hb hs => hfit hb.2.2.2.1 (hs.descend_left hb)⟩
      · obtain ⟨hk, hplug, hfit⟩ := ihr hfound
        exact ⟨hk, hplug, fun hb hs => hfit hb.2.2.2.2 (hs.descend_right hb)⟩

theorem avlRemovePath_isSome (ht : t.Ordered key) (hv : v ∈ t.inorder) (stack : List (Frame α)) :
    (avlRemovePath key (key v) t stack).isSome := by
  induction t generalizing stack with
  | empty => cases hv
  | node l w h r ihl ihr =>
    obtain ⟨hl, hwr, hlw⟩ := pairwise_append.mp ht
    obtain ⟨hw, hr⟩ := pairwise_cons.mp hwr
    rw [avlRemovePath]
    rw [inorder_node, mem_append, mem_cons] at hv
    split
    · rfl
    next hne =>
      rcases hv with hv | rfl | hv
      · rw [if_pos (hlw v hv w (mem_cons_self ..))]
        exact ihl hl hv _
      · exact absurd rfl hne
      · rw [if_neg (hw v hv).asymm]
        exact ihr hr hv _

end Order

/-- The predecessor's cell: everything left of it, its left son and itself make
up the subtree it was the rightmost node of. -/
theorem avlRightmost_spec (l : AvlTree α) (v : α) (h : Nat) (r : AvlTree α) {left : AvlTree α}
    (hwalk : avlRightmost l v h r stack = (path, left, node)) :
    before path ++ (left.inorder ++ [node]) =
        before stack ++ (AvlTree.node l v h r).inorder ∧
      behind path = behind stack ∧
      ∀ above, (AvlTree.node l v h r).Balanced → FitsPath h (stack ++ above) →
        left.Balanced ∧ FitsPath (1 + left.heightof) (path ++ above) := by
  induction r generalizing l v h stack with
  | empty =>
    cases hwalk
    refine ⟨by simp, rfl, fun above hb hs => ⟨hb.2.2.2.1, ?_⟩⟩
    have hh : h = 1 + left.heightof := by simpa using hb.1
    exact hh ▸ hs
  | node l' v' h' r' _ ih =>
    obtain ⟨hin, hbehind, hfit⟩ := ih l' v' h' hwalk
    refine ⟨by rw [hin]; simp [before], hbehind, fun above hb hs => ?_⟩
    exact hfit above hb.2.2.2.2 (hs.descend_right hb)

section Order

variable [LinearOrder κ] (key : α → κ)

theorem eq_of_key_eq (ht : t.Ordered key) {w : α}
    (hv : t.inorder = a ++ v :: b) (hw : w ∈ t.inorder) (hkey : key w = key v) : w = v := by
  rw [Ordered, hv] at ht
  obtain ⟨-, hvb, hav⟩ := pairwise_append.mp ht
  obtain ⟨hv', -⟩ := pairwise_cons.mp hvb
  rw [hv, mem_append, mem_cons] at hw
  rcases hw with hw | hw | hw
  · exact absurd hkey (hav w hw v (mem_cons_self ..)).ne
  · exact hw
  · exact absurd hkey (hv' w hw).ne'

/-- The order does not rest on the balance. -/
theorem avlRemove_spec (ht : t.Ordered key) {nodeToDelete : α} (hmem : nodeToDelete ∈ t.inorder) :
    ∃ a b, t.inorder = a ++ nodeToDelete :: b ∧
      (avlRemove key nodeToDelete t).inorder = a ++ b ∧
      (avlRemove key nodeToDelete t).Ordered key ∧
      (t.Balanced → (avlRemove key nodeToDelete t).Balanced) := by
  obtain ⟨⟨path, l, v, h, r⟩, hfound⟩ :=
    Option.isSome_iff_exists.mp (avlRemovePath_isSome key ht hmem [])
  obtain ⟨hkey, hplug, hfit⟩ := avlRemovePath_some key hfound
  have hold : t.inorder = (before path ++ l.inorder) ++ v :: (r.inorder ++ behind path) := by
    have := congrArg inorder hplug
    rw [inorder_plug] at this
    simpa [plug] using this.symm
  obtain rfl := eq_of_key_eq key ht hold hmem hkey
  have hdone : (avlRemove key nodeToDelete t).inorder =
        (before path ++ l.inorder) ++ (r.inorder ++ behind path) ∧
      (t.Balanced → (avlRemove key nodeToDelete t).Balanced) := by
    rw [avlRemove, hfound]
    cases l with
    | empty =>
      refine ⟨?_, fun hb => ?_⟩
      · rw [inorder_avlRebalance]
        simp
      · obtain ⟨hbal, hfits⟩ := hfit hb trivial
        have hh : h = 1 + r.heightof := by simpa using hbal.1
        exact avlRebalance_balanced hfits hbal.2.2.2.2 (by omega) (by omega)
    | node ll lv lh lr =>
      cases hwalk : avlRightmost ll lv lh lr [] with
      | mk stackLeft rest =>
        obtain ⟨left, pred⟩ := rest
        obtain ⟨hin, hbehind, hfitl⟩ := avlRightmost_spec ll lv lh lr hwalk
        simp only [hwalk]
        refine ⟨?_, fun hb => ?_⟩
        · rw [inorder_avlRebalance, before_append, behind_append]
          simp only [before, behind, nil_append] at hin hbehind ⊢
          rw [← hin, hbehind]
          simp
        · obtain ⟨hbal, hfits⟩ := hfit hb trivial
          obtain ⟨hleft, hpath⟩ := hfitl (.left pred h r :: path) hbal.2.2.2.1
            (FitsPath.descend_left (v := pred) hbal hfits)
          exact avlRebalance_balanced hpath hleft (by omega) (by omega)
  refine ⟨_, _, hold, hdone.1, ?_, hdone.2⟩
  rw [Ordered, hdone.1]
  rw [Ordered, hold] at ht
  exact ht.sublist (List.Sublist.append_left (sublist_cons_self ..) _)

theorem avlLast_eq (t : AvlTree α) (last : Option α) :
    avlLast t last = t.inorder.getLast?.or last := by
  induction t generalizing last with
  | empty => rfl
  | node l v h r _ ih =>
    rw [avlLast, ih, inorder_node, getLast?_append, getLast?_cons]
    cases r.inorder.getLast? <;> rfl

theorem avlFirst_eq (t : AvlTree α) (first : Option α) :
    avlFirst t first = t.inorder.head?.or first := by
  induction t generalizing first with
  | empty => rfl
  | node l v h r ih _ =>
    rw [avlFirst, ih, inorder_node, head?_append]
    cases l.inorder.head? <;> rfl

/-- `avl_neighbours` finds what stands next to the node. -/
theorem avlNeighbours_spec [DecidableEq α] (ht : t.Ordered key)
    (hnode : t.inorder = a ++ node :: b) (toTheLeft toTheRight : Option α) :
    avlNeighbours key node t toTheLeft toTheRight =
      (a.getLast?.or toTheLeft, b.head?.or toTheRight) := by
  induction t generalizing a b toTheLeft toTheRight with
  | empty => simp at hnode
  | node l v h r ihl ihr =>
    obtain ⟨hl, hvr, hlv⟩ := pairwise_append.mp ht
    obtain ⟨hv, hr⟩ := pairwise_cons.mp hvr
    rw [inorder_node] at hnode
    rw [avlNeighbours]
    rcases append_eq_append_iff.mp hnode with ⟨c, rfl, hc⟩ | ⟨c, hc, hb⟩
    · cases c with
      | nil =>
        cases hc
        simp [avlLast_eq, avlFirst_eq]
      | cons w c =>
        obtain ⟨rfl, htail⟩ := List.cons.inj hc
        have hlt : key v < key node := hv node (by simp [htail])
        rw [if_neg hlt.ne', if_neg hlt.asymm, ihr hr htail]
        simp [getLast?_cons]
    · cases c with
      | nil =>
        cases hb
        simp [avlLast_eq, avlFirst_eq, hc]
      | cons w c =>
        cases hb
        have hlt : key node < key v := hlv node (by simp [hc]) v (by simp)
        rw [if_neg hlt.ne, if_pos hlt, ihl hl hc]
        simp

/-- For every tree within the rules: inserting a new key, with or without the
neighbours, and removing a node give a tree within the rules whose in-order
sequence has exactly that node more or less, and the neighbours are the nodes
just before and just behind it. -/
theorem avl_operations_keep_rules {t : AvlTree α} (ht : AvlRules key t) :
    (∀ newNode, (∀ a ∈ t.inorder, key a ≠ key newNode) →
      ∃ a b, t.inorder = a ++ b ∧
        AvlRules key (avlInsert key newNode t) ∧
        (avlInsert key newNode t).inorder = a ++ newNode :: b ∧
        AvlRules key (avlInsertNeighbours key newNode t).1 ∧
        (avlInsertNeighbours key newNode t).1.inorder = a ++ newNode :: b ∧
        (avlInsertNeighbours key newNode t).2 = (a.getLast?, b.head?)) ∧
    ∀ nodeToDelete ∈ t.inorder,
      ∃ a b, t.inorder = a ++ nodeToDelete :: b ∧
        AvlRules key (avlRemove key nodeToDelete t) ∧
        (avlRemove key nodeToDelete t).inorder = a ++ b := by
  refine ⟨fun newNode hnew => ?_, fun nodeToDelete hmem => ?_⟩
  · obtain ⟨hold, hin, hrules⟩ := avlInsert_spec key ht hnew
    rw [avlInsertNeighbours_eq]
    exact ⟨_, _, hold, hrules, hin, hrules, hin, rfl⟩
  · obtain ⟨a, b, hold, hin, hord, hbal⟩ := avlRemove_spec key ht.ordered hmem
    exact ⟨a, b, hold, ⟨hbal ht.balanced, hord⟩, hin⟩

theorem avl_operations_keep_rules_leaf :
    AvlRules id (avlRemove id 2 (.node (.node .empty 1 1 .empty) 2 2 .empty)) := by
  have hrules : AvlRules id (AvlTree.node (.node .empty 1 1 .empty) 2 2 .empty) :=
    ⟨by decide, by decide⟩
  obtain ⟨_, _, _, h, _⟩ := (avl_operations_keep_rules id hrules).2 2 (by decide)
  exact h

end Order

end Sbckernel.Mm
