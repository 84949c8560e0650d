import Sbckernel.Proofs.Munmap

/-!
# `merge_segments` changes nothing

Two neighbours are merged only if they touch and agree in everything a page
shows: in terms of segments, if their tags are equal. The list becomes shorter
and the map stays.
-/

namespace Sbckernel.Mm

open Lib Segment List

variable {s : MmStruct} {l l' ps : List VmPtr} {prev mpnt : VmPtr}

theorem tag_of_mergeable {a b : VmArea} (h : mergeable a b = true) :
    a.tag = b.tag ∧ a.vmEnd = b.vmStart := by
  simp only [mergeable, Bool.and_eq_true, decide_eq_true_eq] at h
  obtain ⟨⟨⟨⟨⟨hinode, hpte⟩, hops⟩, hflags⟩, hmeet⟩, hoffset⟩ := h
  refine ⟨?_, hmeet⟩
  have hhas : a.hasOffset ↔ b.hasOffset := by
    rw [VmArea.hasOffset, VmArea.hasOffset, hinode, hflags]
  have hbase : (if a.hasOffset then some (a.vmOffset - BitVec.ofNat 32 a.vmStart) else none) =
      if b.hasOffset then some (b.vmOffset - BitVec.ofNat 32 b.vmStart) else none := by
    by_cases hb : b.hasOffset
    · rw [if_pos (hhas.mpr hb), if_pos hb]
      rw [if_pos (show b.vmInode ≠ none ∨ b.vmFlags &&& vmShm ≠ 0 from hb),
        decide_eq_true_eq] at hoffset
      rw [← hoffset, ← hmeet]
      congr 1
      ring
    · rw [if_neg fun ha => hb (hhas.mp ha), if_neg hb]
  rw [VmArea.tag, VmArea.tag, hinode, hpte, hops, hflags, hbase]

theorem mergeAreas_parts (s : MmStruct) (prev mpnt : VmPtr) :
    (mergeAreas s prev mpnt).mem = (s.set prev { s.mem prev with
        vmEnd := (s.mem mpnt).vmEnd, vmNext := (s.mem mpnt).vmNext }).mem ∧
      (mergeAreas s prev mpnt).mmap = s.mmap ∧
      (mergeAreas s prev mpnt).mmapAvl = avlRemove s.key mpnt s.mmapAvl ∧
      (mergeAreas s prev mpnt).allocated = s.allocated.erase mpnt ∧
      (mergeAreas s prev mpnt).totalVm = s.totalVm := by
  obtain ⟨ring, hring⟩ := removeSharedVmStruct_eq
    ({ s with mmapAvl := avlRemove s.key mpnt s.mmapAvl }.modify prev
      ({ · with vmEnd := (s.mem mpnt).vmEnd, vmNext := (s.mem mpnt).vmNext })) mpnt
  unfold mergeAreas
  dsimp only
  rw [hring]
  generalize VmArea.vmInode _ = inode
  cases inode <;> exact ⟨rfl, rfl, rfl, rfl, rfl⟩

/-- Two areas become one. -/
theorem AreaList.merge (h : AreaList s (l ++ prev :: mpnt :: l'))
    (hm : mergeable (s.mem prev) (s.mem mpnt) = true) :
    AreaList (mergeAreas s prev mpnt) (l ++ prev :: l') ∧
      Retiled ((l ++ prev :: mpnt :: l').map s.seg)
        ((l ++ prev :: l').map (mergeAreas s prev mpnt).seg) ∧
      (mergeAreas s prev mpnt).totalVm = s.totalVm := by
  obtain ⟨htag, hmeet⟩ := tag_of_mergeable hm
  obtain ⟨hmem, hmmap, htree, halloc, htotal⟩ := mergeAreas_parts s prev mpnt
  obtain ⟨-, hnd, hdisj⟩ := nodup_append.mp h.nodup
  simp only [nodup_cons, mem_cons, not_or] at hnd
  obtain ⟨⟨hpm, hpl'⟩, hml', -⟩ := hnd
  have hpl := h.notMem_left
  have hml : mpnt ∉ l := fun hmem => hdisj mpnt hmem mpnt (by simp) rfl
  have hself : (mergeAreas s prev mpnt).mem prev = { s.mem prev with
      vmEnd := (s.mem mpnt).vmEnd, vmNext := (s.mem mpnt).vmNext } := by
    rw [hmem, MmStruct.set_mem_self]
  have hsame : ∀ q, q ≠ prev → (mergeAreas s prev mpnt).mem q = s.mem q := fun q hq => by
    rw [hmem, MmStruct.set_mem_of_ne hq]
  have hsegs : ∀ m : List VmPtr, prev ∉ m → m.map (mergeAreas s prev mpnt).seg = m.map s.seg :=
    fun m hm => map_congr_left fun q hq =>
      congrArg VmArea.seg (hsame q fun heq => hm (heq ▸ hq))
  have hseg : (mergeAreas s prev mpnt).seg prev = { s.seg prev with hi := (s.seg mpnt).hi } := by
    rw [MmStruct.seg, hself]
    rfl
  have hp := h.proper (p := prev) (by simp)
  have hm' := h.proper (p := mpnt) (by simp)
  refine ⟨⟨?_, ?_, ?_, ?_, fun q hq => ?_, fun q hq => ?_⟩, ?_, htotal⟩
  · rw [hmmap]
    obtain ⟨m, hchain, hprev, hmpnt, hchain'⟩ := chain_append.mp h.linked
    refine chain_append.mpr ⟨m, hchain.congr fun q hq => ?_, hprev, ?_⟩
    · exact congrArg VmArea.vmNext (hsame q fun heq => hpl (heq ▸ hq))
    · rw [MmStruct.next, hself]
      exact hchain'.congr fun q hq => congrArg VmArea.vmNext (hsame q fun heq => hpl' (heq ▸ hq))
  · rw [htree]
    rw [append_cons] at h
    simpa using h.removed.1
  · rw [htree]
    rw [append_cons] at h
    exact h.removed.2
  · have hs := h.sorted
    rw [map_append, map_cons, map_cons, sorted_append, sorted_cons, sorted_cons] at hs
    rw [map_append, map_cons, hsegs l hpl, hsegs l' hpl', hseg, sorted_append, sorted_cons]
    simp only [forall_mem_map, forall_mem_cons] at hs ⊢
    refine ⟨hs.1, ⟨?_, hs.2.1.2.1.2.1, hs.2.1.2.1.2.2⟩, fun q hq => ⟨(hs.2.2 q hq).1,
      (hs.2.2 q hq).2.2⟩⟩
    show (s.mem prev).vmStart < (s.mem mpnt).vmEnd
    omega
  · have hqm : q ≠ mpnt := by
      intro heq
      subst heq
      simp only [mem_append, mem_cons] at hq
      tauto
    rw [halloc]
    refine Finset.mem_erase.mpr ⟨hqm, h.live q ?_⟩
    simp only [mem_append, mem_cons] at hq ⊢
    tauto
  · by_cases hqp : q = prev
    · rw [hqp, hself]
      exact h.word mpnt (by simp)
    · rw [hsame q hqp]
      refine h.word q ?_
      simp only [mem_append, mem_cons] at hq ⊢
      tauto
  · rw [map_append, map_append, map_cons, map_cons, map_cons, hsegs l hpl, hsegs l' hpl', hseg]
    exact retiled_join htag hmeet hp.le hm'.le

/-- The loop of `merge_segments`. -/
theorem mergeLoop_spec {rest : List VmPtr} (h : AreaList s (l ++ prev :: rest)) (endAddr : Nat)
    {n : Nat} (hn : rest.length < n) :
    ∃ ps', AreaList (mergeLoop endAddr n s prev rest.head?) ps' ∧
      Retiled ((l ++ prev :: rest).map s.seg)
        (ps'.map (mergeLoop endAddr n s prev rest.head?).seg) ∧
      (mergeLoop endAddr n s prev rest.head?).totalVm = s.totalVm := by
  induction rest generalizing s l prev n with
  | nil =>
    obtain ⟨n, rfl⟩ := Nat.exists_eq_succ_of_ne_zero (Nat.ne_of_gt hn)
    exact ⟨_, h, .refl _, rfl⟩
  | cons mpnt rest ih =>
    obtain ⟨n, rfl⟩ := Nat.exists_eq_succ_of_ne_zero (Nat.ne_of_gt (Nat.zero_lt_of_lt hn))
    have hn' : rest.length < n := by simpa using hn
    have hnext : (s.mem mpnt).vmNext = rest.head? := by
      rw [append_cons] at h
      exact h.next_eq
    rw [head?_cons, mergeLoop]
    split
    · dsimp only
      rw [hnext]
      split
      next hm =>
        obtain ⟨h1, hretiled, htotal⟩ := h.merge hm
        obtain ⟨ps', hlist, hretiled', htotal'⟩ := ih h1 hn'
        exact ⟨ps', hlist, hretiled.trans hretiled', htotal'.trans htotal⟩
      · rw [append_cons] at h ⊢
        exact ih h hn'
    · exact ⟨_, h, .refl _, rfl⟩

/-- `merge_segments` over any range leaves another list for the same map. -/
theorem mergeSegments_spec (h : AreaList s ps) (startAddr endAddr : Nat) :
    ∃ ps', AreaList (mergeSegments s startAddr endAddr) ps' ∧
      Retiled (ps.map s.seg) (ps'.map (mergeSegments s startAddr endAddr).seg) ∧
      (mergeSegments s startAddr endAddr).totalVm = s.totalVm := by
  rw [mergeSegments]
  have hlength := h.length_le
  rcases h.findVma_cases startAddr with ⟨hnone, -⟩ | ⟨l, p, l', rfl, hsome, -, -⟩
  · rw [hnone]
    exact ⟨ps, h, .refl _, rfl⟩
  · rw [hsome]
    dsimp only
    rw [h.neighbours]
    rw [length_append, length_cons] at hlength
    cases hlast : l.getLast? with
    | none =>
      rw [getLast?_eq_none_iff.mp hlast] at h ⊢
      exact mergeLoop_spec h endAddr (by omega)
    | some prev =>
      obtain ⟨l1, rfl⟩ := getLast?_eq_some_iff.mp hlast
      rw [append_assoc] at h ⊢
      rw [length_append, length_singleton] at hlength
      exact mergeLoop_spec (show AreaList s (l1 ++ prev :: (p :: l')) from h) endAddr
        (by rw [length_cons]; omega)

end Sbckernel.Mm
