import Sbckernel.Fs.Ext2.Ialloc
import Mathlib.Algebra.Order.BigOperators.Group.Finset

/-!
# Every free inode is found

From a parent directory in the last group the linear search of `ext2_new_inode` begins one group
too early and so ends before the last but one, which then only the quadratic hash can find, and it
does if the number of groups is a power of two. In all other cases every group is looked at.
-/

namespace Sbckernel.Fs.Ext2.Ialloc

open Function List

variable {p i j k r a size : Nat} {isDir : Bool} {bits : Nat → Bool}

/-- The number of clear bits of a bitmap. -/
def clearBits (bits : Nat → Bool) (size : Nat) : Nat :=
  ((Finset.range size).filter fun j => bits j = false).card

/-- The slots of the cache have the bitmaps of the groups they are for. -/
def Cached (groupsCount : Nat) (c : Cache) : Prop :=
  if groupsCount ≤ ext2MaxGroupLoaded then
    c.loaded = 0 ∧ ∀ g b, c.bitmap g = some b → b = g ∧ c.number g = g
  else c.loaded ≤ ext2MaxGroupLoaded ∧ ∀ i < c.loaded, c.bitmap i = some (c.number i)

/-- The counters are right, and no bit of a reserved inode is clear. -/
structure Consistent (s : State) : Prop where
  free : ∀ g < s.sGroupsCount, s.free g = clearBits (s.bits g) s.inodesPerGroup
  total : s.sFreeInodesCount = ∑ g ∈ Finset.range s.sGroupsCount, s.free g
  reserved : ∀ g < s.sGroupsCount, ∀ j < s.inodesPerGroup,
    j + g * s.inodesPerGroup + 1 < s.firstIno → s.bits g j = true
  count : s.sInodesCount = s.sGroupsCount * s.inodesPerGroup
  cached : Cached s.sGroupsCount s.cache

section Bitmaps

variable {readable : Nat → Bool} {n g : Nat} {c : Cache}

theorem moveUp_cached (h : ∀ k < c.loaded, c.bitmap k = some (c.number k))
    (hj : j ≠ 0) (hlt : j < c.loaded ∨ j = c.loaded ∧ j ≤ i) :
    moveUp c.bitmap i j = some (moveUp c.number i j) := by
  unfold moveUp
  split_ifs <;> exact h _ (by omega)

theorem loadInodeBitmap_ok (hread : ∀ g, readable g = true) (hc : Cached n c) (hg : g < n) :
    ∃ c' slot, loadInodeBitmap readable n c g = (c', .ok slot) ∧ c'.bitmap slot = some g ∧
      Cached n c' := by
  unfold loadInodeBitmap readInodeBitmap
  simp only [if_neg (Nat.not_le.mpr hg), hread, if_true]
  unfold Cached at hc ⊢
  by_cases hsmall : n ≤ ext2MaxGroupLoaded
  · rw [if_pos hsmall] at hc
    obtain ⟨hloaded, hslots⟩ := hc
    simp only [hloaded, lt_self_iff_false, false_and, if_false, if_pos hsmall]
    cases hb : c.bitmap g with
    | some b =>
      obtain ⟨rfl, hnumber⟩ := hslots g b hb
      exact ⟨c, b, by simp [hnumber], hb, hloaded, hslots⟩
    | none =>
      refine ⟨_, g, rfl, by simp, rfl, fun k b hk => ?_⟩
      rcases eq_or_ne k g with rfl | hne
      · simp_all
      · simpa [hne] using hslots k b (by simpa [hne] using hk)
  · rw [if_neg hsmall] at hc
    obtain ⟨hloaded, hslots⟩ := hc
    simp only [if_neg hsmall]
    by_cases hfirst : 0 < c.loaded ∧ c.number 0 = g
    · exact ⟨c, 0, by simp [hfirst], by rw [hslots 0 hfirst.1, hfirst.2], hloaded, hslots⟩
    rw [if_neg hfirst]
    cases hfind : (List.range c.loaded).find? fun i => c.number i == g with
    | some i =>
      have hi : i < c.loaded := mem_range.mp (mem_of_find?_eq_some hfind)
      have hnumber : c.number i = g := by simpa using find?_some hfind
      simp only [hslots i hi, Option.isSome_some, if_true]
      refine ⟨_, 0, rfl, by simp [hnumber], hloaded, fun k hk => ?_⟩
      rcases eq_or_ne k 0 with rfl | hne
      · simp
      · simpa [hne] using moveUp_cached hslots hne (.inl hk)
    | none =>
      refine ⟨_, 0, rfl, by simp, ?_, fun k hk => ?_⟩
      · dsimp only
        split_ifs <;> omega
      · rcases eq_or_ne k 0 with rfl | hne
        · simp
        · dsimp only at hk
          have hlt : k < c.loaded ∨
              k = c.loaded ∧
                k ≤ (if c.loaded < ext2MaxGroupLoaded then c.loaded + 1 else c.loaded) - 1 := by
            split_ifs at hk ⊢ <;> omega
          simpa [hne] using moveUp_cached hslots hne hlt

end Bitmaps

section Search

variable {s : State}

theorem dirStep_foldl_some : ∀ {l : List Nat} {gdp : Option Nat} {i : Nat},
    l.foldl (dirStep s a) gdp = some i → gdp = some i ∨ i ∈ l ∧ s.free i ≠ 0
  | [], _, _, h => .inl h
  | j :: l, gdp, i, h => by
    rcases dirStep_foldl_some (l := l) h with hj | ⟨hi, hfree⟩
    · unfold dirStep at hj
      grind
    · exact .inr ⟨mem_cons_of_mem _ hi, hfree⟩

theorem dirStep_foldl_none : ∀ {l : List Nat} {gdp : Option Nat},
    l.foldl (dirStep s a) gdp = none → gdp = none ∧ ∀ j ∈ l, s.free j ≠ 0 → s.free j < a
  | [], _, h => ⟨h, by simp⟩
  | j :: l, gdp, h => by
    obtain ⟨hj, hl⟩ := dirStep_foldl_none (l := l) h
    unfold dirStep at hj
    grind

theorem quadratic_some : ∀ {r i j k : Nat}, i < s.sGroupsCount → quadratic s r i j = some k →
    k < s.sGroupsCount ∧ s.free k ≠ 0
  | r + 1, i, j, k, hi, h => by
    rw [quadratic] at h
    dsimp only at h
    obtain ⟨hj, h⟩ := Option.ite_none_right_eq_some.mp h
    split_ifs at h with hlarge hfree hfree
    · exact Option.some.inj h ▸ ⟨by omega, hfree⟩
    · exact quadratic_some (by omega) h
    · exact Option.some.inj h ▸ ⟨by omega, hfree⟩
    · exact quadratic_some (by omega) h

theorem linear_some : ∀ {r i k : Nat}, 0 < s.sGroupsCount → linear s r i = some k →
    k < s.sGroupsCount ∧ s.free k ≠ 0
  | r + 1, i, k, hn, h => by
    rw [linear] at h
    split_ifs at h with hlarge hfree hfree
    · exact Option.some.inj h ▸ ⟨hn, hfree⟩
    · exact linear_some hn h
    · exact Option.some.inj h ▸ ⟨by omega, hfree⟩
    · exact linear_some hn h

/-- A step to the next group, which wraps. -/
theorem next_eq_mod {n : Nat} (hi : i < n) (hj : j ≤ n) :
    (if n ≤ i + j then i + j - n else i + j) = (i + j) % n := by
  split_ifs with hlarge
  · rw [Nat.mod_eq_sub_mod hlarge, Nat.mod_eq_of_lt (by omega)]
  · exact (Nat.mod_eq_of_lt (by omega)).symm

theorem linear_succ (hi : i < s.sGroupsCount) : linear s (r + 1) i = none ↔
    s.free ((i + 1) % s.sGroupsCount) = 0 ∧ linear s r ((i + 1) % s.sGroupsCount) = none := by
  have hnext : (if s.sGroupsCount ≤ i + 1 then 0 else i + 1) = (i + 1) % s.sGroupsCount := by
    rw [← next_eq_mod hi (by omega)]
    exact ite_congr rfl (fun _ => by omega) fun _ => rfl
  simp only [linear, hnext]
  split_ifs with hfree
  · simp [hfree]
  · simp [not_not.mp hfree]

/-- The rounds of the linear search go through the groups one by one. -/
theorem linear_eq_none (hi : i < s.sGroupsCount) :
    linear s r i = none ↔ ∀ k < r, s.free ((i + (k + 1)) % s.sGroupsCount) = 0 := by
  induction r generalizing i with
  | zero => simp [linear]
  | succ r ih =>
    rw [linear_succ hi, ih (Nat.mod_lt _ (by omega)), Nat.forall_lt_succ_left]
    refine and_congr Iff.rfl (forall₂_congr fun k _ => ?_)
    rw [Nat.mod_add_mod, add_assoc, add_comm 1]

theorem quadratic_succ (hi : i < s.sGroupsCount) (hj : j < s.sGroupsCount) :
    quadratic s (r + 1) i j = none ↔ s.free ((i + j) % s.sGroupsCount) = 0 ∧
      quadratic s r ((i + j) % s.sGroupsCount) (j * 2) = none := by
  simp only [quadratic, if_pos hj, next_eq_mod hi hj.le, Nat.shiftLeft_eq, pow_one]
  split_ifs with hfree
  · simp [hfree]
  · simp [not_not.mp hfree]

/-- The rounds of the quadratic hash that come before `j` has reached the number of groups. -/
theorem quadratic_eq_none (hi : i < s.sGroupsCount) :
    quadratic s r i j = none ↔ ∀ m < r, j * 2 ^ m < s.sGroupsCount →
      s.free ((i + j * (2 ^ (m + 1) - 1)) % s.sGroupsCount) = 0 := by
  induction r generalizing i j with
  | zero => simp [quadratic]
  | succ r ih =>
    by_cases hj : j < s.sGroupsCount
    · have hprobe : ∀ m, i + j + j * 2 * (2 ^ (m + 1) - 1) = i + j * (2 ^ (m + 1 + 1) - 1) := by
        intro m
        obtain ⟨c, hc⟩ := Nat.exists_eq_add_of_le (Nat.two_pow_pos (m + 1))
        rw [pow_succ 2 (m + 1), hc, show (Nat.succ 0 + c) * 2 - 1 = 2 * c + 1 by omega,
          show Nat.succ 0 + c - 1 = c by omega, Nat.mul_add, Nat.mul_assoc]
        omega
      rw [quadratic_succ hi hj, ih (Nat.mod_lt _ (by omega)), Nat.forall_lt_succ_left]
      refine and_congr ?_ (forall₂_congr fun m _ => ?_)
      · rw [pow_zero, mul_one, forall_prop_of_true hj, zero_add, pow_one, Nat.add_one_sub_one,
          mul_one]
      · rw [Nat.mod_add_mod, hprobe, mul_assoc, ← pow_succ']
    · have hnone : quadratic s (r + 1) i j = none := by rw [quadratic, if_neg hj]
      refine iff_of_true hnone fun m _ hlt => absurd hlt (Nat.not_lt.mpr ?_)
      exact (Nat.le_of_not_lt hj).trans (Nat.le_mul_of_pos_right j (Nat.two_pow_pos m))

theorem fileGroup_eq_none : fileGroup s p = none ↔ s.free p = 0 ∧
    quadratic s s.sGroupsCount p 1 = none ∧ linear s (s.sGroupsCount - 2) (p + 1) = none := by
  unfold fileGroup
  split_ifs with hfree
  · simp [hfree]
  · cases hq : quadratic s s.sGroupsCount p 1 <;> simp [not_not.mp hfree]

theorem fileGroup_none (hp : p + 1 < s.sGroupsCount) (h : fileGroup s p = none) :
    ∀ g < s.sGroupsCount, s.free g = 0 := by
  obtain ⟨hfree, hq, hlinear⟩ := fileGroup_eq_none.mp h
  rw [linear_eq_none hp] at hlinear
  intro g hg
  rcases lt_trichotomy g p with hlt | rfl | hgt
  · have hlin := hlinear (g + s.sGroupsCount - (p + 1) - 1) (by omega)
    rwa [show p + 1 + (g + s.sGroupsCount - (p + 1) - 1 + 1) = g + s.sGroupsCount by omega,
      Nat.add_mod_right, Nat.mod_eq_of_lt hg] at hlin
  · exact hfree
  · rcases eq_or_ne g (p + 1) with rfl | hne
    · -- The first probe of the quadratic hash is the next group.
      have hnext := (quadratic_eq_none (by omega)).mp hq 0 (by omega) (by omega)
      rwa [zero_add, pow_one, one_mul, Nat.mod_eq_of_lt hg] at hnext
    · have hlin := hlinear (g - (p + 1) - 1) (by omega)
      rwa [show p + 1 + (g - (p + 1) - 1 + 1) = g by omega, Nat.mod_eq_of_lt hg] at hlin

/-! From the last group the linear search goes through the others but for the last but one, and the
quadratic hash through the groups `2 ^ m - 2`. -/

theorem linear_last_eq_none (hp : p + 1 = s.sGroupsCount) :
    linear s (s.sGroupsCount - 2) (p + 1) = none ↔ ∀ k, k + 2 < s.sGroupsCount → s.free k = 0 := by
  have hfirst : ∀ r, linear s r (p + 1) = linear s r p := by
    intro r
    cases r with
    | zero => rfl
    | succ r => simp only [linear, if_pos hp.ge, if_pos (hp.ge.trans (Nat.le_succ _))]
  rw [hfirst, linear_eq_none (by omega)]
  have hgroup : ∀ k < s.sGroupsCount, (p + (k + 1)) % s.sGroupsCount = k := by
    intro k hk
    rw [show p + (k + 1) = k + s.sGroupsCount by omega, Nat.add_mod_right, Nat.mod_eq_of_lt hk]
  refine forall_congr' fun k => ?_
  rw [Nat.lt_sub_iff_add_lt]
  exact imp_congr_right fun hk => by rw [hgroup k (by omega)]

/-- A probe comes to the last but one group if the number of groups is a power of two. -/
theorem probe_last_iff {m n : Nat} (hp : p + 1 = n) (hm : 2 ^ m < n) :
    (p + 1 * (2 ^ (m + 1) - 1)) % n = n - 2 ↔ n = 2 ^ (m + 1) := by
  have hpow := Nat.two_pow_pos m
  rw [pow_succ]
  generalize 2 ^ m = c at *
  have hprobe : (p + 1 * (c * 2 - 1)) % n = (c * 2 - 2) % n := by
    rw [show p + 1 * (c * 2 - 1) = c * 2 - 2 + n by omega, Nat.add_mod_right]
  rw [hprobe]
  rcases Nat.lt_or_ge (c * 2 - 2) n with hlt | hge
  · rw [Nat.mod_eq_of_lt hlt]
    omega
  · rw [Nat.mod_eq_sub_mod hge, Nat.mod_eq_of_lt (by omega)]
    omega

/-- The free inodes are all in the last but one group, and the search for a file's group from the
last one does not come to it. -/
def Missed (s : State) (parent : Nat) (isDir : Bool) : Prop :=
  isDir = false ∧ parent + 1 = s.sGroupsCount ∧ ¬s.sGroupsCount.isPowerOfTwo ∧
    s.free (s.sGroupsCount - 2) ≠ 0 ∧
    ∀ g < s.sGroupsCount, g ≠ s.sGroupsCount - 2 → s.free g = 0

theorem fileGroup_last_none (hp : p + 1 = s.sGroupsCount) (hmissed : ¬Missed s p false)
    (h : fileGroup s p = none) : ∀ g < s.sGroupsCount, s.free g = 0 := by
  obtain ⟨hfree, hq, hlinear⟩ := fileGroup_eq_none.mp h
  rw [linear_last_eq_none hp] at hlinear
  rw [quadratic_eq_none (by omega)] at hq
  have hothers : ∀ g < s.sGroupsCount, g ≠ s.sGroupsCount - 2 → s.free g = 0 := by
    intro g hg hne
    rcases eq_or_ne g p with rfl | hgp
    · exact hfree
    · exact hlinear g (by omega)
  intro g hg
  by_contra hg0
  have hlast : g = s.sGroupsCount - 2 := not_imp_comm.mp (hothers g hg) hg0
  refine hmissed ⟨rfl, hp, fun ⟨m, hm⟩ => hg0 ?_, hlast ▸ hg0, hothers⟩
  cases m with
  | zero => rwa [show g = p by omega]
  | succ m =>
    have hpow := Nat.pow_lt_pow_succ (n := m) (Nat.one_lt_two)
    have hprobe := hq m (m.lt_two_pow_self.trans (hpow.trans_eq hm.symm)) (by omega)
    rwa [(probe_last_iff hp (by omega)).mpr hm, ← hlast] at hprobe

theorem Missed.fileGroup_eq (h : Missed s p false) : fileGroup s p = none := by
  obtain ⟨-, hp, hpow, hfree, hothers⟩ := h
  have htwo : 2 < s.sGroupsCount := by
    have h1 : s.sGroupsCount ≠ 1 := fun h1 => hpow ⟨0, h1⟩
    have h2 : s.sGroupsCount ≠ 2 := fun h2 => hpow ⟨1, h2⟩
    omega
  refine fileGroup_eq_none.mpr ⟨hothers p (by omega) (by omega), ?_, ?_⟩
  · refine (quadratic_eq_none (by omega)).mpr fun m _ hm => ?_
    exact hothers _ (Nat.mod_lt _ (by omega)) fun hprobe =>
      hpow ⟨m + 1, (probe_last_iff hp (by omega)).mp hprobe⟩
  · exact (linear_last_eq_none hp).mpr fun k hk => hothers k (by omega) (by omega)

/-- Some group has at least the average. -/
theorem dirGroup_none (hs : Consistent s) (h : dirGroup s = none) :
    ∀ g < s.sGroupsCount, s.free g = 0 := by
  obtain ⟨-, hfew⟩ := dirStep_foldl_none h
  simp only [mem_range] at hfew
  by_contra hsome
  push Not at hsome
  obtain ⟨g, hg, hfree⟩ := hsome
  have hlt : ∀ k ∈ Finset.range s.sGroupsCount,
      s.free k < s.sFreeInodesCount / s.sGroupsCount := by
    intro k hk
    have hpos := hfew g hg hfree
    by_cases hk0 : s.free k = 0
    · omega
    · exact hfew k (Finset.mem_range.mp hk) hk0
  have hsum := Finset.sum_lt_sum_of_nonempty ⟨g, Finset.mem_range.mpr hg⟩ hlt
  rw [← hs.total, Finset.sum_const, Finset.card_range, Nat.nsmul_eq_mul] at hsum
  exact absurd (Nat.mul_div_le _ _) (Nat.not_le.mpr hsum)

/-- The group that is chosen. -/
def chosen (s : State) (parent : Nat) (isDir : Bool) : Option Nat :=
  if isDir then dirGroup s else fileGroup s parent

theorem chosen_some (hp : p < s.sGroupsCount)
    (h : chosen s p isDir = some i) : i < s.sGroupsCount ∧ s.free i ≠ 0 := by
  unfold chosen dirGroup fileGroup at h
  split_ifs at h with hdir hfree
  · rcases dirStep_foldl_some h with hnone | ⟨hmem, hfree⟩
    · cases hnone
    · exact ⟨mem_range.mp hmem, hfree⟩
  · exact Option.some.inj h ▸ ⟨hp, hfree⟩
  · cases hq : quadratic s s.sGroupsCount p 1 with
    | some k => exact Option.some.inj (hq ▸ h) ▸ quadratic_some hp hq
    | none => exact linear_some (by omega) (hq ▸ h)

theorem chosen_none (hs : Consistent s) (hp : p < s.sGroupsCount) (hmissed : ¬Missed s p isDir)
    (h : chosen s p isDir = none) : ∀ g < s.sGroupsCount, s.free g = 0 := by
  cases isDir with
  | true => exact dirGroup_none hs h
  | false =>
    rcases Nat.lt_or_eq_of_le (Nat.succ_le_of_lt hp) with hlt | hlast
    · exact fileGroup_none hlt h
    · exact fileGroup_last_none hlast hmissed h

end Search

section Allocation

variable {s : State}

theorem clearBits_update (hj : j < size)
    (hclear : bits j = false) : clearBits (update bits j true) size + 1 = clearBits bits size := by
  have herase : ((Finset.range size).filter fun k => update bits j true k = false) =
      ((Finset.range size).filter fun k => bits k = false).erase j := by
    ext k
    rcases eq_or_ne k j with rfl | hne <;> simp [*]
  unfold clearBits
  rw [herase]
  exact Finset.card_erase_add_one (by simp [hj, hclear])

theorem findFirstZeroBit_some (h : clearBits bits size ≠ 0) :
    ∃ j, findFirstZeroBit bits size = some j ∧ j < size ∧ bits j = false := by
  obtain ⟨k, hk⟩ := Finset.card_ne_zero.mp h
  cases hfind : findFirstZeroBit bits size with
  | none =>
    have hnone := find?_eq_none.mp hfind k
    simp_all
  | some j =>
    exact ⟨j, rfl, mem_range.mp (mem_of_find?_eq_some hfind), by simpa using find?_some hfind⟩

/-- The state after inode `j` of group `i` was taken. -/
def taken (s : State) (c : Cache) (i j : Nat) (isDir : Bool) : State :=
  let gdp := s.groupDesc i
  { s with
    cache := c
    bits := update s.bits i (update (s.bits i) j true)
    groupDesc := update s.groupDesc i
      ⟨gdp.bgFreeBlocksCount, gdp.bgFreeInodesCount - 1,
        if isDir then gdp.bgUsedDirsCount + 1 else gdp.bgUsedDirsCount⟩
    sFreeInodesCount := s.sFreeInodesCount - 1 }

theorem taken_free (c : Cache) (i j : Nat) (isDir : Bool) :
    (taken s c i j isDir).free = update s.free i (s.free i - 1) := by
  ext g
  unfold taken State.free
  rcases eq_or_ne g i with rfl | hne <;> simp [*]

theorem Consistent.taken (hs : Consistent s) {c : Cache}
    (hc : Cached s.sGroupsCount c) (hi : i < s.sGroupsCount) (hj : j < s.inodesPerGroup)
    (hclear : s.bits i j = false) : Consistent (taken s c i j isDir) where
  free g hg := by
    have hfree := hs.free g hg
    rw [taken_free]
    unfold Ialloc.taken
    rcases eq_or_ne g i with rfl | hne
    · have hcount := clearBits_update hj hclear
      simp only [update_self]
      omega
    · simpa [hne] using hfree
  total := by
    have hmem : i ∈ Finset.range s.sGroupsCount := Finset.mem_range.mpr hi
    have hpos : s.free i ≠ 0 := by
      have hcount := clearBits_update hj hclear
      rw [hs.free i hi]
      omega
    have hsum := Finset.add_sum_erase _ s.free hmem
    have hsum' : ∑ g ∈ Finset.range s.sGroupsCount, update s.free i (s.free i - 1) g =
        s.free i - 1 + ∑ g ∈ (Finset.range s.sGroupsCount).erase i, s.free g := by
      rw [← Finset.add_sum_erase _ _ hmem, update_self]
      congr 1
      exact Finset.sum_congr rfl fun g hg =>
        update_of_ne (Finset.ne_of_mem_erase hg) ..
    rw [taken_free]
    change s.sFreeInodesCount - 1 = _
    rw [hs.total, ← hsum]
    refine Eq.trans ?_ hsum'.symm
    omega
  reserved g hg k hk hlow := by
    have hset := hs.reserved g hg k hk hlow
    unfold Ialloc.taken
    rcases eq_or_ne g i with rfl | hne
    · rcases eq_or_ne k j with rfl | hkj <;> simp_all
    · simpa [hne] using hset
  count := hs.count
  cached := hc

theorem ext2NewInode_none (h : chosen s p isDir = none) :
    ext2NewInode s p isDir = (s, .err .enospc) := by
  unfold chosen at h
  rw [ext2NewInode, h]

/-- In the group that is chosen there is a clear bit, and it is taken. -/
theorem ext2NewInode_some (hs : Consistent s) (hread : ∀ g, s.readable g = true)
    (hp : p < s.sGroupsCount) (h : chosen s p isDir = some i) :
    ∃ c j, ext2NewInode s p isDir =
        (taken s c i j isDir, .inode (j + i * s.inodesPerGroup + 1) i) ∧
      Cached s.sGroupsCount c ∧ j < s.inodesPerGroup ∧ s.bits i j = false := by
  obtain ⟨hi, hfree⟩ := chosen_some hp h
  rw [hs.free i hi] at hfree
  obtain ⟨c, slot, hload, hslot, hc⟩ := loadInodeBitmap_ok hread hs.cached hi
  obtain ⟨j, hfind, hj, hclear⟩ := findFirstZeroBit_some hfree
  have hlow : ¬j + i * s.inodesPerGroup + 1 < s.firstIno := fun hlow => by
    simp [hs.reserved i hi j hj hlow] at hclear
  have hhigh : ¬s.sInodesCount < j + i * s.inodesPerGroup + 1 := by
    have hle := Nat.mul_le_mul_right s.inodesPerGroup (Nat.succ_le_of_lt hi)
    rw [Nat.succ_mul] at hle
    rw [hs.count]
    omega
  refine ⟨c, j, ?_, hc, hj, hclear⟩
  unfold chosen at h
  rw [ext2NewInode, h]
  simp only [hload, hslot, hfind, hclear, hlow, hhigh, or_self, Bool.false_eq_true, if_false]
  rfl

end Allocation

/-- An inode is found whenever there is a free one, and the counters are right again. -/
def Complete (s : State) (parent : Nat) (isDir : Bool) : Prop :=
  Consistent (ext2NewInode s parent isDir).1 ∧
  ((∃ g < s.sGroupsCount, s.free g ≠ 0) →
    ∃ g j, (ext2NewInode s parent isDir).2 = .inode (j + g * s.inodesPerGroup + 1) g ∧
      g < s.sGroupsCount ∧ j < s.inodesPerGroup ∧ s.bits g j = false ∧
      (ext2NewInode s parent isDir).1.bits g j = true ∧
      (ext2NewInode s parent isDir).1.free g + 1 = s.free g) ∧
  ((∀ g < s.sGroupsCount, s.free g = 0) → (ext2NewInode s parent isDir).2 = .err .enospc)

theorem new_inode_complete (s : State) (parent : Nat) (isDir : Bool) (hs : Consistent s)
    (hread : ∀ g, s.readable g = true) (hparent : parent < s.sGroupsCount) :
    Complete s parent isDir ↔ ¬Missed s parent isDir := by
  constructor
  · rintro ⟨-, hfound, -⟩ hmissed
    have hgroup := hmissed.2.2.2.1
    obtain ⟨g, j, hinode, -⟩ := hfound ⟨s.sGroupsCount - 2, by omega, hgroup⟩
    obtain rfl := hmissed.1
    have hchosen : chosen s parent false = none := hmissed.fileGroup_eq
    rw [ext2NewInode_none hchosen] at hinode
    cases hinode
  intro hmissed
  unfold Complete
  cases hchosen : chosen s parent isDir with
  | none =>
    have hnone := chosen_none hs hparent hmissed hchosen
    rw [ext2NewInode_none hchosen]
    exact ⟨hs, fun ⟨g, hg, hfree⟩ => absurd (hnone g hg) hfree, fun _ => rfl⟩
  | some i =>
    obtain ⟨hi, hfree⟩ := chosen_some hparent hchosen
    obtain ⟨c, j, hrun, hc, hj, hclear⟩ := ext2NewInode_some hs hread hparent hchosen
    rw [hrun]
    refine ⟨hs.taken hc hi hj hclear, fun _ => ⟨i, j, rfl, hi, hj, hclear, ?_, ?_⟩,
      fun hnone => absurd (hnone i hi) hfree⟩
    · simp [taken]
    · rw [taken_free, update_self]
      omega

/-- Three groups, where only the middle one has a free inode. -/
def middleFree : State where
  sGroupsCount := 3
  inodesPerGroup := 16
  firstIno := 11
  sInodesCount := 48
  sFreeInodesCount := 1
  groupDesc g := ⟨0, if g = 1 then 1 else 0, 0⟩
  bits g j := g ≠ 1 ∨ j ≠ 0
  readable _ := true
  cache := ⟨0, fun _ => 0, fun _ => none⟩

theorem middleFree_consistent : Consistent middleFree where
  free := by decide
  total := by decide
  reserved := by decide
  count := rfl
  cached := ⟨rfl, fun _ _ h => nomatch h⟩

theorem new_inode_complete_middleFree :
    ∃ g j, (ext2NewInode middleFree 0 false).2 = .inode (j + g * 16 + 1) g := by
  have hcomplete := (new_inode_complete middleFree 0 false middleFree_consistent
    (fun _ => rfl) (by decide)).mpr fun hmissed => absurd hmissed.2.1 (by decide)
  obtain ⟨g, j, h, -⟩ := hcomplete.2.1 ⟨1, by decide, by decide⟩
  exact ⟨g, j, h⟩

/-- From a parent directory in the last group the free inode is not found. -/
theorem new_inode_last_group :
    Consistent middleFree ∧ (∃ g < middleFree.sGroupsCount, middleFree.free g ≠ 0) ∧
      (ext2NewInode middleFree 2 false).2 = .err .enospc :=
  ⟨middleFree_consistent, ⟨1, by decide, by decide⟩, by decide⟩

end Sbckernel.Fs.Ext2.Ialloc
