import Mathlib.Data.Finset.Card
import Sbckernel.Drivers.Raid5

/-!
# The layout of a RAID-5 array is a bijection

An array sector is a stripe, one of its data chunks and an offset, and so is a sector of a disk.
The index of a chunk and the disk that it is on determine each other when the parity disk is known.
-/

namespace Sbckernel.Drivers.Raid5Data

open Finset

variable (conf : Raid5Data) {k o : Nat} (stripe : Nat)

theorem raidDisks_eq : conf.raidDisks = conf.dataDisks + 1 :=
  (Nat.sub_add_cancel (Nat.le_of_succ_le conf.two_le)).symm

theorem pdIdx_lt : conf.pdIdx stripe < conf.raidDisks := by
  have := conf.raidDisks_eq
  have := Nat.mod_lt stripe (Nat.lt_of_lt_of_le Nat.two_pos conf.two_le)
  rw [pdIdx]
  split
  · omega
  · split <;> omega

/-- The data are on another disk, and `compute_blocknr` takes their index back. -/
theorem ddIdx_spec (hk : k < conf.dataDisks) :
    conf.ddIdx (conf.pdIdx stripe) k < conf.raidDisks ∧
      conf.ddIdx (conf.pdIdx stripe) k ≠ conf.pdIdx stripe ∧
      conf.chunkIdx (conf.pdIdx stripe) (conf.ddIdx (conf.pdIdx stripe) k) = k := by
  have hdisks := conf.raidDisks_eq
  have hpd := conf.pdIdx_lt stripe
  have hlevel : conf.level = 4 → conf.pdIdx stripe = conf.dataDisks := fun h4 => if_pos h4
  generalize conf.pdIdx stripe = pd at *
  have hmod : (pd + 1 + k) % conf.raidDisks =
      if pd + 1 + k < conf.raidDisks then pd + 1 + k else pd + 1 + k - conf.raidDisks := by
    split
    next h => exact Nat.mod_eq_of_lt h
    next h => rw [Nat.mod_eq_sub_mod (not_lt.mp h), Nat.mod_eq_of_lt (by omega)]
  rw [ddIdx]
  split
  next h4 =>
    have := hlevel h4
    refine ⟨by omega, by omega, ?_⟩
    rw [chunkIdx]
    split <;> split <;> omega
  · rw [chunkIdx]
    split <;> simp only [hmod] <;> split <;> refine ⟨by omega, by omega, ?_⟩ <;> split <;> omega

theorem div_mod_eq {b c : Nat} (q : Nat) (hc : c < b) :
    (q * b + c) / b = q ∧ (q * b + c) % b = c :=
  (Nat.div_mod_unique (Nat.zero_lt_of_lt hc)).mpr ⟨by rw [Nat.add_comm, Nat.mul_comm], hc⟩

/-- The array sector `o` of the chunk `k` of a stripe. -/
def arraySector (stripe k o : Nat) : Nat := (stripe * conf.dataDisks + k) * conf.sectorsPerChunk + o

theorem exists_arraySector (r : Nat) : ∃ stripe k o, k < conf.dataDisks ∧
    o < conf.sectorsPerChunk ∧ r = conf.arraySector stripe k o := by
  refine ⟨r / conf.sectorsPerChunk / conf.dataDisks, r / conf.sectorsPerChunk % conf.dataDisks,
    r % conf.sectorsPerChunk, Nat.mod_lt _ (Nat.sub_pos_of_lt conf.two_le),
    Nat.mod_lt _ conf.chunk_pos, ?_⟩
  rw [arraySector, Nat.div_add_mod', Nat.div_add_mod']

section
variable (hk : k < conf.dataDisks) (ho : o < conf.sectorsPerChunk)
include hk ho

theorem raid5ComputeSector_eq : conf.raid5ComputeSector (conf.arraySector stripe k o) =
    (stripe * conf.sectorsPerChunk + o, conf.ddIdx (conf.pdIdx stripe) k, conf.pdIdx stripe) := by
  obtain ⟨hchunk, hoffset⟩ := div_mod_eq (stripe * conf.dataDisks + k) ho
  obtain ⟨hstripe, hindex⟩ := div_mod_eq stripe hk
  rw [arraySector, raid5ComputeSector, hchunk, hoffset, hstripe, hindex]

/-- `compute_blocknr` finds the block that a sector of the stripe belongs to. -/
theorem computeBlocknr_eq (size : Nat) :
    conf.computeBlocknr ⟨stripe * conf.sectorsPerChunk + o, conf.pdIdx stripe, size⟩
      (conf.ddIdx (conf.pdIdx stripe) k) =
      some (conf.arraySector stripe k o / (size >>> 9)) := by
  obtain ⟨hstripe, hoffset⟩ := div_mod_eq stripe ho
  have hsector := conf.raid5ComputeSector_eq stripe hk ho
  rw [computeBlocknr]
  dsimp only
  rw [hstripe, hoffset, (conf.ddIdx_spec stripe hk).2.2]
  exact if_neg (not_not.mpr hsector)

end

/-- The data chunks of a stripe go to the disks other than its parity disk. -/
theorem ddIdx_bijOn : Set.BijOn (conf.ddIdx (conf.pdIdx stripe)) (range conf.dataDisks)
    ((range conf.raidDisks).erase (conf.pdIdx stripe)) := by
  have hplaced : ∀ k ∈ range conf.dataDisks, _ := fun k hk =>
    conf.ddIdx_spec stripe (mem_range.mp hk)
  have hmaps : Set.MapsTo (conf.ddIdx (conf.pdIdx stripe)) (range conf.dataDisks)
      ((range conf.raidDisks).erase (conf.pdIdx stripe)) := fun k hk =>
    mem_erase.mpr ⟨(hplaced k hk).2.1, mem_range.mpr (hplaced k hk).1⟩
  have hinj : Set.InjOn (conf.ddIdx (conf.pdIdx stripe)) (range conf.dataDisks) := by
    intro k hk k' hk' heq
    have hidx := (hplaced k hk).2.2
    rw [heq, (hplaced k' hk').2.2] at hidx
    exact (Int.ofNat.inj hidx).symm
  refine ⟨hmaps, hinj, surjOn_of_injOn_of_card_le _ hmaps hinj ?_⟩
  rw [card_erase_of_mem (mem_range.mpr (conf.pdIdx_lt stripe)), card_range,
    card_range]
  rfl

/-- Different sectors of the array have different places; the data are not on the parity disk and
fill the other disks of their stripe, and `compute_blocknr` finds back to the block. -/
theorem layout_bijective :
    (Function.Injective fun r => ((conf.raid5ComputeSector r).2.1, (conf.raid5ComputeSector r).1)) ∧
    (∀ r size, ∃ sector dd pd, conf.raid5ComputeSector r = (sector, dd, pd) ∧
      dd ≠ pd ∧ dd < conf.raidDisks ∧ pd < conf.raidDisks ∧
      conf.computeBlocknr ⟨sector, pd, size⟩ dd = some (r / (size >>> 9))) ∧
    ∀ stripe o, o < conf.sectorsPerChunk → ∃ pd,
      (∀ k < conf.dataDisks, (conf.raid5ComputeSector (conf.arraySector stripe k o)).2.2 = pd) ∧
      Set.BijOn (fun k => (conf.raid5ComputeSector (conf.arraySector stripe k o)).2.1)
        (Finset.range conf.dataDisks) ((Finset.range conf.raidDisks).erase pd) := by
  refine ⟨?_, ?_, ?_⟩
  · -- The sector tells the stripe, and with it the parity disk.
    have hleft : ∀ r, conf.computeBlocknr ⟨(conf.raid5ComputeSector r).1,
        conf.pdIdx ((conf.raid5ComputeSector r).1 / conf.sectorsPerChunk), 512⟩
        (conf.raid5ComputeSector r).2.1 = some r := by
      intro r
      obtain ⟨stripe, k, o, hk, ho, rfl⟩ := conf.exists_arraySector r
      rw [conf.raid5ComputeSector_eq stripe hk ho]
      dsimp only
      rw [(div_mod_eq stripe ho).1, conf.computeBlocknr_eq stripe hk ho]
      exact congrArg some (Nat.div_one _)
    intro r r' heq
    obtain ⟨hdisk, hsector⟩ := Prod.mk.inj heq
    have hr := hleft r
    rw [hdisk, hsector, hleft r'] at hr
    exact (Option.some.inj hr).symm
  · intro r size
    obtain ⟨stripe, k, o, hk, ho, rfl⟩ := conf.exists_arraySector r
    obtain ⟨hlt, hne, -⟩ := conf.ddIdx_spec stripe hk
    exact ⟨_, _, _, conf.raid5ComputeSector_eq stripe hk ho, hne, hlt, conf.pdIdx_lt stripe,
      conf.computeBlocknr_eq stripe hk ho size⟩
  · intro stripe o ho
    refine ⟨conf.pdIdx stripe, fun k hk => by rw [conf.raid5ComputeSector_eq stripe hk ho],
      (conf.ddIdx_bijOn stripe).congr fun k hk => ?_⟩
    rw [conf.raid5ComputeSector_eq stripe (mem_range.mp hk) ho]

/-- Three disks with chunks of eight sectors. -/
def threeDisks : Raid5Data := ⟨4096, 5, .leftSymmetric, 3, by decide, by decide⟩

theorem layout_bijective_three : threeDisks.raid5ComputeSector 100 = (52, 0, 2) ∧
    threeDisks.computeBlocknr ⟨52, 2, 1024⟩ 0 = some 50 := by
  obtain ⟨sector, dd, pd, hsector, -, -, -, hback⟩ := threeDisks.layout_bijective.2.1 100 1024
  have hplace : threeDisks.raid5ComputeSector 100 = (52, 0, 2) := by decide
  rw [hplace] at hsector
  cases hsector
  exact ⟨hplace, hback⟩

end Sbckernel.Drivers.Raid5Data
