import Sbckernel.Fs.Fat.Access
import Mathlib.Tactic.Ring

/-!
# The entries of the file allocation table

The table is a row of bytes, and an entry is a window of it that is as wide as the volume's
entries. `fat_access` reads and writes such a window whatever sectors it is in: for 12 bits, the
window begins in the middle of a byte for an odd cluster, and may lie in two sectors.
-/

namespace Sbckernel.Fs.Fat

open Function List SuperBlock FatBits

variable {n s k v j i p m : Nat} {sb : SuperBlock} {d d' : Disk}

/-- A byte of the first table. -/
def fatByte (sb : SuperBlock) (d : Disk) (k : Nat) : Nat := d.byte (sb.fatStart + k / 512) (k % 512)

/-- The window of the table that belongs to a cluster. -/
def fatEntry (sb : SuperBlock) (d : Disk) (nr : Nat) : Nat :=
  let w := sb.fatBits.bits
  let k := nr * w / 8
  (fatByte sb d k + fatByte sb d (k + 1) * 2 ^ 8 + fatByte sb d (k + 2) * 2 ^ 16 +
    fatByte sb d (k + 3) * 2 ^ 24) / 2 ^ (nr * w % 8) % 2 ^ w

/-- From here on an entry is the end of a file, or a bad cluster. -/
def FatBits.eofMin : FatBits → Nat
  | .b12 => 0xff7
  | .b16 => 0xfff7
  | .b32 => 0xffffff7

/-- The bits of an entry that are used. -/
def FatBits.valueBits : FatBits → Nat
  | .b12 => 12
  | .b16 => 16
  | .b32 => 28

/-- What `fat_access` returns for an entry. -/
def SuperBlock.shown (sb : SuperBlock) (e : Nat) : Int := if sb.fatBits.eofMin ≤ e then -1 else e

section Bytes

theorem fatByte_lt (sb : SuperBlock) (d : Disk) (k : Nat) : fatByte sb d k < 256 := UInt8.toNat_lt _

/-- A byte of the first table is stored to. -/
def Disk.put (sb : SuperBlock) (d : Disk) (k x : Nat) : Disk :=
  d.store (sb.fatStart + k / 512) (k % 512) x

theorem fatByte_put (k x j : Nat) :
    fatByte sb (d.put sb k x) j = if j = k then x % 256 else fatByte sb d j := by
  unfold fatByte Disk.put Disk.store Disk.byte
  rcases eq_or_ne j k with rfl | hjk
  · simp
  · rcases eq_or_ne (j / 512) (k / 512) with hdiv | hdiv
    · have hmod : j % 512 ≠ k % 512 := by omega
      simp [hjk, hdiv, hmod]
    · simp [hjk, hdiv]

theorem fatByte_put_self (k x : Nat) : fatByte sb (d.put sb k x) k = x % 256 := by
  rw [fatByte_put, if_pos rfl]

theorem fatByte_put_of_ne (x : Nat) (h : j ≠ k) :
    fatByte sb (d.put sb k x) j = fatByte sb d j := by
  rw [fatByte_put, if_neg h]

@[simp] theorem fatByte_mark (b j : Nat) :
    fatByte sb (fatMarkBufferDirty sb d b) j = fatByte sb d j :=
  rfl

/-- Bytes that follow in one sector. -/
theorem byte_eq_fatByte (h : k % 512 + i < 512) :
    d.byte (sb.fatStart + k / 512) (k % 512 + i) = fatByte sb d (k + i) := by
  have hdiv : (k + i) / 512 = k / 512 := by omega
  have hmod : (k + i) % 512 = k % 512 + i := by omega
  rw [fatByte, hdiv, hmod]

theorem store_eq_put {x : Nat} (h : k % 512 + i < 512) :
    d.store (sb.fatStart + k / 512) (k % 512 + i) x = d.put sb (k + i) x := by
  have hdiv : (k + i) / 512 = k / 512 := by omega
  have hmod : (k + i) % 512 = k % 512 + i := by omega
  rw [Disk.put, hdiv, hmod]

end Bytes

section Words

theorem and_511 (k : Nat) : k &&& 511 = k % 512 := Nat.and_two_pow_sub_one_eq_mod k 9

theorem shiftRight_9 (k : Nat) : k >>> 9 = k / 512 := Nat.shiftRight_eq_div_pow k 9

/-- Where an entry of whole bytes begins in its sector. -/
theorem align_b32 (n : Nat) : (n * 4 % 512) >>> 2 <<< 2 = n * 4 % 512 := by
  rw [Nat.shiftRight_eq_div_pow, Nat.shiftLeft_eq]
  omega

theorem align_b16 (n : Nat) : (n * 2 % 512) >>> 1 <<< 1 = n * 2 % 512 := by
  rw [Nat.shiftRight_eq_div_pow, Nat.shiftLeft_eq]
  omega

theorem or_shiftLeft (q n : Nat) (hp : p < 2 ^ n) : p ||| q <<< n = p + q * 2 ^ n := by
  rw [Nat.shiftLeft_eq, Nat.or_comm, mul_comm, ← Nat.two_pow_add_eq_or_of_lt hp]
  ring

/-- The second byte of an even cluster keeps its high half. -/
theorem and_240_or (hp : p < 256) (hv : v < 4096) :
    p &&& 0xf0 ||| v >>> 8 = v / 256 + p / 16 * 16 := by
  have hhigh : ∀ a < 16, ∀ b < 16, a * 16 + b &&& 0xf0 = a <<< 4 := by decide
  have hand := hhigh (p / 16) (by omega) (p % 16) (by omega)
  rw [Nat.div_add_mod'] at hand
  have hlow : v >>> 8 < 2 ^ 4 := by rw [Nat.shiftRight_eq_div_pow]; omega
  have hor := or_shiftLeft (p / 16) 4 hlow
  rw [Nat.shiftRight_eq_div_pow] at hor
  rw [hand, Nat.or_comm, Nat.shiftRight_eq_div_pow]
  exact hor

end Words

section Window

/-- The entry in terms of the bytes that it is in. -/
theorem fatEntry_b32 (h : sb.fatBits = .b32) (n : Nat) :
    fatEntry sb d n = fatByte sb d (n * 4) + fatByte sb d (n * 4 + 1) * 2 ^ 8 +
      fatByte sb d (n * 4 + 2) * 2 ^ 16 + fatByte sb d (n * 4 + 3) * 2 ^ 24 := by
  have hk : n * 32 / 8 = n * 4 := by omega
  have hr : n * 32 % 8 = 0 := by omega
  have h0 := fatByte_lt sb d (n * 4)
  have h1 := fatByte_lt sb d (n * 4 + 1)
  have h2 := fatByte_lt sb d (n * 4 + 2)
  have h3 := fatByte_lt sb d (n * 4 + 3)
  simp only [fatEntry, h, FatBits.bits, hk, hr]
  omega

theorem fatEntry_b16 (h : sb.fatBits = .b16) (n : Nat) :
    fatEntry sb d n = fatByte sb d (n * 2) + fatByte sb d (n * 2 + 1) * 2 ^ 8 := by
  have hk : n * 16 / 8 = n * 2 := by omega
  have hr : n * 16 % 8 = 0 := by omega
  have h0 := fatByte_lt sb d (n * 2)
  have h1 := fatByte_lt sb d (n * 2 + 1)
  simp only [fatEntry, h, FatBits.bits, hk, hr]
  omega

theorem fatEntry_b12 (h : sb.fatBits = .b12) (n : Nat) :
    fatEntry sb d n =
      if n % 2 = 1 then fatByte sb d (n * 3 / 2) / 16 + fatByte sb d (n * 3 / 2 + 1) * 16
      else fatByte sb d (n * 3 / 2) + fatByte sb d (n * 3 / 2 + 1) % 16 * 256 := by
  have hk : n * 12 / 8 = n * 3 / 2 := by omega
  have h0 := fatByte_lt sb d (n * 3 / 2)
  have h1 := fatByte_lt sb d (n * 3 / 2 + 1)
  simp only [fatEntry, h, FatBits.bits, hk]
  split
  next hodd =>
    have hr : n * 12 % 8 = 4 := by omega
    rw [hr]
    omega
  next heven =>
    have hr : n * 12 % 8 = 0 := by omega
    rw [hr]
    omega

/-- The sectors that `fat_access` reads. -/
def SuperBlock.firstSector (sb : SuperBlock) (n : Nat) : Nat := sb.fatStart + sb.first n / 512

def SuperBlock.lastSector (sb : SuperBlock) (n : Nat) : Nat := sb.fatStart + sb.last n / 512

theorem nextEntry_eq (n : Nat) (h28 : sb.fatBits = .b32 → fatEntry sb d n < 2 ^ 28) :
    nextEntry sb d n (sb.firstSector n) (sb.lastSector n) = sb.shown (fatEntry sb d n) := by
  unfold nextEntry shown firstSector lastSector SuperBlock.last
    SuperBlock.first
  cases hbits : sb.fatBits with
  | b32 =>
    have h0 : n * 4 % 512 + 3 < 512 := by omega
    have hlt := h28 hbits
    rw [fatEntry_b32 hbits] at hlt ⊢
    simp only [and_511, align_b32, eofMin]
    rw [← fatByte, byte_eq_fatByte (by omega), byte_eq_fatByte (by omega),
      byte_eq_fatByte (by omega)]
    split_ifs <;> omega
  | b16 =>
    rw [fatEntry_b16 hbits]
    simp only [and_511, align_b16, eofMin]
    rw [← fatByte, byte_eq_fatByte (by omega)]
    split_ifs <;> omega
  | b12 =>
    have h0 := fatByte_lt sb d (n * 3 / 2)
    have h1 := fatByte_lt sb d (n * 3 / 2 + 1)
    have hlow : fatByte sb d (n * 3 / 2) >>> 4 < 2 ^ 4 := by
      rw [Nat.shiftRight_eq_div_pow]; omega
    have hmask (x : Nat) : x &&& 0xfff = x % 4096 := Nat.and_two_pow_sub_one_eq_mod x 12
    rw [fatEntry_b12 hbits]
    simp only [and_511, eofMin, Nat.and_one_is_mod, hmask]
    rw [← fatByte, ← fatByte, or_shiftLeft _ _ hlow, Nat.shiftRight_eq_div_pow, Nat.shiftLeft_eq]
    split_ifs <;> omega

/-- A write changes the bytes of the entry only, and of a shared byte the entry's half. -/
theorem fatEntry_setEntry (hv : v < 2 ^ sb.fatBits.valueBits) (m : Nat) :
    fatEntry sb (setEntry sb d n (sb.firstSector n) (sb.lastSector n) v) m =
      if m = n then v else fatEntry sb d m := by
  unfold setEntry firstSector lastSector SuperBlock.last SuperBlock.first
  cases hbits : sb.fatBits with
  | b32 | b16 =>
    rw [hbits, valueBits] at hv
    simp only [and_511, align_b32, align_b16, fatEntry_b32, fatEntry_b16, hbits, fatByte_mark]
    rw [← Disk.put]
    repeat rw [store_eq_put (by omega)]
    rcases eq_or_ne m n with rfl | hmn
    · simp (disch := omega) only [fatByte_put_self, fatByte_put_of_ne, Nat.shiftRight_eq_div_pow,
        if_true]
      omega
    · simp (disch := omega) only [fatByte_put_of_ne, if_neg hmn]
  | b12 =>
    have h1 := fatByte_lt sb d (n * 3 / 2 + 1)
    rw [hbits, valueBits] at hv
    have hlow : fatByte sb d (n * 3 / 2) % 16 < 2 ^ 4 := by omega
    have hmask4 (x : Nat) : x &&& 0xf = x % 16 := Nat.and_two_pow_sub_one_eq_mod x 4
    have hmask8 (x : Nat) : x &&& 0xff = x % 256 := Nat.and_two_pow_sub_one_eq_mod x 8
    simp only [and_511, fatEntry_b12 hbits, fatByte_mark, Nat.and_one_is_mod]
    by_cases hodd : n % 2 = 1
    · simp only [if_pos hodd, hmask4]
      rw [← Disk.put, ← Disk.put, ← fatByte, or_shiftLeft _ _ hlow, Nat.shiftRight_eq_div_pow]
      rcases eq_or_ne m n with rfl | hmn
      · simp (disch := omega) only [fatByte_put_self, fatByte_put_of_ne, if_pos hodd, if_true]
        omega
      rcases eq_or_ne (m + 1) n with hnext | hnext
      · -- the last byte of `m` is the first of `n`, which keeps its low half
        have hshare : m * 3 / 2 + 1 = n * 3 / 2 := by omega
        have heven : ¬m % 2 = 1 := by omega
        simp (disch := omega) only [hshare, fatByte_put_self, fatByte_put_of_ne, if_neg hmn,
          if_neg heven]
        omega
      · simp (disch := omega) only [fatByte_put_of_ne, if_neg hmn]
    · simp only [if_neg hodd, hmask8]
      have hkeep : fatByte sb (d.put sb (n * 3 / 2) (v % 256)) (n * 3 / 2 + 1) =
          fatByte sb d (n * 3 / 2 + 1) := fatByte_put_of_ne _ (by omega)
      rw [← Disk.put, ← Disk.put, ← fatByte, hkeep, and_240_or h1 hv]
      rcases eq_or_ne m n with rfl | hmn
      · simp (disch := omega) only [fatByte_put_self, fatByte_put_of_ne, if_neg hodd, if_true]
        omega
      rcases eq_or_ne m (n + 1) with hnext | hnext
      · have hshare : m * 3 / 2 = n * 3 / 2 + 1 := by omega
        have hmodd : m % 2 = 1 := by omega
        simp (disch := omega) only [hshare, fatByte_put_self, fatByte_put_of_ne, if_neg hmn,
          if_pos hmodd]
        omega
      · simp (disch := omega) only [fatByte_put_of_ne, if_neg hmn]

end Window

section Tables

theorem first_le_last (sb : SuperBlock) (n : Nat) :
    sb.first n ≤ sb.last n ∧ sb.last n ≤ sb.first n + 1 := by
  unfold SuperBlock.last SuperBlock.first
  cases sb.fatBits <;> simp

/-- The whole entry is in the first table. -/
theorem last_lt (hn : n < sb.clusters + 2) : sb.last n < sb.fatLength * 512 := by
  have hfits := sb.fits
  unfold SuperBlock.last SuperBlock.first
  cases hbits : sb.fatBits <;> rw [hbits, FatBits.bits] at hfits <;> simp only <;> omega

/-- The second sector follows the first, or there is only one. -/
theorem lastSector_eq (n : Nat) :
    sb.lastSector n = if sb.first n >>> 9 = sb.last n >>> 9 then sb.firstSector n
      else sb.firstSector n + 1 := by
  have hfirst := first_le_last sb n
  unfold firstSector lastSector
  simp only [shiftRight_9]
  split_ifs <;> omega

/-- What the copying of the sectors `b` and `b2` to the tables in `l` leaves. -/
structure Copied (sb : SuperBlock) (b b2 : Nat) (l : List Nat) (d d' : Disk) : Prop where
  readable : d'.readable = d.readable
  copied : ∀ copy ∈ l, d'.data (b + sb.fatLength * copy) = d.data b ∧
    d'.data (b2 + sb.fatLength * copy) = d.data b2
  frame : ∀ s, (∀ copy ∈ l, s ≠ b + sb.fatLength * copy ∧ s ≠ b2 + sb.fatLength * copy) →
    d'.data s = d.data s
  dirty : ∀ x, d'.dirty x = true ↔
    d.dirty x = true ∨ ∃ copy ∈ l, x = sb.buffer (b + sb.fatLength * copy)

/-- Sectors of different tables, and different sectors of one table, are different. -/
theorem sector_inj {F L c c' : Nat} (hj : F ≤ j ∧ j < F + L) (hk : F ≤ k ∧ k < F + L)
    (h : j + L * c = k + L * c') : j = k ∧ c = c' := by
  obtain ⟨j, rfl⟩ := Nat.exists_eq_add_of_le hj.1
  obtain ⟨k, rfl⟩ := Nat.exists_eq_add_of_le hk.1
  have hj' : j < L := by omega
  have hk' : k < L := by omega
  have h' : j + L * c = k + L * c' := by omega
  have hmod := congrArg (· % L) h'
  have hdiv := congrArg (· / L) h'
  simpa [Nat.add_mul_mod_self_left, Nat.mod_eq_of_lt, hj', hk',
    Nat.add_mul_div_left _ _ (Nat.zero_lt_of_lt hj'), Nat.div_eq_of_lt] using And.intro hmod hdiv

/-- The sectors `b` and `b2` of the first table, the second of which is the first or follows it. -/
structure Pair (sb : SuperBlock) (b b2 : Nat) : Prop where
  first : sb.fatStart ≤ b
  first_lt : b < sb.fatStart + sb.fatLength
  last_lt : b2 < sb.fatStart + sb.fatLength
  next : b2 = b ∨ b2 = b + 1

theorem pair_of_lt (hn : n < sb.clusters + 2) :
    Pair sb (sb.firstSector n) (sb.lastSector n) := by
  have hlast := last_lt hn
  have hfirst := first_le_last sb n
  unfold firstSector lastSector
  constructor <;> omega

variable {b b2 copy : Nat} {l : List Nat}

/-- A sector of the first table is in no other one. -/
theorem Pair.ne (hp : Pair sb b b2) (hs : s < sb.fatStart + sb.fatLength)
    (hcopy : 1 ≤ copy) : s ≠ b + sb.fatLength * copy ∧ s ≠ b2 + sb.fatLength * copy := by
  have hle : sb.fatLength ≤ sb.fatLength * copy := Nat.le_mul_of_pos_right _ hcopy
  have hfirst := hp.first
  have hnext := hp.next
  omega

/-- One table is copied to. -/
def copyStep (sb : SuperBlock) (b b2 copy : Nat) (d : Disk) : Disk :=
  let c := b + sb.fatLength * copy
  let d := fatMarkBufferDirty sb (d.copy c b) c
  if b ≠ b2 then d.copy (c + 1) b2 else d

theorem copyFats_cons (hread : ∀ s, d.readable s = true) :
    copyFats sb b b2 (copy :: l) d = copyFats sb b b2 l (copyStep sb b b2 copy d) := by
  have hread' (c s : Nat) : (fatMarkBufferDirty sb (d.copy c b) c).readable s = true := hread s
  rw [copyFats, copyStep]
  split_ifs <;> simp_all

theorem copyStep_data (hp : Pair sb b b2) (hcopy : 1 ≤ copy) (s : Nat) :
    (copyStep sb b b2 copy d).data s =
      if s = b + sb.fatLength * copy then d.data b
      else if s = b2 + sb.fatLength * copy then d.data b2 else d.data s := by
  have hb2 := (hp.ne hp.last_lt hcopy).1
  unfold copyStep fatMarkBufferDirty Disk.copy
  rcases hp.next with rfl | rfl
  · simp +contextual [update_apply]
  · simp only [ne_eq, Nat.left_eq_add, one_ne_zero, not_false_eq_true, if_true,
      update_apply, if_neg hb2]
    split_ifs <;> first | rfl | omega

theorem copyStep_dirty (x : Nat) : (copyStep sb b b2 copy d).dirty x =
    (decide (x = sb.buffer (b + sb.fatLength * copy)) || d.dirty x) := by
  unfold copyStep fatMarkBufferDirty Disk.copy
  split_ifs <;> simp [update_apply]

/-- The two sectors of one table stay when the other tables are written. -/
theorem Pair.ne_of_notMem (hp : Pair sb b b2) (hmem : copy ∉ l) (hs : s = b ∨ s = b2) :
    ∀ c ∈ l, s + sb.fatLength * copy ≠ b + sb.fatLength * c ∧
      s + sb.fatLength * copy ≠ b2 + sb.fatLength * c := by
  intro c hc
  have hne : copy ≠ c := fun h => hmem (h ▸ hc)
  have hfirst := hp.first
  have hlast_lt := hp.last_lt
  have hnext := hp.next
  refine ⟨fun h => hne ?_, fun h => hne ?_⟩
  · exact (sector_inj (F := sb.fatStart) (by omega) (by omega) h).2
  · exact (sector_inj (F := sb.fatStart) (by omega) (by omega) h).2

theorem copyStep_copied (hp : Pair sb b b2) (hcopy : 1 ≤ copy)
    (h : Copied sb b b2 l (copyStep sb b b2 copy d) d') : Copied sb b b2 (copy :: l) d d' where
  readable := by
    rw [h.readable, copyStep]
    split_ifs <;> rfl
  copied := by
    have hb : (copyStep sb b b2 copy d).data b = d.data b := by
      simp [copyStep_data hp hcopy, hp.ne hp.first_lt hcopy]
    have hb2 : (copyStep sb b b2 copy d).data b2 = d.data b2 := by
      simp [copyStep_data hp hcopy, hp.ne hp.last_lt hcopy]
    have hl : ∀ c ∈ l, d'.data (b + sb.fatLength * c) = d.data b ∧
        d'.data (b2 + sb.fatLength * c) = d.data b2 := by
      intro c hc
      rw [← hb, ← hb2]
      exact h.copied c hc
    refine forall_mem_cons.mpr ⟨?_, hl⟩
    by_cases hmem : copy ∈ l
    · exact hl copy hmem
    · rw [h.frame _ (hp.ne_of_notMem hmem (.inl rfl)), h.frame _ (hp.ne_of_notMem hmem (.inr rfl))]
      simp +contextual [copyStep_data hp hcopy]
  frame s hs := by
    obtain ⟨hhead, htail⟩ := forall_mem_cons.mp hs
    rw [h.frame s htail, copyStep_data hp hcopy, if_neg hhead.1, if_neg hhead.2]
  dirty x := by
    rw [h.dirty, copyStep_dirty]
    simp only [Bool.or_eq_true, decide_eq_true_eq, mem_cons, or_and_right, exists_or,
      exists_eq_left]
    tauto

theorem copyFats_copied (hp : Pair sb b b2) :
    ∀ {l : List Nat} {d : Disk}, (∀ copy ∈ l, 1 ≤ copy) → (∀ s, d.readable s = true) →
      Copied sb b b2 l d (copyFats sb b b2 l d)
  | [], d, _, _ => ⟨rfl, by simp, fun _ _ => rfl, by simp [copyFats]⟩
  | copy :: l, d, hl, hread => by
    obtain ⟨hcopy, hl⟩ := forall_mem_cons.mp hl
    rw [copyFats_cons hread]
    refine copyStep_copied hp hcopy (copyFats_copied hp hl fun s => ?_)
    rw [copyStep]
    split_ifs <;> exact hread s

/-- The first table stays as it is, also when the copying stops at a bad sector. -/
theorem copyFats_first (hp : Pair sb b b2) (hs : s < sb.fatStart + sb.fatLength) :
    ∀ {l : List Nat} {d : Disk}, (∀ copy ∈ l, 1 ≤ copy) →
      (copyFats sb b b2 l d).data s = d.data s ∧ (copyFats sb b b2 l d).readable = d.readable
  | [], _, _ => ⟨rfl, rfl⟩
  | copy :: l, d, hl => by
    obtain ⟨hcopy, hl⟩ := forall_mem_cons.mp hl
    have hc := (hp.ne hs hcopy).1
    have hc2 : b ≠ b2 → s ≠ b + sb.fatLength * copy + 1 := by
      have hnext := hp.next
      have hne := (hp.ne hs hcopy).2
      omega
    rw [copyFats]
    dsimp only
    split_ifs with hread hb hread2
    · rw [(copyFats_first hp hs hl).1, (copyFats_first hp hs hl).2]
      simp [Disk.copy, fatMarkBufferDirty, hc, hc2 hb]
    · simp [Disk.copy, fatMarkBufferDirty, hc]
    · rw [(copyFats_first hp hs hl).1, (copyFats_first hp hs hl).2]
      simp [Disk.copy, fatMarkBufferDirty, hc]
    · exact ⟨rfl, rfl⟩

theorem setEntry_readable (n b b2 v : Nat) : (setEntry sb d n b b2 v).readable = d.readable := by
  unfold setEntry
  cases sb.fatBits
  · split_ifs <;> rfl
  · rfl
  · rfl

/-- A write stays in the two sectors. -/
theorem setEntry_data {b b2 : Nat} (hb : s ≠ b) (hb2 : s ≠ b2) :
    (setEntry sb d n b b2 v).data s = d.data s := by
  unfold setEntry Disk.store fatMarkBufferDirty
  cases sb.fatBits
  · split_ifs <;> simp [hb, hb2]
  · simp [hb]
  · simp [hb]

/-- An access that passes the range check and reads its sectors. -/
theorem fatAccess_eq (hn : 2 ≤ n ∧ n < sb.clusters + 2)
    (hread : ∀ j < sb.fatLength, d.readable (sb.fatStart + j) = true) (v : Int) :
    fatAccess sb d n v =
      (if v = -1 then d
        else copyFats sb (sb.firstSector n) (sb.lastSector n) (List.range' 1 (sb.fats - 1))
          (setEntry sb d n (sb.firstSector n) (sb.lastSector n) (v % 2 ^ 32).toNat),
        nextEntry sb d n (sb.firstSector n) (sb.lastSector n)) := by
  have hrange : (2 : Int) ≤ n ∧ (n : Int) < sb.clusters + 2 := by omega
  have hp := pair_of_lt hn.2
  have hr {s : Nat} (hs : sb.fatStart ≤ s) (hlt : s < sb.fatStart + sb.fatLength) :
      d.readable s = true := by
    obtain ⟨j, rfl⟩ := Nat.exists_eq_add_of_le hs
    exact hread j (by omega)
  have hsect : sb.fatStart + sb.first n >>> 9 = sb.firstSector n := by
    rw [shiftRight_9, firstSector]
  have hle : sb.fatStart ≤ sb.lastSector n := Nat.le_add_right _ _
  unfold fatAccess
  rw [if_pos hrange]
  simp only [Int.toNat_natCast, hsect, ← lastSector_eq, hr hp.first hp.first_lt, hr hle hp.last_lt,
    and_self, if_true]
  split_ifs <;> rfl

theorem fatEntry_congr (h : ∀ s < sb.fatStart + sb.fatLength, d'.data s = d.data s)
    (hm : m < sb.clusters + 2) : fatEntry sb d' m = fatEntry sb d m := by
  have hfits := sb.fits
  have hbyte {k : Nat} (hk : k < sb.fatLength * 512) : fatByte sb d' k = fatByte sb d k := by
    rw [fatByte, fatByte, Disk.byte, Disk.byte, h _ (by omega)]
  cases hbits : sb.fatBits <;> rw [hbits, FatBits.bits] at hfits
  · rw [fatEntry_b12 hbits, fatEntry_b12 hbits, hbyte (by omega), hbyte (by omega)]
  · rw [fatEntry_b16 hbits, fatEntry_b16 hbits, hbyte (by omega), hbyte (by omega)]
  · rw [fatEntry_b32 hbits, fatEntry_b32 hbits, hbyte (by omega), hbyte (by omega),
      hbyte (by omega), hbyte (by omega)]

theorem one_le_of_mem_copies (fats : Nat) : ∀ copy ∈ List.range' 1 (fats - 1), 1 ≤ copy := by
  simp +contextual [mem_range'_1]

/-- What a write leaves of the first table. -/
theorem fatEntry_fatAccess (hn : 2 ≤ n ∧ n < sb.clusters + 2)
    (hread : ∀ j < sb.fatLength, d.readable (sb.fatStart + j) = true)
    (hv : v < 2 ^ sb.fatBits.valueBits) (hm : m < sb.clusters + 2) :
    (fatAccess sb d n v).1.readable = d.readable ∧
      fatEntry sb (fatAccess sb d n v).1 m = if m = n then v else fatEntry sb d m := by
  have hword : ((v : Int) % 2 ^ 32).toNat = v := by
    have hlt : v < 2 ^ 32 := lt_of_lt_of_le hv (by cases sb.fatBits <;> simp [valueBits])
    omega
  have hne : (v : Int) ≠ -1 := by omega
  have hp := pair_of_lt hn.2
  rw [fatAccess_eq hn hread, if_neg hne, hword]
  constructor
  · rw [(copyFats_first hp hp.first_lt (one_le_of_mem_copies _)).2, setEntry_readable]
  · rw [← fatEntry_setEntry hv]
    exact fatEntry_congr (fun s hs => (copyFats_first hp hs (one_le_of_mem_copies _)).1) hm

end Tables

/-- A write returns the entry that was there, a read after it the value that was written, and no
other entry is read differently, whatever bytes and sectors it shares with the one written. -/
theorem fat_entry_codec (sb : SuperBlock) (d : Disk) (nr v : Nat)
    (hread : ∀ j < sb.fatLength, d.readable (sb.fatStart + j) = true)
    (h28 : sb.fatBits = .b32 → ∀ m < sb.clusters + 2, fatEntry sb d m < 2 ^ 28)
    (hnr : 2 ≤ nr ∧ nr < sb.clusters + 2) (hv : v < 2 ^ sb.fatBits.valueBits) :
    (fatAccess sb d nr v).2 = sb.shown (fatEntry sb d nr) ∧
    (fatAccess sb (fatAccess sb d nr v).1 nr (-1)).2 = sb.shown v ∧
    ∀ m : Nat, 2 ≤ m ∧ m < sb.clusters + 2 → m ≠ nr →
      (fatAccess sb (fatAccess sb d nr v).1 m (-1)).2 = (fatAccess sb d m (-1)).2 := by
  have hafter {m : Nat} (hm : m < sb.clusters + 2) := fatEntry_fatAccess hnr hread hv hm
  have hread' : ∀ j < sb.fatLength, (fatAccess sb d nr v).1.readable (sb.fatStart + j) = true := by
    rw [(hafter hnr.2).1]
    exact hread
  have h28' {m : Nat} (hm : m < sb.clusters + 2) (h32 : sb.fatBits = .b32) :
      fatEntry sb (fatAccess sb d nr v).1 m < 2 ^ 28 := by
    rw [(hafter hm).2]
    rw [h32] at hv
    split_ifs
    · exact hv
    · exact h28 h32 m hm
  refine ⟨?_, ?_, fun m hm hne => ?_⟩
  · rw [fatAccess_eq hnr hread]
    exact nextEntry_eq nr fun h => h28 h nr hnr.2
  · rw [fatAccess_eq hnr hread', nextEntry_eq nr (h28' hnr.2), (hafter hnr.2).2,
      if_pos (rfl : nr = nr)]
  · rw [fatAccess_eq hm hread', fatAccess_eq hm hread, nextEntry_eq m (h28' hm.2),
      nextEntry_eq m fun h => h28 h m hm.2, (hafter hm.2).2, if_neg hne]

/-- A volume of two tables with two sectors each. The entry of cluster 341 is in both sectors. -/
def floppy : SuperBlock := ⟨.b12, 1, 2, 2, 400, false, by decide⟩

def blankDisk : Disk := ⟨fun _ _ => 0, fun _ => false, fun _ => true⟩

theorem fat_entry_codec_341 :
    (fatAccess floppy (fatAccess floppy blankDisk 341 0xabc).1 341 (-1)).2 = floppy.shown 0xabc :=
  (fat_entry_codec floppy blankDisk 341 0xabc (fun _ _ => rfl) (fun h => nomatch h) (by decide)
    (by decide)).2.1

section Copies

/-- The tables hold the same. -/
def Identical (sb : SuperBlock) (d : Disk) : Prop :=
  ∀ copy < sb.fats, ∀ j < sb.fatLength,
    d.data (sb.fatStart + j + sb.fatLength * copy) = d.data (sb.fatStart + j)

variable {d1 : Disk} {b b2 : Nat}

theorem Copied.identical (h : Copied sb b b2 (List.range' 1 (sb.fats - 1)) d1 d')
    (hp : Pair sb b b2) (hsame : Identical sb d)
    (hset : ∀ s, s ≠ b → s ≠ b2 → d1.data s = d.data s) : Identical sb d' := by
  intro copy hcopy j hj
  have hfirst := hp.first
  have hnext := hp.next
  have hlast_lt := hp.last_lt
  rcases Nat.eq_zero_or_pos copy with rfl | hpos
  · simp
  have hmem : copy ∈ List.range' 1 (sb.fats - 1) := by
    rw [mem_range'_1]
    omega
  have hstay {s : Nat} (hs : s < sb.fatStart + sb.fatLength) : d'.data s = d1.data s :=
    h.frame s fun c hc => hp.ne hs (one_le_of_mem_copies _ c hc)
  rw [hstay (by omega : sb.fatStart + j < _)]
  by_cases hb : sb.fatStart + j = b
  · rw [hb]
    exact (h.copied copy hmem).1
  by_cases hb2 : sb.fatStart + j = b2
  · rw [hb2]
    exact (h.copied copy hmem).2
  -- neither sector of the entry: the table was not written here
  have hle : sb.fatLength ≤ sb.fatLength * copy := Nat.le_mul_of_pos_right _ hpos
  rw [h.frame, hset _ (by omega) (by omega), hset _ hb hb2, hsame copy hcopy j hj]
  refine fun c _ => ⟨fun hc => ?_, fun hc => ?_⟩
  · exact hb (sector_inj (F := sb.fatStart) (by omega) (by omega) hc).1
  · exact hb2 (sector_inj (F := sb.fatStart) (by omega) (by omega) hc).1

/-- The tables stay identical, and the buffer of each sector that was changed is dirty. -/
def CopiesKept (sb : SuperBlock) (d d' : Disk) : Prop :=
  Identical sb d' ∧ ∀ s, d'.data s ≠ d.data s → d'.dirty (sb.buffer s) = true

/-- The buffers that are marked: those of the first table, and the first one of each other. -/
def SuperBlock.Marked (sb : SuperBlock) (b b2 x : Nat) : Prop :=
  x = sb.buffer b ∨ x = sb.buffer b2 ∨
    ∃ copy, 1 ≤ copy ∧ copy < sb.fats ∧ x = sb.buffer (b + sb.fatLength * copy)

/-- The second sectors of the other tables are only right if they have not changed, or if their
buffers were dirty or are marked. -/
theorem Copied.kept_iff (h : Copied sb b b2 (List.range' 1 (sb.fats - 1)) d1 d')
    (hp : Pair sb b b2) (hsame : Identical sb d)
    (hset : ∀ s, s ≠ b → s ≠ b2 → d1.data s = d.data s)
    (hdirty : ∀ x, d1.dirty x = true ↔
      d.dirty x = true ∨ x = sb.buffer b ∨ x = sb.buffer b2) :
    CopiesKept sb d d' ↔ d1.data b2 = d.data b2 ∨ ∀ copy, 1 ≤ copy → copy < sb.fats →
      d.dirty (sb.buffer (b2 + sb.fatLength * copy)) = true ∨
        sb.Marked b b2 (sb.buffer (b2 + sb.fatLength * copy)) := by
  have hcopies : ∀ copy, copy ∈ List.range' 1 (sb.fats - 1) ↔ 1 ≤ copy ∧ copy < sb.fats := by
    intro copy
    rw [mem_range'_1]
    omega
  have hmarked : ∀ x, d'.dirty x = true ↔ d.dirty x = true ∨ sb.Marked b b2 x := by
    intro x
    simp only [h.dirty, hdirty, SuperBlock.Marked, hcopies, and_assoc, or_assoc]
  have hold : ∀ copy < sb.fats, d.data (b2 + sb.fatLength * copy) = d.data b2 := by
    intro copy hcopy
    have hfirst := hp.first
    have hlast := hp.last_lt
    have hnext := hp.next
    have hj := hsame copy hcopy (b2 - sb.fatStart) (by omega)
    rwa [Nat.add_sub_cancel' (by omega)] at hj
  constructor
  · rintro ⟨-, hall⟩
    refine or_iff_not_imp_left.mpr fun hchanged copy hpos hlt => ?_
    rw [← hmarked]
    refine hall _ ?_
    rw [(h.copied copy ((hcopies copy).mpr ⟨hpos, hlt⟩)).2, hold copy hlt]
    exact hchanged
  · intro hsecond
    refine ⟨h.identical hp hsame hset, fun s hs => (hmarked _).mpr ?_⟩
    by_cases hb : s = b
    · exact .inr (.inl (hb ▸ rfl))
    by_cases hb2 : s = b2
    · exact .inr (.inr (.inl (hb2 ▸ rfl)))
    by_contra hclean
    refine hs ((h.frame s fun copy hmem => ⟨fun hc => ?_, fun hc => ?_⟩).trans (hset s hb hb2))
    · obtain ⟨hpos, hlt⟩ := (hcopies copy).mp hmem
      exact hclean (.inr (.inr (.inr ⟨copy, hpos, hlt, hc ▸ rfl⟩)))
    · obtain ⟨hpos, hlt⟩ := (hcopies copy).mp hmem
      rcases hsecond with hstays | hsecond
      · -- the sector holds what it held
        rw [hc, (h.copied copy hmem).2, hold copy hlt] at hs
        exact hs hstays
      · exact hclean (hc ▸ hsecond copy hpos hlt)

/-- The second byte of a 12-bit entry, when it is written. -/
def secondByte (sb : SuperBlock) (d : Disk) (nr v : Nat) : Nat :=
  if nr &&& 1 = 1 then v >>> 4 else d.byte (sb.lastSector nr) 0 &&& 0xf0 ||| v >>> 8

/-- Only 12-bit entries are in two sectors, with their second byte at the start of the second. -/
theorem setEntry_second (h : sb.lastSector n ≠ sb.firstSector n) :
    (setEntry sb d n (sb.firstSector n) (sb.lastSector n) v).data (sb.lastSector n) =
      update (d.data (sb.lastSector n)) 0 (UInt8.ofNat (secondByte sb d n v)) := by
  have hstraddle : (sb.first n + 1) % 512 = 0 ∧ sb.fatBits = .b12 := by
    have hle := first_le_last sb n
    unfold firstSector lastSector at h
    refine ⟨by omega, ?_⟩
    cases hbits : sb.fatBits <;> simp [SuperBlock.last, hbits] at h ⊢
  unfold setEntry secondByte Disk.store Disk.byte fatMarkBufferDirty
  simp only [hstraddle.2, and_511, hstraddle.1]
  split_ifs <;> simp [h]

variable (sb d)

/-- The tables stay identical in the buffers, and each buffer that was changed is dirty, exactly if
the entry's byte in a second sector stays, or if in each other table the buffer of the second
sector was dirty or is marked for another reason: it is copied to, but not marked itself. -/
theorem fat_copies (nr : Nat) (v : Int) (hnr : 2 ≤ nr ∧ nr < sb.clusters + 2) (hv : v ≠ -1)
    (hread : ∀ s, d.readable s = true) (hsame : Identical sb d) :
    CopiesKept sb d (fatAccess sb d nr v).1 ↔
      UInt8.ofNat (secondByte sb d nr (v % 2 ^ 32).toNat) = d.data (sb.lastSector nr) 0 ∨
      ∀ copy, 1 ≤ copy → copy < sb.fats →
        d.dirty (sb.buffer (sb.lastSector nr + sb.fatLength * copy)) = true ∨
        sb.Marked (sb.firstSector nr) (sb.lastSector nr)
          (sb.buffer (sb.lastSector nr + sb.fatLength * copy)) := by
  have hp := pair_of_lt hnr.2
  rw [fatAccess_eq hnr (fun j _ => hread _), if_neg hv]
  have hread' (s : Nat) : (setEntry sb d nr (sb.firstSector nr) (sb.lastSector nr)
      (v % 2 ^ 32).toNat).readable s = true := by
    rw [setEntry_readable]
    exact hread s
  rw [(copyFats_copied hp (one_le_of_mem_copies sb.fats) hread').kept_iff hp hsame
    (fun s hb hb2 => setEntry_data hb hb2) ?_]
  · by_cases hone : sb.lastSector nr = sb.firstSector nr
    · have hmarked : ∀ copy, 1 ≤ copy → copy < sb.fats → sb.Marked (sb.firstSector nr)
          (sb.lastSector nr) (sb.buffer (sb.lastSector nr + sb.fatLength * copy)) :=
        fun copy hpos hlt => .inr (.inr ⟨copy, hpos, hlt, by rw [hone]⟩)
      exact iff_of_true (.inr fun copy hpos hlt => .inr (hmarked copy hpos hlt))
        (.inr fun copy hpos hlt => .inr (hmarked copy hpos hlt))
    · rw [setEntry_second hone, update_eq_self_iff]
  · intro x
    unfold setEntry firstSector lastSector SuperBlock.last fatMarkBufferDirty Disk.store
    cases sb.fatBits <;> simp only [update_apply] <;> split_ifs <;> simp_all

/-- In a table of one sector an entry is in one buffer. -/
def smallFloppy : SuperBlock := ⟨.b12, 1, 1, 2, 300, false, by decide⟩

theorem fat_copies_smallFloppy :
    CopiesKept smallFloppy blankDisk (fatAccess smallFloppy blankDisk 5 0xfff).1 :=
  (fat_copies smallFloppy blankDisk 5 0xfff (by decide) (by decide) (fun _ => rfl)
    (fun _ _ _ _ => rfl)).mpr
    (.inr fun copy hpos hlt => .inr (.inr (.inr ⟨copy, hpos, hlt, rfl⟩)))

/-- The second sector of the second table is changed but not marked dirty. -/
theorem fat_copies_straddle :
    Identical floppy blankDisk ∧
    (fatAccess floppy blankDisk 341 0xfff).1.data 4 ≠ blankDisk.data 4 ∧
    (fatAccess floppy blankDisk 341 0xfff).1.dirty (floppy.buffer 4) = false := by
  refine ⟨fun _ _ _ _ => rfl, fun h => ?_, by decide⟩
  have hbyte : (fatAccess floppy blankDisk 341 0xfff).1.data 4 0 = 0xff := by decide
  rw [h] at hbyte
  exact absurd hbyte (by decide)

end Copies

end Sbckernel.Fs.Fat
