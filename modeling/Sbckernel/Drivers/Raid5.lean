/-!
# The layout of `drivers/block/raid5.c`

`raid5_compute_sector` finds the disks of the data and of the parity of an array sector and the
sector in them, and `compute_blocknr` goes back. Sectors are below 2^31 and there are far fewer
disks, so that no sum or product wraps.
-/

namespace Sbckernel.Drivers

inductive Algorithm where
  | leftAsymmetric
  | rightAsymmetric
  | leftSymmetric
  | rightSymmetric
  deriving DecidableEq, Repr

/-- The fields of `struct raid5_data` that the layout depends on. -/
structure Raid5Data where
  chunkSize : Nat
  level : Nat
  algorithm : Algorithm
  raidDisks : Nat
  /-- A chunk has at least one sector. -/
  chunk_pos : 0 < chunkSize >>> 9
  two_le : 2 ≤ raidDisks

namespace Raid5Data

variable (conf : Raid5Data)

def sectorsPerChunk : Nat := conf.chunkSize >>> 9

def dataDisks : Nat := conf.raidDisks - 1

/-- `*pd_idx`, by the number of the stripe. -/
def pdIdx (stripe : Nat) : Nat :=
  if conf.level = 4 then conf.dataDisks
  else match conf.algorithm with
    | .leftAsymmetric | .leftSymmetric => conf.dataDisks - stripe % conf.raidDisks
    | .rightAsymmetric | .rightSymmetric => stripe % conf.raidDisks

/-- `*dd_idx`, by `*pd_idx` and the number of the chunk among the data of its stripe. -/
def ddIdx (pdIdx ddIdx : Nat) : Nat :=
  if conf.level = 4 then ddIdx
  else match conf.algorithm with
    | .leftAsymmetric | .rightAsymmetric => if ddIdx ≥ pdIdx then ddIdx + 1 else ddIdx
    | .leftSymmetric | .rightSymmetric => (pdIdx + 1 + ddIdx) % conf.raidDisks

/-- The new sector, `*dd_idx` and `*pd_idx`. -/
def raid5ComputeSector (rSector : Nat) : Nat × Nat × Nat :=
  let chunkNumber := rSector / conf.sectorsPerChunk
  let chunkOffset := rSector % conf.sectorsPerChunk
  let stripe := chunkNumber / conf.dataDisks
  let pdIdx := conf.pdIdx stripe
  (stripe * conf.sectorsPerChunk + chunkOffset,
    conf.ddIdx pdIdx (chunkNumber % conf.dataDisks), pdIdx)

/-- What `compute_blocknr` reads of `struct stripe_head`. -/
structure StripeHead where
  sector : Nat
  pdIdx : Nat
  size : Nat

/-- `i` after the `switch` of `compute_blocknr`; negative for the parity disk only. -/
def chunkIdx (pdIdx i : Nat) : Int :=
  match conf.algorithm with
  | .leftAsymmetric | .rightAsymmetric => if i > pdIdx then i - 1 else i
  | .leftSymmetric | .rightSymmetric =>
    (if i < pdIdx then i + conf.raidDisks else i) - (pdIdx + 1)

/-- `none` stands for the message that the map is not correct. -/
def computeBlocknr (sh : StripeHead) (i : Nat) : Option Nat :=
  let stripe := sh.sector / conf.sectorsPerChunk
  let chunkOffset := sh.sector % conf.sectorsPerChunk
  let chunkNumber := (↑(stripe * conf.dataDisks) + conf.chunkIdx sh.pdIdx i).toNat
  let rSector := chunkNumber * conf.sectorsPerChunk + chunkOffset
  let blocknr := rSector / (sh.size >>> 9)
  if conf.raid5ComputeSector rSector ≠ (sh.sector, i, sh.pdIdx) then none else some blocknr

end Raid5Data

end Sbckernel.Drivers
