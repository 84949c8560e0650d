import Mathlib.Algebra.Order.Ring.Int

/-!
# The file allocation table (`fs/fat/cache.c`)

`fat_access` over the buffers of the device. A buffer is found by its number, and a sector is a
buffer or, where blocks have 1024 bytes, one half of a buffer. The reads that fail are given as
a set of sectors.
-/

namespace Sbckernel.Fs.Fat

open Function

/-- `fat_bits`. -/
inductive FatBits where
  | b12
  | b16
  | b32
  deriving DecidableEq, Repr

def FatBits.bits : FatBits → Nat
  | .b12 => 12
  | .b16 => 16
  | .b32 => 32

/-- What `fat_access` uses of `msdos_sb_info`. `fat_read_super` has cut down `clusters` to the
entries that the table has. -/
structure SuperBlock where
  fatBits : FatBits
  fatStart : Nat
  fatLength : Nat
  fats : Nat
  clusters : Nat
  /-- `s_blocksize` is 1024. -/
  large : Bool
  fits : clusters + 2 ≤ fatLength * 512 * 8 / fatBits.bits

structure Disk where
  data : Nat → Nat → UInt8
  dirty : Nat → Bool
  readable : Nat → Bool

def Disk.store (d : Disk) (b k x : Nat) : Disk :=
  { d with data := update d.data b (update (d.data b) k (UInt8.ofNat x)) }

def Disk.byte (d : Disk) (b k : Nat) : Nat := (d.data b k).toNat

variable (sb : SuperBlock)

/-- The buffer that a sector is in. -/
def SuperBlock.buffer (b : Nat) : Nat := if sb.large then b >>> 1 else b

def fatMarkBufferDirty (d : Disk) (b : Nat) : Disk :=
  { d with dirty := update d.dirty (sb.buffer b) true }

/-- `memcpy` of a sector. -/
def Disk.copy (d : Disk) (c b : Nat) : Disk :=
  { d with data := update d.data c (d.data b) }

/-- The first byte of an entry. -/
def SuperBlock.first (nr : Nat) : Nat :=
  match sb.fatBits with
  | .b32 => nr * 4
  | .b16 => nr * 2
  | .b12 => nr * 3 / 2

def SuperBlock.last (nr : Nat) : Nat :=
  match sb.fatBits with
  | .b12 => sb.first nr + 1
  | _ => sb.first nr

/-- The entry in the buffers of the sectors `b` and `b2`. -/
def nextEntry (d : Disk) (nr b b2 : Nat) : Int :=
  let first := sb.first nr
  match sb.fatBits with
  | .b32 =>
    let k := (first &&& 511) >>> 2 <<< 2
    let w : Nat := d.byte b k + d.byte b (k + 1) * 2 ^ 8 + d.byte b (k + 2) * 2 ^ 16 +
      d.byte b (k + 3) * 2 ^ 24
    let next : Int := if w < 2 ^ 31 then w else w - 2 ^ 32
    if 0xffffff7 ≤ next then -1 else next
  | .b16 =>
    let k := (first &&& 511) >>> 1 <<< 1
    let next : Nat := d.byte b k + d.byte b (k + 1) * 2 ^ 8
    if 0xfff7 ≤ next then -1 else next
  | .b12 =>
    let p := d.byte b (first &&& 511)
    let q := d.byte b2 ((first + 1) &&& 511)
    let next : Nat :=
      if nr &&& 1 = 1 then (p >>> 4 ||| q <<< 4) &&& 0xfff else (p + q <<< 8) &&& 0xfff
    if 0xff7 ≤ next then -1 else next

/-- The new value is put into the first table. -/
def setEntry (d : Disk) (nr b b2 v : Nat) : Disk :=
  let first := sb.first nr
  match sb.fatBits with
  | .b32 =>
    let k := (first &&& 511) >>> 2 <<< 2
    let d := (((d.store b k v).store b (k + 1) (v >>> 8)).store b (k + 2)
      (v >>> 16)).store b (k + 3) (v >>> 24)
    fatMarkBufferDirty sb d b
  | .b16 =>
    let k := (first &&& 511) >>> 1 <<< 1
    fatMarkBufferDirty sb ((d.store b k v).store b (k + 1) (v >>> 8)) b
  | .b12 =>
    let k := first &&& 511
    let k2 := (first + 1) &&& 511
    let d :=
      if nr &&& 1 = 1 then
        (d.store b k (d.byte b k &&& 0xf ||| v <<< 4)).store b2 k2 (v >>> 4)
      else
        let d := d.store b k (v &&& 0xff)
        d.store b2 k2 (d.byte b2 k2 &&& 0xf0 ||| v >>> 8)
    fatMarkBufferDirty sb (fatMarkBufferDirty sb d b2) b

/-- The sectors are copied to the other tables. -/
def copyFats (sb : SuperBlock) (b b2 : Nat) : List Nat → Disk → Disk
  | [], d => d
  | copy :: l, d =>
    let c := b + sb.fatLength * copy
    if d.readable c then
      let d := fatMarkBufferDirty sb (d.copy c b) c
      if b ≠ b2 then
        if d.readable (c + 1) then copyFats sb b b2 l (d.copy (c + 1) b2) else d
      else copyFats sb b b2 l d
    else d

def fatAccess (d : Disk) (nr newValue : Int) : Disk × Int :=
  if 2 ≤ nr ∧ nr < sb.clusters + 2 then
    let n := nr.toNat
    let b := sb.fatStart + sb.first n >>> 9
    let b2 := if sb.first n >>> 9 = sb.last n >>> 9 then b else b + 1
    if d.readable b ∧ d.readable b2 then
      let next := nextEntry sb d n b b2
      if newValue = -1 then (d, next)
      else
        let d := setEntry sb d n b b2 (newValue % 2 ^ 32).toNat
        (copyFats sb b b2 (List.range' 1 (sb.fats - 1)) d, next)
    else (d, 0)
  else (d, 0)

end Sbckernel.Fs.Fat
