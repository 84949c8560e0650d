import Mathlib.Algebra.Order.Ring.Int

/-!
# The allocation of ext2 inodes (`fs/ext2/ialloc.c`)

`ext2_new_inode` chooses a group by the descriptors and takes the first clear bit of the group's
bitmap, which it finds through the cache of loaded bitmaps. The superblock is locked all the
time. A buffer of the cache is known by the group whose bitmap it has. Of the new inode its number
and its group are kept; the dirty marks, the other fields and the quota are left out.
-/

namespace Sbckernel.Fs.Ext2.Ialloc

open Function

inductive Errno where
  | eio
  | enospc
  deriving DecidableEq, Repr

structure GroupDesc where
  bgFreeBlocksCount : Nat
  bgFreeInodesCount : Nat
  bgUsedDirsCount : Nat

/-- `s_loaded_inode_bitmaps`, `s_inode_bitmap_number` and `s_inode_bitmap`. -/
structure Cache where
  loaded : Nat
  number : Nat → Nat
  bitmap : Nat → Option Nat

structure State where
  sGroupsCount : Nat
  inodesPerGroup : Nat
  firstIno : Nat
  sInodesCount : Nat
  sFreeInodesCount : Nat
  groupDesc : Nat → GroupDesc
  /-- The bits of the groups' bitmaps that are set. -/
  bits : Nat → Nat → Bool
  /-- The groups whose bitmap can be read. -/
  readable : Nat → Bool
  cache : Cache

inductive Outcome where
  | inode (ino blockGroup : Nat)
  | err (e : Errno)
  | panicked
  /-- `goto repeat`. -/
  | again
  deriving DecidableEq, Repr

def ext2MaxGroupLoaded : Nat := 8

section Bitmaps

variable (readable : Nat → Bool)

def readInodeBitmap (c : Cache) (blockGroup bitmapNr : Nat) : Cache × Option Errno :=
  ({ c with
      number := update c.number bitmapNr blockGroup
      bitmap := update c.bitmap bitmapNr (if readable blockGroup then some blockGroup else none) },
    if readable blockGroup then none else some .eio)

/-- The slots up to `i` are moved up by one. -/
def moveUp {α : Type} (f : Nat → α) (i : Nat) : Nat → α :=
  fun j => if 0 < j ∧ j ≤ i then f (j - 1) else f j

/-- The slot of the bitmap, or what went wrong. -/
def loadInodeBitmap (groupsCount : Nat) (c : Cache) (blockGroup : Nat) :
    Cache × Except Outcome Nat :=
  let read (c : Cache) (slot : Nat) : Cache × Except Outcome Nat :=
    match readInodeBitmap readable c blockGroup slot with
    | (c, none) => (c, .ok slot)
    | (c, some e) => (c, .error (.err e))
  if groupsCount ≤ blockGroup then (c, .error .panicked)
  else if 0 < c.loaded ∧ c.number 0 = blockGroup then (c, .ok 0)
  else if groupsCount ≤ ext2MaxGroupLoaded then
    if (c.bitmap blockGroup).isSome then
      if c.number blockGroup ≠ blockGroup then (c, .error .panicked) else (c, .ok blockGroup)
    else read c blockGroup
  else
    match (List.range c.loaded).find? fun i => c.number i == blockGroup with
    | some i =>
      let c' := { c with
        number := update (moveUp c.number i) 0 (c.number i)
        bitmap := update (moveUp c.bitmap i) 0 (c.bitmap i) }
      if (c.bitmap i).isSome then (c', .ok 0) else read c' 0
    | none =>
      let loaded := if c.loaded < ext2MaxGroupLoaded then c.loaded + 1 else c.loaded
      read ⟨loaded, moveUp c.number (loaded - 1), moveUp c.bitmap (loaded - 1)⟩ 0

end Bitmaps

section Search

variable (s : State)

def State.free (i : Nat) : Nat := (s.groupDesc i).bgFreeInodesCount

/-- The search for a directory's group: most free blocks of those with enough free inodes. -/
def dirStep (avefreei : Nat) (gdp : Option Nat) (j : Nat) : Option Nat :=
  if s.free j ≠ 0 ∧ avefreei ≤ s.free j then
    match gdp with
    | none => some j
    | some i =>
      if (s.groupDesc i).bgFreeBlocksCount < (s.groupDesc j).bgFreeBlocksCount
        then some j else some i
  else gdp

def dirGroup : Option Nat :=
  (List.range s.sGroupsCount).foldl (dirStep s (s.sFreeInodesCount / s.sGroupsCount)) none

/-- The quadratic hash. A round at least doubles `j`, so that there are no more rounds than
groups. -/
def quadratic : Nat → Nat → Nat → Option Nat
  | 0, _, _ => none
  | rounds + 1, i, j =>
    if j < s.sGroupsCount then
      let i := if s.sGroupsCount ≤ i + j then i + j - s.sGroupsCount else i + j
      if s.free i ≠ 0 then some i else quadratic rounds i (j <<< 1)
    else none

def linear : Nat → Nat → Option Nat
  | 0, _ => none
  | rounds + 1, i =>
    let i := if s.sGroupsCount ≤ i + 1 then 0 else i + 1
    if s.free i ≠ 0 then some i else linear rounds i

/-- The search for the group of any other inode, from the group of the parent directory. -/
def fileGroup (parent : Nat) : Option Nat :=
  if s.free parent ≠ 0 then some parent
  else
    match quadratic s s.sGroupsCount parent 1 with
    | some i => some i
    | none => linear s (s.sGroupsCount - 2) (parent + 1)

end Search

def findFirstZeroBit (bits : Nat → Bool) (size : Nat) : Option Nat :=
  (List.range size).find? fun j => !bits j

def ext2NewInode (s : State) (parent : Nat) (isDir : Bool) : State × Outcome :=
  match if isDir then dirGroup s else fileGroup s parent with
  | none => (s, .err .enospc)
  | some i =>
    match loadInodeBitmap s.readable s.sGroupsCount s.cache i with
    | (c, .error e) => ({ s with cache := c }, e)
    | (c, .ok slot) =>
      let s := { s with cache := c }
      match c.bitmap slot with
      | none => (s, .panicked) -- a null pointer
      | some b =>
        match findFirstZeroBit (s.bits b) s.inodesPerGroup with
        | none => if s.free i ≠ 0 then (s, .err .enospc) else (s, .again)
        | some j =>
          if s.bits b j then (s, .again)
          else
            let s := { s with bits := update s.bits b (update (s.bits b) j true) }
            let ino := j + i * s.inodesPerGroup + 1
            if ino < s.firstIno ∨ s.sInodesCount < ino then (s, .err .enospc)
            else
              let gdp := s.groupDesc i
              let gdp := { gdp with
                bgFreeInodesCount := gdp.bgFreeInodesCount - 1
                bgUsedDirsCount := if isDir then gdp.bgUsedDirsCount + 1 else gdp.bgUsedDirsCount }
              ({ s with
                groupDesc := update s.groupDesc i gdp
                sFreeInodesCount := s.sFreeInodesCount - 1 }, .inode ino i)

end Sbckernel.Fs.Ext2.Ialloc
