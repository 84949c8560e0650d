import Mathlib.Algebra.Order.Ring.Int

/-!
# ext2 directories (`fs/ext2/dir.c`, `fs/ext2/namei.c`)

The records of a directory block are found by their offsets: `Block` says which record the bytes
from an offset on spell, and two of them may overlap in a block that is malformed. A call gives a
fault when it touches a byte outside of the block or the inode behind a null pointer, or when a
loop does not end. No other task changes the directory in the meantime. Read errors, the times,
the versions and the messages are left out.
-/

namespace Sbckernel.Fs.Ext2.Dir

open Function

inductive Fault where
  | outside
  | nullInode
  | forever
  deriving DecidableEq, Repr

inductive Errno where
  | enoent
  | eio
  | eexist
  | einval
  | enospc
  | enametoolong
  | efbig
  deriving DecidableEq, Repr

/-- A record. `after` is the byte behind the name. -/
structure Entry where
  inode : Nat
  recLen : Nat
  name : List UInt8
  after : UInt8
  deriving DecidableEq, Repr

abbrev Block := Nat → Entry

/-- A directory. A block that is not there is a hole. -/
structure Inode where
  blockSize : Nat
  inodesCount : Nat
  iSize : Nat
  block : Nat → Option Block

def ext2NameLen : Nat := 255

def ext2DirRecLen (nameLen : Nat) : Nat := (nameLen + 8 + 3) / 4 * 4

def readHeader (size : Nat) (b : Block) (off : Nat) : Except Fault Entry :=
  if off + 8 ≤ size then .ok (b off) else .error .outside

def ext2CheckDirEntry (dir : Option Inode) (de : Entry) (off : Nat) : Except Fault Bool :=
  if de.recLen < ext2DirRecLen 1 ∨ de.recLen % 4 ≠ 0 ∨ de.recLen < ext2DirRecLen de.name.length ∨
      (∃ d ∈ dir, d.blockSize < off + de.recLen) ∨ ∃ d ∈ dir, d.inodesCount < de.inode then
    -- the message takes the file system and the number of the directory from `dir`
    if dir.isSome then .ok false else .error .nullInode
  else .ok true

def ext2Match (size : Nat) (name : List UInt8) (off : Nat) (de : Entry) : Except Fault Bool :=
  if de.inode = 0 ∨ ext2NameLen < name.length then .ok false
  else if name = [] ∧ de.name.length = 1 then
    if off + 10 ≤ size then .ok (de.name == [46] && de.after == 0) else .error .outside
  else if name.length ≠ de.name.length then .ok false
  else if off + 8 + name.length ≤ size then .ok (name == de.name)
  else .error .outside

inductive Scan (α : Type) where
  | found (a : α)
  | bad
  | past

/-- The loop over the records of a block. `visit` is given the record before, too, and says
whether the loop ends here. -/
def scan {α : Type} (size : Nat) (dir : Option Inode) (b : Block)
    (visit : Option Nat → Nat → Entry → Except Fault (Option α)) :
    Nat → Option Nat → Nat → Except Fault (Scan α)
  | 0, _, _ => .error .forever
  | fuel + 1, prev, off =>
    if off < size then do
      let de ← readHeader size b off
      if ← ext2CheckDirEntry dir de off then
        match ← visit prev off de with
        | some a => .ok (.found a)
        | none => scan size dir b visit fuel (some off) (off + de.recLen)
      else .ok .bad
    else .ok .past

namespace Inode

variable (d : Inode)

def blocks : Nat := (d.iSize + d.blockSize - 1) / d.blockSize

/-- `scan` of a whole block. -/
def scanBlock {α : Type} (dir : Option Inode) (b : Block)
    (visit : Option Nat → Nat → Entry → Except Fault (Option α)) : Except Fault (Scan α) :=
  scan d.blockSize dir b visit (d.blockSize + 1) none 0

/-! ## `ext2_find_entry` -/

def findVisit (name : List UInt8) (off : Nat) (de : Entry) : Except Fault (Option Nat) := do
  if ← ext2Match d.blockSize name off de then .ok (some off) else .ok none

def nameiRaSize : Nat := 8

/-- The buffer of block `k` in `bh_use`. A hole leaves its slot empty, and the blocks that would
take the slot later are not read any more. -/
def bhUse (k : Nat) : Option Block :=
  if (List.range (k / nameiRaSize)).all fun i =>
      (d.block (k % nameiRaSize + nameiRaSize * i)).isSome then d.block k
  else none

def findFrom (name : List UInt8) : Nat → Nat → Except Fault (Option (Nat × Nat))
  | 0, _ => .ok none
  | n + 1, k =>
    match d.bhUse k with
    | none => findFrom name n (k + 1)
    | some b => do
      match ← d.scanBlock (some d) b fun _ => d.findVisit name with
      | .found off => .ok (some (k, off))
      | .bad => .ok none
      | .past => findFrom name n (k + 1)

def ext2FindEntry (name : List UInt8) : Except Fault (Option (Nat × Nat)) :=
  if ext2NameLen < name.length then .ok none else d.findFrom name d.blocks 0

/-! ## `ext2_add_entry` -/

/-- The record has room for the name. -/
def fits (name : List UInt8) (de : Entry) : Bool :=
  de.inode = 0 ∧ ext2DirRecLen name.length ≤ de.recLen ∨
    ext2DirRecLen de.name.length + ext2DirRecLen name.length ≤ de.recLen

def addVisit (name : List UInt8) (off : Nat) (de : Entry) :
    Except Fault (Option (Except Errno Nat)) := do
  if ← ext2Match d.blockSize name off de then .ok (some (.error .eexist))
  else if fits name de then .ok (some (.ok off))
  else .ok none

/-- The name is written, behind the record that is there if that is in use. -/
def writeEntry (b : Block) (off : Nat) (name : List UInt8) : Except Fault (Block × Nat) :=
  let de := b off
  let off' := if de.inode = 0 then off else off + ext2DirRecLen de.name.length
  if off' + 8 + name.length ≤ d.blockSize then
    if de.inode = 0 then .ok (update b off ⟨0, de.recLen, name, de.after⟩, off)
    else
      let len := ext2DirRecLen de.name.length
      .ok (update (update b off { de with recLen := len }) off'
        ⟨0, de.recLen - len, name, (b off').after⟩, off')
  else .error .outside

def zeroBlock : Block := fun _ => ⟨0, 0, [], 0⟩

/-- A new block with one record that is not in use. -/
def newBlock : Block := update zeroBlock 0 ⟨0, d.blockSize, [], 0⟩

/-- The directory, and the block and the offset of the new record. -/
abbrev Added := Except Errno (Inode × Nat × Nat)

def addTo (k : Nat) (b : Block) (name : List UInt8) (next : Except Fault Added) :
    Except Fault Added := do
  match ← d.scanBlock (some d) b fun _ => d.addVisit name with
  | .found (.error e) => .ok (.error e)
  | .found (.ok off) =>
    let (b, off) ← d.writeEntry b off name
    .ok (.ok ({ d with block := update d.block k (some b) }, k, off))
  | .bad => .ok (.error .enoent)
  | .past => next

/-- `alloc` tells whether `ext2_bread` gets the blocks that are missing. Block 0 is not
created. -/
def addFrom (name : List UInt8) (alloc : Bool) : Nat → Nat → Except Fault Added
  | 0, k =>
    if alloc then
      { d with iSize := (k + 1) * d.blockSize }.addTo k d.newBlock name (.error .forever)
    else .ok (.error .enospc)
  | n + 1, k =>
    match d.block k with
    | some b => d.addTo k b name (addFrom name alloc n (k + 1))
    | none =>
      if k ≠ 0 ∧ alloc then d.addTo k zeroBlock name (addFrom name alloc n (k + 1))
      else .ok (.error (if k = 0 then .efbig else .enospc))

def ext2AddEntry (name : List UInt8) (alloc : Bool) : Except Fault Added :=
  if ext2NameLen < name.length then .ok (.error .enametoolong)
  else if name = [] then .ok (.error .einval)
  else if d.iSize = 0 then .ok (.error .enoent)
  else d.addFrom name alloc d.blocks 0

/-! ## `ext2_delete_entry` -/

def mergeEntry (b : Block) (prev : Option Nat) (off : Nat) : Block :=
  let b' := match prev with
    | some p => update b p { b p with recLen := ((b p).recLen + (b off).recLen) % 2 ^ 16 }
    | none => b
  update b' off { b' off with inode := 0 }

/-- The inode that the check is given is null. -/
def ext2DeleteEntry (b : Block) (off : Nat) : Except Fault (Except Errno Block) := do
  match ← d.scanBlock none b fun prev o _ => .ok (if o = off then some prev else none) with
  | .found prev => .ok (.ok (mergeEntry b prev off))
  | .bad => .ok (.error .eio)
  | .past => .ok (.error .enoent)

/-! ## The callers -/

/-- The buffer of a block that is there. -/
def bh (k : Nat) : Block := (d.block k).getD zeroBlock

def store (k : Nat) (b : Block) : Inode := { d with block := update d.block k (some b) }

inductive Call where
  | find (name : List UInt8)
  | add (name : List UInt8) (ino : Nat) (alloc : Bool)
  | delete (name : List UInt8)

def Call.name : Call → List UInt8
  | .find name => name
  | .add name _ _ => name
  | .delete name => name

inductive Answer where
  | found (ino : Nat)
  | done
  | failed (e : Errno)
  deriving DecidableEq, Repr

def addName (name : List UInt8) (ino : Nat) (alloc : Bool) : Except Fault (Inode × Answer) := do
  match ← d.ext2AddEntry name alloc with
  | .error e => .ok (d, .failed e)
  | .ok (d', k, off) =>
    let b := d'.bh k
    .ok (d'.store k (update b off { b off with inode := ino }), .done)

def deleteAt (k off : Nat) : Except Fault (Inode × Answer) := do
  match ← d.ext2DeleteEntry (d.bh k) off with
  | .error e => .ok (d, .failed e)
  | .ok b => .ok (d.store k b, .done)

/-- The three calls, as `ext2_lookup`, `ext2_create` and `ext2_unlink` make them. -/
def call (c : Call) : Except Fault (Inode × Answer) :=
  match c with
  | .find name => do
    match ← d.ext2FindEntry name with
    | some (k, off) => .ok (d, .found (d.bh k off).inode)
    | none => .ok (d, .failed .enoent)
  | .add name ino alloc => do
    match ← d.ext2FindEntry name with
    | some _ => .ok (d, .failed .eexist)
    | none => d.addName name ino alloc
  | .delete name => do
    match ← d.ext2FindEntry name with
    | some (k, off) => d.deleteAt k off
    | none => .ok (d, .failed .enoent)

def run (d : Inode) : List Call → Except Fault (Inode × List Answer)
  | [] => .ok (d, [])
  | c :: l => do
    let (d, a) ← d.call c
    let (d, as) ← run d l
    .ok (d, a :: as)

end Inode

end Sbckernel.Fs.Ext2.Dir
