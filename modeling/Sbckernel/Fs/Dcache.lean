import Mathlib.Data.Fin.Basic
import Sbckernel.Lib.Reach

/-!
# The directory cache (`fs/dcache.c`)

Two levels of 128 entries each. The entries of a level are linked in a circle, and the
level's head is the next of them to be used again. An entry that holds a name is also in
one of 32 hash queues, which are circles through a `hash_list`; `h.next` is null when it
is in none.

The links are kept as the source has them. The head that `lru_head` points to is that of
the entry's level. A name is the list of its bytes, and its length is `name_len`. A null
pointer that would be followed, and a walk along a hash queue that would not come to its
end, is `none`.
-/

namespace Sbckernel.Fs.Dcache

open Function

def dcacheNameLen : Nat := 15

inductive Level where
  | level1
  | level2
  deriving DecidableEq, Repr

/-- An element of `level1_cache` or `level2_cache`. -/
structure Entry where
  level : Level
  index : Fin 128
  deriving DecidableEq, Repr

/-- `level1_cache[i]` or `level2_cache[i]`. -/
def entryAt (level : Level) (i : Nat) : Entry := ⟨level, Fin.ofNat 128 i⟩

/-- What has a `hash_list`. -/
inductive Node where
  | hash (q : Fin 32)
  | entry (de : Entry)
  deriving DecidableEq, Repr

/-- The data of an entry, from `dc_dev` to `name`. -/
structure Data where
  dcDev : UInt16
  dir : UInt32
  version : UInt32
  ino : UInt32
  name : List UInt8
  deriving DecidableEq, Repr

/-- What is read of the inode of a directory. -/
structure Inode where
  iDev : UInt16
  iIno : UInt32
  iVersion : UInt32
  deriving DecidableEq, Repr

structure State where
  next : Node → Option Node
  prev : Node → Option Node
  data : Entry → Data
  nextLru : Entry → Entry
  prevLru : Entry → Entry
  head : Level → Entry

/-! ## The LRU lists -/

variable (s : State)

def removeLru (de : Entry) : State :=
  let next := s.nextLru de
  let prev := s.prevLru de
  { s with
    prevLru := update s.prevLru next prev
    nextLru := update s.nextLru prev next }

def addLru (de head : Entry) : State :=
  let prev := s.prevLru head
  { s with
    nextLru := update (update s.nextLru de head) prev de
    prevLru := update (update s.prevLru de prev) head de }

/-- The head of a level moves on to the next entry. -/
def advance (level : Level) : State :=
  { s with head := update s.head level (s.nextLru (s.head level)) }

def updateLru (de : Entry) : State :=
  if de = s.head de.level then advance s de.level
  else addLru (removeLru s de) de (s.head de.level)

/-! ## The hash queues -/

def namehash (name : List UInt8) : UInt32 :=
  name.length.toUInt32 + (name.headD 0).toUInt32 + (name.getLastD 0).toUInt32

def hashFn (dir : Inode) (name : List UInt8) : Fin 32 :=
  Fin.ofNat 32 (dir.iDev.toUInt32 ^^^ dir.iIno ^^^ namehash name).toNat

/-- The stores of `remove_hash`. -/
def unlink (de : Entry) (next prev : Node) : State :=
  { s with
    prev := update s.prev next (some prev)
    next := update (update s.next prev (some next)) (.entry de) none }

def removeHash (de : Entry) : Option State :=
  match s.next (.entry de) with
  | none => some s
  | some next => (s.prev (.entry de)).map (unlink s de next)

/-- The stores of `add_hash`. -/
def link (de : Entry) (hash : Fin 32) (next : Node) : State :=
  { s with
    next := update (update s.next (.entry de) (some next)) (.hash hash)
      (some (.entry de))
    prev := update (update s.prev (.entry de) (some (.hash hash))) next
      (some (.entry de)) }

def addHash (de : Entry) (hash : Fin 32) : Option State :=
  (s.next (.hash hash)).map (link s de hash)

/-- The comparisons of `find_entry`. -/
def Matches (dir : Inode) (name : List UInt8) (d : Data) : Prop :=
  d.dcDev = dir.iDev ∧ d.dir = dir.iIno ∧ d.version = dir.iVersion ∧ d.name = name

instance decidableMatches (dir : Inode) (name : List UInt8) (d : Data) :
    Decidable (Matches dir name d) :=
  inferInstanceAs (Decidable (_ ∧ _))

/-- The loop of `find_entry`. It ends at the head that it was given; the head of another queue
is not an entry. -/
def findFrom (s : State) (dir : Inode) (name : List UInt8) (hash : Fin 32) :
    Nat → Node → Option (Option Entry)
  | 0, _ => none
  | _ + 1, .hash q => if q = hash then some none else none
  | fuel + 1, .entry de =>
    if Matches dir name (s.data de) then some (some de)
    else (s.next (.entry de)).bind (findFrom s dir name hash fuel)

/-- No queue is longer than the two caches together. -/
def findEntry (dir : Inode) (name : List UInt8) : Option (Option Entry) :=
  (s.next (.hash (hashFn dir name))).bind (findFrom s dir name (hashFn dir name) 257)

/-! ## The calls -/

/-- The entry gets new data, in the queue that is given. -/
def fill (de : Entry) (d : Data) (hash : Fin 32) : Option State :=
  (removeHash s de).bind fun s => addHash { s with data := update s.data de d } de hash

def moveToLevel2 (oldDe : Entry) (hash : Fin 32) : Option State :=
  if oldDe.level = .level2 then some (updateLru s oldDe)
  else fill (advance s .level2) (s.head .level2) (s.data oldDe) hash

/-- The inode number that was found, if the name was. -/
def dcacheLookup (dir : Inode) (name : List UInt8) : Option (State × Option UInt32) :=
  if name.length > dcacheNameLen then some (s, none)
  else
    (findEntry s dir name).bind fun
      | none => some (s, none)
      | some de =>
        (moveToLevel2 s de (hashFn dir name)).map fun s' => (s', some (s.data de).ino)

def setIno (de : Entry) (ino : UInt32) : State :=
  { s with data := update s.data de { s.data de with ino := ino } }

def dcacheAdd (dir : Inode) (name : List UInt8) (ino : UInt32) : Option State :=
  if name.length > dcacheNameLen then some s
  else
    (findEntry s dir name).bind fun
      | some de => some (updateLru (setIno s de ino) de)
      | none =>
        fill (advance s .level1) (s.head .level1) ⟨dir.iDev, dir.iIno, dir.iVersion, ino, name⟩
          (hashFn dir name)

/-- The `prev` of the heads is not set: the source sets their `next` twice. -/
def nameCacheInit : State where
  next
    | .hash q => some (.hash q)
    | .entry _ => none
  prev _ := none
  data _ := ⟨0, 0, 0, 0, []⟩
  nextLru de := ⟨de.level, de.index + 1⟩
  prevLru de := ⟨de.level, de.index - 1⟩
  head level := entryAt level 0

inductive Call where
  | lookup (dir : Inode) (name : List UInt8)
  | add (dir : Inode) (name : List UInt8) (ino : UInt32)

/-- One call. -/
def step : Call → Option (State × Option UInt32)
  | .lookup dir name => dcacheLookup s dir name
  | .add dir name ino => (dcacheAdd s dir name ino).map fun s => (s, none)

end Sbckernel.Fs.Dcache
