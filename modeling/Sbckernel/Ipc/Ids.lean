import Sbckernel.Ipc.Basic

/-!
# Keys and identifiers of IPC objects (`ipc/sem.c`, `ipc/msg.c`, `ipc/shm.c`)

The three files have the same table of slots, the same `findkey` and the same way
of making an object: take a free slot, mark it `IPC_NOID`, allocate memory, fill the
slot in and raise the bound up to which `findkey` looks. What differs is in the
functions of `Kind`: the checks of the size, what is charged for it and when, the
number of allocations, and the order of the two steps of a removal.

A task can lose the processor in two places, in `findkey` when it meets a slot that
is being filled in, and in `kmalloc`. A call is run up to the next such place and
the place is kept as the phase of the task. A sleep may end at any time, since
`findkey` looks again; `kmalloc` returns memory or not.
-/

namespace Sbckernel.Ipc.Ids

open Function

inductive Kind where
  | sem
  | msg
  | shm
  deriving DecidableEq, Repr

/-- `SEMMNI`, `MSGMNI`, `SHMMNI`. -/
def Kind.mni : Kind → Nat
  | .sem => 128
  | .msg => 128
  | .shm => 2 ^ 7

def semmsl : Int := 32
def semmns : Int := 128 * 32
def shmmax : Int := 0x2000000
def shmmin : Int := 1
def shmall : Int := 2 ^ (15 + 7)

def ipcPrivate : Int := 0

/-- The arguments of a `get`: `size` is the number of semaphores or the size of the segment,
and whether `ipcperms` grants access is part of it. -/
structure Request where
  key : Int
  size : Int
  creat : Bool
  excl : Bool
  permitted : Bool
  deriving DecidableEq, Repr

structure Object where
  key : Int
  seq : Nat
  size : Int
  dest : Bool
  deriving DecidableEq, Repr

inductive Slot where
  | unused
  | noid
  | live (o : Object)
  deriving DecidableEq, Repr

/-- Where the call of a task is. -/
inductive Phase where
  | idle
  | findkey (r : Request) (id : Nat)
  | kmalloc (r : Request) (id : Nat) (left : Nat)
  deriving DecidableEq, Repr

/-- The table with `max_semid` and so on; `used` is `used_sems` or `shm_tot`. -/
structure Table where
  slots : Nat → Slot
  maxId : Nat
  seq : Nat
  used : Int
  phase : Task → Phase

/-- `sem_init`, `msg_init`, `shm_init`. -/
def init : Table := ⟨fun _ => .unused, 0, 0, 0, fun _ => .idle⟩

/-! ## What differs -/

/-- The check of the size in `sys_semget` and `sys_shmget`. -/
def Kind.badSize : Kind → Int → Bool
  | .sem, nsems => nsems < 0 || nsems > semmsl
  | .msg, _ => false
  | .shm, size => size < 0 || size > shmmax

/-- The check of the size in `newary` and `newseg`. -/
def Kind.badNew : Kind → Int → Bool
  | .sem, nsems => nsems = 0
  | .msg, _ => false
  | .shm, size => size < shmmin

/-- What an object of this size is charged for. -/
def Kind.units : Kind → Int → Int
  | .sem, nsems => nsems
  | .msg, _ => 0
  | .shm, size => (size + 4096 - 1) / 4096

def Kind.full : Kind → Int → Int → Bool
  | .sem, used, nsems => used + nsems > semmns
  | .msg, _, _ => false
  | .shm, used, numpages => used + numpages ≥ shmall

/-- Calls of `kmalloc` after the first. -/
def Kind.more : Kind → Nat
  | .sem => 0
  | .msg => 0
  | .shm => 1

/-- The charge of `newary` is made before it allocates, the one of `newseg` when it has. -/
def Kind.early : Kind → Bool
  | .sem => true
  | .msg => false
  | .shm => false

/-- The checks of a `get` that has found its key. -/
def Kind.existing : Kind → Request → Object → Except Errno Unit
  | .sem, r, o =>
    if r.creat ∧ r.excl then .error .eexist
    else if r.size > o.size then .error .einval
    else if ¬r.permitted then .error .eacces
    else .ok ()
  | .msg, r, _ =>
    if r.creat ∧ r.excl then .error .eexist
    else if ¬r.permitted then .error .eacces
    else .ok ()
  | .shm, r, o =>
    if r.creat ∧ r.excl then .error .eexist
    else if o.dest then .error .eidrm
    else if r.size > o.size then .error .einval
    else if ¬r.permitted then .error .eacces
    else .ok ()

/-! ## What is the same -/

/-- How `findkey` ends or pauses. -/
inductive Scan where
  | found (id : Nat)
  | missing
  | sleep (id : Nat)
  deriving DecidableEq, Repr

/-- The loop of `findkey` over the next `n` slots. -/
def findkeyLoop (slots : Nat → Slot) (key : Int) : Nat → Nat → Scan
  | 0, _ => .missing
  | n + 1, id =>
    match slots id with
    | .noid => .sleep id
    | .unused => findkeyLoop slots key n (id + 1)
    | .live o => if key = o.key then .found id else findkeyLoop slots key n (id + 1)

variable (s : Table)

/-- `findkey` from the slot `id` on. -/
def findkey (key : Int) (id : Nat) : Scan :=
  findkeyLoop s.slots key (s.maxId + 1 - id) id

def goto (t : Task) (p : Phase) : Table := { s with phase := update s.phase t p }

/-- The result of a call that returns. -/
abbrev Result := Except Errno Nat

/-- `newary`, `newque` and `newseg` up to their first `kmalloc`. -/
def newObject (K : Kind) (s : Table) (t : Task) (r : Request) : Table × Option Result :=
  if K.badNew r.size then (goto s t .idle, some (.error .einval))
  else if K.full s.used (K.units r.size) then (goto s t .idle, some (.error .enospc))
  else
    match (List.range K.mni).find? fun id => s.slots id = .unused with
    | none => (goto s t .idle, some (.error .enospc))
    | some id =>
      let s := { s with
        slots := update s.slots id .noid
        used := if K.early then s.used + K.units r.size else s.used }
      (goto s t (.kmalloc r id K.more), none)

/-- `newary`, `newque` and `newseg` when a `kmalloc` returns. -/
def newAllocated (K : Kind) (s : Table) (t : Task) (r : Request) (id left : Nat) (memory : Bool) :
    Table × Option Result :=
  if ¬memory then
    let s := { s with
      slots := update s.slots id .unused
      used := if K.early then s.used - K.units r.size else s.used }
    (goto s t .idle, some (.error .enomem))
  else
    match left with
    | left + 1 => (goto s t (.kmalloc r id left), none)
    | 0 =>
      let s := { s with
        slots := update s.slots id (.live ⟨r.key, s.seq, r.size, false⟩)
        maxId := if id > s.maxId then id else s.maxId
        used := if K.early then s.used else s.used + K.units r.size }
      (goto s t .idle, some (.ok (s.seq * K.mni + id)))

/-- A `get` when `findkey` has come to an end or has to sleep. -/
def sysGetScanned (K : Kind) (s : Table) (t : Task) (r : Request) : Scan → Table × Option Result
  | .sleep id => (goto s t (.findkey r id), none)
  | .missing =>
    if ¬r.creat then (goto s t .idle, some (.error .enoent)) else newObject K s t r
  | .found id =>
    match s.slots id with
    | .live o => (goto s t .idle, some ((K.existing r o).map fun _ => o.seq * K.mni + id))
    | _ => (goto s t .idle, some (.error .eidrm))

/-- `sys_semget`, `sys_msgget` and `sys_shmget`. -/
def sysGet (K : Kind) (s : Table) (t : Task) (r : Request) : Table × Option Result :=
  if K.badSize r.size then (goto s t .idle, some (.error .einval))
  else if r.key = ipcPrivate then newObject K s t r
  else sysGetScanned K s t r (findkey s r.key 0)

/-- `while (max && slots[--max] == IPC_UNUSED);` -/
def lowerMax (slots : Nat → Slot) : Nat → Nat
  | 0 => 0
  | max + 1 => if slots max = .unused then lowerMax slots max else max

def lower (id : Nat) : Table :=
  if id = s.maxId then { s with maxId := lowerMax s.slots s.maxId } else s

def release (id : Nat) : Table :=
  { s with slots := update s.slots id .unused }

/-- A removal: `sem.c` and `msg.c` lower the bound first, `shm.c` gives up the slot first. -/
def freeObject (K : Kind) (s : Table) (id : Nat) (o : Object) : Table :=
  let s := { s with
    seq := (s.seq + 1) % (2 ^ 31 / K.mni) % 65536
    used := s.used - K.units o.size }
  match K with
  | .shm => lower (release s id) id
  | _ => release (lower s id) id

/-! ## The calls under their names -/

def newary := newObject .sem
def newque := newObject .msg
def newseg := newObject .shm
def sysSemget := sysGet .sem
def sysMsgget := sysGet .msg
def sysShmget := sysGet .shm
def freeary := freeObject .sem
def freeque := freeObject .msg
def killseg := freeObject .shm

/-! ## Steps -/

inductive Action where
  | get (t : Task) (r : Request)
  | wake (t : Task)
  | kmalloc (t : Task) (memory : Bool)
  | remove (id : Nat)
  | dest (id : Nat)

/-- One step, with the result of the call if it returns in it. A `get` starts when the task
is in no other call, a removal is of a live object; only segments are marked `SHM_DEST`. -/
def step (K : Kind) (s : Table) : Action → Option (Table × Option Result)
  | .get t r => if s.phase t = .idle then some (sysGet K s t r) else none
  | .wake t =>
    match s.phase t with
    | .findkey r id => some (sysGetScanned K s t r (findkey s r.key id))
    | _ => none
  | .kmalloc t memory =>
    match s.phase t with
    | .kmalloc r id left => some (newAllocated K s t r id left memory)
    | _ => none
  | .remove id =>
    match s.slots id with
    | .live o => some (freeObject K s id o, none)
    | _ => none
  | .dest id =>
    match K, s.slots id with
    | .shm, .live o =>
      some ({ s with slots := update s.slots id (.live { o with dest := true }) }, none)
    | _, _ => none

end Sbckernel.Ipc.Ids
