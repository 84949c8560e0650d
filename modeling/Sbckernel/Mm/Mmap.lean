import Mathlib.Data.Finset.Card
import Sbckernel.Mm.Avl

/-!
# Areas of an address space (`mm/mmap.c`)

The areas of one `mm_struct` lie in a store and are linked twice: through
`vm_next` from `mm->mmap` on, and in the tree `mmap_avl`, whose key `vm_end` is
read from the store. Addresses are 32-bit words of the i386, here numbers with
the wrap written out; offsets and the two counters are words.

`kmalloc` is any allocator that hands out a structure not in use, or fails. A
loop along `vm_next` is bounded by the number of structures in use. The page
tables, the methods in `vm_ops` and the warnings of the source are left out; the
ring through `vm_next_share` of the areas of an inode is the list `iMmap`, from
`i_mmap` on.
-/

namespace Sbckernel.Mm

open Lib Function

abbrev VmPtr := Nat
abbrev InodePtr := Nat
abbrev OpsPtr := Nat
abbrev ULong := BitVec 32
abbrev VmFlags := BitVec 16
abbrev Pgprot := ULong

def pageShift : Nat := 12
def pageSize : Nat := 4096
def taskSize : Nat := 0xC0000000
def maxUserAddr : Nat := taskSize
def mmapSearchStart : Nat := taskSize / 3
def rlimInfinity : Nat := 0x7fffffff

def wrap (x : Nat) : Nat := x % 2 ^ 32

/-- `a - b` for unsigned words. -/
def wordSub (a b : Nat) : Nat := wrap (a + 2 ^ 32 - b)

/-- `addr & PAGE_MASK`. -/
def pageMask (addr : Nat) : Nat := addr / pageSize * pageSize

/-- `PAGE_ALIGN`. -/
def pageAlign (addr : Nat) : Nat := pageMask (wrap (addr + pageSize - 1))

/-- `len >> PAGE_SHIFT` as a summand of a counter. -/
def pages (len : Nat) : ULong := BitVec.ofNat 32 (len / pageSize)

def vmRead : VmFlags := 0x0001
def vmWrite : VmFlags := 0x0002
def vmExec : VmFlags := 0x0004
def vmShared : VmFlags := 0x0008
def vmMayread : VmFlags := 0x0010
def vmMaywrite : VmFlags := 0x0020
def vmMayexec : VmFlags := 0x0040
def vmMayshare : VmFlags := 0x0080
def vmGrowsdown : VmFlags := 0x0100
def vmShm : VmFlags := 0x0400
def vmDenywrite : VmFlags := 0x0800
def vmExecutable : VmFlags := 0x1000
def vmLocked : VmFlags := 0x2000

def protRead : ULong := 0x1
def protWrite : ULong := 0x2
def protExec : ULong := 0x4

def mapShared : ULong := 0x01
def mapPrivate : ULong := 0x02
def mapType : ULong := 0x0f
def mapFixed : ULong := 0x10
def mapGrowsdown : ULong := 0x0100
def mapDenywrite : ULong := 0x0800
def mapExecutable : ULong := 0x1000

def pageNone : Pgprot := 0x21
def pageShared : Pgprot := 0x27
def pageCopy : Pgprot := 0x25
def pageReadonly : Pgprot := 0x25

def protectionMap : List Pgprot :=
  [pageNone, pageReadonly, pageCopy, pageCopy, pageReadonly, pageReadonly, pageCopy, pageCopy,
    pageNone, pageReadonly, pageShared, pageShared, pageReadonly, pageReadonly, pageShared,
    pageShared]

/-- `protection_map[flags & 0xf]`. -/
def pageProt (flags : VmFlags) : Pgprot := protectionMap.getD (flags &&& 0xf).toNat pageNone

inductive Errno where
  | ok
  | eperm
  | eagain
  | enomem
  | eacces
  | efault
  | enodev
  | einval
  | etxtbsy
  | method (error : Nat)
  deriving DecidableEq, Repr

/-- `struct vm_area_struct` without the fields of the tree and the ring. -/
structure VmArea where
  vmStart : Nat
  vmEnd : Nat
  vmPageProt : Pgprot
  vmFlags : VmFlags
  vmNext : Option VmPtr
  vmOps : Option OpsPtr
  vmOffset : ULong
  vmInode : Option InodePtr
  vmPte : ULong
  deriving DecidableEq, Repr

def VmArea.locked (area : VmArea) : Bool := area.vmFlags &&& vmLocked ≠ 0

/-- `struct mm_struct` and what its areas hang on: their store, the structures in
use, the number of allocations so far, and the counts and rings of inodes. -/
structure MmStruct where
  mem : VmPtr → VmArea
  allocated : Finset VmPtr
  kmallocs : Nat
  mmap : Option VmPtr
  mmapAvl : AvlTree VmPtr
  totalVm : ULong
  lockedVm : ULong
  defFlags : VmFlags
  brk : Nat
  endCode : Nat
  iCount : InodePtr → Int
  iMmap : InodePtr → List VmPtr

namespace MmStruct

variable (s : MmStruct)

def set (p : VmPtr) (area : VmArea) : MmStruct :=
  { s with mem := update s.mem p area }

def modify (p : VmPtr) (f : VmArea → VmArea) : MmStruct := s.set p (f (s.mem p))

/-- `vm_avl_key`. -/
def key (p : VmPtr) : Nat := (s.mem p).vmEnd

/-- `prev ? prev->vm_next : mm->mmap`. -/
def cell : Option VmPtr → Option VmPtr
  | none => s.mmap
  | some prev => (s.mem prev).vmNext

/-- A store through the pointer to that cell. -/
def setCell (prev next : Option VmPtr) : MmStruct :=
  match prev with
  | none => { s with mmap := next }
  | some prev => s.modify prev ({ · with vmNext := next })

def subPages (area : VmArea) (len : Nat) : MmStruct :=
  { s with
    totalVm := s.totalVm - pages len
    lockedVm := if area.locked then s.lockedVm - pages len else s.lockedVm }

def addCount (inode : Option InodePtr) (n : Int) : MmStruct :=
  match inode with
  | none => s
  | some i => { s with iCount := update s.iCount i (s.iCount i + n) }

/-- The number of structures in use, a bound for every walk along `vm_next`. -/
def live : Nat := s.allocated.card

end MmStruct

/-- An allocator of areas: what it does may depend on everything before, and it
never hands out a structure in use. -/
structure Kmalloc where
  pick : Nat → Finset VmPtr → Option VmPtr
  fresh : ∀ n inUse p, pick n inUse = some p → p ∉ inUse

variable (K : Kmalloc)

def Kmalloc.Succeeds : Prop := ∀ n inUse, (K.pick n inUse).isSome

variable (s : MmStruct)

/-- The structure `p` comes into use. -/
def MmStruct.take (p : VmPtr) : MmStruct :=
  { s with kmallocs := s.kmallocs + 1, allocated := insert p s.allocated }

def kmalloc (s : MmStruct) : Option VmPtr × MmStruct :=
  match K.pick s.kmallocs s.allocated with
  | none => (none, { s with kmallocs := s.kmallocs + 1 })
  | some p => (some p, s.take p)

def kfree (p : VmPtr) : MmStruct := { s with allocated := s.allocated.erase p }

/-! ## Looking up and linking areas -/

/-- The loop of `find_vma`. -/
def findVmaIn (s : MmStruct) (addr : Nat) : AvlTree VmPtr → Option VmPtr → Option VmPtr
  | .empty, result => result
  | .node left tree _ right, result =>
    if (s.mem tree).vmEnd > addr then
      if (s.mem tree).vmStart ≤ addr then some tree
      else findVmaIn s addr left (some tree)
    else findVmaIn s addr right result

def findVma (addr : Nat) : Option VmPtr := findVmaIn s addr s.mmapAvl none

def findVmaIntersection (startAddr endAddr : Nat) : Option VmPtr :=
  match findVma s startAddr with
  | none => none
  | some vma => if endAddr ≤ (s.mem vma).vmStart then none else some vma

/-- The end of `insert_vm_struct`: into the ring, behind `i_mmap`. -/
def insertShared (vmp : VmPtr) : MmStruct :=
  match (s.mem vmp).vmInode with
  | none => s
  | some inode =>
    let ring := match s.iMmap inode with
      | [] => [vmp]
      | share :: ring => share :: vmp :: ring
    { s with iMmap := update s.iMmap inode ring }

def insertVmStruct (vmp : VmPtr) : MmStruct :=
  match avlInsertNeighbours s.key vmp s.mmapAvl with
  | (tree, prev, next) =>
    let s := { s with mmapAvl := tree }
    let s := s.setCell prev (some vmp)
    insertShared (s.modify vmp ({ · with vmNext := next })) vmp

def removeSharedVmStruct (mpnt : VmPtr) : MmStruct :=
  match (s.mem mpnt).vmInode with
  | none => s
  | some inode =>
    { s with iMmap := update s.iMmap inode ((s.iMmap inode).erase mpnt) }

/-! ## `do_munmap` -/

/-- The end of `unmap_fixup`: a new structure takes the place of what is left of
the area. -/
def unmapRest (s : MmStruct) (area : VmPtr) : MmStruct :=
  match kmalloc K s with
  | (none, s) => s
  | (some mpnt, s) => insertVmStruct (s.set mpnt (s.mem area)) mpnt

/-- `unmap_fixup`. The area is in neither list nor tree any more. -/
def unmapFixup (s : MmStruct) (area : VmPtr) (addr len : Nat) : MmStruct :=
  let vmStart := (s.mem area).vmStart
  let vmEnd := (s.mem area).vmEnd
  let last := wrap (addr + len)
  if addr < vmStart ∨ addr ≥ vmEnd ∨ last ≤ vmStart ∨ last > vmEnd ∨ last < addr then s
  else
    let s := s.subPages (s.mem area) len
    if addr = vmStart ∧ last = vmEnd then s.addCount (s.mem area).vmInode (-1)
    else if last = vmEnd then unmapRest K (s.modify area ({ · with vmEnd := addr })) area
    else if addr = vmStart then
      unmapRest K (s.modify area fun a =>
        { a with vmOffset := a.vmOffset + (BitVec.ofNat 32 last - BitVec.ofNat 32 a.vmStart)
                 vmStart := last }) area
    else
      match kmalloc K s with
      | (none, s) => s
      | (some mpnt, s) =>
        let a := s.mem area
        let s := s.set mpnt
          { a with vmOffset := a.vmOffset + (BitVec.ofNat 32 last - BitVec.ofNat 32 a.vmStart)
                   vmStart := last }
        let s := s.addCount a.vmInode 1
        let s := s.modify area ({ · with vmEnd := addr })
        unmapRest K (insertVmStruct s mpnt) area

/-- One round of the first loop of `do_munmap`: an area goes from the cell `npp`
to the list `free`. -/
def unlinkArea (npp : Option VmPtr) (s : MmStruct) (mpnt : VmPtr) (free : Option VmPtr) :
    MmStruct :=
  let s := s.setCell npp (s.mem mpnt).vmNext
  let s := s.modify mpnt ({ · with vmNext := free })
  { s with mmapAvl := avlRemove s.key mpnt s.mmapAvl }

/-- The first loop, for every area that starts below `limit`. -/
def unlinkAreas (limit : Nat) (npp : Option VmPtr) :
    Nat → MmStruct → Option VmPtr → Option VmPtr → MmStruct × Option VmPtr
  | 0, s, _, free => (s, free)
  | _ + 1, s, none, free => (s, free)
  | n + 1, s, some mpnt, free =>
    if (s.mem mpnt).vmStart < limit then
      let s := unlinkArea npp s mpnt free
      unlinkAreas limit npp n s (s.cell npp) (some mpnt)
    else (s, free)

/-- One round of the second loop. -/
def releaseArea (addr limit : Nat) (s : MmStruct) (mpnt : VmPtr) : MmStruct :=
  let s := removeSharedVmStruct s mpnt
  let st := if addr < (s.mem mpnt).vmStart then (s.mem mpnt).vmStart else addr
  let last := if limit > (s.mem mpnt).vmEnd then (s.mem mpnt).vmEnd else limit
  kfree (unmapFixup K s mpnt st (wordSub last st)) mpnt

/-- The second loop, over the list `free`. -/
def releaseAreas (K : Kmalloc) (addr limit : Nat) : Nat → MmStruct → Option VmPtr → MmStruct
  | 0, s, _ => s
  | _ + 1, s, none => s
  | n + 1, s, some mpnt =>
    let free := (s.mem mpnt).vmNext
    releaseAreas K addr limit n (releaseArea K addr limit s mpnt) free

def doMunmap (K : Kmalloc) (s : MmStruct) (addr len : Nat) : MmStruct × Errno :=
  if addr % pageSize ≠ 0 ∨ addr > maxUserAddr ∨ len > maxUserAddr - addr then (s, .einval)
  else if pageAlign len = 0 then (s, .ok)
  else
    match findVma s addr with
    | none => (s, .ok)
    | some mpnt =>
      let limit := wrap (addr + pageAlign len)
      let prev := (avlNeighbours s.key mpnt s.mmapAvl none none).1
      match unlinkAreas limit prev (s.live + 1) s (some mpnt) none with
      | (s, free) => (releaseAreas K addr limit (s.live + 1) s free, .ok)

/-! ## `merge_segments` -/

/-- The tests of `merge_segments` for two neighbours. -/
def mergeable (prev mpnt : VmArea) : Bool :=
  mpnt.vmInode = prev.vmInode && mpnt.vmPte = prev.vmPte && mpnt.vmOps = prev.vmOps &&
    mpnt.vmFlags = prev.vmFlags && prev.vmEnd = mpnt.vmStart &&
    (if mpnt.vmInode ≠ none ∨ mpnt.vmFlags &&& vmShm ≠ 0 then
      prev.vmOffset + BitVec.ofNat 32 prev.vmEnd - BitVec.ofNat 32 prev.vmStart = mpnt.vmOffset
    else true)

/-- What `merge_segments` does with two areas that pass. -/
def mergeAreas (prev mpnt : VmPtr) : MmStruct :=
  let s := { s with mmapAvl := avlRemove s.key mpnt s.mmapAvl }
  let s := s.modify prev ({ · with vmEnd := (s.mem mpnt).vmEnd, vmNext := (s.mem mpnt).vmNext })
  let s := removeSharedVmStruct s mpnt
  kfree (s.addCount (s.mem mpnt).vmInode (-1)) mpnt

def mergeLoop (endAddr : Nat) : Nat → MmStruct → VmPtr → Option VmPtr → MmStruct
  | 0, s, _, _ => s
  | _ + 1, s, _, none => s
  | n + 1, s, prev, some mpnt =>
    if (s.mem prev).vmStart < endAddr then
      let next := (s.mem mpnt).vmNext
      if mergeable (s.mem prev) (s.mem mpnt) then
        mergeLoop endAddr n (mergeAreas s prev mpnt) prev next
      else mergeLoop endAddr n s mpnt next
    else s

def mergeSegments (startAddr endAddr : Nat) : MmStruct :=
  match findVma s startAddr with
  | none => s
  | some mpnt =>
    match avlNeighbours s.key mpnt s.mmapAvl none none with
    | (none, next) => mergeLoop endAddr (s.live + 1) s mpnt next
    | (some prev, _) => mergeLoop endAddr (s.live + 1) s prev (some mpnt)

/-! ## `do_mmap` and `sys_brk` -/

/-- What the calls read from `current` and from the memory manager's counters. -/
structure Current where
  rlimData : Nat
  rlimStack : Nat
  rlimMemlock : Nat
  rlimAs : Nat
  suser : Bool
  buffermem : Int
  pageCacheSize : Int
  nrFreePages : Int
  nrSwapPages : Int
  maxMapNr : Nat
  deriving DecidableEq, Repr

def vmEnoughMemory (cur : Current) (pages : Nat) : Bool :=
  let freepages := cur.buffermem / 2 ^ pageShift + cur.pageCacheSize
  let freepages :=
    if freepages ≤ (cur.maxMapNr / 2 ^ 4 : Nat) + 48 then freepages / 2 else freepages
  let freepages := freepages + cur.nrFreePages + cur.nrSwapPages - (cur.maxMapNr / 2 ^ 4 : Nat)
  decide (freepages > pages)

/-- The `mmap` method of a file: it may fail, or fill in the area and take
references to inodes, but leaves the bounds alone. -/
structure MmapMethod where
  run : VmArea → (InodePtr → Int) → Except Errno (VmArea × (InodePtr → Int))
  bounds : ∀ vma count vma' count', run vma count = .ok (vma', count') →
    vma'.vmStart = vma.vmStart ∧ vma'.vmEnd = vma.vmEnd

/-- An open file: its mode, what `do_mmap` asks of its inode, and its method. -/
structure File where
  fMode : BitVec 16
  locksVerifyLocked : Bool
  isAppend : Bool
  iWritecount : Int
  mmap : Option MmapMethod

def File.readable (file : File) : Bool := file.fMode &&& 1 ≠ 0
def File.writable (file : File) : Bool := file.fMode &&& 2 ≠ 0

def trans (x : ULong) (bit1 : ULong) (bit2 : VmFlags) : VmFlags :=
  if x &&& bit1 ≠ 0 then bit2 else 0

def vmFlags (prot flags : ULong) : VmFlags :=
  trans prot protRead vmRead ||| trans prot protWrite vmWrite ||| trans prot protExec vmExec |||
    (trans flags mapGrowsdown vmGrowsdown ||| trans flags mapDenywrite vmDenywrite |||
      trans flags mapExecutable vmExecutable)

/-- The loop of `get_unmapped_area`. -/
def unmappedFrom (s : MmStruct) (len : Nat) : Nat → Option VmPtr → Nat → Nat
  | 0, _, _ => 0
  | n + 1, vmm, addr =>
    if maxUserAddr - len < addr then 0
    else
      match vmm with
      | none => addr
      | some vmm =>
        if wrap (addr + len) ≤ (s.mem vmm).vmStart then addr
        else unmappedFrom s len n (s.mem vmm).vmNext (s.mem vmm).vmEnd

def getUnmappedArea (addr len : Nat) : Nat :=
  if len > maxUserAddr then 0
  else
    let addr := pageAlign (if addr = 0 then mmapSearchStart else addr)
    unmappedFrom s len (s.live + 1) (findVma s addr) addr

/-- The checks of `do_mmap` before an address is looked for. -/
def mmapCheck (cur : Current) (s : MmStruct) (file : Option File) (addr len : Nat)
    (prot flags : ULong) (off : Nat) : Errno :=
  if len > maxUserAddr ∨ addr > maxUserAddr - len then .einval
  else if wrap (off + len) < off then .einval
  else if s.defFlags &&& vmLocked ≠ 0 ∧
      wrap (wrap (s.lockedVm.toNat * pageSize) + len) > cur.rlimMemlock then .eagain
  else
    match file with
    | none => if flags &&& mapType ≠ mapPrivate then .einval else .ok
    | some file =>
      if flags &&& mapType = mapShared ∧ prot &&& protWrite ≠ 0 ∧ ¬file.writable then .eacces
      else if flags &&& mapType = mapShared ∧ file.locksVerifyLocked then .eagain
      else if flags &&& mapType = mapShared ∧ file.isAppend ∧ file.writable then .eacces
      else if flags &&& mapType ≠ mapShared ∧ flags &&& mapType ≠ mapPrivate then .einval
      else if ¬file.readable then .eacces
      else if flags &&& mapDenywrite ≠ 0 ∧ file.iWritecount > 0 then .etxtbsy
      else .ok

/-- The `vm_flags` of a new area. -/
def mmapFlags (file : Option File) (prot flags : ULong) : VmFlags :=
  let vmFlags := vmFlags prot flags ||| s.defFlags
  match file with
  | none => vmFlags ||| vmMayread ||| vmMaywrite ||| vmMayexec
  | some file =>
    let vmFlags :=
      if file.readable then vmFlags ||| vmMayread ||| vmMaywrite ||| vmMayexec else vmFlags
    if flags &&& mapShared ≠ 0 then
      let vmFlags := vmFlags ||| vmShared ||| vmMayshare
      if file.writable then vmFlags else vmFlags &&& ~~~(vmMaywrite ||| vmShared)
    else vmFlags

/-- The new area of `do_mmap`. -/
def mmapArea (file : Option File) (addr len : Nat) (prot flags : ULong) (off : Nat) : VmArea where
  vmStart := addr
  vmEnd := wrap (addr + len)
  vmPageProt := pageProt (mmapFlags s file prot flags)
  vmFlags := mmapFlags s file prot flags
  vmNext := none
  vmOps := none
  vmOffset := BitVec.ofNat 32 off
  vmInode := none
  vmPte := 0

/-- The call of the file's method, if there is a file. -/
def callMmap (file : Option File) (vma : VmArea) (count : InodePtr → Int) :
    Except Errno (VmArea × (InodePtr → Int)) :=
  match file.bind File.mmap with
  | none => .ok (vma, count)
  | some method => method.run vma count

/-- The rest of `do_mmap`, with the address found and the structure `vma`
allocated and filled in. -/
def mmapInto (cur : Current) (K : Kmalloc) (s : MmStruct) (file : Option File) (vma : VmPtr)
    (addr len : Nat) : MmStruct × Except Errno Nat :=
  let s := (doMunmap K s addr len).1
  if wrap (wrap (s.totalVm.toNat * pageSize) + len) > cur.rlimAs then (kfree s vma, .error .enomem)
  else if (s.mem vma).vmFlags &&& (vmShared ||| vmWrite) = vmWrite ∧
      ¬vmEnoughMemory cur (len / pageSize) then (kfree s vma, .error .enomem)
  else
    match callMmap file (s.mem vma) s.iCount with
    | .error e => (kfree s vma, .error e)
    | .ok (area, iCount) =>
      let s := insertVmStruct ({ s with iCount := iCount }.set vma area) vma
      let s := mergeSegments s (s.mem vma).vmStart (s.mem vma).vmEnd
      ({ s with
          totalVm := s.totalVm + pages len
          lockedVm := if area.locked then s.lockedVm + pages len else s.lockedVm }, .ok addr)

def doMmap (cur : Current) (K : Kmalloc) (s : MmStruct) (file : Option File) (addr len : Nat)
    (prot flags : ULong) (off : Nat) : MmStruct × Except Errno Nat :=
  let len := pageAlign len
  if len = 0 then (s, .ok addr)
  else
    match mmapCheck cur s file addr len prot flags off with
    | .ok =>
      if flags &&& mapFixed ≠ 0 ∧ addr % pageSize ≠ 0 then (s, .error .einval)
      else
        let addr := if flags &&& mapFixed ≠ 0 then addr else getUnmappedArea s addr len
        if flags &&& mapFixed = 0 ∧ addr = 0 then (s, .error .enomem)
        else if file.any fun file => file.mmap.isNone then (s, .error .enodev)
        else
          match kmalloc K s with
          | (none, s) => (s, .error .enomem)
          | (some vma, s) =>
            mmapInto cur K (s.set vma (mmapArea s file addr len prot flags off)) file vma addr len
    | e => (s, .error e)

/-- `sys_brk`: the new state and the break it returns. -/
def sysBrk (cur : Current) (K : Kmalloc) (s : MmStruct) (brk : Nat) : MmStruct × Nat :=
  if brk < s.endCode then (s, s.brk)
  else
    let newbrk := pageAlign brk
    let oldbrk := pageAlign s.brk
    if oldbrk = newbrk then ({ s with brk := brk }, brk)
    else if brk ≤ s.brk then
      ((doMunmap K { s with brk := brk } newbrk (wordSub oldbrk newbrk)).1, brk)
    else
      let rlim := if cur.rlimData ≥ rlimInfinity then 2 ^ 32 - 1 else cur.rlimData
      if wordSub brk s.endCode > rlim then (s, s.brk)
      else if (findVmaIntersection s oldbrk (wrap (newbrk + pageSize))).isSome then (s, s.brk)
      else if ¬vmEnoughMemory cur (wordSub newbrk oldbrk / pageSize) then (s, s.brk)
      else
        match doMmap cur K s none oldbrk (wordSub newbrk oldbrk)
          (protRead ||| protWrite ||| protExec) (mapFixed ||| mapPrivate) 0 with
        | (s, .ok addr) => if addr ≠ oldbrk then (s, s.brk) else ({ s with brk := brk }, brk)
        | (s, .error _) => (s, s.brk)

end Sbckernel.Mm
