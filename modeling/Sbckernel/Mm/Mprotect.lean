import Sbckernel.Mm.Mmap

/-!
# Changing areas in a range (`mm/mprotect.c`, `mm/mlock.c`)

`mprotect` and `mlock` walk over the areas of a range and give each new flags,
splitting the first and the last one where the range starts or ends inside it.
The two files do this with the same code; they differ in the flags, in the field
`vm_page_prot`, which only `mprotect` sets, and in their errors. The common part
stands here once, with the change of an area and the errors as parameters.
-/

namespace Sbckernel.Mm

/-! ## Splitting an area -/

/-- `mprotect_fixup_all`, `mlock_fixup_all`. -/
def fixupAll (change : VmArea → VmArea) (s : MmStruct) (vma : VmPtr) : MmStruct × Errno :=
  (s.modify vma change, .ok)

/-- `mprotect_fixup_start`, `mlock_fixup_start`: the part up to `last` becomes a
new area. -/
def fixupStart (change : VmArea → VmArea) (nomem : Errno) (K : Kmalloc) (s : MmStruct)
    (vma : VmPtr) (last : Nat) : MmStruct × Errno :=
  match kmalloc K s with
  | (none, s) => (s, nomem)
  | (some n, s) =>
    let area := s.mem vma
    let s := s.set vma { area with
      vmStart := last
      vmOffset := area.vmOffset + (BitVec.ofNat 32 last - BitVec.ofNat 32 area.vmStart) }
    let s := s.set n (change { area with vmEnd := last })
    (insertVmStruct (s.addCount area.vmInode 1) n, .ok)

/-- `mprotect_fixup_end`, `mlock_fixup_end`: the part from `start` on becomes a
new area. -/
def fixupEnd (change : VmArea → VmArea) (nomem : Errno) (K : Kmalloc) (s : MmStruct)
    (vma : VmPtr) (start : Nat) : MmStruct × Errno :=
  match kmalloc K s with
  | (none, s) => (s, nomem)
  | (some n, s) =>
    let area := s.mem vma
    let s := s.set vma { area with vmEnd := start }
    let s := s.set n (change { area with
      vmStart := start
      vmOffset := area.vmOffset + (BitVec.ofNat 32 start - BitVec.ofNat 32 area.vmStart) })
    (insertVmStruct (s.addCount area.vmInode 1) n, .ok)

/-- `mprotect_fixup_middle`, `mlock_fixup_middle`: new areas on both sides. -/
def fixupMiddle (change : VmArea → VmArea) (nomem : Errno) (K : Kmalloc) (s : MmStruct)
    (vma : VmPtr) (start last : Nat) : MmStruct × Errno :=
  match kmalloc K s with
  | (none, s) => (s, nomem)
  | (some left, s) =>
    match kmalloc K s with
    | (none, s) => (kfree s left, nomem)
    | (some right, s) =>
      let area := s.mem vma
      let s := s.set left { area with vmEnd := start }
      let s := s.set right { area with
        vmStart := last
        vmOffset := area.vmOffset + (BitVec.ofNat 32 last - BitVec.ofNat 32 area.vmStart) }
      let s := s.set vma (change { area with
        vmStart := start
        vmEnd := last
        vmOffset := area.vmOffset + (BitVec.ofNat 32 start - BitVec.ofNat 32 area.vmStart) })
      (insertVmStruct (insertVmStruct (s.addCount area.vmInode 2) left) right, .ok)

/-- The choice between the four, the same in both files. -/
def fixup (change : VmArea → VmArea) (nomem : Errno) (K : Kmalloc) (s : MmStruct) (vma : VmPtr)
    (start last : Nat) : MmStruct × Errno :=
  if start = (s.mem vma).vmStart then
    if last = (s.mem vma).vmEnd then fixupAll change s vma
    else fixupStart change nomem K s vma last
  else if last = (s.mem vma).vmEnd then fixupEnd change nomem K s vma start
  else fixupMiddle change nomem K s vma start last

/-- The loop of `sys_mprotect` and of `do_mlock`: `visit` changes the part of one
area from `nstart` on, and a hole in the range is the error `hole`. -/
def fixupLoop (visit : MmStruct → VmPtr → Nat → Nat → MmStruct × Errno) (hole : Errno)
    (last : Nat) : Nat → MmStruct → VmPtr → Nat → MmStruct × Errno
  | 0, s, _, _ => (s, hole)
  | n + 1, s, vma, nstart =>
    if (s.mem vma).vmEnd ≥ last then visit s vma nstart last
    else
      let tmp := (s.mem vma).vmEnd
      let next := (s.mem vma).vmNext
      match visit s vma nstart tmp with
      | (s, .ok) =>
        match next with
        | none => (s, hole)
        | some vma =>
          if (s.mem vma).vmStart ≠ tmp then (s, hole)
          else fixupLoop visit hole last n s vma tmp
      | (s, e) => (s, e)

/-- What `sys_mprotect` and `do_mlock` do for a range that is not empty. -/
def fixupRange (visit : MmStruct → VmPtr → Nat → Nat → MmStruct × Errno) (hole : Errno)
    (s : MmStruct) (start last : Nat) : MmStruct × Errno :=
  match findVma s start with
  | none => (s, hole)
  | some vma =>
    if (s.mem vma).vmStart > start then (s, hole)
    else
      match fixupLoop visit hole last (s.live + 1) s vma start with
      | (s, e) => (mergeSegments s start last, e)

/-! ## `sys_mprotect` -/

def protMask : VmFlags := vmRead ||| vmWrite ||| vmExec

/-- `prot | (flags & ~(PROT_READ | PROT_WRITE | PROT_EXEC))`. -/
def protFlags (prot : ULong) (flags : VmFlags) : VmFlags :=
  prot.setWidth 16 ||| (flags &&& ~~~protMask)

def setProt (newflags : VmFlags) (prot : Pgprot) (area : VmArea) : VmArea :=
  { area with vmFlags := newflags, vmPageProt := prot }

def mprotectFixupAll (s : MmStruct) (vma : VmPtr) (newflags : VmFlags) (prot : Pgprot) :
    MmStruct × Errno :=
  fixupAll (setProt newflags prot) s vma

variable (K : Kmalloc)

def mprotectFixupStart (s : MmStruct) (vma : VmPtr) (last : Nat)
    (newflags : VmFlags) (prot : Pgprot) : MmStruct × Errno :=
  fixupStart (setProt newflags prot) .enomem K s vma last

def mprotectFixupEnd (s : MmStruct) (vma : VmPtr) (start : Nat)
    (newflags : VmFlags) (prot : Pgprot) : MmStruct × Errno :=
  fixupEnd (setProt newflags prot) .enomem K s vma start

def mprotectFixupMiddle (s : MmStruct) (vma : VmPtr) (start last : Nat)
    (newflags : VmFlags) (prot : Pgprot) : MmStruct × Errno :=
  fixupMiddle (setProt newflags prot) .enomem K s vma start last

def mprotectFixup (s : MmStruct) (vma : VmPtr) (start last : Nat)
    (newflags : VmFlags) : MmStruct × Errno :=
  if newflags = (s.mem vma).vmFlags then (s, .ok)
  else
    let newprot := pageProt newflags
    if start = (s.mem vma).vmStart then
      if last = (s.mem vma).vmEnd then mprotectFixupAll s vma newflags newprot
      else mprotectFixupStart K s vma last newflags newprot
    else if last = (s.mem vma).vmEnd then mprotectFixupEnd K s vma start newflags newprot
    else mprotectFixupMiddle K s vma start last newflags newprot

/-- One round of the loop: the new flags may not exceed the `VM_MAY` flags. -/
def mprotectVisit (prot : ULong) (s : MmStruct) (vma : VmPtr) (nstart tmp : Nat) :
    MmStruct × Errno :=
  let newflags := protFlags prot (s.mem vma).vmFlags
  if (newflags &&& ~~~(newflags >>> 4)) &&& 0xf ≠ 0 then (s, .eacces)
  else mprotectFixup K s vma nstart tmp newflags

def sysMprotect (s : MmStruct) (start len : Nat) (prot : ULong) : MmStruct × Errno :=
  if start % pageSize ≠ 0 then (s, .einval)
  else
    let last := wrap (start + pageAlign len)
    if last < start then (s, .einval)
    else if prot &&& ~~~(protRead ||| protWrite ||| protExec) ≠ 0 then (s, .einval)
    else if last = start then (s, .ok)
    else fixupRange (mprotectVisit K prot) .efault s start last

/-! ## `sys_mlock` and its relatives -/

/-- `vm_flags | VM_LOCKED`, or without it. -/
def lockFlags (on : Bool) (flags : VmFlags) : VmFlags :=
  if on then flags ||| vmLocked else (flags ||| vmLocked) &&& ~~~vmLocked

def setFlags (newflags : VmFlags) (area : VmArea) : VmArea := { area with vmFlags := newflags }

def mlockFixupAll (s : MmStruct) (vma : VmPtr) (newflags : VmFlags) : MmStruct × Errno :=
  fixupAll (setFlags newflags) s vma

def mlockFixupStart (s : MmStruct) (vma : VmPtr) (last : Nat)
    (newflags : VmFlags) : MmStruct × Errno :=
  fixupStart (setFlags newflags) .eagain K s vma last

def mlockFixupEnd (s : MmStruct) (vma : VmPtr) (start : Nat)
    (newflags : VmFlags) : MmStruct × Errno :=
  fixupEnd (setFlags newflags) .eagain K s vma start

def mlockFixupMiddle (s : MmStruct) (vma : VmPtr) (start last : Nat)
    (newflags : VmFlags) : MmStruct × Errno :=
  fixupMiddle (setFlags newflags) .eagain K s vma start last

def mlockFixup (s : MmStruct) (vma : VmPtr) (start last : Nat)
    (newflags : VmFlags) : MmStruct × Errno :=
  if newflags = (s.mem vma).vmFlags then (s, .ok)
  else
    let split :=
      if start = (s.mem vma).vmStart then
        if last = (s.mem vma).vmEnd then mlockFixupAll s vma newflags
        else mlockFixupStart K s vma last newflags
      else if last = (s.mem vma).vmEnd then mlockFixupEnd K s vma start newflags
      else mlockFixupMiddle K s vma start last newflags
    match split with
    | (s, .ok) =>
      let n := pages (wordSub last start)
      ({ s with lockedVm := s.lockedVm + if newflags &&& vmLocked = 0 then -n else n }, .ok)
    | (s, e) => (s, e)

def mlockVisit (on : Bool) (s : MmStruct) (vma : VmPtr) (nstart tmp : Nat) : MmStruct × Errno :=
  mlockFixup K s vma nstart tmp (lockFlags on (s.mem vma).vmFlags)

def doMlock (cur : Current) (K : Kmalloc) (s : MmStruct) (start len : Nat) (on : Bool) :
    MmStruct × Errno :=
  if ¬cur.suser then (s, .eperm)
  else
    let last := wrap (start + pageAlign len)
    if last < start then (s, .einval)
    else if last = start then (s, .ok)
    else fixupRange (mlockVisit K on) .enomem s start last

/-- The loop of `do_mlockall`. -/
def mlockAreas (K : Kmalloc) (on : Bool) : Nat → MmStruct → Option VmPtr → MmStruct × Errno
  | 0, s, _ => (s, .ok)
  | _ + 1, s, none => (s, .ok)
  | n + 1, s, some vma =>
    let area := s.mem vma
    match mlockFixup K s vma area.vmStart area.vmEnd (lockFlags on area.vmFlags) with
    | (s, .ok) => mlockAreas K on n s (s.mem vma).vmNext
    | (s, e) => (s, e)

def mclCurrent : ULong := 1
def mclFuture : ULong := 2

def doMlockall (cur : Current) (K : Kmalloc) (s : MmStruct) (flags : ULong) : MmStruct × Errno :=
  if ¬cur.suser then (s, .eperm)
  else
    let s := { s with defFlags := if flags &&& mclFuture ≠ 0 then vmLocked else 0 }
    match mlockAreas K (flags &&& mclCurrent ≠ 0) (s.live + 1) s s.mmap with
    | (s, e) => (mergeSegments s 0 taskSize, e)

end Sbckernel.Mm
