import Sbckernel.Lib.Reach
import Sbckernel.Mm.Mprotect

/-!
# Growing and moving areas (`mm/mremap.c`, `include/linux/mm.h`)

`sys_mremap` and `expand_stack`, and with them all calls that change the areas
of an address space: `AddressSpace` is the system whose steps are these calls,
from an `mm_struct` without areas on. `do_mlock` is called with the start of a
page, as by `sys_mlock` and `sys_munlock`, and `expand_stack` as its comment
requires: with the first area that ends above the address, which also starts
above it.
-/

namespace Sbckernel.Mm

open Lib

/-- The copy of `vma` that `move_vma` makes. -/
def movedArea (vma : VmArea) (addr newAddr newLen : Nat) : VmArea :=
  { vma with
    vmStart := newAddr
    vmEnd := wrap (newAddr + newLen)
    vmOffset := vma.vmOffset + (BitVec.ofNat 32 addr - BitVec.ofNat 32 vma.vmStart) }

/-- `move_vma`; `moved` says whether `move_page_tables` found the memory it
needs. -/
def moveVma (K : Kmalloc) (s : MmStruct) (vma : VmPtr) (addr oldLen newLen : Nat) (moved : Bool) :
    MmStruct × Except Errno Nat :=
  match kmalloc K s with
  | (none, s) => (s, .error .enomem)
  | (some newVma, s) =>
    let newAddr := getUnmappedArea s addr newLen
    if newAddr ≠ 0 ∧ moved then
      let area := movedArea (s.mem vma) addr newAddr newLen
      let s := (s.set newVma area).addCount area.vmInode 1
      let s := insertVmStruct s newVma
      let s := mergeSegments s (s.mem newVma).vmStart (s.mem newVma).vmEnd
      let s := (doMunmap K s addr oldLen).1
      ({ s with totalVm := s.totalVm + pages newLen }, .ok newAddr)
    else (kfree s newVma, .error .enomem)

def mremapMaymove : ULong := 1

/-- The place above an area up to which it may grow. -/
def maxAddr (s : MmStruct) (vma : VmPtr) : Nat :=
  match (s.mem vma).vmNext with
  | none => maxUserAddr
  | some next => (s.mem next).vmStart

/-- The part of `sys_mremap` for an area that has to grow. -/
def growVma (cur : Current) (K : Kmalloc) (s : MmStruct) (vma : VmPtr) (addr oldLen newLen : Nat)
    (flags : ULong) (moved : Bool) : MmStruct × Except Errno Nat :=
  let area := s.mem vma
  let more := wordSub newLen oldLen
  if oldLen > wordSub area.vmEnd addr then (s, .error .efault)
  else if area.locked ∧ wrap (wrap (s.lockedVm.toNat * pageSize) + more) > cur.rlimMemlock then
    (s, .error .eagain)
  else if wrap (wrap (s.totalVm.toNat * pageSize) + more) > cur.rlimAs then (s, .error .enomem)
  else if area.vmFlags &&& (vmShared ||| vmWrite) = vmWrite ∧
      ¬vmEnoughMemory cur (more / pageSize) then (s, .error .enomem)
  else if oldLen = wordSub area.vmEnd addr ∧
      (oldLen ≠ newLen ∨ flags &&& mremapMaymove = 0) ∧
      wordSub (maxAddr s vma) addr ≥ newLen then
    let s := s.modify vma ({ · with vmEnd := wrap (addr + newLen) })
    ({ s with
        totalVm := s.totalVm + pages more
        lockedVm := if area.locked then s.lockedVm + pages more else s.lockedVm }, .ok addr)
  else if flags &&& mremapMaymove ≠ 0 then moveVma K s vma addr oldLen newLen moved
  else (s, .error .enomem)

def sysMremap (cur : Current) (K : Kmalloc) (s : MmStruct) (addr oldLen newLen : Nat)
    (flags : ULong) (moved : Bool) : MmStruct × Except Errno Nat :=
  if addr % pageSize ≠ 0 then (s, .error .einval)
  else
    let oldLen := pageAlign oldLen
    let newLen := pageAlign newLen
    if oldLen ≥ newLen then
      ((doMunmap K s (wrap (addr + newLen)) (wordSub oldLen newLen)).1, .ok addr)
    else
      match findVma s addr with
      | none => (s, .error .efault)
      | some vma =>
        if (s.mem vma).vmStart > addr then (s, .error .efault)
        else growVma cur K s vma addr oldLen newLen flags moved

def expandStack (cur : Current) (s : MmStruct) (vma : VmPtr) (address : Nat) :
    MmStruct × Errno :=
  let area := s.mem vma
  let address := pageMask address
  let grow := wordSub area.vmStart address
  if wordSub area.vmEnd address > cur.rlimStack ∨
      wrap (wrap (s.totalVm.toNat * pageSize) + grow) > cur.rlimAs then (s, .enomem)
  else
    let s := s.set vma
      { area with vmStart := address, vmOffset := area.vmOffset - BitVec.ofNat 32 grow }
    ({ s with
        totalVm := s.totalVm + pages grow
        lockedVm := if area.locked then s.lockedVm + pages grow else s.lockedVm }, .ok)

/-! ## The calls on one address space -/

/-- One call. What it reads of `current`, of a file and of the state of the
memory manager may be different each time; allocations succeed. -/
inductive MmStep : MmStruct → MmStruct → Prop
  | doMmap {K : Kmalloc} (hK : K.Succeeds) (s : MmStruct) (cur : Current) (file : Option File)
      (addr len : Nat) (prot flags : ULong) (off : Nat) :
      MmStep s (doMmap cur K s file addr len prot flags off).1
  | doMunmap {K : Kmalloc} (hK : K.Succeeds) (s : MmStruct) (addr len : Nat) :
      MmStep s (doMunmap K s addr len).1
  | sysBrk {K : Kmalloc} (hK : K.Succeeds) (s : MmStruct) (cur : Current) (brk : Nat) :
      MmStep s (sysBrk cur K s brk).1
  | sysMprotect {K : Kmalloc} (hK : K.Succeeds) (s : MmStruct) (start len : Nat) (prot : ULong) :
      MmStep s (sysMprotect K s start len prot).1
  | doMlock {K : Kmalloc} (hK : K.Succeeds) (s : MmStruct) (cur : Current) (start len : Nat)
      (on : Bool) (aligned : start % pageSize = 0) :
      MmStep s (doMlock cur K s start len on).1
  | doMlockall {K : Kmalloc} (hK : K.Succeeds) (s : MmStruct) (cur : Current) (flags : ULong) :
      MmStep s (doMlockall cur K s flags).1
  | sysMremap {K : Kmalloc} (hK : K.Succeeds) (s : MmStruct) (cur : Current)
      (addr oldLen newLen : Nat) (flags : ULong) (moved : Bool) :
      MmStep s (sysMremap cur K s addr oldLen newLen flags moved).1
  | expandStack (s : MmStruct) (cur : Current) (vma : VmPtr) (address : Nat)
      (first : findVma s address = some vma) (below : address < (s.mem vma).vmStart) :
      MmStep s (expandStack cur s vma address).1

/-- No areas yet; the rest of the structure is arbitrary. -/
structure MmEmpty (s : MmStruct) : Prop where
  mmap : s.mmap = none
  mmapAvl : s.mmapAvl = .empty
  totalVm : s.totalVm = 0

def addressSpace : System MmStruct where
  init := MmEmpty
  step := MmStep

end Sbckernel.Mm
