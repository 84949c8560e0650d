import Sbckernel.Mm.Mremap

/-!
# Checking a range of user memory (`mm/memory.c`)

`verify_area` walks over the areas that adjoin each other from the one with the first byte
on. The walk is written three times: for reading, for writing, and page by page for
writing on a processor that does not honour write protection in the kernel. The last one
also calls `do_wp_page` for each page, which is left out here with the page tables.
-/

namespace Sbckernel.Mm

inductive VerifyType where
  | verifyRead
  | verifyWrite
  deriving DecidableEq, Repr

/-- The flag that an area has to have. -/
def VerifyType.flag : VerifyType → VmFlags
  | .verifyRead => vmRead
  | .verifyWrite => vmWrite

/-- The loop for `VERIFY_READ`. -/
def verifyRead (s : MmStruct) (start size : Nat) : Nat → VmPtr → Errno
  | 0, _ => .efault
  | n + 1, vma =>
    if (s.mem vma).vmFlags &&& vmRead = 0 then .efault
    else if wordSub (s.mem vma).vmEnd start ≥ size then .ok
    else
      match (s.mem vma).vmNext with
      | none => .efault
      | some next =>
        if (s.mem vma).vmEnd ≠ (s.mem next).vmStart then .efault
        else verifyRead s start size n next

/-- The loop for `VERIFY_WRITE`. The flags of the first area have been looked at. -/
def verifyWrite (s : MmStruct) (start size : Nat) : Nat → VmPtr → Errno
  | 0, _ => .efault
  | n + 1, vma =>
    if wordSub (s.mem vma).vmEnd start ≥ size then .ok
    else
      match (s.mem vma).vmNext with
      | none => .efault
      | some next =>
        if (s.mem vma).vmEnd ≠ (s.mem next).vmStart then .efault
        else if (s.mem next).vmFlags &&& vmWrite = 0 then .efault
        else verifyWrite s start size n next

/-- The loop over pages; the first argument is the number of pages behind the one at `start`. -/
def wpFaultPages (s : MmStruct) : Nat → Nat → VmPtr → Errno
  | 0, _, _ => .ok
  | size + 1, start, vma =>
    let start := wrap (start + pageSize)
    if start < (s.mem vma).vmEnd then wpFaultPages s size start vma
    else
      match (s.mem vma).vmNext with
      | none => .efault
      | some vma =>
        if (s.mem vma).vmStart ≠ start then .efault
        else if (s.mem vma).vmFlags &&& vmWrite = 0 then .efault
        else wpFaultPages s size start vma

/-- `check_wp_fault_by_hand`. -/
def checkWpFaultByHand (s : MmStruct) (vma : VmPtr) (start size : Nat) : Errno :=
  let size := wordSub size 1
  let size := wrap (size + start % pageSize)
  wpFaultPages s (size / pageSize) (pageMask start) vma

/-- `good_area`, with the area of the first byte. -/
def goodArea (wpWorksOk : Bool) (s : MmStruct) (type : VerifyType) (vma : VmPtr)
    (start size : Nat) : Errno :=
  match type with
  | .verifyRead => verifyRead s start size (s.live + 1) vma
  | .verifyWrite =>
    if (s.mem vma).vmFlags &&& vmWrite = 0 then .efault
    else if ¬wpWorksOk then checkWpFaultByHand s vma start size
    else verifyWrite s start size (s.live + 1) vma

def verifyArea (cur : Current) (wpWorksOk kernelDs : Bool) (s : MmStruct) (type : VerifyType)
    (start size : Nat) : MmStruct × Errno :=
  if size = 0 ∨ kernelDs then (s, .ok)
  else
    match findVma s start with
    | none => (s, .efault)
    | some vma =>
      if (s.mem vma).vmStart > start then
        if (s.mem vma).vmFlags &&& vmGrowsdown = 0 then (s, .efault)
        else
          match expandStack cur s vma start with
          | (s, .ok) => (s, goodArea wpWorksOk s type vma start size)
          | (s, _) => (s, .efault)
      else (s, goodArea wpWorksOk s type vma start size)

end Sbckernel.Mm
