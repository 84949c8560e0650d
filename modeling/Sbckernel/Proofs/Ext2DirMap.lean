import Sbckernel.Fs.Ext2.Dir
import Sbckernel.Lib.Chain
import Sbckernel.Lib.Records

/-!
# An ext2 directory is a map

The records of a well-formed block cut it without a gap. A call changes a few records that lie
next to each other, and `Tiling.splice` says when the block stays well-formed: the new records
begin and end where the old ones did. What is in a block is a partial function from offsets to
names and inode numbers. A new record, a split one and a merged one change it at one offset.
-/

namespace Sbckernel.Fs.Ext2.Dir

open Lib Function List Option

/-! ## The check of a record -/

/-- The checks that do not need the directory. -/
structure Sound (de : Entry) : Prop where
  min : ext2DirRecLen 1 ≤ de.recLen
  pad : de.recLen % 4 = 0
  name : ext2DirRecLen de.name.length ≤ de.recLen

section
variable {d : Inode} {de : Entry} {b : Block} {name : List UInt8} {off : Nat}

theorem checked (h : ext2CheckDirEntry (some d) de off = .ok true) :
    Sound de ∧ off + de.recLen ≤ d.blockSize ∧ de.inode ≤ d.inodesCount := by
  unfold ext2CheckDirEntry at h
  split at h
  · cases h
  next hgood =>
    simp only [Option.mem_def, Option.some.injEq, exists_eq_left', not_or, Nat.not_lt,
      not_not] at hgood
    obtain ⟨hmin, hpad, hname, hacross, hinode⟩ := hgood
    exact ⟨⟨hmin, hpad, hname⟩, hacross, hinode⟩

theorem le_ext2DirRecLen (n : Nat) : n + 8 ≤ ext2DirRecLen n := by
  unfold ext2DirRecLen
  omega

namespace Inode

theorem fits_iff {de : Entry} : fits name de = true ↔
    de.inode = 0 ∧ ext2DirRecLen name.length ≤ de.recLen ∨
      ext2DirRecLen de.name.length + ext2DirRecLen name.length ≤ de.recLen := by
  simp [fits]

/-- Where the name fits, it is written inside of the block. -/
theorem writeEntry_ok (hok : ext2CheckDirEntry (some d) (b off) off = .ok true)
    (hfits : fits name (b off) = true) : ∃ r, d.writeEntry b off name = .ok r := by
  obtain ⟨hsound, hacross, -⟩ := checked hok
  have hnew := le_ext2DirRecLen name.length
  rw [fits_iff] at hfits
  unfold writeEntry
  dsimp only
  split_ifs
  any_goals exact ⟨_, rfl⟩
  all_goals omega

/-- In a new block the name always fits. -/
theorem fits_newBlock (hsize : 1024 ≤ d.blockSize)
    (hname : name.length ≤ ext2NameLen) : fits name (d.newBlock 0) = true := by
  have hlen : ext2DirRecLen name.length ≤ d.blockSize := by
    unfold ext2DirRecLen ext2NameLen at *
    omega
  simp [fits, newBlock, hlen]

end Inode

end

/-! ## The records of a block -/

abbrev follows (b : Block) (off : Nat) : Option Nat := some (off + (b off).recLen)

/-- The record passes all checks, and it has a name if it is in use. -/
structure Good (count : Nat) (de : Entry) : Prop extends Sound de where
  inode : de.inode ≤ count
  named : de.inode ≠ 0 → de.name ≠ []

/-- The records at the offsets `l` cut the block. -/
structure Tiling (size count : Nat) (b : Block) (l : List Nat) : Prop where
  tiles : Chain (follows b) (some 0) l (some size)
  good : ∀ off ∈ l, Good count (b off)

/-- The name and the inode of a record that is in use. -/
def Entry.content (de : Entry) : Option (List UInt8 × Nat) :=
  if de.inode = 0 then none else some (de.name, de.inode)

def content (b : Block) (l : List Nat) (off : Nat) : Option (List UInt8 × Nat) :=
  if off ∈ l then (b off).content else none

variable {size count : Nat} {b b' : Block} {l l1 l2 : List Nat} {name : List UInt8}
  {v : Option (List UInt8 × Nat)}
variable {off ino k : Nat}

theorem content_eq_some : content b l off = some (name, ino) ↔
    off ∈ l ∧ ino ≠ 0 ∧ (b off).name = name ∧ (b off).inode = ino := by
  simp only [content, Entry.content, ite_none_right_eq_some, ite_none_left_eq_some,
    some.injEq, Prod.mk.injEq]
  grind

theorem tiles_le (h : Chain (follows b) (some off) l (some size))
    (hsound : ∀ off ∈ l, Sound (b off)) : off ≤ size ∧
    (∀ o ∈ l, off ≤ o ∧ o + (b o).recLen ≤ size) ∧
      l.Pairwise fun o o' => o + (b o).recLen ≤ o' := by
  induction l generalizing off with
  | nil =>
    cases h
    simp
  | cons o l ih =>
    cases h.1
    obtain ⟨hle, hin, hpw⟩ := ih h.2 fun o ho => hsound o (.tail _ ho)
    refine ⟨by omega, fun o' ho' => ?_, hpw.cons fun o' ho' => (hin o' ho').1⟩
    rcases mem_cons.mp ho' with rfl | ho'
    · omega
    · have := hin o' ho'
      omega

namespace Tiling

section
variable (h : Tiling size count b l)
include h

theorem sound (hoff : off ∈ l) : Sound (b off) :=
  (h.good off hoff).toSound

theorem room (hoff : off ∈ l) : off + (b off).recLen ≤ size :=
  ((tiles_le h.tiles fun _ => h.sound).2.1 off hoff).2

theorem room_name (hoff : off ∈ l) : off + 8 + (b off).name.length ≤ size := by
  have hname := Nat.le_trans (le_ext2DirRecLen _) (h.sound hoff).name
  have hroom := h.room hoff
  omega

omit h in
theorem apart (h : Tiling size count b (l1 ++ off :: l2)) :
    (∀ o ∈ l1, o < off) ∧ ∀ o ∈ l2, off + (b off).recLen ≤ o := by
  have hpw := (tiles_le h.tiles fun _ => h.sound).2.2
  refine ⟨fun o ho => ?_, fun o ho => ?_⟩
  · have hlen : 12 ≤ (b o).recLen := (h.sound (by simp [ho])).min
    have hle := (pairwise_append.mp hpw).2.2 o ho off (by simp)
    omega
  · exact (pairwise_cons.mp (pairwise_append.mp hpw).2.1).1 o ho

theorem check (hoff : off ∈ l) (dir : Option Inode)
    (hdir : ∀ d ∈ dir, d.blockSize = size ∧ d.inodesCount = count) :
    ext2CheckDirEntry dir (b off) off = .ok true := by
  have hs := h.sound hoff
  refine if_neg ?_
  rintro (hbad | hbad | hbad | ⟨d, hd, hbad⟩ | ⟨d, hd, hbad⟩)
  · exact absurd hs.min (Nat.not_le.mpr hbad)
  · exact hbad hs.pad
  · exact absurd hs.name (Nat.not_le.mpr hbad)
  · exact absurd (h.room hoff) (Nat.not_le.mpr ((hdir d hd).1 ▸ hbad))
  · exact absurd (h.good off hoff).inode (Nat.not_le.mpr ((hdir d hd).2 ▸ hbad))

omit h in
/-- Some records are replaced by others that take the same room, and the content changes at one
offset. -/
theorem splice {m : List Nat} {x : Nat}
    (h : Tiling size count b (l1 ++ m ++ l2)) (m' : List Nat)
    (hb : ∀ off ∈ l1 ++ l2, b' off = b off)
    (htiles : ∀ s z, Chain (follows b) s m z → Chain (follows b') s m' z)
    (hgood : ∀ off ∈ m', Good count (b' off)) (hx : x ∉ l1 ++ l2)
    (hcontent : content b' m' = update (content b m) x v) :
    ∃ l', Tiling size count b' l' ∧ content b' l' = update (content b (l1 ++ m ++ l2)) x v := by
  have hfollows : ∀ off ∈ l1 ++ l2, follows b' off = follows b off := fun off hoff => by
    rw [follows, hb off hoff]
  obtain ⟨z, hz, h2⟩ := chain_append.mp h.tiles
  obtain ⟨y, h1, hm⟩ := chain_append.mp hz
  refine ⟨l1 ++ m' ++ l2, ⟨chain_append.mpr ⟨z, chain_append.mpr ⟨y, ?_, htiles y z hm⟩, ?_⟩,
    fun off hoff => ?_⟩, funext fun off => ?_⟩
  · exact h1.congr fun off hoff => hfollows off (by simp [hoff])
  · exact h2.congr fun off hoff => hfollows off (by simp [hoff])
  · by_cases hout : off ∈ l1 ++ l2
    · rw [hb off hout]
      exact h.good off (by grind)
    · exact hgood off (by grind)
  · by_cases hout : off ∈ l1 ++ l2
    · rw [update_of_ne fun (heq : off = x) => hx (heq ▸ hout), content, content, hb off hout]
      grind
    · have heq : content b' (l1 ++ m' ++ l2) off = content b' m' off := by
        simp only [content]
        grind
      rw [heq, hcontent]
      simp only [update_apply, content]
      grind

/-- A record is written over another one of its length. -/
theorem overwrite (de : Entry) (hoff : off ∈ l)
    (hlen : de.recLen = (b off).recLen) (hde : Good count de) :
    ∃ l', Tiling size count (update b off de) l' ∧
      content (update b off de) l' = update (content b l) off de.content := by
  obtain ⟨l1, l2, rfl⟩ := append_of_mem hoff
  obtain ⟨hbelow, habove⟩ := h.apart
  have hpos : 12 ≤ de.recLen := hde.min
  have hout : off ∉ l1 ++ l2 := by grind
  rw [append_cons] at h ⊢
  refine h.splice [off] (fun o ho => update_of_ne (ne_of_mem_of_not_mem ho hout) ..)
    (fun s z hz => ?_) (fun o ho => ?_) hout (funext fun o => ?_)
  · simpa [Lib.Chain, follows, hlen] using hz
  · cases mem_singleton.mp ho
    simpa using hde
  · rcases eq_or_ne o off with rfl | hne <;> simp [content, *]

/-- A record is cut in two. -/
theorem split {off' len : Nat} (b' : Block) (hoff : off ∈ l)
    (hb : ∀ o, o ≠ off → o ≠ off' → b' o = b o) (hfirst : b' off = { b off with recLen := len })
    (hoff' : off + len = off') (hlen : len + (b' off').recLen = (b off).recLen)
    (hgood : Good count (b' off)) (hgood' : Good count (b' off')) :
    content b l off' = none ∧ ∃ l', Tiling size count b' l' ∧
      content b' l' = update (content b l) off' (b' off').content := by
  obtain ⟨l1, l2, rfl⟩ := append_of_mem hoff
  obtain ⟨hbelow, habove⟩ := h.apart
  have hpos' : 12 ≤ (b' off').recLen := hgood'.min
  have hout : ∀ o ∈ l1 ++ l2, o ≠ off ∧ o ≠ off' := by grind
  rw [append_cons] at h ⊢
  refine ⟨by simp only [content]; grind, h.splice [off, off']
    (fun o ho => hb o (hout o ho).1 (hout o ho).2) (fun s z hz => ?_) (fun o ho => ?_)
    (fun ho => (hout _ ho).2 rfl) (funext fun o => ?_)⟩
  · obtain ⟨hs, hz⟩ := hz
    refine ⟨hs, by simp [hfirst, hoff'], Eq.trans (congrArg some ?_) hz⟩
    omega
  · simp only [mem_cons, not_mem_nil, or_false] at ho
    rcases ho with rfl | rfl <;> assumption
  · rcases eq_or_ne o off' with rfl | ho
    · simp [content]
    · rcases eq_or_ne o off with rfl | ho' <;> simp [content, *, Entry.content]

end

/-- A record takes the room of the next one. -/
theorem merge {p : Nat} (h : Tiling size count b (l1 ++ [p, off] ++ l2)) (b' : Block)
    (hb : ∀ o, o ≠ p → o ≠ off → b' o = b o)
    (hp : b' p = { b p with recLen := (b p).recLen + (b off).recLen }) :
    ∃ l', Tiling size count b' l' ∧
      content b' l' = update (content b (l1 ++ [p, off] ++ l2)) off none := by
  have hgood := h.good p (by simp)
  have hgood' := h.good off (by simp)
  have hpos : 12 ≤ (b p).recLen := hgood.min
  have hpos' : 12 ≤ (b off).recLen := hgood'.min
  have hp' : Tiling size count b (l1 ++ p :: (off :: l2)) := by simpa using h
  have hoff : Tiling size count b ((l1 ++ [p]) ++ off :: l2) := by simpa using h
  have hlt := hp'.apart.2 off (by simp)
  have hout : ∀ o ∈ l1 ++ l2, o ≠ p ∧ o ≠ off := fun o ho => by
    rcases mem_append.mp ho with ho | ho
    · have := hp'.apart.1 o ho
      omega
    · have := hoff.apart.2 o ho
      omega
  refine h.splice [p] (fun o ho => hb o (hout o ho).1 (hout o ho).2) (fun s z hz => ?_)
    (fun o ho => ?_) (fun ho => (hout _ ho).2 rfl) (funext fun o => ?_)
  · obtain ⟨hs, hz, hz'⟩ := hz
    have heq := some.inj hz
    refine ⟨hs, Eq.trans (congrArg some ?_) hz'⟩
    rw [hp]
    dsimp only
    omega
  · cases mem_singleton.mp ho
    have hpad := hgood.pad
    have hpad' := hgood'.pad
    rw [hp]
    exact ⟨⟨Nat.le_add_right_of_le hpos, by dsimp only; omega, Nat.le_add_right_of_le hgood.name⟩,
      hgood.inode, hgood.named⟩
  · rcases eq_or_ne o off with rfl | ho
    · have hne : o ≠ p := by omega
      simp [content, hne]
    · rcases eq_or_ne o p with rfl | hp <;> simp [content, *, Entry.content]

end Tiling

/-! ## The loop over a block -/

section Scan

variable {α : Type} {dir : Option Inode} {P : Nat → Prop} [DecidablePred P]
  {found : Option Nat → Nat → α} (visit : Option Nat → Nat → Entry → Except Fault (Option α))

/-- The loop stops at the first record with `P`. -/
theorem scan_tiles (fuel : Nat) (prev : Option Nat) (h : Chain (follows b) (some off) l (some size))
    (hsound : ∀ o ∈ l, Sound (b o)) (hcheck : ∀ o ∈ l, ext2CheckDirEntry dir (b o) o = .ok true)
    (hvisit : ∀ prev, ∀ o ∈ l, visit prev o (b o) = .ok (if P o then some (found prev o) else none))
    (hfuel : size - off < fuel) :
    scan size dir b visit fuel prev off = .ok .past ∧ (∀ o ∈ l, ¬P o) ∨
      ∃ l1 o l2, l = l1 ++ o :: l2 ∧ P o ∧
        scan size dir b visit fuel prev off = .ok (.found (found (l1.getLast?.or prev) o)) := by
  induction l generalizing fuel off prev with
  | nil =>
    cases h
    obtain ⟨fuel, rfl⟩ := Nat.exists_eq_succ_of_ne_zero (by omega : fuel ≠ 0)
    exact .inl ⟨by simp [scan], nofun⟩
  | cons o l ih =>
    cases h.1
    have hroom := ((tiles_le h hsound).2.1 o (by simp)).2
    have hlen : 12 ≤ (b o).recLen := (hsound o (by simp)).min
    obtain ⟨fuel, rfl⟩ := Nat.exists_eq_succ_of_ne_zero (by omega : fuel ≠ 0)
    rw [scan, if_pos (by omega), readHeader, if_pos (by omega)]
    simp only [bind, Except.bind, hcheck o (by simp), if_true, hvisit prev o (by simp)]
    by_cases hP : P o
    · rw [if_pos hP]
      exact .inr ⟨[], o, l, rfl, hP, rfl⟩
    · rw [if_neg hP]
      have hrest := ih fuel (some o) h.2 (fun o ho => hsound o (.tail _ ho))
        (fun o ho => hcheck o (.tail _ ho)) (fun prev o ho => hvisit prev o (.tail _ ho)) (by omega)
      rcases hrest with ⟨hpast, hnone⟩ | ⟨l1, o', l2, rfl, hP', hfound⟩
      · exact .inl ⟨hpast, forall_mem_cons.mpr ⟨hP, hnone⟩⟩
      · refine .inr ⟨o :: l1, o', l2, rfl, hP', hfound.trans ?_⟩
        cases l1 <;> simp [getLast?_cons]

end Scan

theorem Tiling.match_eq (h : Tiling size count b l) (hoff : off ∈ l)
    (hname : name ≠ []) (hlen : name.length ≤ ext2NameLen) :
    ext2Match size name off (b off) = .ok (content b l off = some (name, (b off).inode)) := by
  have hroom := h.room_name hoff
  simp only [ext2Match, Nat.not_lt.mpr hlen, or_false, hname, false_and, if_false, content_eq_some,
    hoff, true_and, and_true]
  split_ifs with hdead hother hin
  · simp [hdead]
  · have hne : (b off).name ≠ name := fun heq => hother (heq ▸ rfl)
    simp [hne]
  · simp [hdead, Bool.beq_eq_decide_eq, eq_comm]
  · omega

namespace Inode

variable {d : Inode} {T : Nat → List Nat}

theorem findBlock (h : Tiling d.blockSize d.inodesCount b l) (hname : name ≠ [])
    (hlen : name.length ≤ ext2NameLen) :
    d.scanBlock (some d) b (fun _ => d.findVisit name) = .ok .past ∧
        (∀ off ino, content b l off ≠ some (name, ino)) ∨
      ∃ off ino, d.scanBlock (some d) b (fun _ => d.findVisit name) = .ok (.found off) ∧
        content b l off = some (name, ino) := by
  have hvisit : ∀ _ : Option Nat, ∀ off ∈ l, d.findVisit name off (b off) =
      .ok (if content b l off = some (name, (b off).inode) then some off else none) := by
    intro _ off hoff
    simp only [findVisit, h.match_eq hoff hname hlen, bind, Except.bind, decide_eq_true_eq]
    split <;> rfl
  rcases scan_tiles (fun _ => d.findVisit name) (d.blockSize + 1) none h.tiles (fun _ => h.sound)
    (fun o ho => h.check ho (some d) (by simp)) hvisit (by omega) with
    ⟨hpast, hnone⟩ | ⟨l1, o, l2, rfl, hin, hfound⟩
  · refine .inl ⟨hpast, fun off ino hin => ?_⟩
    obtain ⟨hoff, -, -, rfl⟩ := content_eq_some.mp hin
    exact hnone off hoff hin
  · exact .inr ⟨o, _, hfound, hin⟩

/-! ## A name is written -/

/-- The name has a record in `b'`, and only the inode is still to be set. -/
def Written (d : Inode) (b : Block) (l : List Nat) (name : List UInt8) (b' : Block) (off : Nat) :
    Prop :=
  content b l off = none ∧ ∀ ino, ino ≠ 0 → ino ≤ d.inodesCount →
    ∃ l', Tiling d.blockSize d.inodesCount (update b' off { b' off with inode := ino }) l' ∧
      content (update b' off { b' off with inode := ino }) l' =
        update (content b l) off (some (name, ino))

section
variable (h : Tiling d.blockSize d.inodesCount b l)
include h

theorem writeEntry_spec (hoff : off ∈ l) (hfits : fits name (b off) = true) (hname : name ≠ []) :
    ∃ b' off', d.writeEntry b off name = .ok (b', off') ∧ d.Written b l name b' off' := by
  obtain ⟨w, hw⟩ := writeEntry_ok (h.check hoff (some d) (by simp)) hfits
  have hs := h.sound hoff
  have hpad := hs.pad
  rw [fits_iff] at hfits
  have hmin {n : List UInt8} (hn : n ≠ []) : 12 ≤ ext2DirRecLen n.length := by
    have := length_pos_of_ne_nil hn
    unfold ext2DirRecLen
    omega
  have hnew := hmin hname
  have hpad' : ext2DirRecLen (b off).name.length % 4 = 0 := Nat.mul_mod_left ..
  refine ⟨w.1, w.2, hw, ?_⟩
  unfold writeEntry at hw
  dsimp only at hw
  split_ifs at hw with hdead
  · cases hw
    refine ⟨by simp [content, Entry.content, hdead], fun ino hino hcount => ?_⟩
    simp only [update_self, update_idem]
    obtain ⟨l', hl', hcontent⟩ := h.overwrite ⟨ino, (b off).recLen, name, (b off).after⟩ hoff rfl
      ⟨⟨hs.min, hs.pad, by dsimp only; omega⟩, hcount, fun _ => hname⟩
    exact ⟨l', hl', by simpa [Entry.content, hino] using hcontent⟩
  · cases hw
    have hgood := h.good off hoff
    have hold := hmin (hgood.named hdead)
    generalize hlen : ext2DirRecLen (b off).name.length = len at hfits hpad' hold ⊢
    have hsplit (ino : Nat) (hcount : ino ≤ d.inodesCount) :=
      h.split (update (update b off { b off with recLen := len }) (off + len)
          ⟨ino, (b off).recLen - len, name, (b (off + len)).after⟩) hoff
        (fun o ho ho' => by rw [update_of_ne ho', update_of_ne ho])
        (by rw [update_of_ne (by omega), update_self]) rfl (by rw [update_self]; dsimp only; omega)
        (by
          rw [update_of_ne (by omega), update_self]
          exact ⟨⟨hold, hpad', hlen.le⟩, hgood.inode, hgood.named⟩)
        (by
          rw [update_self]
          exact ⟨⟨show 12 ≤ (b off).recLen - len by omega,
            show ((b off).recLen - len) % 4 = 0 by omega,
            show ext2DirRecLen name.length ≤ (b off).recLen - len by omega⟩,
            hcount, fun _ => hname⟩)
    refine ⟨(hsplit 0 (Nat.zero_le _)).1, fun ino hino hcount => ?_⟩
    obtain ⟨l', hl', hcontent⟩ := (hsplit ino hcount).2
    simp only [update_self, update_idem]
    exact ⟨l', hl', by simpa [Entry.content, hino] using hcontent⟩

theorem addTo_spec (hname : name ≠ []) (hlen : name.length ≤ ext2NameLen)
    (hnew : ∀ off ino, content b l off ≠ some (name, ino)) (k : Nat) (next : Except Fault Added) :
    d.addTo k b name next = next ∧ (∀ off ∈ l, fits name (b off) = false) ∨
      ∃ b' off, d.addTo k b name next = .ok (.ok (d.store k b', k, off)) ∧
        d.Written b l name b' off := by
  have hvisit : ∀ _ : Option Nat, ∀ off ∈ l, d.addVisit name off (b off) =
      .ok (if fits name (b off) then some (.ok off) else none) := by
    intro _ off hoff
    simp only [addVisit, h.match_eq hoff hname hlen, hnew, decide_false, bind, Except.bind,
      Bool.false_eq_true, if_false]
    split <;> rfl
  rw [addTo, scanBlock]
  rcases scan_tiles (fun _ => d.addVisit name) (d.blockSize + 1) none h.tiles (fun _ => h.sound)
    (fun o ho => h.check ho (some d) (by simp)) hvisit (by omega) with
    ⟨hpast, hnone⟩ | ⟨l1, o, l2, rfl, hin, hfound⟩
  · rw [hpast]
    exact .inl ⟨rfl, fun off hoff => Bool.not_eq_true _ ▸ hnone off hoff⟩
  · obtain ⟨b', off, hw, hwritten⟩ := writeEntry_spec h (by simp) hin hname
    rw [hfound]
    simp only [bind, Except.bind, hw]
    exact .inr ⟨b', off, rfl, hwritten⟩

theorem deleteEntry_spec (hsize : d.blockSize < 2 ^ 16) (hoff : off ∈ l) :
    ∃ b' l', d.ext2DeleteEntry b off = .ok (.ok b') ∧ Tiling d.blockSize d.inodesCount b' l' ∧
      content b' l' = update (content b l) off none := by
  unfold ext2DeleteEntry scanBlock
  rcases scan_tiles (fun prev o _ => .ok (if o = off then some prev else none))
    (d.blockSize + 1) none
    h.tiles (fun _ => h.sound) (fun o ho => h.check ho none nofun) (fun _ _ _ => rfl)
    (by omega) with ⟨-, hnone⟩ | ⟨l1, o, l2, rfl, rfl, hfound⟩
  · exact absurd rfl (hnone off hoff)
  · rw [hfound, or_none]
    rcases eq_nil_or_concat' l1 with rfl | ⟨l1, p, rfl⟩
    · have hgood := h.good o hoff
      obtain ⟨l', hl', hcontent⟩ := h.overwrite { b o with inode := 0 } hoff rfl
        ⟨{ hgood with }, Nat.zero_le _, nofun⟩
      exact ⟨_, l', rfl, hl', hcontent⟩
    · rw [show (l1 ++ [p]) ++ o :: l2 = l1 ++ [p, o] ++ l2 by simp] at h ⊢
      have hlt := (show Tiling _ _ b (l1 ++ p :: (o :: l2)) by simpa using h).apart.2 o (by simp)
      have hpos : 12 ≤ (b p).recLen := (h.sound (by simp)).min
      have hroom := h.room (show o ∈ l1 ++ [p, o] ++ l2 by simp)
      have hne : p ≠ o := by omega
      obtain ⟨l', hl', hcontent⟩ := h.merge (mergeEntry b (some p) o)
        (fun x hp ho => (update_of_ne ho ..).trans (update_of_ne hp ..))
        (by rw [mergeEntry, update_of_ne hne, update_self, Nat.mod_eq_of_lt (by omega)])
      exact ⟨_, l', by rw [getLast?_concat]; rfl, hl', hcontent⟩

end

/-! ## The directory -/

structure Formed (d : Inode) (T : Nat → List Nat) : Prop where
  large : 1024 ≤ d.blockSize
  small : d.blockSize < 2 ^ 16
  aligned : d.blockSize % 4 = 0
  size : d.iSize = d.blocks * d.blockSize
  nonempty : 0 < d.blocks
  block : ∀ k < d.blocks, d.block k = some (d.bh k)
  tiling : ∀ k < d.blocks, Tiling d.blockSize d.inodesCount (d.bh k) (T k)

/-- What is in the directory, at a block and an offset. -/
def record (d : Inode) (T : Nat → List Nat) (p : Nat × Nat) : Option (List UInt8 × Nat) :=
  if p.1 < d.blocks then content (d.bh p.1) (T p.1) p.2 else none

theorem bh_store {k' : Nat} : (d.store k b).bh k' = update d.bh k b k' := by
  rcases eq_or_ne k' k with rfl | hk <;> simp [bh, store, *]

/-- The directory with another number of blocks. -/
def sized (d : Inode) (n : Nat) : Inode := { d with iSize := n * d.blockSize }

theorem blocks_sized (n : Nat) (hsize : 0 < d.blockSize) : (d.sized n).blocks = n := by
  refine Nat.div_eq_of_lt_le ?_ ?_
  · show n * d.blockSize ≤ n * d.blockSize + d.blockSize - 1
    omega
  · show n * d.blockSize + d.blockSize - 1 < (n + 1) * d.blockSize
    rw [Nat.succ_mul]
    omega

/-- A block is written, or a new one is put behind the last. -/
theorem Formed.put (h : Formed d T) (n k : Nat) (hn : ∀ k', k' < n ↔ k' = k ∨ k' < d.blocks)
    (hb : Tiling d.blockSize d.inodesCount b l) :
    Formed ((d.sized n).store k b) (update T k l) ∧
      ∀ p, record ((d.sized n).store k b) (update T k l) p =
        if p.1 = k then content b l p.2 else record d T p := by
  have hblocks : ((d.sized n).store k b).blocks = n :=
    blocks_sized n (Nat.lt_of_lt_of_le (by decide) h.large)
  have hk := (hn k).mpr (.inl rfl)
  refine ⟨⟨h.large, h.small, h.aligned, by rw [hblocks]; rfl, by omega, fun k' hk' => ?_,
    fun k' hk' => ?_⟩, fun p => ?_⟩
  · show update d.block k (some b) k' = some ((update d.block k (some b) k').getD _)
    rcases eq_or_ne k' k with rfl | hne
    · simp
    · rw [update_of_ne hne]
      exact h.block k' (((hn k').mp (hblocks ▸ hk')).resolve_left hne)
  · show Tiling d.blockSize d.inodesCount _ _
    rw [bh_store]
    rcases eq_or_ne k' k with rfl | hne
    · simpa using hb
    · rw [update_of_ne hne, update_of_ne hne]
      exact h.tiling k' (((hn k').mp (hblocks ▸ hk')).resolve_left hne)
  · rw [record, hblocks, bh_store]
    split_ifs with hp heq heq
    · rw [heq, update_self, update_self]
    · rw [update_of_ne heq, update_of_ne heq, record, if_pos (((hn _).mp hp).resolve_left heq)]
      rfl
    · exact absurd (heq ▸ hk) hp
    · rw [record, if_neg fun hlt => hp ((hn _).mpr (.inr hlt))]

theorem Formed.store (h : Formed d T)
    (hk : k < d.blocks) (hb : Tiling d.blockSize d.inodesCount b l)
    (hcontent : content b l = update (content (d.bh k) (T k)) off v) :
    Formed (d.store k b) (update T k l) ∧
      record (d.store k b) (update T k l) = update (record d T) (k, off) v := by
  obtain ⟨hformed, hrecord⟩ := h.put d.blocks k (fun k' => by omega) hb
  rw [sized, ← h.size] at hformed hrecord
  refine ⟨hformed, funext fun ⟨k', off'⟩ => (hrecord _).trans ?_⟩
  rcases eq_or_ne k' k with rfl | hne
  · rcases eq_or_ne off' off with rfl | hoff <;> simp [record, *]
  · simp [hne]

/-- Without holes no buffer is missing. -/
theorem bhUse_eq (h : Formed d T) (hk : k < d.blocks) : d.bhUse k = d.block k := by
  refine if_pos (all_eq_true.mpr fun i hi => ?_)
  have hlt : i < k / nameiRaSize := mem_range.mp hi
  rw [h.block _ ?_]
  · rfl
  · have := Nat.div_add_mod k nameiRaSize
    have := Nat.mul_le_mul_left nameiRaSize hlt.le
    omega

theorem findFrom_spec (h : Formed d T) (hname : name ≠ []) (hlen : name.length ≤ ext2NameLen) :
    ∀ n k, k + n = d.blocks →
      d.findFrom name n k = .ok none ∧ (∀ p ino, k ≤ p.1 → record d T p ≠ some (name, ino)) ∨
        ∃ p ino, d.findFrom name n k = .ok (some p) ∧ p.1 < d.blocks ∧
          record d T p = some (name, ino)
  | 0, k, hk => by
    refine .inl ⟨rfl, fun p ino hp => ?_⟩
    rw [record, if_neg (by omega)]
    nofun
  | n + 1, k, hk => by
    have hlt : k < d.blocks := by omega
    rw [findFrom, bhUse_eq h hlt, h.block k hlt]
    simp only [bind, Except.bind]
    rcases findBlock (h.tiling k hlt) hname hlen with ⟨hpast, hnone⟩ | ⟨off, ino, hfound, hin⟩
    · rw [hpast]
      refine (findFrom_spec h hname hlen n (k + 1) (by omega)).imp (fun hrest => ?_) id
      refine ⟨hrest.1, fun p ino hp => ?_⟩
      rcases Nat.eq_or_lt_of_le hp with rfl | hp
      · rw [record, if_pos hlt]
        exact hnone p.2 ino
      · exact hrest.2 p ino hp
    · rw [hfound]
      exact .inr ⟨(k, off), ino, rfl, hlt, by rwa [record, if_pos hlt]⟩

theorem findEntry_spec {m : List UInt8 → Option Nat} (h : Formed d T) (hm : Holds (record d T) m)
    (hname : name ≠ []) (hlen : name.length ≤ ext2NameLen) :
    d.ext2FindEntry name = .ok none ∧ m name = none ∨
      ∃ k off, d.ext2FindEntry name = .ok (some (k, off)) ∧ k < d.blocks ∧ off ∈ T k ∧
        m name = some (d.bh k off).inode ∧
        record d T (k, off) = some (name, (d.bh k off).inode) := by
  rw [ext2FindEntry, if_neg (Nat.not_lt.mpr hlen)]
  rcases findFrom_spec h hname hlen d.blocks 0 (by omega) with
    ⟨hfind, hnone⟩ | ⟨⟨k, off⟩, ino, hfind, hk, hin⟩
  · exact .inl ⟨hfind, hm.absent_iff.mpr fun p ino => hnone p ino (Nat.zero_le _)⟩
  · have hin' := hin
    rw [record, if_pos hk] at hin'
    obtain ⟨hoff, -, -, rfl⟩ := content_eq_some.mp hin'
    exact .inr ⟨k, off, hfind, hk, hoff, (hm.graph ..).mpr ⟨_, hin⟩, hin⟩

theorem newBlock_tiling (h : Formed d T) :
    Tiling d.blockSize d.inodesCount d.newBlock [0] where
  tiles := by simp [Lib.Chain, newBlock]
  good off hoff := by
    cases mem_singleton.mp hoff
    rw [newBlock, update_self]
    have hmin : 12 ≤ d.blockSize := Nat.le_trans (by decide) h.large
    exact ⟨⟨hmin, h.aligned, Nat.le_trans (show ext2DirRecLen 0 ≤ 12 by decide) hmin⟩,
      Nat.zero_le _, absurd rfl⟩

theorem content_newBlock (off : Nat) : content d.newBlock [0] off = none := by
  rcases eq_or_ne off 0 with rfl | hoff <;> simp [content, Entry.content, newBlock, *]

theorem Formed.grow (h : Formed d T) :
    Formed ((d.sized (d.blocks + 1)).store d.blocks d.newBlock) (update T d.blocks [0]) ∧
      record ((d.sized (d.blocks + 1)).store d.blocks d.newBlock) (update T d.blocks [0]) =
        record d T := by
  obtain ⟨hformed, hrecord⟩ := h.put (d.blocks + 1) d.blocks (fun k' => by omega)
    (newBlock_tiling h)
  refine ⟨hformed, funext fun p => (hrecord p).trans ?_⟩
  split_ifs with hp
  · rw [content_newBlock, record, if_neg (by omega)]
  · rfl

/-- The call has found a place for the name. -/
def Adds (d : Inode) (T : Nat → List Nat) (name : List UInt8) (r : Except Fault Added) : Prop :=
  ∃ d' k off, r = .ok (.ok (d', k, off)) ∧ d'.inodesCount = d.inodesCount ∧
    record d T (k, off) = none ∧ ∀ ino, ino ≠ 0 → ino ≤ d.inodesCount →
      ∃ T', Formed (d'.store k (update (d'.bh k) off { d'.bh k off with inode := ino })) T' ∧
        record (d'.store k (update (d'.bh k) off { d'.bh k off with inode := ino })) T' =
          update (record d T) (k, off) (some (name, ino))

theorem store_store (k : Nat) (b b' : Block) : (d.store k b).store k b' = d.store k b' := by
  simp [store]

theorem Formed.adds {d' : Inode} {T' : Nat → List Nat} (h : Formed d' T')
    (hrecord : record d' T' = record d T) (hcount : d'.inodesCount = d.inodesCount)
    (hk : k < d'.blocks) (hw : d'.Written (d'.bh k) (T' k) name b' off) :
    d.Adds T name (.ok (.ok (d'.store k b', k, off))) := by
  refine ⟨_, k, off, rfl, hcount, ?_, fun ino hino hle => ?_⟩
  · rw [← hrecord, record, if_pos hk]
    exact hw.1
  · obtain ⟨l', hl', hcontent⟩ := hw.2 ino hino (hcount ▸ hle)
    rw [bh_store, update_self, store_store, ← hrecord]
    exact ⟨_, h.store hk hl' hcontent⟩

theorem addFrom_spec (h : Formed d T) (hname : name ≠ []) (hlen : name.length ≤ ext2NameLen)
    (hnew : ∀ p ino, record d T p ≠ some (name, ino)) (alloc : Bool) : ∀ n k, k + n = d.blocks →
      alloc = false ∧ d.addFrom name alloc n k = .ok (.error .enospc) ∨
        d.Adds T name (d.addFrom name alloc n k)
  | 0, k, hk => by
    cases hk
    cases alloc with
    | false => exact .inl ⟨rfl, rfl⟩
    | true =>
      right
      obtain ⟨hgrown, hrecord⟩ := h.grow
      have hnewBlock : Tiling d.blockSize d.inodesCount d.newBlock [0] := newBlock_tiling h
      show d.Adds T name ((d.sized (d.blocks + 1)).addTo d.blocks d.newBlock name (.error .forever))
      rcases @addTo_spec _ _ _ (d.sized (d.blocks + 1)) hnewBlock hname hlen
        (fun off ino => by simp [content_newBlock]) d.blocks
        (.error .forever) with ⟨-, hfull⟩ | ⟨b', off, hadd, hw⟩
      · exact absurd (hfull 0 (by simp)) (by simp [fits_newBlock h.large hlen])
      · rw [hadd, ← store_store _ d.newBlock]
        refine hgrown.adds hrecord rfl ?_ (by rwa [bh_store, update_self, update_self])
        show d.blocks < (d.sized (d.blocks + 1)).blocks
        rw [blocks_sized _ (Nat.lt_of_lt_of_le (by decide) h.large)]
        omega
  | n + 1, k, hk => by
    have hlt : k < d.blocks := by omega
    have hrecord (off : Nat) : record d T (k, off) = content (d.bh k) (T k) off := if_pos hlt
    rw [addFrom, h.block k hlt]
    rcases addTo_spec (h.tiling k hlt) hname hlen (fun off ino => hrecord off ▸ hnew (k, off) ino) k
      (d.addFrom name alloc n (k + 1)) with ⟨hnext, -⟩ | ⟨b', off, hadd, hw⟩
    · dsimp only
      rw [hnext]
      exact addFrom_spec h hname hlen hnew alloc n (k + 1) (by omega)
    · dsimp only
      rw [hadd]
      exact .inr (h.adds rfl rfl hlt hw)

theorem addEntry_spec (h : Formed d T) (hname : name ≠ []) (hlen : name.length ≤ ext2NameLen)
    (hnew : ∀ p ino, record d T p ≠ some (name, ino)) (alloc : Bool) :
    alloc = false ∧ d.ext2AddEntry name alloc = .ok (.error .enospc) ∨
      d.Adds T name (d.ext2AddEntry name alloc) := by
  have hsize : d.iSize ≠ 0 := by
    have hpos := Nat.mul_pos h.nonempty (Nat.lt_of_lt_of_le (by decide) h.large)
    rw [h.size]
    omega
  rw [ext2AddEntry, if_neg (Nat.not_lt.mpr hlen), if_neg hname, if_neg hsize]
  exact addFrom_spec h hname hlen hnew alloc d.blocks 0 (by omega)

end Inode

/-! ## The map -/

abbrev Names := List UInt8 → Option Nat

/-- What a call does to the map, and what it answers. -/
inductive Answers (m : Names) : Inode.Call → Inode.Answer → Names → Prop
  | found {name : List UInt8} {ino : Nat} (h : m name = some ino) :
    Answers m (.find name) (.found ino) m
  | notFound {name : List UInt8} (h : m name = none) : Answers m (.find name) (.failed .enoent) m
  | added {name : List UInt8} {alloc : Bool} (ino : Nat) (h : m name = none) :
    Answers m (.add name ino alloc) .done (update m name (some ino))
  | present {name : List UInt8} {ino : Nat} {alloc : Bool} (h : m name ≠ none) :
    Answers m (.add name ino alloc) (.failed .eexist) m
  | full {name : List UInt8} {ino : Nat} (h : m name = none) :
    Answers m (.add name ino false) (.failed .enospc) m
  | deleted {name : List UInt8} (h : m name ≠ none) :
    Answers m (.delete name) .done (update m name none)
  | absent {name : List UInt8} (h : m name = none) : Answers m (.delete name) (.failed .enoent) m

inductive AnswersAll : Names → List Inode.Call → List Inode.Answer → Names → Prop
  | nil (m : Names) : AnswersAll m [] [] m
  | cons {m m' m'' : Names} {c : Inode.Call} {a : Inode.Answer} {cs : List Inode.Call}
    {as : List Inode.Answer} (h : Answers m c a m') (hrest : AnswersAll m' cs as m'') :
    AnswersAll m (c :: cs) (a :: as) m''

namespace Inode

/-- Names are of length 1 to 255, and the inodes are those of the file system. -/
def Call.Valid (count : Nat) (c : Call) : Prop :=
  (c.name ≠ [] ∧ c.name.length ≤ ext2NameLen) ∧
    ∀ name ino alloc, c = .add name ino alloc → ino ≠ 0 ∧ ino ≤ count

/-- The directory is well-formed and has the names of the map. -/
def Represents (count : Nat) (d : Inode) (m : Names) : Prop :=
  d.inodesCount = count ∧ ∃ T, Formed d T ∧ Holds (record d T) m

variable {m : Names}

theorem add_spec {alloc : Bool} (h : Formed d T) (hm : Holds (record d T) m)
    (hname : name ≠ []) (hlen : name.length ≤ ext2NameLen) (hino : ino ≠ 0)
    (hcount : ino ≤ d.inodesCount) (hnone : m name = none) :
    ∃ d' a m', d.addName name ino alloc = .ok (d', a) ∧ Answers m (.add name ino alloc) a m' ∧
      Represents d.inodesCount d' m' := by
  rcases addEntry_spec h hname hlen (hm.absent_iff.mp hnone) alloc with
    ⟨rfl, hadd⟩ | ⟨d', k, off, hadd, hcount', hfree, hset⟩
  · refine ⟨d, .failed .enospc, m, ?_, .full hnone, rfl, T, h, hm⟩
    simp [addName, hadd, bind, Except.bind]
  · obtain ⟨T', hformed, hrecord⟩ := hset ino hino hcount
    refine ⟨d'.store k _, .done, _, ?_, .added ino hnone, hcount', T', hformed, ?_⟩
    · simp only [addName, hadd, bind, Except.bind]
    · rw [hrecord]
      exact hm.insert ino hfree hnone

theorem delete_spec (h : Formed d T) (hm : Holds (record d T) m)
    (hk : k < d.blocks) (hoff : off ∈ T k) (hin : record d T (k, off) = some (name, ino)) :
    ∃ d', d.deleteAt k off = .ok (d', .done) ∧
      Represents d.inodesCount d' (update m name none) := by
  obtain ⟨b', l', hdelete, hl', hcontent⟩ := deleteEntry_spec (h.tiling k hk) h.small hoff
  obtain ⟨hformed, hrecord⟩ := h.store hk hl' hcontent
  refine ⟨d.store k b', by simp [deleteAt, hdelete, bind, Except.bind], rfl, _, hformed, ?_⟩
  rw [hrecord]
  exact hm.erase hin

theorem call_spec {c : Call} (h : Represents count d m) (hc : c.Valid count) :
    ∃ d' a m', d.call c = .ok (d', a) ∧ Answers m c a m' ∧ Represents count d' m' := by
  obtain ⟨rfl, T, hformed, hm⟩ := h
  have hsame : Represents d.inodesCount d m := ⟨rfl, T, hformed, hm⟩
  rcases findEntry_spec hformed hm hc.1.1 hc.1.2 with
    ⟨hfind, hnone⟩ | ⟨k, off, hfind, hk, hoff, hsome, hin⟩
  · cases c with
    | find name =>
      refine ⟨d, .failed .enoent, m, ?_, .notFound hnone, hsame⟩
      simp [call, show d.ext2FindEntry name = _ from hfind, bind, Except.bind]
    | add name ino alloc =>
      obtain ⟨hino, hcount⟩ := hc.2 name ino alloc rfl
      simp only [call, show d.ext2FindEntry name = _ from hfind, bind, Except.bind]
      exact add_spec hformed hm hc.1.1 hc.1.2 hino hcount hnone
    | delete name =>
      refine ⟨d, .failed .enoent, m, ?_, .absent hnone, hsame⟩
      simp [call, show d.ext2FindEntry name = _ from hfind, bind, Except.bind]
  · have hpresent : m c.name ≠ none := by simp [hsome]
    cases c with
    | find name =>
      refine ⟨d, .found _, m, ?_, .found hsome, hsame⟩
      simp [call, show d.ext2FindEntry name = _ from hfind, bind, Except.bind]
    | add name ino alloc =>
      refine ⟨d, .failed .eexist, m, ?_, .present hpresent, hsame⟩
      simp [call, show d.ext2FindEntry name = _ from hfind, bind, Except.bind]
    | delete name =>
      obtain ⟨d', hdelete, hrep⟩ := delete_spec hformed hm hk hoff hin
      refine ⟨d', .done, _, ?_, .deleted hpresent, hrep⟩
      simp [call, show d.ext2FindEntry name = _ from hfind, bind, Except.bind, hdelete]

end Inode

/-- Every list of calls is answered as the map would, and the directory stays well-formed. -/
theorem directory_is_map {count : Nat} {cs : List Inode.Call} (hcs : ∀ c ∈ cs, c.Valid count)
    {d : Inode} {m : Names} (h : Inode.Represents count d m) :
    ∃ d' as m', d.run cs = .ok (d', as) ∧ AnswersAll m cs as m' ∧ Inode.Represents count d' m' := by
  induction cs generalizing d m with
  | nil => exact ⟨d, [], m, rfl, .nil m, h⟩
  | cons c cs ih =>
    obtain ⟨d1, a, m1, hcall, ha, h1⟩ := Inode.call_spec h (hcs c (by simp))
    obtain ⟨d', as, m', hrun, has, h'⟩ := ih (fun c hc => hcs c (.tail _ hc)) h1
    refine ⟨d', a :: as, m', ?_, .cons ha has, h'⟩
    simp [Inode.run, hcall, hrun, bind, Except.bind]

/-- A directory of one block, whose first record has this length. -/
def oneRecord (len : Nat) : Inode where
  blockSize := 1024
  inodesCount := 100
  iSize := 1024
  block k := if k = 0 then some fun off => if off = 0 then ⟨2, len, [46], 0⟩ else ⟨0, 0, [], 0⟩
    else none

theorem oneRecord_represents :
    Inode.Represents 100 (oneRecord 1024) fun name => if name = [46] then some 2 else none := by
  have hrecord (p : Nat × Nat) : (oneRecord 1024).record (fun _ => [0]) p =
      if p = (0, 0) then some ([46], 2) else none := by
    obtain ⟨k, off⟩ := p
    rcases Nat.eq_zero_or_pos k with rfl | hk
    · rcases Nat.eq_zero_or_pos off with rfl | hoff
      · rfl
      · simp [Inode.record, content, Nat.ne_of_gt hoff]
    · have hout : ¬ k < (oneRecord 1024).blocks := Nat.not_lt.mpr hk
      simp [Inode.record, hout, Nat.ne_of_gt hk]
  refine ⟨rfl, fun _ => [0], ⟨by decide, by decide, by decide, by decide, by decide,
    fun k hk => ?_, fun k hk => ?_⟩, ?_⟩
  · cases Nat.lt_one_iff.mp hk
    rfl
  · cases Nat.lt_one_iff.mp hk
    refine ⟨⟨rfl, rfl⟩, fun off hoff => ?_⟩
    cases mem_singleton.mp hoff
    exact ⟨⟨by decide, by decide, by decide⟩, by decide, fun _ => by decide⟩
  · refine ⟨fun name ino => ?_, fun p q name v w hp hq => ?_⟩
    · simp [hrecord, eq_comm]
    · rw [hrecord] at hp hq
      exact (ite_none_right_eq_some.mp hp).1.trans (ite_none_right_eq_some.mp hq).1.symm

theorem directory_is_map_oneRecord : ∃ d' as m',
    (oneRecord 1024).run [.add [97] 12 false, .find [97], .delete [46]] = .ok (d', as) ∧
      AnswersAll (fun name => if name = [46] then some 2 else none)
        [.add [97] 12 false, .find [97], .delete [46]] as m' ∧ Inode.Represents 100 d' m' :=
  directory_is_map (by simp [Inode.Call.Valid, Inode.Call.name, ext2NameLen]) oneRecord_represents

end Sbckernel.Fs.Ext2.Dir
