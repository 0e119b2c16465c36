import Xv6.Fs.ByteArrays
import Xv6.Fs.Offset
import Xv6.Vm.Exec

/-!
# How much a read delivers

`fileread` of `kernel/file.c`, and `readi` with a destination in user memory.  The count is an `int` of the
user's, a `uint` in `readi`, and an `int` again when it is returned.
-/

namespace Xv6.Fs

open Function Hoare Memory Offset

variable (sb : Superblock)

/-- Read data from inode, to a user address: the value, and what is copied. -/
def readiUser (ip : Fin NINODE) (room off n : Nat) : Sys (Int × List UInt8) := do
  let s ← get
  let size := (s.inode ip).copy.size.toNat
  if size < off ∨ (off + n) % 2 ^ 32 < off then pure (0, [])
  else do
    let n := if size < off + n then size - off else n
    let r ← readUserLoop sb ip n room off n
    pure (if r.1 then toInt r.2.length else -1, r.2)

/-- Read from file f, which is one of the file system. -/
def fileread (f : Fin NFILE) (room : Nat) (n : Int) : Sys (Int × List UInt8) := do
  let s ← get
  let ff := s.file f
  if ff.readable = false then pure (-1, [])
  else
    match ff.type, ff.ip with
    | .inode, some ip => do
      ilock sb ip
      let s ← get
      let r ← readiUser sb ip room (s.file f).off (toUint n).toNat
      if 0 < r.1 then modify fun s => s.setFile f { s.file f with off := (s.file f).off + r.1.toNat }
      else pure ()
      iunlock ip
      pure r
    | _, _ => throw .kerneltrap

variable {sb} {s s' : State} {ip : Fin NINODE} {f : Fin NFILE} {k room off x : Nat} {n r : Int} {l : List UInt8}
  {F : Fin NFILE → File} {m : Mem} {d : Dinode}

/-! ## `fileread` -/

/-- No more than `n` bytes are delivered, their number or -1 is returned, and the offset is advanced by their number. -/
structure Delivers (n : Int) (r : Int) (l : List UInt8) (off off' : Nat) : Prop where
  bound : (l.length : Int) ≤ max n 0
  value : r = l.length ∨ r = -1
  advance : off' = off + l.length

structure OpenInode (sb : Superblock) (s : State) (f : Fin NFILE) (ip : Fin NINODE) : Prop where
  type : (s.file f).type = .inode
  entry : (s.file f).ip = some ip
  coherent : Coherent sb s
  ref : 0 < (s.inode ip).ref
  unlocked : (s.inode ip).locked = false
  inum : (s.inode ip).inum < sb.ninodes
  allocated : (dinode sb s.disk (s.inode ip).inum).type ≠ 0
  inOrder : InOrder sb s.disk

theorem toInt_of_lt {c : Nat} (h : c < 2 ^ 31) : toInt c = c := by
  unfold toInt
  rw [BitVec.toInt_eq_toNat_cond, BitVec.toNat_ofNat, Nat.mod_eq_of_lt (by omega), if_pos (by omega)]

theorem toNat_toUint_neg (hlo : -2 ^ 31 ≤ n) (hneg : n < 0) : ((toUint n).toNat : Int) = 2 ^ 32 + n := by
  have hmod : n % 2 ^ 32 = 2 ^ 32 + n := by omega
  have hlt : (2 ^ 32 + n).toNat < UInt32.size := by
    show (2 ^ 32 + n).toNat < 2 ^ 32
    omega
  unfold toUint
  rw [hmod, UInt32.toNat_ofNat_of_lt' hlt]
  omega

/-! ## The `readi` of other models -/

/-- To `exec` a file is its bytes. -/
theorem readi_exec {c : Nat} (h : NoHoles s.disk (s.inode ip).copy (s.inode ip).copy.size.toNat) (hoff : off < 2 ^ 32)
    (hc : c < 2 ^ 32) : readi sb ip off c s = .ok (Vm.readi (contents s.disk (s.inode ip).copy) off c, s) := by
  unfold Vm.readi
  rw [length_contents]
  split
  · rename_i hguard
    unfold readi
    rw [get_bind, if_pos hguard]
    rfl
  · exact readi_contents h (by omega)

theorem readUserLoop_offset {c : Nat} {r : Bool × List UInt8} (tot : Nat)
    (h : readUserLoop sb ip k room off c s = .ok (r, s')) : ∃ fate : Nat → Fate, ∀ g, (∀ t, tot ≤ t → g t = fate t) →
      (if r.1 then toInt (tot + r.2.length) else -1) = Offset.readLoop g k off (tot + c) tot := by
  induction k generalizing room off c tot s r with
  | zero =>
    cases h
    exact ⟨fun _ => .copied, fun _ _ => rfl⟩
  | succ k ih =>
    unfold readUserLoop at h
    split at h
    · rename_i hc
      cases h
      rw [hc]
      exact ⟨fun _ => .copied, fun _ _ => (if_neg (Nat.lt_irrefl tot)).symm⟩
    have hmore : tot < tot + c := by omega
    simp only [Offset.readLoop, if_pos hmore]
    obtain ⟨addr, s₁, -, h⟩ := bind_ok h
    split at h
    · cases h
      exact ⟨fun _ => .noBlock, fun g hg => by rw [hg tot (Nat.le_refl _)]; rfl⟩
    rw [get_bind] at h
    obtain ⟨m, hm⟩ : ∃ m, m = min c (BSIZE - off % BSIZE) := ⟨_, rfl⟩
    rw [← hm] at h
    split at h
    · cases h
      exact ⟨fun _ => .fault 0, fun g hg => by rw [hg tot (Nat.le_refl _)]; rfl⟩
    obtain ⟨rest, s₂, hrest, ⟨⟩⟩ := bind_ok h
    obtain ⟨fate, hfate⟩ := ih (tot + m) hrest
    have hpos : 0 < m := by
      unfold BSIZE at hm
      omega
    refine ⟨update fate tot .copied, fun g hg => ?_⟩
    have hnext := hfate g fun t ht => (hg t (by omega)).trans (update_of_ne (by omega) _ _)
    rw [show tot + m + (c - m) = tot + c by omega, Nat.add_assoc tot m] at hnext
    rw [hg tot (Nat.le_refl _), update_self, piece, Nat.add_sub_cancel_left, ← hm, List.length_append, length_bytes]
    exact hnext

/-- What `bmap` finds and how far the destination goes make up the fates of the rounds. -/
theorem readiUser_offset {off n : UInt32} {r : Int × List UInt8}
    (h : readiUser sb ip room off.toNat n.toNat s = .ok (r, s')) :
    ∃ fate, r.1 = Offset.readi (s.inode ip).copy.size off n fate := by
  unfold readiUser at h
  rw [get_bind] at h
  split at h
  · rename_i hguard
    cases h
    exact ⟨fun _ => .copied, (if_pos (by exact hguard)).symm⟩
  · rename_i hguard
    have hguard : ¬ (off > (s.inode ip).copy.size ∨ off + n < off) := hguard
    rw [← toNat_limit hguard] at h
    obtain ⟨q, s₁, hloop, ⟨⟩⟩ := bind_ok h
    obtain ⟨fate, hfate⟩ := readUserLoop_offset 0 hloop
    have hfate := hfate fate fun _ _ => rfl
    rw [Nat.zero_add, Nat.zero_add] at hfate
    exact ⟨fate, hfate.trans (if_neg hguard).symm⟩

/-! ## Where the file is in order -/

/-- What comes of a read of `c` bytes at `off`, if the first `room` bytes of the destination can be written. -/
def readResult (m : Mem) (d : Dinode) (room off c : Nat) : Int × List UInt8 :=
  if d.size.toNat < off ∨ 2 ^ 32 ≤ off + c then (0, [])
  else
    let n := min c (d.size.toNat - off)
    (if n ≤ room then toInt n else -1, (fileBytes m d off n).take room)

theorem readiUser_found {c : Nat} (h : NoHoles m d d.size.toNat) (hoff : off < 2 ^ 32) (hc : c < 2 ^ 32) :
    readiUser sb ip room off c (s.work ip m d) = .ok (readResult m d room off c, s.work ip m d) := by
  have hlimit : (if d.size.toNat < off + c then d.size.toNat - off else c) = min c (d.size.toNat - off) := by
    split <;> omega
  have hguard : (d.size.toNat < off ∨ (off + c) % 2 ^ 32 < off) = (d.size.toNat < off ∨ 2 ^ 32 ≤ off + c) := by
    rw [eq_iff_iff]
    omega
  unfold readiUser readResult
  simp only [get_bind, work_inode_self, hguard]
  split
  · rfl
  rw [hlimit, bind_of_ok (readUserLoop_found (h.mono (by omega)) (Nat.le_refl _))]
  by_cases hroom : min c (d.size.toNat - off) ≤ room
  · rw [decide_eq_true hroom, if_pos hroom, List.take_of_length_le (by rw [length_fileBytes]; exact hroom)]
    show Except.ok ((toInt (fileBytes _ _ _ _).length, _), _) = _
    rw [length_fileBytes]
  · rw [decide_eq_false hroom, if_neg hroom]
    rfl

theorem OpenInode.fileread (h : OpenInode sb s f ip) (hoff : (s.file f).off < 2 ^ 32) (n : Int) (room : Nat) :
    ∃ r s', Fs.fileread sb f room n s = .ok (r, s') ∧ (s'.file f).off = (s.file f).off + r.1.toNat ∧
      r = if (s.file f).readable = false then (-1, [])
        else readResult s.disk (dinode sb s.disk (s.inode ip).inum) room (s.file f).off (toUint n).toNat := by
  obtain ⟨d, hd⟩ : ∃ d, d = dinode sb s.disk (s.inode ip).inum := ⟨_, rfl⟩
  have hno : NoHoles s.disk d d.size.toNat := hd ▸ h.inOrder.noHoles _ h.inum h.allocated
  have hlock := h.coherent.ilock h.ref h.unlocked h.allocated
  obtain ⟨t, ht⟩ : ∃ t, t = s.setInode ip (lockedInode sb s ip) := ⟨_, rfl⟩
  have hself : t.inode ip = lockedInode sb s ip := by rw [ht, setInode_self]
  have hwork : t.work ip s.disk d = t := by
    have hcopy : (t.inode ip).copy = d := by
      rw [hself, hd]
      rfl
    have hdisk : t.disk = s.disk := by
      rw [ht]
      rfl
    rw [← hcopy, ← hdisk, work_self]
  have hfile : t.file = s.file := by
    rw [ht]
    rfl
  have hrun : readiUser sb ip room (s.file f).off (toUint n).toNat (t.work ip s.disk d) = _ :=
    readiUser_found hno hoff (toUint n).toNat_lt
  rw [hwork] at hrun
  -- The lock is given back, whether or not the offset has been advanced.
  have hunlock : ∀ u : State, u.inode = t.inode →
      iunlock ip u = .ok ((), u.setInode ip { u.inode ip with locked := false }) := by
    intro u hu
    unfold iunlock
    rw [get_bind, if_neg]
    · rfl
    rw [hu, hself]
    rintro (hnot | hlt)
    · exact Bool.noConfusion hnot
    · exact absurd h.ref (Int.not_lt.2 (Int.lt_add_one_iff.1 hlt))
  rw [← hd]
  unfold Fs.fileread
  rw [get_bind]
  by_cases hreadable : (s.file f).readable = false
  · rw [if_pos hreadable, if_pos hreadable]
    exact ⟨_, s, rfl, rfl, rfl⟩
  rw [if_neg hreadable, if_neg hreadable, h.type, h.entry]
  dsimp only
  rw [bind_of_ok (ht ▸ hlock), get_bind, hfile, bind_of_ok hrun]
  generalize readResult s.disk d room (s.file f).off (toUint n).toNat = r
  by_cases hpos : 0 < r.1
  · rw [if_pos hpos, modify_bind, bind_of_ok (hunlock (t.setFile f _) rfl)]
    refine ⟨r, _, rfl, ?_, rfl⟩
    show (update t.file f _ f).off = _
    rw [update_self, hfile]
  rw [if_neg hpos, bind_of_ok (hunlock t rfl)]
  refine ⟨r, _, rfl, ?_, rfl⟩
  show (t.file f).off = _
  rw [hfile, Int.toNat_of_nonpos (by omega), Nat.add_zero]

/-! ## The count -/

/-- There is nothing to read, or nothing of it can be written, or all that a count that is not negative asks for can. -/
def Deliverable (f : File) (size room : Nat) (n : Int) : Prop :=
  f.readable = false ∨ size ≤ f.off ∨ 2 ^ 32 ≤ f.off + (toUint n).toNat ∨ room = 0 ∨ 0 ≤ n ∧ min n (size - f.off) ≤ room

/-- `fileread` returns from every open file of a disk in order, and delivers what it is asked for under that condition. -/
theorem fileread_delivers_iff (h : OpenInode sb s f ip) (hoff : (s.file f).off < 2 ^ 32) (hlo : -2 ^ 31 ≤ n) (hhi : n < 2 ^ 31) :
    ∃ r l s', fileread sb f room n s = .ok ((r, l), s') ∧ (Delivers n r l (s.file f).off (s'.file f).off ↔
      Deliverable (s.file f) (dinode sb s.disk (s.inode ip).inum).size.toNat room n) := by
  obtain ⟨⟨r, l⟩, s', hrun, hadvance, hr⟩ := h.fileread hoff n room
  refine ⟨r, l, s', hrun, ?_⟩
  have hlt := (toUint n).toNat_lt
  have hnone : r.toNat = 0 → (r = 0 ∨ r = -1) → l = [] → Delivers n r l (s.file f).off (s'.file f).off := by
    rintro hzero hvalue rfl
    exact ⟨Int.le_max_right _ _, hvalue, by rw [hadvance, hzero]; rfl⟩
  by_cases hreadable : (s.file f).readable = false
  · rw [if_pos hreadable] at hr
    obtain ⟨rfl, rfl⟩ := Prod.mk.inj hr
    exact iff_of_true (hnone rfl (.inr rfl) rfl) (.inl hreadable)
  rw [if_neg hreadable, readResult] at hr
  unfold Deliverable
  generalize dinode sb s.disk (s.inode ip).inum = d at hr ⊢
  split at hr
  · next hguard =>
    obtain ⟨rfl, rfl⟩ := Prod.mk.inj hr
    refine iff_of_true (hnone rfl (.inl rfl) rfl) (.inr ?_)
    exact hguard.imp Nat.le_of_lt .inl
  next hguard =>
  obtain ⟨c, hc⟩ : ∃ c, c = min (toUint n).toNat (d.size.toNat - (s.file f).off) := ⟨_, rfl⟩
  obtain ⟨hr, hl⟩ := Prod.mk.inj hr
  have hlen : l.length = min room c := by rw [hl, List.length_take, length_fileBytes, hc]
  rw [← hc] at hr
  have hcount : 0 ≤ n ∧ (toUint n).toNat = n.toNat ∨ n < 0 ∧ ((toUint n).toNat : Int) = 2 ^ 32 + n := by
    rcases Int.lt_or_le n 0 with hneg | hpos
    · exact .inr ⟨hneg, toNat_toUint_neg hlo hneg⟩
    · exact .inl ⟨hpos, toNat_toUint hpos (by omega)⟩
  rw [or_iff_right hreadable]
  by_cases hroom : c ≤ room
  · rw [if_pos hroom] at hr
    refine ⟨fun ⟨hbound, _, _⟩ => by omega, fun hdom => ?_⟩
    have hsmall : (c : Int) ≤ max n 0 := by omega
    rw [toInt_of_lt (by omega)] at hr
    exact ⟨by omega, .inl (by omega), by omega⟩
  -- The copy has failed, and the offset stays where it was.
  rw [if_neg hroom] at hr
  rw [hr] at hadvance ⊢
  refine ⟨fun ⟨_, _, hmoved⟩ => by omega, fun hdom => ?_⟩
  have hzero : room = 0 := by omega
  exact ⟨by omega, .inr rfl, by omega⟩

theorem ninode_pos : 0 < NINODE := by decide

theorem nfile_pos : 0 < NFILE := by decide

/-- The first file structure is open for reading inode `x`. -/
def reading (m : Mem) (x : Nat) : State :=
  ((Mkfs.booted m).setInode ⟨0, ninode_pos⟩ ⟨x, 1, false, true, dinode Mkfs.sb m x⟩).setFile ⟨0, nfile_pos⟩
    ⟨.inode, true, some ⟨0, ninode_pos⟩, 0⟩

theorem openInode_reading (h : InOrder Mkfs.sb m) (hx : x < Mkfs.sb.ninodes) (htype : (dinode Mkfs.sb m x).type ≠ 0) :
    OpenInode Mkfs.sb (reading m x) ⟨0, by decide⟩ ⟨0, by decide⟩ where
  type := rfl
  entry := rfl
  coherent := by
    have hcoh : Coherent Mkfs.sb ((Mkfs.booted m).setInode ⟨0, by decide⟩ ⟨x, 1, false, true, dinode Mkfs.sb m x⟩) :=
      Mkfs.booted_mounted.coherent.setInode Int.one_nonneg fun _ => rfl
    exact ⟨hcoh.nonneg, hcoh.copy⟩
  ref := Int.one_pos
  unlocked := rfl
  inum := hx
  allocated := htype
  inOrder := h

theorem fileread_delivers_iff_twoBytes : ∃ m r l s', fileread Mkfs.sb ⟨0, by decide⟩ 2 1 (reading m 2) = .ok ((r, l), s') ∧
    Delivers 1 r l 0 (s'.file ⟨0, by decide⟩).off := by
  obtain ⟨m, hm, hheld, -⟩ := exists_twoBytes
  have hoff : ((reading m 2).file ⟨0, by decide⟩).off < 2 ^ 32 := Nat.two_pow_pos 32
  obtain ⟨r, l, s', hrun, hiff⟩ := @fileread_delivers_iff Mkfs.sb (reading m 2) _ ⟨0, by decide⟩ 2 1
    (openInode_reading hm hheld.lt hheld.type) hoff (by decide) (by decide)
  exact ⟨m, r, l, s', hrun, hiff.mpr (.inr (.inr (.inr (.inr ⟨by decide, by omega⟩))))⟩

/-- With a count of -1 all of the file is delivered. -/
theorem fileread_negative : ¬ ∀ sb s f room n, (s.file f).off < 2 ^ 32 → -2 ^ 31 ≤ n → n < 2 ^ 31 →
    ∀ r l s', fileread sb f room n s = .ok ((r, l), s') → Delivers n r l (s.file f).off (s'.file f).off := by
  intro hall
  obtain ⟨m, hm, hheld, hcontents⟩ := exists_twoBytes
  have hsize := size_twoBytes hcontents
  have hoff : ((reading m 2).file ⟨0, by decide⟩).off < 2 ^ 32 := Nat.two_pow_pos 32
  obtain ⟨r, s', hrun, -, hr⟩ := (openInode_reading hm hheld.lt hheld.type).fileread hoff (-1) 2
  have hbound := (hall Mkfs.sb (reading m 2) ⟨0, by decide⟩ 2 (-1) hoff (by decide) (by decide) r.1 r.2 s' hrun).bound
  have hresult : r = readResult m (dinode Mkfs.sb m 2) 2 0 (toUint (-1)).toNat := hr.trans (if_neg Bool.true_eq_false.mp)
  have htwo : r.2.length = 2 := by
    rw [hresult, readResult, show (toUint (-1)).toNat = 2 ^ 32 - 1 by decide, hsize, if_neg (by omega)]
    rw [List.length_take, length_fileBytes]
    omega
  rw [htwo] at hbound
  exact absurd hbound (by decide)

end Xv6.Fs
