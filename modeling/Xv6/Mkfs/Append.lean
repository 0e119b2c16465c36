import Xv6.Fs.Contents
import Xv6.Mkfs.Model

/-!
# Appending to a file of the image

The image lacks a bitmap until the end, but how it would look is clear at any time: the blocks in use are those
below `freeblock`.  With that bitmap an image is a disk as the kernel knows it, and `iappend` does to it what the
kernel does when it allocates blocks and writes them.
-/

namespace Xv6.Mkfs

open Fs Function Hoare List Memory Ownership

variable {m m' : Mem} {V : Nat → Dinode} {s s' : State} {d d' : Dinode}
  {x y a b c n v off sec fb bn j k : Nat} {l p : List UInt8}

/-! ## Buffers -/

theorem window_put : put (window m c) a n v = window (put m (c + a) n v) c := by
  funext i
  have hin : c + a ≤ c + i ∧ c + i < c + a + n ↔ a ≤ i ∧ i < a + n := by omega
  have hsub : c + i - (c + a) = i - a := by omega
  simp only [window, put, hin, hsub]

theorem window_putArray {w : Nat} {f : Nat → Nat} :
    putArray (window m c) a w n f = window (putArray m (c + a) w n f) c := by
  funext i
  have hin : c + a ≤ c + i ∧ c + i < c + a + w * n ↔ a ≤ i ∧ i < a + w * n := by omega
  have hsub : c + i - (c + a) = i - a := by omega
  simp only [window, putArray, hin, hsub]

theorem window_store : store (window m c) a l = window (store m (c + a) l) c := by
  funext i
  have hin : c + a ≤ c + i ∧ c + i < c + a + l.length ↔ a ≤ i ∧ i < a + l.length := by omega
  have hsub : c + i - (c + a) = i - a := by omega
  simp only [window, store, hin, hsub]

theorem window_putDinode : putDinode (window m c) a d = window (putDinode m (c + a) d) c := by
  simp only [putDinode, putShort, putUint, window_put, window_putArray, Nat.add_assoc]

theorem load_window : load (window m c) a n = load m (c + a) n := by
  induction n generalizing a with
  | zero => rfl
  | succ n ih =>
    simp only [load, ih, Nat.add_assoc]
    rfl

theorem loadDinode_window : loadDinode (window m c) a = loadDinode m (c + a) := by
  simp only [loadDinode, loadShort, loadUint, load_window, Nat.add_assoc]

theorem blit_window (h : ∀ a, ¬ (sec * BSIZE ≤ a ∧ a < sec * BSIZE + BSIZE) → m' a = m a) :
    blit m sec (window m' (sec * BSIZE)) = m' := by
  funext a
  unfold blit window
  split
  · next hin => rw [Nat.add_sub_of_le hin.1]
  · next hout => exact (h a hout).symm

theorem rsect_run (h : sec < FSSIZE) : rsect sec s = .ok (window s.img (sec * BSIZE), s) := by
  unfold rsect
  rw [get_bind, if_pos h]
  rfl

theorem rsect_error (h : FSSIZE ≤ sec) : rsect sec s = .error .die := by
  unfold rsect
  rw [get_bind, if_neg (Nat.not_lt_of_le h)]
  rfl

theorem wsect_run (h : ∀ a, ¬ (sec * BSIZE ≤ a ∧ a < sec * BSIZE + BSIZE) → m' a = s.img a) :
    wsect sec (window m' (sec * BSIZE)) s = .ok ((), { s with img := m' }) := by
  show Except.ok ((), ({ s with img := blit s.img sec (window m' (sec * BSIZE)) } : State)) = _
  rw [blit_window h]

theorem iblock_lt (hx : x < NINODES) : iblock x < FSSIZE := by
  have hstart : sb.inodestart = 33 := rfl
  unfold iblock IPB
  unfold NINODES at hx
  unfold FSSIZE
  omega

theorem winode_run (hx : x < NINODES) :
    winode x d s = .ok ((), { s with img := putDinode s.img (inodeAddr sb x) d }) := by
  unfold winode
  rw [bind_of_ok (rsect_run (iblock_lt hx)), window_putDinode]
  apply wsect_run
  intro a hout
  refine agree_putDinode (n := 1) ?_ a (Nat.le_refl a) (Nat.lt_succ_self a)
  unfold iblock at *
  unfold IPB BSIZE at *
  omega

theorem rinode_run (hx : x < NINODES) : rinode x s = .ok (dinode sb s.img x, s) := by
  unfold rinode
  rw [bind_of_ok (rsect_run (iblock_lt hx)), loadDinode_window]
  rfl

/-! ## The disk that the image is going to be -/

theorem bitmap_succ : bitmap (n + 1) = update (bitmap n) (n / 8) (bitmap n (n / 8) ||| UInt8.ofNat (2 ^ (n % 8))) := by
  unfold bitmap
  rw [range_succ, foldl_append]
  rfl

theorem bitmap_bit : bitmap n (b / 8) &&& UInt8.ofNat (2 ^ (b % 8)) ≠ 0 ↔ b < n := by
  have hlt : ∀ c, c % 8 < 8 := fun c => Nat.mod_lt c (by decide)
  induction n with
  | zero =>
    have hzero : (0 : UInt8) &&& UInt8.ofNat (2 ^ (b % 8)) = 0 := UInt8.zero_and
    exact ⟨fun h => absurd hzero h, fun h => absurd h (Nat.not_lt_zero b)⟩
  | succ n ih =>
    rw [bitmap_succ]
    by_cases hsame : b / 8 = n / 8
    · rw [hsame, update_self, or_mask (hlt n) (hlt b), ← hsame]
      refine (or_congr_right ih).trans ?_
      omega
    · rw [update_of_ne hsame]
      refine ih.trans ?_
      omega

/-- The image with the bitmap that `balloc(freeblock)` would write. -/
def State.disk (s : State) : Mem := blit s.img sb.bmapstart (bitmap s.freeblock)

theorem nmeta_eq : sb.nmeta = sb.bmapstart + 1 := by decide

theorem disk_of_ne (h : a < sb.bmapstart * BSIZE ∨ sb.nmeta * BSIZE ≤ a) : s.disk a = s.img a := by
  rw [nmeta_eq, Nat.add_mul, Nat.one_mul] at h
  unfold State.disk blit
  rw [if_neg (by omega)]

theorem agree_disk (h : a + n ≤ sb.bmapstart * BSIZE ∨ sb.nmeta * BSIZE ≤ a) : Agree s.img s.disk a n := by
  intro y hlo hhi
  apply disk_of_ne
  omega

theorem bitAddr_eq : bitAddr sb b = sb.bmapstart * BSIZE + b / 8 := by
  unfold bitAddr BPB BSIZE
  omega

theorem bitMask_eq (hb : b < FSSIZE) : bitMask b = UInt8.ofNat (2 ^ (b % 8)) := by
  have hmod : b % BPB = b := by
    unfold FSSIZE at hb
    unfold BPB BSIZE
    omega
  rw [bitMask, hmod]

theorem disk_bitAddr (hb : b < FSSIZE) : s.disk (bitAddr sb b) = bitmap s.freeblock (b / 8) := by
  rw [bitAddr_eq]
  unfold State.disk blit
  rw [if_pos, Nat.add_sub_cancel_left]
  unfold FSSIZE at hb
  unfold BSIZE
  omega

theorem inUse_disk (hb : b < FSSIZE) : InUse sb s.disk b ↔ b < s.freeblock := by
  unfold InUse
  rw [disk_bitAddr hb, bitMask_eq hb, bitmap_bit]

theorem dinode_disk (hx : x < NINODES) : dinode sb s.disk x = dinode sb s.img x :=
  dinode_congr sb (agree_disk (.inl (inodeAddr_hi sb hx)))

theorem blit_put (h : a + n ≤ sec * BSIZE ∨ sec * BSIZE + BSIZE ≤ a) :
    blit (put m a n v) sec m' = put (blit m sec m') a n v := by
  funext y
  unfold blit put
  dsimp only
  split_ifs
  · omega
  · rfl
  · rfl
  · rfl

theorem blit_store (h : a + l.length ≤ sec * BSIZE ∨ sec * BSIZE + BSIZE ≤ a) :
    blit (store m a l) sec m' = store (blit m sec m') a l := by
  funext y
  unfold blit store
  dsimp only
  split_ifs
  · omega
  · rfl
  · rfl
  · rfl

theorem putDinode_inside (hlo : a ≤ y) (hhi : y < a + 64) : putDinode m a d y = putDinode m' a d y := by
  unfold putDinode putShort putUint put putArray NDIRECT
  dsimp only
  split_ifs
  all_goals first
    | rfl
    | omega

theorem putDinode_outside (h : y < a ∨ a + 64 ≤ y) : putDinode m a d y = m y :=
  agree_putDinode (n := 1) (by omega) y (Nat.le_refl y) (Nat.lt_succ_self y)

theorem blit_putDinode (h : a + 64 ≤ sec * BSIZE ∨ sec * BSIZE + BSIZE ≤ a) :
    blit (putDinode m a d) sec m' = putDinode (blit m sec m') a d := by
  funext y
  by_cases hin : a ≤ y ∧ y < a + 64
  · rw [← putDinode_inside (m := m) hin.1 hin.2]
    exact if_neg (by omega)
  · rw [putDinode_outside (by omega)]
    unfold blit
    rw [putDinode_outside (by omega)]

theorem blank_block (h : ∀ a, fb * BSIZE ≤ a → m a = 0) : fill m (fb * BSIZE) BSIZE 0 = m := by
  funext a
  unfold fill
  split
  · next hin => exact (h a hin.1).symm
  · rfl

theorem disk_next (hb : s.freeblock < FSSIZE) (hlo : sb.nmeta ≤ s.freeblock)
    (hblank : ∀ a, s.freeblock * BSIZE ≤ a → s.img a = 0) :
    ({ s with freeblock := s.freeblock + 1 } : State).disk = allocated sb s.disk s.freeblock := by
  have hmeta : sb.nmeta * BSIZE ≤ s.freeblock * BSIZE := Nat.mul_le_mul_right _ hlo
  have hzero : ∀ a, s.freeblock * BSIZE ≤ a → markUsed sb s.disk s.freeblock a = 0 := by
    intro a ha
    have hne : a ≠ bitAddr sb s.freeblock := by
      have hbit := bitAddr_hi sb (b := s.freeblock) hb
      omega
    unfold markUsed
    rw [update_of_ne hne, disk_of_ne (.inr (Nat.le_trans hmeta ha)), hblank a ha]
  unfold allocated
  rw [blank_block hzero]
  funext a
  by_cases hbit : a = bitAddr sb s.freeblock
  · rw [hbit, disk_bitAddr hb]
    unfold markUsed
    rw [update_self, disk_bitAddr hb, bitMask_eq hb]
    show bitmap (s.freeblock + 1) (s.freeblock / 8) = _
    rw [bitmap_succ, update_self]
  unfold markUsed
  rw [update_of_ne hbit]
  unfold State.disk blit
  split
  · next hin =>
    have hne : a - sb.bmapstart * BSIZE ≠ s.freeblock / 8 := by
      rw [bitAddr_eq] at hbit
      omega
    show bitmap (s.freeblock + 1) (a - sb.bmapstart * BSIZE) = _
    rw [bitmap_succ, update_of_ne hne]
  · rfl

theorem disk_put (ha : sb.nmeta * BSIZE ≤ a) : ({ s with img := put s.img a n v } : State).disk = put s.disk a n v := by
  apply blit_put
  rw [nmeta_eq, Nat.add_mul, Nat.one_mul] at ha
  exact .inr ha

theorem disk_store (ha : sb.nmeta * BSIZE ≤ a) :
    ({ s with img := store s.img a l } : State).disk = store s.disk a l := by
  apply blit_store
  rw [nmeta_eq, Nat.add_mul, Nat.one_mul] at ha
  exact .inr ha

theorem disk_putDinode (hx : x < NINODES) : ({ s with img := putDinode s.img (inodeAddr sb x) d } : State).disk =
      putDinode s.disk (inodeAddr sb x) d :=
  blit_putDinode (.inl (inodeAddr_hi sb hx))

/-! ## The inode that is appended to -/

/-- The image is in order if inode `x` is as `d` says; `V` tells the other inodes. -/
structure Draft (V : Nat → Dinode) (x : Nat) (s : State) (d : Dinode) : Prop where
  good : Good sb V x s.disk d
  hi : s.freeblock ≤ FSSIZE
  blank : ∀ a, s.freeblock * BSIZE ≤ a → s.img a = 0

theorem Draft.lo (h : Draft V x s d) : sb.nmeta ≤ s.freeblock := by
  by_contra hlt
  have hb : s.freeblock < FSSIZE := Nat.lt_of_lt_of_le (Nat.lt_of_not_le hlt) (by decide)
  have hin := h.good.owned.meta_inUse (Nat.lt_of_not_le hlt)
  rw [inUse_disk hb] at hin
  exact Nat.lt_irrefl _ hin

theorem Draft.ref_lt {q : Pos} (h : Draft V x s d) (hne : refAt s.disk d q ≠ 0) : refAt s.disk d q < s.freeblock :=
  (inUse_disk (h.good.data hne).2).1 (h.good.inUse hne)

theorem Draft.not_inUse (hlt : s.freeblock < FSSIZE) : ¬ InUse sb s.disk s.freeblock := by
  rw [inUse_disk hlt]
  exact Nat.lt_irrefl _

/-- What working on inode `x` leaves alone. -/
structure Advances (V : Nat → Dinode) (x : Nat) (s : State) (d : Dinode) (s' : State) (d' : Dinode) : Prop where
  draft : Draft V x s' d'
  keeps : Keeps sb V x s.disk s'.disk
  attrs : d' = { d with addrs := d'.addrs }
  freeinode : s'.freeinode = s.freeinode
  super : ∀ a < sb.inodestart * BSIZE, s'.img a = s.img a

theorem Advances.refl (h : Draft V x s d) : Advances V x s d s d := ⟨h, .refl, rfl, rfl, fun _ _ => rfl⟩

theorem Advances.trans {s'' : State} {d'' : Dinode} (h : Advances V x s d s' d')
    (h' : Advances V x s' d' s'' d'') : Advances V x s d s'' d'' where
  draft := h'.draft
  keeps := h.keeps.trans h'.keeps
  attrs := by rw [h'.attrs, h.attrs]
  freeinode := h'.freeinode.trans h.freeinode
  super a ha := (h'.super a ha).trans (h.super a ha)

theorem blank_next {m : Mem} (h : ∀ a, fb * BSIZE ≤ a → m a = 0) : ∀ a, (fb + 1) * BSIZE ≤ a → m a = 0 := by
  intro a ha
  apply h
  rw [Nat.add_mul] at ha
  omega

/-- Blocks have been added to the inode, at the places `P`. -/
structure Takes (V : Nat → Dinode) (x : Nat) (P : Pos → Prop) (s : State) (d : Dinode) (s' : State)
    (d' : Dinode) : Prop where
  advances : Advances V x s d s' d'
  grows : Grows s.disk d s'.disk d'
  refs : ∀ q, refAt s'.disk d' q ≠ 0 ↔ refAt s.disk d q ≠ 0 ∨ P q

theorem Takes.none (h : Draft V x s d) {P : Pos → Prop} (hP : ∀ q, P q → refAt s.disk d q ≠ 0) : Takes V x P s d s d :=
  ⟨.refl h, .refl _ _, fun q => ⟨.inl, fun hor => hor.elim id (hP q)⟩⟩

theorem Takes.trans {P P' : Pos → Prop} {s'' : State} {d'' : Dinode} (h : Takes V x P s d s' d')
    (h' : Takes V x P' s' d' s'' d'') : Takes V x (fun q => P q ∨ P' q) s d s'' d'' where
  advances := h.advances.trans h'.advances
  grows := h.grows.trans h'.grows
  refs q := by rw [h'.refs, h.refs, or_assoc]

theorem Draft.nextAddr (h : Draft V x s d) (hk : k < NDIRECT + 1) (hempty : d.addr k = 0)
    (hlt : s.freeblock < FSSIZE) :
    Takes V x (· = .addr k) s d { s with freeblock := s.freeblock + 1 } (d.setAddr k s.freeblock) := by
  have hnot := Draft.not_inUse hlt
  have hgained := h.good.takeAddr hk hempty hlt hnot
  have hrefs := h.good.refAt_takeAddr hk hempty hlt hnot
  have hpos : s.freeblock ≠ 0 := Nat.ne_of_gt (Nat.lt_of_lt_of_le sb.nmeta_pos h.lo)
  rw [← disk_next hlt h.lo h.blank] at hgained hrefs
  refine ⟨⟨⟨hgained.good, hlt, blank_next h.blank⟩, hgained.keeps, hgained.grows.attrs, rfl, fun _ _ => rfl⟩,
    hgained.grows, fun q => ?_⟩
  rw [hrefs]
  by_cases hq : q = .addr k
  · rw [if_pos hq]
    exact ⟨fun _ => .inr hq, fun _ => hpos⟩
  · rw [if_neg hq]
    exact ⟨.inl, fun hor => hor.resolve_right hq⟩

theorem put_entry_outside (hj : j < NINDIRECT) (hout : ¬ (b * BSIZE ≤ a ∧ a < b * BSIZE + BSIZE)) :
    put m (entryAddr b j) 4 v a = m a := by
  have hin : ¬ (entryAddr b j ≤ a ∧ a < entryAddr b j + 4) := by
    have hj' : 4 * j + 4 ≤ BSIZE := Nat.mul_le_mul_left 4 hj
    unfold entryAddr
    omega
  unfold put
  rw [if_neg hin]

def State.nextEntry (s : State) (ind j : Nat) : State :=
  { s with img := put s.img (entryAddr ind j) 4 s.freeblock, freeblock := s.freeblock + 1 }

section

variable (h : Draft V x s d) (hind : d.addr NDIRECT ≠ 0)

include h hind

theorem Draft.indirect_lo : sb.nmeta * BSIZE ≤ d.addr NDIRECT * BSIZE :=
  Nat.mul_le_mul_right _ (h.good.data (q := .addr NDIRECT) hind).1

theorem Draft.disk_nextEntry (hlt : s.freeblock < FSSIZE) : (s.nextEntry (d.addr NDIRECT) j).disk =
      put (allocated sb s.disk s.freeblock) (entryAddr (d.addr NDIRECT) j) 4 s.freeblock := by
  rw [← disk_next hlt h.lo h.blank]
  exact disk_put (s := { s with freeblock := s.freeblock + 1 })
    (Nat.le_trans (h.indirect_lo hind) (Nat.le_add_right _ _))

theorem Draft.nextEntry (hj : j < NINDIRECT) (hempty : refAt s.disk d (.entry j) = 0) (hlt : s.freeblock < FSSIZE) :
    Takes V x (· = .entry j) s d (s.nextEntry (d.addr NDIRECT) j) d := by
  have hnot := Draft.not_inUse hlt
  have hgained := h.good.takeEntry hind hj hempty hlt hnot
  have hrefs := h.good.refAt_takeEntry hind hj hlt hnot
  have hpos : s.freeblock ≠ 0 := Nat.ne_of_gt (Nat.lt_of_lt_of_le sb.nmeta_pos h.lo)
  rw [← h.disk_nextEntry hind hlt] at hgained hrefs
  -- The entry is written inside of a block that has been handed out before.
  have hsame : ∀ a, ¬ (d.addr NDIRECT * BSIZE ≤ a ∧ a < d.addr NDIRECT * BSIZE + BSIZE) →
      (s.nextEntry (d.addr NDIRECT) j).img a = s.img a := fun _ hout => put_entry_outside hj hout
  have hbelow : d.addr NDIRECT < s.freeblock := h.ref_lt (q := .addr NDIRECT) hind
  refine ⟨⟨⟨hgained.good, hlt, fun a ha => ?_⟩, hgained.keeps, hgained.grows.attrs, rfl, fun a ha => ?_⟩,
    hgained.grows, fun q => ?_⟩
  · have hblock : (d.addr NDIRECT + 1) * BSIZE ≤ s.freeblock * BSIZE := Nat.mul_le_mul_right _ hbelow
    have hfar : s.freeblock * BSIZE ≤ a := Nat.le_trans (Nat.mul_le_mul_right _ (Nat.le_succ _)) ha
    rw [Nat.add_mul, Nat.one_mul] at hblock
    rw [hsame a (by omega)]
    exact h.blank a hfar
  · have hmeta : sb.inodestart * BSIZE ≤ sb.nmeta * BSIZE := by decide
    have hlo := h.indirect_lo hind
    exact hsame a (by omega)
  rw [hrefs]
  by_cases hq : q = .entry j
  · rw [if_pos hq]
    exact ⟨fun _ => .inr hq, fun _ => hpos⟩
  · rw [if_neg hq]
    exact ⟨.inl, fun hor => hor.resolve_right hq⟩

end

/-! ## `fileBlock` -/

def missing (m : Mem) (d : Dinode) (bn : Nat) : Nat :=
  (if bn < NDIRECT ∨ d.addr NDIRECT ≠ 0 then 0 else 1) + if blockAddr m d bn = 0 then 1 else 0

/-- The places where a block has to be to reach block `bn` of the file. -/
def onTheWay (bn : Nat) (q : Pos) : Prop := NDIRECT ≤ bn ∧ q = .addr NDIRECT ∨ q = posOf bn

theorem fileBlock_direct (hbn : bn < NDIRECT) :
    fileBlock d bn s = if d.addr bn = 0 then .ok ((s.freeblock, d.setAddr bn s.freeblock),
      { s with freeblock := s.freeblock + 1 }) else .ok ((d.addr bn, d), s) := by
  unfold fileBlock
  rw [if_pos hbn]
  split <;> rfl

theorem fileBlock_indirect (hbn : ¬ bn < NDIRECT) (hind : d.addr NDIRECT = 0)
    (hne : (d.setAddr NDIRECT s.freeblock).addr NDIRECT ≠ 0) : fileBlock d bn s =
      fileBlock (d.setAddr NDIRECT s.freeblock) bn { s with freeblock := s.freeblock + 1 } := by
  unfold fileBlock
  rw [if_neg hbn, if_neg hbn, if_pos hind, if_neg hne]
  rfl

theorem fileBlock_full (hbn : ¬ bn < NDIRECT) (hind : d.addr NDIRECT ≠ 0) (hfull : FSSIZE ≤ d.addr NDIRECT) :
    fileBlock d bn s = .error .die := by
  have hrun : (pure d : Mk Dinode) s = .ok (d, s) := rfl
  unfold fileBlock
  rw [if_neg hbn, if_neg hind, bind_of_ok hrun]
  exact bind_of_error (rsect_error hfull)

theorem fileBlock_entry (hbn : ¬ bn < NDIRECT) (hj : bn - NDIRECT < NINDIRECT) (hind : d.addr NDIRECT ≠ 0)
    (hlt : d.addr NDIRECT < FSSIZE) :
    fileBlock d bn s = if load s.img (entryAddr (d.addr NDIRECT) (bn - NDIRECT)) 4 = 0 then
      .ok ((s.freeblock, d), s.nextEntry (d.addr NDIRECT) (bn - NDIRECT)) else
      .ok ((load s.img (entryAddr (d.addr NDIRECT) (bn - NDIRECT)) 4, d), s) := by
  have hrun : (pure d : Mk Dinode) s = .ok (d, s) := rfl
  have haddr : d.addr NDIRECT * BSIZE + 4 * (bn - NDIRECT) = entryAddr (d.addr NDIRECT) (bn - NDIRECT) := rfl
  unfold fileBlock
  rw [if_neg hbn, if_neg hind, bind_of_ok hrun]
  dsimp only
  rw [bind_of_ok (rsect_run hlt), load_window, haddr]
  have hnext : nextBlock s = .ok (s.freeblock, { s with freeblock := s.freeblock + 1 }) := rfl
  by_cases hzero : load s.img (entryAddr (d.addr NDIRECT) (bn - NDIRECT)) 4 = 0
  · rw [if_pos hzero, if_pos hzero, bind_of_ok hnext, window_put, haddr]
    exact bind_of_ok (wsect_run (s := { s with freeblock := s.freeblock + 1 }) fun _ hout =>
      put_entry_outside hj hout)
  · rw [if_neg hzero, if_neg hzero]
    rfl

theorem Draft.load_entry (h : Draft V x s d) (hind : d.addr NDIRECT ≠ 0) (hj : j < NINDIRECT) :
    load s.img (entryAddr (d.addr NDIRECT) j) 4 = refAt s.disk d (.entry j) := by
  have hlo := h.indirect_lo hind
  have hagree : Agree s.img s.disk (entryAddr (d.addr NDIRECT) j) 4 :=
    agree_disk (.inr (Nat.le_trans hlo (Nat.le_add_right _ _)))
  rw [← load_congr hagree]
  exact (if_pos ⟨hind, hj⟩).symm

theorem fileBlock_indirectly (h : Draft V x s d) (hbn : ¬ bn < NDIRECT) (hj : bn - NDIRECT < NINDIRECT)
    (hind : d.addr NDIRECT ≠ 0) : (s.freeblock + (if blockAddr s.disk d bn = 0 then 1 else 0) ≤ FSSIZE ∧
      ∃ s', fileBlock d bn s = .ok ((blockAddr s'.disk d bn, d), s') ∧ Takes V x (· = posOf bn) s d s' d ∧
        s'.freeblock = s.freeblock + if blockAddr s.disk d bn = 0 then 1 else 0) ∨
      (FSSIZE < s.freeblock + (if blockAddr s.disk d bn = 0 then 1 else 0) ∧
        ∃ s', fileBlock d bn s = .ok ((FSSIZE, d), s')) := by
  have hpos : posOf bn = .entry (bn - NDIRECT) := if_neg hbn
  unfold blockAddr
  rw [hpos, fileBlock_entry hbn hj hind (h.good.data (q := .addr NDIRECT) hind).2, h.load_entry hind hj]
  by_cases hzero : refAt s.disk d (.entry (bn - NDIRECT)) = 0
  · simp only [if_pos hzero]
    rcases Nat.lt_or_ge s.freeblock FSSIZE with hlt | hge
    · refine .inl ⟨hlt, s.nextEntry (d.addr NDIRECT) (bn - NDIRECT), ?_, h.nextEntry hind hj hzero hlt, rfl⟩
      rw [h.disk_nextEntry hind hlt, h.good.refAt_takeEntry hind hj hlt (Draft.not_inUse hlt), if_pos rfl]
    · have hfull : s.freeblock = FSSIZE := Nat.le_antisymm h.hi hge
      exact .inr ⟨by omega, _, by rw [hfull]⟩
  simp only [if_neg hzero]
  refine .inl ⟨h.hi, s, rfl, .none h fun q hq => ?_, rfl⟩
  rw [hq]
  exact hzero

theorem fileBlock_run (h : Draft V x s d) (hbn : bn < MAXFILE) : (s.freeblock + missing s.disk d bn ≤ FSSIZE ∧
      ∃ s' d', fileBlock d bn s = .ok ((blockAddr s'.disk d' bn, d'), s') ∧
        Takes V x (onTheWay bn) s d s' d' ∧ s'.freeblock = s.freeblock + missing s.disk d bn) ∨
      (FSSIZE < s.freeblock + missing s.disk d bn ∧
        (fileBlock d bn s = .error .die ∨ ∃ d' s', fileBlock d bn s = .ok ((FSSIZE, d'), s'))) := by
  unfold missing
  by_cases hdirect : bn < NDIRECT
  · have hpos : posOf bn = .addr bn := if_pos hdirect
    have hway : onTheWay bn = (· = .addr bn) := by
      funext q
      unfold onTheWay
      rw [hpos]
      exact propext (or_iff_right fun hge => Nat.not_lt_of_le hge.1 hdirect)
    have hk : bn < NDIRECT + 1 := Nat.lt_succ_of_lt hdirect
    unfold blockAddr
    rw [if_pos (.inl hdirect), Nat.zero_add, hpos, hway, fileBlock_direct hdirect]
    by_cases hzero : d.addr bn = 0
    · have href : refAt s.disk d (.addr bn) = 0 := hzero
      rw [if_pos href, if_pos hzero]
      rcases Nat.lt_or_ge s.freeblock FSSIZE with hlt | hge
      · refine .inl ⟨hlt, _, _, ?_, h.nextAddr hk hzero hlt, rfl⟩
        have haddr : (d.setAddr bn s.freeblock).addr bn = s.freeblock := by
          rw [addr_setAddr hk (Nat.lt_trans hlt (by decide)), if_pos rfl]
        show _ = Except.ok (((d.setAddr bn s.freeblock).addr bn, _), _)
        rw [haddr]
      · have hfull : s.freeblock = FSSIZE := Nat.le_antisymm h.hi hge
        exact .inr ⟨by omega, .inr ⟨_, _, by rw [hfull]⟩⟩
    · have href : refAt s.disk d (.addr bn) ≠ 0 := hzero
      rw [if_neg href, if_neg hzero]
      exact .inl ⟨h.hi, s, d, rfl, .none h fun q hq => hq ▸ href, rfl⟩
  have hj : bn - NDIRECT < NINDIRECT := by
    unfold MAXFILE at hbn
    omega
  by_cases hind : d.addr NDIRECT = 0
  · have hnone : blockAddr s.disk d bn = 0 := by
      have hpos : posOf bn = .entry (bn - NDIRECT) := if_neg hdirect
      unfold blockAddr
      rw [hpos]
      exact if_neg fun hin => hin.1 hind
    have hpos : s.freeblock ≠ 0 := Nat.ne_of_gt (Nat.lt_of_lt_of_le sb.nmeta_pos h.lo)
    have hfull : FSSIZE < 2 ^ 32 := by decide
    have haddr : (d.setAddr NDIRECT s.freeblock).addr NDIRECT = s.freeblock := by
      rw [addr_setAddr (Nat.lt_succ_self _) (Nat.lt_of_le_of_lt h.hi hfull), if_pos rfl]
    have hne : (d.setAddr NDIRECT s.freeblock).addr NDIRECT ≠ 0 := by rwa [haddr]
    rw [if_neg (not_or.2 ⟨hdirect, not_not.2 hind⟩), if_pos hnone, fileBlock_indirect hdirect hind hne]
    rcases Nat.lt_or_ge s.freeblock FSSIZE with hlt | hge
    · have htakes := h.nextAddr (Nat.lt_succ_self _) hind hlt
      have hstill : blockAddr ({ s with freeblock := s.freeblock + 1 } : State).disk
          (d.setAddr NDIRECT s.freeblock) bn = 0 := by
        by_contra hne
        exact ((htakes.refs _).1 hne).elim (fun hsome => hsome hnone) posOf_ne_indirect
      rcases fileBlock_indirectly htakes.advances.draft hdirect hj hne with
        ⟨hfits, s', hrun, htakes', hcount⟩ | ⟨hfits, s', hrun⟩
      · rw [if_pos hstill] at hfits hcount
        have hsum : s.freeblock + 1 + 1 ≤ FSSIZE := hfits
        have hcount' : s'.freeblock = s.freeblock + 1 + 1 := hcount
        refine .inl ⟨by omega, s', _, hrun, ?_, by omega⟩
        have hboth := htakes.trans htakes'
        refine ⟨hboth.advances, hboth.grows, fun q => (hboth.refs q).trans ?_⟩
        unfold onTheWay
        rw [and_iff_right (Nat.le_of_not_lt hdirect)]
      · rw [if_pos hstill] at hfits
        have hsum : FSSIZE < s.freeblock + 1 + 1 := hfits
        exact .inr ⟨by omega, .inr ⟨_, s', hrun⟩⟩
    · exact .inr ⟨by omega, .inl (fileBlock_full hdirect hne (by rwa [haddr]))⟩
  rw [if_pos (.inr hind), Nat.zero_add]
  rcases fileBlock_indirectly h hdirect hj hind with ⟨hfits, s', hrun, htakes, hcount⟩ | ⟨hfits, s', hrun⟩
  · refine .inl ⟨hfits, s', d, hrun, ⟨htakes.advances, htakes.grows, fun q => (htakes.refs q).trans ?_⟩, hcount⟩
    unfold onTheWay
    constructor
    · exact fun hor => hor.imp_right .inr
    rintro (hsome | ⟨-, rfl⟩ | hq)
    · exact .inl hsome
    · exact .inl hind
    · exact .inr hq
  · exact .inr ⟨hfits, .inr ⟨d, s', hrun⟩⟩

/-! ## `iappend` -/

/-- The file has the blocks for its first `n` bytes and no others. -/
structure Covers (m : Mem) (d : Dinode) (n : Nat) : Prop where
  blocks : ∀ bn, blockAddr m d bn ≠ 0 ↔ bn * BSIZE < n
  indirect : d.addr NDIRECT ≠ 0 ↔ NDIRECT * BSIZE < n

def blocksOf (n : Nat) : Nat := (n + BSIZE - 1) / BSIZE + if NDIRECT * BSIZE < n then 1 else 0

theorem blocksOf_mono (h : n ≤ k) : blocksOf n ≤ blocksOf k := by
  unfold blocksOf NDIRECT BSIZE
  split_ifs <;> omega

theorem Covers.missing (h : Covers m d off) (hpos : 0 < n) (hn : off % BSIZE + n ≤ BSIZE) :
    missing m d (off / BSIZE) + blocksOf off = blocksOf (off + n) := by
  have hblock := h.blocks (off / BSIZE)
  have hindirect := h.indirect
  unfold Mkfs.missing blocksOf
  unfold NDIRECT BSIZE at *
  split_ifs <;> omega

theorem Covers.congr (h : Covers m d n) (hrefs : ∀ q, refAt m' d' q = refAt m d q) : Covers m' d' n where
  blocks bn := by
    rw [← h.blocks, blockAddr, blockAddr, hrefs]
  indirect := by
    have href : d'.addr NDIRECT = d.addr NDIRECT := hrefs (.addr NDIRECT)
    rw [← h.indirect, href]

theorem Covers.takes (h : Covers s.disk d off) (htakes : Takes V x (onTheWay (off / BSIZE)) s d s' d')
    (hpos : 0 < n) (hn : off % BSIZE + n ≤ BSIZE) : Covers s'.disk d' (off + n) where
  blocks bn := by
    have hway : onTheWay (off / BSIZE) (posOf bn) ↔ bn = off / BSIZE :=
      ⟨fun hor => posOf_inj (hor.resolve_left fun hand => posOf_ne_indirect hand.2), fun heq => .inr (by rw [heq])⟩
    refine (htakes.refs _).trans ((or_congr (h.blocks bn) hway).trans ?_)
    unfold BSIZE at *
    omega
  indirect := by
    have hway : onTheWay (off / BSIZE) (.addr NDIRECT) ↔ NDIRECT ≤ off / BSIZE :=
      ⟨fun hor => (hor.resolve_right posOf_ne_indirect.symm).1, fun hle => .inl ⟨hle, rfl⟩⟩
    refine (htakes.refs (.addr NDIRECT)).trans ((or_congr h.indirect hway).trans ?_)
    unfold NDIRECT BSIZE at *
    omega

/-- The bytes `p` have been appended to the file, of which there were `off`. -/
structure Appended (V : Nat → Dinode) (x : Nat) (s : State) (d : Dinode) (off : Nat) (p : List UInt8)
    (s' : State) (d' : Dinode) : Prop where
  advances : Advances V x s d s' d'
  covers : Covers s'.disk d' (off + p.length)
  bytes : fileBytes s'.disk d' 0 (off + p.length) = fileBytes s.disk d 0 off ++ p
  count : s'.freeblock + blocksOf off = s.freeblock + blocksOf (off + p.length)

theorem Appended.nil (h : Draft V x s d) (hcov : Covers s.disk d off) : Appended V x s d off [] s d :=
  ⟨.refl h, hcov, (append_nil _).symm, rfl⟩

theorem Appended.trans {q : List UInt8} {s'' : State} {d'' : Dinode} (h : Appended V x s d off p s' d')
    (h' : Appended V x s' d' (off + p.length) q s'' d'') : Appended V x s d off (p ++ q) s'' d'' where
  advances := h.advances.trans h'.advances
  covers := by
    rw [length_append, ← Nat.add_assoc]
    exact h'.covers
  bytes := by
    rw [length_append, ← Nat.add_assoc, h'.bytes, h.bytes, append_assoc]
  count := by
    have hfirst := h.count
    have hsecond := h'.count
    rw [length_append, ← Nat.add_assoc]
    omega

theorem Draft.writeBlock {o : Nat} (h : Draft V x s d) (hl : o + p.length ≤ BSIZE) (hne : blockAddr s.disk d bn ≠ 0) :
    Advances V x s d { s with img := store s.img (blockAddr s.disk d bn * BSIZE + o) p } d ∧
      ({ s with img := store s.img (blockAddr s.disk d bn * BSIZE + o) p } : State).disk =
        store s.disk (blockAddr s.disk d bn * BSIZE + o) p := by
  have hlo : sb.nmeta * BSIZE ≤ blockAddr s.disk d bn * BSIZE := Nat.mul_le_mul_right _ (h.good.data hne).1
  have hhi : (blockAddr s.disk d bn + 1) * BSIZE ≤ s.freeblock * BSIZE := Nat.mul_le_mul_right _ (h.ref_lt hne)
  have hdisk := disk_store (s := s) (l := p) (Nat.le_trans hlo (Nat.le_add_right _ o))
  obtain ⟨hgood, hkeeps⟩ := h.good.writeBlock hl hne
  rw [Nat.add_mul, Nat.one_mul] at hhi
  have hsame : ∀ a, a < sb.nmeta * BSIZE ∨ s.freeblock * BSIZE ≤ a →
      store s.img (blockAddr s.disk d bn * BSIZE + o) p a = s.img a := by
    intro a hout
    unfold store
    rw [if_neg (by omega)]
  refine ⟨⟨⟨?_, h.hi, fun a ha => ?_⟩, ?_, rfl, rfl, fun a ha => ?_⟩, hdisk⟩
  · rw [hdisk]
    exact hgood
  · have hfar : s.freeblock * BSIZE ≤ a := ha
    show store s.img _ p a = 0
    rw [hsame a (.inr hfar), h.blank a hfar]
  · rw [hdisk]
    exact hkeeps
  · have hmeta : sb.inodestart * BSIZE ≤ sb.nmeta * BSIZE := by decide
    exact hsame a (.inl (Nat.lt_of_lt_of_le ha hmeta))

theorem appendBlock_run (h : Draft V x s d) (hcov : Covers s.disk d off) (hbn : off / BSIZE < MAXFILE)
    (hpos : 0 < p.length) (hp : off % BSIZE + p.length ≤ BSIZE) :
    (s.freeblock + blocksOf (off + p.length) ≤ FSSIZE + blocksOf off ∧
      ∃ s' d', appendBlock d off p s = .ok (d', s') ∧ Appended V x s d off p s' d') ∨
    (FSSIZE + blocksOf off < s.freeblock + blocksOf (off + p.length) ∧ appendBlock d off p s = .error .die) := by
  have hmissing := hcov.missing hpos hp
  unfold appendBlock
  rcases fileBlock_run h hbn with ⟨hfits, s₁, d₁, hrun, htakes, hcount⟩ | ⟨hfits, hdies⟩
  · have hcov₁ := hcov.takes htakes hpos hp
    have hsub : off - off / BSIZE * BSIZE = off % BSIZE := by
      unfold BSIZE
      omega
    have hblocks : ∀ i < off + p.length, blockAddr s₁.disk d₁ (i / BSIZE) ≠ 0 := by
      intro i hi
      rw [hcov₁.blocks]
      exact Nat.lt_of_le_of_lt (Nat.div_mul_le_self i BSIZE) hi
    have hne : blockAddr s₁.disk d₁ (off / BSIZE) ≠ 0 := hblocks off (by omega)
    have hdraft := htakes.advances.draft
    obtain ⟨hadv, hdisk⟩ := hdraft.writeBlock hp hne
    have hlt : blockAddr s₁.disk d₁ (off / BSIZE) < FSSIZE := (hdraft.good.data hne).2
    have hout : ∀ a, ¬ (blockAddr s₁.disk d₁ (off / BSIZE) * BSIZE ≤ a ∧
        a < blockAddr s₁.disk d₁ (off / BSIZE) * BSIZE + BSIZE) →
        store s₁.img (blockAddr s₁.disk d₁ (off / BSIZE) * BSIZE + off % BSIZE) p a = s₁.img a := by
      intro a hout
      unfold store
      rw [if_neg (by omega)]
    refine .inl ⟨by omega, _, d₁, ?_, htakes.advances.trans hadv, ?_, ?_, ?_⟩
    · rw [bind_of_ok hrun]
      dsimp only
      rw [bind_of_ok (rsect_run hlt), hsub, window_store]
      exact bind_of_ok (wsect_run hout)
    · rw [hdisk]
      exact hcov₁.congr fun q => hdraft.good.refAt_store hp q
    · rw [hdisk, hdraft.good.fileBytes_store hp hblocks, htakes.grows.fileBytes fun bn hbn => ?_]
      rw [hcov.blocks]
      omega
    · show s₁.freeblock + _ = _
      omega
  refine .inr ⟨by omega, ?_⟩
  rcases hdies with herr | ⟨d', s', hrun⟩
  · exact bind_of_error herr
  · rw [bind_of_ok hrun]
    exact bind_of_error (rsect_error (Nat.le_refl _))

def Fits (s : State) (off n : Nat) : Prop :=
  off + n ≤ MAXFILE * BSIZE ∧ s.freeblock + blocksOf (off + n) ≤ FSSIZE + blocksOf off

/-- The loop of `iappend`, by induction on the rounds: the bytes are appended if there is room, and
otherwise it does not return. -/
theorem appendLoop_run (h : Draft V x s d) (hcov : Covers s.disk d off) (hoff : off ≤ MAXFILE * BSIZE)
    (hk : p.length ≤ k) : (Fits s off p.length ∧
      ∃ s' d', appendLoop k d off p s = .ok ((d', off + p.length), s') ∧ Appended V x s d off p s' d') ∨
    (¬ Fits s off p.length ∧ ∃ e, appendLoop k d off p s = .error e) := by
  induction k generalizing s d off p with
  | zero =>
    have hnil : p = [] := eq_nil_of_length_eq_zero (Nat.le_zero.1 hk)
    subst hnil
    exact .inl ⟨⟨hoff, Nat.add_le_add_right h.hi _⟩, s, d, rfl, .nil h hcov⟩
  | succ k ih =>
    by_cases hnil : p.length = 0
    · have hnil : p = [] := eq_nil_of_length_eq_zero hnil
      subst hnil
      exact .inl ⟨⟨hoff, Nat.add_le_add_right h.hi _⟩, s, d, rfl, .nil h hcov⟩
    unfold appendLoop
    rw [if_neg hnil]
    by_cases hbig : MAXFILE ≤ off / BSIZE
    · rw [if_pos hbig]
      refine .inr ⟨fun hfits => ?_, .assert, rfl⟩
      have hle := hfits.1
      unfold BSIZE at *
      omega
    rw [if_neg hbig]
    obtain ⟨c, hc⟩ : ∃ c, c = min p.length ((off / BSIZE + 1) * BSIZE - off) := ⟨_, rfl⟩
    rw [← hc]
    have hpos : 0 < c := by
      unfold BSIZE at hc
      omega
    have hle : c ≤ p.length := by omega
    have hblock : off % BSIZE + c ≤ BSIZE := by
      unfold BSIZE at *
      omega
    have htake : (p.take c).length = c := length_take_of_le hle
    have hdrop : (p.drop c).length = p.length - c := length_drop
    have hend : off + c + (p.length - c) = off + p.length := by omega
    have hmid : off + c ≤ MAXFILE * BSIZE := by
      unfold BSIZE at *
      omega
    have hmono : blocksOf (off + c) ≤ blocksOf (off + p.length) := blocksOf_mono (by omega)
    rcases appendBlock_run (p := p.take c) h hcov (Nat.lt_of_not_le hbig) (by rw [htake]; exact hpos)
      (by rw [htake]; exact hblock) with ⟨hfits, s₁, d₁, hrun, happ⟩ | ⟨hfull, hrun⟩
    · have hcount := happ.count
      have hcov₁ := happ.covers
      rw [htake] at hcount hcov₁
      have hiff : Fits s₁ (off + c) (p.length - c) ↔ Fits s off p.length := by
        unfold Fits
        rw [hend]
        omega
      rw [bind_of_ok hrun]
      rcases ih (p := p.drop c) happ.advances.draft hcov₁ hmid (by omega) with
        ⟨hrest, s₂, d₂, hrun₂, happ₂⟩ | ⟨hrest, hrun₂⟩
      · rw [hdrop, hiff] at hrest
        rw [hdrop, hend] at hrun₂
        refine .inl ⟨hrest, s₂, d₂, hrun₂, ?_⟩
        have hall := happ.trans (q := p.drop c) (by rw [htake]; exact happ₂)
        rwa [take_append_drop] at hall
      · rw [hdrop, hiff] at hrest
        exact .inr ⟨hrest, hrun₂⟩
    rw [htake] at hfull
    refine .inr ⟨fun hfits => ?_, .die, bind_of_error hrun⟩
    have hle := hfits.2
    omega

end Xv6.Mkfs
