import Xv6.Fs.Contents
import Xv6.Lib.Splice

/-!
# Files as arrays of bytes

`writei` and `readi` of `kernel/fs.c` against the array of bytes that a file is.  A write goes block by block, and may
end early because the disk is full or the source cannot be read.
-/

namespace Xv6.Fs

open Hoare List Memory Ownership Splice

variable {sb : Superblock} {m m' m'' : Mem} {d d' d'' : Dinode} {V : Nat → Dinode} {s : State} {ip jp : Fin NINODE}
  {x y i k n off : Nat} {src l l' : List UInt8}

/-- The bytes `l` have been written at `off`, into blocks that the file has now. -/
structure Wrote (sb : Superblock) (V : Nat → Dinode) (x : Nat) (m : Mem) (d : Dinode) (off : Nat) (l : List UInt8)
    (m' : Mem) (d' : Dinode) : Prop where
  good : Good sb V x m' d'
  keeps : Keeps sb V x m m'
  attrs : d' = { d with size := d'.size, addrs := d'.addrs }
  refs : ∀ q, refAt m d q ≠ 0 → refAt m' d' q = refAt m d q
  blocks : ∀ i, off ≤ i → i < off + l.length → blockAddr m' d' (i / BSIZE) ≠ 0
  new : ∀ i, off ≤ i → i < off + l.length → fileByte m' d' i = l.getD (i - off) 0
  old : ∀ i, blockAddr m d (i / BSIZE) ≠ 0 → ¬ (off ≤ i ∧ i < off + l.length) → fileByte m' d' i = fileByte m d i

theorem Gained.wrote (h : Gained sb V x m d m' d') : Wrote sb V x m d off [] m' d' where
  good := h.good
  keeps := h.keeps
  attrs := by
    have hattrs := h.grows.attrs
    generalize d'.addrs = addrs at hattrs
    subst hattrs
    rfl
  refs := h.grows.refs
  blocks _ hlo hhi := absurd hhi (Nat.not_lt_of_le hlo)
  new _ hlo hhi := absurd hhi (Nat.not_lt_of_le hlo)
  old _ hi _ := h.grows.fileByte hi

theorem Wrote.trans (h : Wrote sb V x m d off l m' d') (h' : Wrote sb V x m' d' (off + l.length) l' m'' d'') :
    Wrote sb V x m d off (l ++ l') m'' d'' where
  good := h'.good
  keeps := h.keeps.trans h'.keeps
  attrs := by rw [h'.attrs, h.attrs]
  refs q hne := by
    have hfirst := h.refs q hne
    rw [h'.refs q (by rwa [hfirst]), hfirst]
  blocks i hlo hhi := by
    rw [length_append] at hhi
    by_cases hin : i < off + l.length
    · have hfirst := h.blocks i hlo hin
      unfold blockAddr at *
      rwa [h'.refs _ hfirst]
    · exact h'.blocks i (Nat.le_of_not_lt hin) (by omega)
  new i hlo hhi := by
    rw [length_append] at hhi
    by_cases hin : i < off + l.length
    · rw [h'.old i (h.blocks i hlo hin) (by omega), h.new i hlo hin, getD_append _ _ _ _ (by omega)]
    · rw [h'.new i (Nat.le_of_not_lt hin) (by omega), getD_append_right _ _ _ _ (by omega)]
      congr 1
      omega
  old i hi hout := by
    rw [length_append] at hout
    have hblock : blockAddr m' d' (i / BSIZE) ≠ 0 := by
      unfold blockAddr at *
      rwa [h.refs _ hi]
    rw [h'.old i hblock (by omega), h.old i hi (by omega)]

theorem blockAddr_eq_zero (hrefs : ∀ q, refAt m d q ≠ 0 → refAt m' d' q = refAt m d q) (hk : blockAddr m' d' k = 0) :
    blockAddr m d k = 0 := by
  by_contra hne
  unfold blockAddr at *
  exact hne ((hrefs _ hne).symm.trans hk)

theorem Good.wrote (h : Good sb V x m d) (hl : off % BSIZE + l.length ≤ BSIZE)
    (hne : blockAddr m d (off / BSIZE) ≠ 0) :
    Wrote sb V x m d off l (store m (blockAddr m d (off / BSIZE) * BSIZE + off % BSIZE) l) d := by
  have hsplit : off / BSIZE * BSIZE + off % BSIZE = off := Nat.div_add_mod' off BSIZE
  have hsame : ∀ i, off ≤ i → i < off + l.length → i / BSIZE = off / BSIZE := by
    intro i hlo hhi
    unfold BSIZE at *
    omega
  obtain ⟨hgood, hkeeps⟩ := h.writeBlock hl hne
  refine ⟨hgood, hkeeps, rfl, fun q _ => h.refAt_store hl q, fun i hlo hhi => ?_, fun i hlo hhi => ?_,
    fun i hi hout => ?_⟩
  · rw [hsame i hlo hhi, blockAddr, h.refAt_store hl]
    exact hne
  · rw [h.fileByte_store hl (by rwa [hsame i hlo hhi]), hsplit, if_pos ⟨hlo, hhi⟩]
  · rw [h.fileByte_store hl hi, hsplit, if_neg hout]

/-- How a write of `n` bytes ends that has stored `l` and reports `r` bytes: all is done, or there is no block for the next
byte and none left on the disk, or the copy has faulted.  Then the bytes in front of the fault are there all the same, and
the reported ones end with a block. -/
def Ends (sb : Superblock) (m : Mem) (d : Dinode) (src : List UInt8) (off n r : Nat) (l : List UInt8) (m' : Mem) : Prop :=
  l.length = r ∧ (r = n ∨ blockAddr m d ((off + r) / BSIZE) = 0 ∧ Full sb m') ∨
    l = src ∧ src.length < n ∧ off + r = max off ((off + src.length) / BSIZE * BSIZE)

/-- The loop of `writei`, by induction on the rounds. -/
theorem writeLoop_work (s : State) (ip : Fin NINODE) (src : List UInt8) (h : Good sb V x m d)
    (hoff : off + n ≤ MAXFILE * BSIZE) (hk : n ≤ k) :
    ∃ r l m' d', writeLoop sb ip k src off n (s.work ip m d) = .ok (r, s.work ip m' d') ∧
      Wrote sb V x m d off l m' d' ∧ d'.size = d.size ∧ l = src.take l.length ∧ r ≤ l.length ∧ l.length ≤ n ∧
      Ends sb m d src off n r l m' := by
  induction k generalizing m d off n src with
  | zero =>
    have hzero : n = 0 := Nat.le_zero.1 hk
    subst hzero
    exact ⟨0, [], m, d, rfl, (Gained.refl h).wrote, rfl, rfl, Nat.le_refl 0, Nat.le_refl 0, .inl ⟨rfl, .inl rfl⟩⟩
  | succ k ih =>
    by_cases hn : n = 0
    · subst hn
      exact ⟨0, [], m, d, rfl, (Gained.refl h).wrote, rfl, rfl, Nat.le_refl 0, Nat.le_refl 0, .inl ⟨rfl, .inl rfl⟩⟩
    have hbn : off / BSIZE < MAXFILE := by
      unfold BSIZE at *
      omega
    obtain ⟨m₁, d₁, hbmap, hgained, hfull⟩ := @bmap_work sb m d V x _ s ip h hbn
    have hsize : d₁.size = d.size := by rw [hgained.grows.attrs]
    unfold writeLoop
    rw [if_neg hn, bind_of_ok hbmap]
    by_cases hzero : blockAddr m₁ d₁ (off / BSIZE) = 0
    · have hnone : blockAddr m d (off / BSIZE) = 0 := blockAddr_eq_zero hgained.grows.refs hzero
      rw [if_pos hzero]
      exact ⟨0, [], m₁, d₁, rfl, hgained.wrote, hsize, rfl, Nat.le_refl 0, Nat.zero_le n,
        .inl ⟨rfl, .inr ⟨hnone, hfull hzero⟩⟩⟩
    rw [if_neg hzero]
    obtain ⟨c, hc⟩ : ∃ c, c = min n (BSIZE - off % BSIZE) := ⟨_, rfl⟩
    have hcn : c ≤ n := by omega
    have hpos : 0 < c := by
      unfold BSIZE at hc
      omega
    have hblock : off % BSIZE + c ≤ BSIZE := by
      unfold BSIZE at *
      omega
    have htake : (src.take c).length ≤ c := length_take_le c src
    have hstored := hgained.good.wrote (l := src.take c) (by omega) hzero
    have hfirst : Wrote sb V x m d off (src.take c) _ d₁ := hgained.wrote.trans hstored
    simp only [modify_bind, work_disk, work_setDisk, ← hc]
    by_cases hfault : src.length < c
    · -- The copy faults inside of the block.
      have hall : src.take c = src := take_of_length_le (Nat.le_of_lt hfault)
      have hend : off + 0 = max off ((off + src.length) / BSIZE * BSIZE) := by
        unfold BSIZE at *
        omega
      rw [if_pos hfault]
      rw [hall] at hfirst ⊢
      exact ⟨0, src, _, d₁, rfl, hfirst, hsize, (take_length).symm, Nat.zero_le _, by omega, .inr ⟨rfl, by omega, hend⟩⟩
    have hlen : (src.take c).length = c := length_take_of_le (Nat.le_of_not_lt hfault)
    obtain ⟨r, l, m₂, d₂, hrun, hwrote, hsize', hl, hr, hln, hends⟩ :=
      ih (src.drop c) hfirst.good (show off + c + (n - c) ≤ MAXFILE * BSIZE by omega) (by omega)
    rw [if_neg hfault, bind_of_ok hrun]
    refine ⟨c + r, src.take c ++ l, m₂, d₂, rfl, hfirst.trans (by rwa [hlen]), hsize'.trans hsize, ?_, ?_, ?_, ?_⟩
    · rw [length_append, hlen, take_add, ← hl]
    · rw [length_append]
      omega
    · rw [length_append]
      omega
    unfold Ends at *
    rw [length_append, hlen, ← Nat.add_assoc]
    rcases hends with ⟨hlr, hdone | ⟨hnone, hfull⟩⟩ | ⟨hall, hsrc, hend⟩
    · exact .inl ⟨by omega, .inl (by omega)⟩
    · exact .inl ⟨by omega, .inr ⟨blockAddr_eq_zero hfirst.refs hnone, hfull⟩⟩
    rw [length_drop] at hsrc hend
    refine .inr ⟨by rw [hall, take_append_drop], by omega, ?_⟩
    unfold BSIZE at *
    omega

/-! ## `writei` -/

theorem Wrote.update (h : Wrote sb V x m d off l m' d') (v : UInt32) :
    Wrote sb V x m d off l (putDinode m' (inodeAddr sb x) { d' with size := v }) { d' with size := v } := by
  obtain ⟨hgood, hkeeps, hsame⟩ := (h.good.resize v).update
  have hrefs : ∀ q, refAt (putDinode m' (inodeAddr sb x) { d' with size := v }) { d' with size := v } q =
      refAt m' d' q := by
    intro q
    rw [hsame.refs, refAt_resize]
  have hbyte : ∀ i, blockAddr m' d' (i / BSIZE) ≠ 0 →
      fileByte (putDinode m' (inodeAddr sb x) { d' with size := v }) { d' with size := v } i = fileByte m' d' i := by
    intro i hi
    have hmod : i % BSIZE < BSIZE := Nat.mod_lt _ (by decide)
    unfold fileByte blockAddr
    rw [hrefs]
    have hdata := hsame.data (i / BSIZE)
    unfold blockAddr at hdata
    rw [refAt_resize] at hdata
    exact hdata hi _ (Nat.le_add_right _ _) (by omega)
  refine ⟨hgood, h.keeps.trans hkeeps, ?_, fun q hne => ?_, fun i hlo hhi => ?_, fun i hlo hhi => ?_,
    fun i hi hout => ?_⟩
  · rw [h.attrs]
  · rw [hrefs, h.refs q hne]
  · unfold blockAddr
    rw [hrefs]
    exact h.blocks i hlo hhi
  · rw [hbyte i (h.blocks i hlo hhi), h.new i hlo hhi]
  have hblock : blockAddr m' d' (i / BSIZE) ≠ 0 := by
    unfold blockAddr at *
    rwa [h.refs _ hi]
  rw [hbyte i hblock, h.old i hi hout]

section

variable (h : Wrote sb V x m d off l m' d') (hno : NoHoles m d d.size.toNat) (hoff : off ≤ d.size.toNat)

include h hno hoff

theorem Wrote.noHoles {r : Nat} (hr : r ≤ l.length) : NoHoles m' d' (max d.size.toNat (off + r)) := by
  intro bn hbn
  by_cases hold : bn * BSIZE < d.size.toNat
  · have hne := hno bn hold
    unfold blockAddr at *
    rwa [h.refs _ hne]
  · have hnew := h.blocks (bn * BSIZE) (by omega) (by omega)
    rwa [Nat.mul_div_cancel _ (by decide : 0 < BSIZE)] at hnew

theorem Wrote.contents {r : Nat} (hr : r ≤ l.length) (hsize : d'.size.toNat = max d.size.toNat (off + r)) :
    contents m' d' = (overwrite (contents m d) off l).take d'.size.toNat := by
  have hlen : off ≤ (Fs.contents m d).length := by rwa [length_contents]
  apply ext_getElem?
  intro i
  by_cases hi : i < d'.size.toNat
  · rw [getElem?_take_of_lt hi, getElem?_overwrite hlen]
    unfold Fs.contents
    rw [getElem?_fileBytes hi, Nat.zero_add]
    by_cases hin : off ≤ i ∧ i < off + l.length
    · rw [if_pos hin, h.new i hin.1 hin.2, getD_eq_getElem?_getD]
      have hlt : i - off < l.length := by omega
      rw [getElem?_eq_getElem hlt]
      rfl
    have hlow : i < d.size.toNat := by omega
    have hblock : blockAddr m d (i / BSIZE) ≠ 0 := by
      apply hno
      exact Nat.lt_of_le_of_lt (Nat.div_mul_le_self _ _) hlow
    rw [if_neg hin, getElem?_fileBytes hlow, Nat.zero_add, h.old i hblock hin]
  · rw [getElem?_eq_none (by rw [length_contents]; omega), getElem?_eq_none]
    rw [length_take]
    omega

end

theorem writei_work (src : List UInt8) (h : Good sb V x m d) (hx : (s.inode ip).inum = x)
    (hoff : off ≤ d.size.toNat) (hmax : off + n ≤ MAXFILE * BSIZE) :
    ∃ (r : Nat) (l : List UInt8) (m' : Mem) (d' : Dinode),
      writei sb ip src off n (s.work ip m d) = .ok ((r : Int), s.work ip m' d') ∧
      Wrote sb V x m d off l m' d' ∧ d'.size.toNat = max d.size.toNat (off + r) ∧ dinode sb m' x = d' ∧
      l = src.take l.length ∧ r ≤ l.length ∧ l.length ≤ n ∧ Ends sb m d src off n r l m' := by
  have hsmall : off + n < 2 ^ 32 := Nat.lt_of_le_of_lt hmax (by decide)
  obtain ⟨r, l, m₁, d₁, hrun, hwrote, hsize, hl, hr, hln, hends⟩ := writeLoop_work s ip src h hmax (Nat.le_refl n)
  have hlt : d.size.toNat < 2 ^ 32 := d.size.toNat_lt
  have hguard : ¬ (d.size.toNat < off ∨ (off + n) % 2 ^ 32 < off) := by
    rw [Nat.mod_eq_of_lt hsmall]
    omega
  -- The size is set or stays; either way it is the greater of the two.
  obtain ⟨v, hv⟩ : ∃ v, v = if d.size.toNat < off + r then UInt32.ofNat (off + r) else d.size := ⟨_, rfl⟩
  have hvsize : v.toNat = max d.size.toNat (off + r) := by
    rw [hv]
    split
    · rw [UInt32.toNat_ofNat', Nat.mod_eq_of_lt (by omega)]
      omega
    · omega
  have htail : ∀ d₂, (do
      iupdate sb ip
      pure (r : Int) : Sys Int) (s.work ip m₁ d₂) = .ok ((r : Int), s.work ip (putDinode m₁ (inodeAddr sb x) d₂) d₂) := by
    intro d₂
    rw [bind_of_ok iupdate_work, hx]
    rfl
  refine ⟨r, l, _, { d₁ with size := v }, ?_, hwrote.update v, hvsize, dinode_putDinode_self sb, hl, hr, hln, ?_⟩
  · unfold writei
    simp only [get_bind, work_inode_self]
    rw [if_neg hguard, if_neg (Nat.not_lt_of_le hmax), bind_of_ok hrun]
    simp only [get_bind, work_inode_self, hsize]
    rw [hv]
    by_cases hgrow : d.size.toNat < off + r
    · rw [if_pos hgrow, if_pos hgrow, bind_of_ok (setCopy_work _), htail]
    · rw [if_neg hgrow, if_neg hgrow, htail, ← hsize]
  · refine hends.imp_left (And.imp_right (Or.imp_right (And.imp_right fun hfull b hb => ?_)))
    rw [(sameAbove_putDinode h.lt).inUse]
    exact hfull b hb

/-! ## The disk and the inode that is held -/

/-- Every block has its owner, and no file has a hole. -/
structure InOrder (sb : Superblock) (m : Mem) : Prop where
  owned : Owned sb m (owns sb m (dinode sb m))
  noHoles : ∀ x < sb.ninodes, (dinode sb m x).type ≠ 0 → NoHoles m (dinode sb m x) (dinode sb m x).size.toNat

/-- Entry `ip` of the inode table holds inode `x`, as the disk has it. -/
structure Held (sb : Superblock) (s : State) (ip : Fin NINODE) (x : Nat) : Prop where
  lt : x < sb.ninodes
  type : (dinode sb s.disk x).type ≠ 0
  inum : (s.inode ip).inum = x
  copy : (s.inode ip).copy = dinode sb s.disk x

theorem InOrder.good (h : InOrder sb s.disk) (hheld : Held sb s ip x) :
    Good sb (dinode sb s.disk) x s.disk (dinode sb s.disk x) :=
  .of_owned h.owned hheld.lt hheld.type

theorem Held.work (h : Held sb s ip x) : s.work ip s.disk (dinode sb s.disk x) = s := by
  rw [← h.copy, work_self]

theorem InOrder.readi (h : InOrder sb s.disk) (hheld : Held sb s ip x) (hlt : off + n < 2 ^ 32) :
    readi sb ip off n s = .ok (((contents s.disk (dinode sb s.disk x)).drop off).take n, s) := by
  have hholes := h.noHoles x hheld.lt hheld.type
  rw [← hheld.copy] at hholes ⊢
  exact readi_contents hholes hlt

/-- What a write of `l` at `off` has left, of which `r` bytes are reported. -/
structure Stored (sb : Superblock) (ip : Fin NINODE) (x off r : Nat) (l : List UInt8) (s s' : State) : Prop where
  inOrder : InOrder sb s'.disk
  held : Held sb s' ip x
  size : (dinode sb s'.disk x).size.toNat = max (dinode sb s.disk x).size.toNat (off + r)
  contents : contents s'.disk (dinode sb s'.disk x) =
    (overwrite (contents s.disk (dinode sb s.disk x)) off l).take (dinode sb s'.disk x).size.toNat
  others : ∀ y < sb.ninodes, y ≠ x → dinode sb s'.disk y = dinode sb s.disk y ∧
    ((dinode sb s.disk y).type ≠ 0 →
      Fs.contents s'.disk (dinode sb s'.disk y) = Fs.contents s.disk (dinode sb s.disk y))

theorem Wrote.stored {r : Nat} (h : InOrder sb s.disk) (hheld : Held sb s ip x)
    (hoff : off ≤ (dinode sb s.disk x).size.toNat)
    (hwrote : Wrote sb (dinode sb s.disk) x s.disk (dinode sb s.disk x) off l m' d') (hr : r ≤ l.length)
    (hsize : d'.size.toNat = max (dinode sb s.disk x).size.toNat (off + r)) (hback : dinode sb m' x = d') :
    Stored sb ip x off r l s (s.work ip m' d') := by
  have hno := h.noHoles x hheld.lt hheld.type
  refine ⟨⟨?_, ?_⟩, ⟨?_, ?_, ?_, ?_⟩, ?_, ?_, ?_⟩
  · exact hwrote.good.settle hback
  · intro y hy hty
    by_cases hyx : y = x
    · rw [hyx, work_disk, hback, hsize]
      exact hwrote.noHoles hno hoff hr
    rw [work_disk, hwrote.good.others y hy hyx] at hty ⊢
    have hsame := hwrote.keeps y hy hyx hty
    intro bn hbn
    unfold blockAddr
    rw [hsame.refs]
    exact h.noHoles y hy hty bn hbn
  · exact hheld.lt
  · rw [work_disk, hback, hwrote.attrs]
    exact hheld.type
  · rw [work_inode_self]
    exact hheld.inum
  · rw [work_inode_self, work_disk, hback]
  · rw [work_disk, hback, hsize]
  · rw [work_disk, hback, hwrote.contents hno hoff hr hsize]
  intro y hy hyx
  have hsame := hwrote.good.others y hy hyx
  rw [work_disk, hsame]
  exact ⟨rfl, fun hty => (hwrote.keeps y hy hyx hty).fileBytes fun bn hbn =>
    h.noHoles y hy hty bn (by omega)⟩

theorem writei_stored (src : List UInt8) (h : InOrder sb s.disk) (hheld : Held sb s ip x)
    (hoff : off ≤ (dinode sb s.disk x).size.toNat) (hmax : off + n ≤ MAXFILE * BSIZE) :
    ∃ (r : Nat) (l : List UInt8) (s' : State), writei sb ip src off n s = .ok ((r : Int), s') ∧
      Stored sb ip x off r l s s' ∧ l = src.take l.length ∧ r ≤ l.length ∧ l.length ≤ n ∧
      Ends sb s.disk (dinode sb s.disk x) src off n r l s'.disk := by
  obtain ⟨r, l, m', d', hrun, hwrote, hsize, hback, hl, hr, hln, hends⟩ :=
    writei_work src (h.good hheld) hheld.inum hoff hmax
  rw [hheld.work] at hrun
  exact ⟨r, l, _, hrun, hwrote.stored h hheld hoff hr hsize hback, hl, hr, hln, hends⟩

end Xv6.Fs
