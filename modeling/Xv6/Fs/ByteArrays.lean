import Xv6.Fs.Write
import Xv6.Mkfs.ReadBack

/-!
# What a write leaves to be read

For a source that can be read all the way, `writei` writes an array of bytes and `readi` reads it.  A source
that ends inside of a block is copied into the block as far as it goes, and `writei` reports none of that.
-/

namespace Xv6.Fs

open Memory Ownership Hoare Splice

variable {sb : Superblock} {m : Mem} {d : Dinode} {V : Nat → Dinode} {s : State} {ip : Fin NINODE} {x n off : Nat}
  {src : List UInt8}

/-- Whoever holds inode `x` of the disk `m`, `readi` returns to it the bytes `c`. -/
def ReadsAs (sb : Superblock) (m : Mem) (x : Nat) (c : List UInt8) : Prop :=
  ∀ t ip off n, t.disk = m → Held sb t ip x → off + n < 2 ^ 32 → readi sb ip off n t = .ok ((c.drop off).take n, t)

theorem InOrder.readsAs (h : InOrder sb m) : ReadsAs sb m x (contents m (dinode sb m x)) := by
  intro t ip off n hdisk hheld hlt
  subst hdisk
  exact h.readi hheld hlt

theorem Stored.contents_eq {r : Nat} {l : List UInt8} {s' : State} (h : Stored sb ip x off r l s s')
    (hoff : off ≤ (dinode sb s.disk x).size.toNat) (hr : l.length = r) :
    Fs.contents s'.disk (dinode sb s'.disk x) = overwrite (Fs.contents s.disk (dinode sb s.disk x)) off l := by
  have hlen : off ≤ (Fs.contents s.disk (dinode sb s.disk x)).length := by rwa [length_contents]
  rw [h.contents, h.size, ← hr]
  apply List.take_of_length_le
  rw [length_overwrite hlen, length_contents]

/-! ## A disk with a file of two bytes -/

def holding (m : Mem) (x : Nat) : State :=
  (Mkfs.booted m).setInode ⟨0, by decide⟩ ⟨x, 1, true, true, dinode Mkfs.sb m x⟩

theorem held_holding (hx : x < Mkfs.sb.ninodes) (htype : (dinode Mkfs.sb m x).type ≠ 0) :
    Held Mkfs.sb (holding m x) ⟨0, by decide⟩ x where
  lt := hx
  type := htype
  inum := by rw [holding, setInode_self]
  copy := by
    rw [holding, setInode_self]
    rfl

theorem exists_twoBytes : ∃ m, InOrder Mkfs.sb m ∧ Held Mkfs.sb (holding m 2) ⟨0, by decide⟩ 2 ∧
    contents m (dinode Mkfs.sb m 2) = [97, 98] := by
  obtain ⟨s, -, hfinal⟩ := Mkfs.main_returns (by decide) Mkfs.acceptable_twoBytes
  have hfile := hfinal.holds 2 (by decide) (by decide)
  have hsize := hfinal.size 2 (by decide) (by decide)
  have htype : (dinode Mkfs.sb s.img 2).type ≠ 0 := by
    rw [hfile.type]
    decide
  refine ⟨s.img, ⟨hfinal.owned, (hfinal.consistent (by decide) (by decide)).noHoles⟩, held_holding (by decide) htype, ?_⟩
  rw [contents, hsize]
  exact hfile.bytes

theorem size_twoBytes (h : contents m (dinode Mkfs.sb m 2) = [97, 98]) : (dinode Mkfs.sb m 2).size.toNat = 2 := by
  rw [← length_contents, h]
  rfl

/-! ## A source that can be read -/

/-- A file is an array of bytes. -/
theorem writei_byteArray (h : InOrder sb s.disk) (hheld : Held sb s ip x)
    (hoff : off ≤ (dinode sb s.disk x).size.toNat) (hmax : off + n ≤ MAXFILE * BSIZE) (hsrc : src.length = n) :
    ∃ (r : Nat) (s' : State), writei sb ip src off n s = .ok ((r : Int), s') ∧ r ≤ n ∧ (r < n → Full sb s'.disk) ∧
      contents s'.disk (dinode sb s'.disk x) = overwrite (contents s.disk (dinode sb s.disk x)) off (src.take r) ∧
      (dinode sb s'.disk x).size.toNat = max (dinode sb s.disk x).size.toNat (off + r) ∧
      ReadsAs sb s'.disk x (contents s'.disk (dinode sb s'.disk x)) ∧ InOrder sb s'.disk ∧ Held sb s' ip x ∧
      ∀ y < sb.ninodes, y ≠ x → dinode sb s'.disk y = dinode sb s.disk y ∧ ((dinode sb s.disk y).type ≠ 0 →
        contents s'.disk (dinode sb s'.disk y) = contents s.disk (dinode sb s.disk y)) := by
  obtain ⟨r, l, s', hrun, hstored, hl, hr, hln, hends⟩ := writei_stored src h hheld hoff hmax
  obtain ⟨hlr, hdone⟩ := hends.resolve_right fun hfault => absurd hfault.2.1 (by omega)
  have hcontents := hstored.contents_eq hoff hlr
  rw [hl, hlr] at hcontents
  refine ⟨r, s', hrun, by omega, fun hlt => ?_, hcontents, hstored.size, hstored.inOrder.readsAs, hstored.inOrder,
    hstored.held, hstored.others⟩
  exact (hdone.resolve_left (by omega)).2

theorem writei_byteArray_twoBytes : ∃ m, InOrder Mkfs.sb m ∧ ∃ (r : Nat) (s' : State),
    writei Mkfs.sb ⟨0, by decide⟩ [120] 1 1 (holding m 2) = .ok ((r : Int), s') ∧
      contents s'.disk (dinode Mkfs.sb s'.disk 2) = overwrite [97, 98] 1 (List.take r [120]) := by
  obtain ⟨m, hm, hheld, hcontents⟩ := exists_twoBytes
  have hsize := size_twoBytes hcontents
  have hoff : 1 ≤ (dinode Mkfs.sb (holding m 2).disk 2).size.toNat := by
    show 1 ≤ (dinode Mkfs.sb m 2).size.toNat
    omega
  obtain ⟨r, s', hrun, -, -, hafter, -⟩ := @writei_byteArray _ _ _ _ 1 _ [120] hm hheld hoff (by decide) rfl
  refine ⟨m, hm, r, s', hrun, ?_⟩
  rw [hafter]
  show overwrite (contents m (dinode Mkfs.sb m 2)) 1 _ = _
  rw [hcontents]

/-! ## A source that ends early -/

/-- Of what is read afterwards, `writei` has changed the bytes that it reports. -/
def ChangesReported (sb : Superblock) (s : State) (ip : Fin NINODE) (x : Nat) (src : List UInt8) (off n : Nat) : Prop :=
  ∃ (r : Nat) (s' : State), writei sb ip src off n s = .ok ((r : Int), s') ∧ r ≤ src.length ∧
    ReadsAs sb s'.disk x (overwrite (contents s.disk (dinode sb s.disk x)) off (src.take r))

theorem ReadsAs.eq {c : List UInt8} (h : ReadsAs sb s.disk x c) (horder : InOrder sb s.disk) (hheld : Held sb s ip x)
    (hlen : c.length = (dinode sb s.disk x).size.toNat) : c = contents s.disk (dinode sb s.disk x) := by
  have hlt : 0 + (dinode sb s.disk x).size.toNat < 2 ^ 32 := by
    rw [Nat.zero_add]
    exact (dinode sb s.disk x).size.toNat_lt
  have hread := (h s ip 0 _ rfl hheld hlt).symm.trans (horder.readi hheld hlt)
  rw [Except.ok.injEq, Prod.mk.injEq, List.drop_zero, List.drop_zero, ← hlen, List.take_length, hlen,
    List.take_of_length_le (Nat.le_of_eq length_contents)] at hread
  exact hread.1

/-- Of a source that ends early, the bytes from the last block boundary on are those of the file already, or beyond its
end. -/
def Unseen (src old : List UInt8) (off n : Nat) : Prop :=
  n ≤ src.length ∨ ∀ i, max off ((off + src.length) / BSIZE * BSIZE) ≤ i → i < off + src.length → i < old.length →
    src[i - off]? = old[i]?

/-- The reported bytes end at `off + r`, and those up to the end of the source have been stored as well. -/
theorem take_overwrite_eq_iff {old : List UInt8} {r : Nat} (hoff : off ≤ old.length) (hr : r ≤ src.length) :
    overwrite old off (src.take r) = (overwrite old off src).take (max old.length (off + r)) ↔
      ∀ i, off + r ≤ i → i < off + src.length → i < old.length → src[i - off]? = old[i]? := by
  have hlen : (src.take r).length = r := List.length_take_of_le hr
  refine ⟨fun heq i hlo hhi hold => ?_, fun hsame => List.ext_getElem? fun i => ?_⟩
  · have hi : (overwrite old off (src.take r))[i]? = _ := congrArg (·[i]?) heq
    rw [List.getElem?_take_of_lt (by omega), getElem?_overwrite hoff, getElem?_overwrite hoff, hlen, if_neg (by omega),
      if_pos ⟨by omega, hhi⟩] at hi
    exact hi.symm
  by_cases hi : i < max old.length (off + r)
  · rw [List.getElem?_take_of_lt hi, getElem?_overwrite hoff, getElem?_overwrite hoff, hlen]
    by_cases hin : off ≤ i ∧ i < off + r
    · rw [if_pos hin, if_pos ⟨hin.1, by omega⟩, List.getElem?_take_of_lt (by omega)]
    rw [if_neg hin]
    split
    · next hstray => exact (hsame i (by omega) hstray.2 (by omega)).symm
    · rfl
  · rw [List.getElem?_eq_none (by rw [length_overwrite hoff, hlen]; omega),
      List.getElem?_eq_none (by rw [List.length_take]; omega)]

/-- A write changes what it reports and nothing else if and only if the bytes that are copied in vain are not seen. -/
theorem writei_changesReported_iff (h : InOrder sb s.disk) (hheld : Held sb s ip x)
    (hoff : off ≤ (dinode sb s.disk x).size.toNat) (hmax : off + n ≤ MAXFILE * BSIZE) :
    ChangesReported sb s ip x src off n ↔ Unseen src (contents s.disk (dinode sb s.disk x)) off n := by
  obtain ⟨r, l, s', hrun, hstored, hl, hr, hln, hends⟩ := writei_stored src h hheld hoff hmax
  have hsrc : r ≤ src.length := by
    have hle := List.length_take_le' l.length src
    rw [← hl] at hle
    omega
  have hold : off ≤ (contents s.disk (dinode sb s.disk x)).length := by rwa [length_contents]
  have hreads : ChangesReported sb s ip x src off n ↔ overwrite (contents s.disk (dinode sb s.disk x)) off (src.take r) =
      (overwrite (contents s.disk (dinode sb s.disk x)) off l).take (max (contents s.disk (dinode sb s.disk x)).length (off + r)) := by
    rw [length_contents, ← hstored.size, ← hstored.contents]
    constructor
    · rintro ⟨r', t, hrun', -, hreads⟩
      obtain ⟨hr', rfl⟩ := Prod.mk.inj (Except.ok.inj (hrun'.symm.trans hrun))
      obtain rfl := Int.ofNat_inj.mp hr'
      apply hreads.eq hstored.inOrder hstored.held
      rw [length_overwrite hold, length_contents, List.length_take_of_le hsrc, hstored.size]
    · exact fun heq => ⟨r, s', hrun, hsrc, heq ▸ hstored.inOrder.readsAs⟩
  rw [hreads]
  rcases hends with ⟨hlr, hdone⟩ | ⟨rfl, hshort, hend⟩
  · -- What is stored is reported.
    refine iff_of_true ?_ ?_
    · rw [hlr] at hl
      rw [← hl, List.take_of_length_le (by rw [length_overwrite hold, hlr])]
    rcases hdone with rfl | ⟨hnone, -⟩
    · exact .inl hsrc
    refine .inr fun i hlo _ hi => absurd hnone (h.noHoles x hheld.lt hheld.type _ ?_)
    rw [length_contents] at hi
    unfold BSIZE at *
    omega
  · rw [take_overwrite_eq_iff hold hsrc, hend]
    exact (or_iff_right (Nat.not_le_of_lt hshort)).symm

/-- One byte of two can be read, and it is the one that the file begins with. -/
theorem writei_changesReported_iff_same : ∃ m, InOrder Mkfs.sb m ∧
    ChangesReported Mkfs.sb (holding m 2) ⟨0, by decide⟩ 2 [97] 0 2 := by
  obtain ⟨m, hm, hheld, hcontents⟩ := exists_twoBytes
  refine ⟨m, hm, (writei_changesReported_iff hm hheld (Nat.zero_le _) (by decide)).mpr (.inr fun i _ hi _ => ?_)⟩
  obtain rfl : i = 0 := Nat.lt_one_iff.mp (Nat.zero_add 1 ▸ hi)
  show _ = (contents m (dinode Mkfs.sb m 2))[0]?
  rw [hcontents]
  rfl

/-- One byte of two can be read.  It is stored, and nothing is reported. -/
theorem writei_changes_unreported : ¬ ∀ sb s ip x src off n, InOrder sb s.disk → Held sb s ip x →
    off ≤ (dinode sb s.disk x).size.toNat → off + n ≤ MAXFILE * BSIZE → ChangesReported sb s ip x src off n := by
  intro hall
  obtain ⟨m, hm, hheld, hcontents⟩ := exists_twoBytes
  have hsize := size_twoBytes hcontents
  obtain ⟨r, l, s', hrun, hstored, hl, hr, -, hends⟩ := writei_stored [120] hm hheld (Nat.zero_le _) (show 0 + 2 ≤ _ by decide)
  have hle : l.length ≤ 1 := by
    rw [hl]
    exact List.length_take_le' _ _
  have hstray : ¬ (l.length = r ∧ (r = 2 ∨ blockAddr m (dinode Mkfs.sb m 2) ((0 + r) / BSIZE) = 0 ∧ Full Mkfs.sb s'.disk)) := by
    rintro ⟨-, rfl | ⟨hnone, -⟩⟩
    · omega
    · refine absurd hnone (hm.noHoles 2 hheld.lt hheld.type _ ?_)
      unfold BSIZE
      omega
  obtain ⟨rfl, -, hend⟩ := hends.resolve_left hstray
  obtain rfl : r = 0 := by simpa [BSIZE] using hend
  obtain ⟨r, t, hrun', -, hreads⟩ := hall Mkfs.sb (holding m 2) ⟨0, by decide⟩ 2 [120] 0 2 hm hheld (Nat.zero_le _)
    (by decide)
  obtain ⟨hr, rfl⟩ := Prod.mk.inj (Except.ok.inj (hrun'.symm.trans hrun))
  obtain rfl : r = 0 := Int.ofNat_eq_zero.mp hr
  -- The claim says that `"ab"` is read, and `"xb"` is.
  have hbefore : contents (holding m 2).disk (dinode Mkfs.sb (holding m 2).disk 2) = [97, 98] := hcontents
  have hsize' : (dinode Mkfs.sb (holding m 2).disk 2).size.toNat = 2 := hsize
  have hafter := hstored.contents
  rw [hbefore] at hreads hafter
  rw [hstored.size, hsize'] at hafter
  have hread := (hreads.eq hstored.inOrder hstored.held (by rw [hstored.size, hsize']; rfl)).trans hafter
  exact absurd hread (by decide)

end Xv6.Fs
