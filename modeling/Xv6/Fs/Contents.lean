import Xv6.Fs.Bmap

/-!
# What is in a file

The bytes of a file are those of its blocks, one block after the other.  `readi` returns them, and where
no block is missing it changes nothing: only a hole makes it allocate.
-/

namespace Xv6.Fs

open Hoare List Memory Ownership

variable {sb : Superblock} {m m' : Mem} {d d' : Dinode} {s : State} {ip : Fin NINODE}
  {off n k i bn size : Nat}

def fileByte (m : Mem) (d : Dinode) (i : Nat) : UInt8 := m (blockAddr m d (i / BSIZE) * BSIZE + i % BSIZE)

def fileBytes (m : Mem) (d : Dinode) (off n : Nat) : List UInt8 := (List.range n).map fun i => fileByte m d (off + i)

@[simp] theorem length_fileBytes : (fileBytes m d off n).length = n := by
  unfold fileBytes
  rw [List.length_map, List.length_range]

theorem fileBytes_add : fileBytes m d off (n + k) = fileBytes m d off n ++ fileBytes m d (off + n) k := by
  have hshift : ((fun i => fileByte m d (off + i)) ∘ fun i => n + i) = fun i => fileByte m d (off + n + i) := by
    funext i
    show fileByte m d (off + (n + i)) = fileByte m d (off + n + i)
    rw [Nat.add_assoc]
  unfold fileBytes
  rw [range_add, map_append, map_map, hshift]

theorem fileBytes_slice (h : off + n ≤ k) : fileBytes m d off n = ((fileBytes m d 0 k).drop off).take n := by
  obtain ⟨c, rfl⟩ := Nat.exists_eq_add_of_le h
  rw [fileBytes_add, fileBytes_add, append_assoc, Nat.zero_add, drop_left' length_fileBytes,
    take_left' length_fileBytes]

theorem fileBytes_block (h : off % BSIZE + n ≤ BSIZE) :
    fileBytes m d off n = bytes m (blockAddr m d (off / BSIZE) * BSIZE + off % BSIZE) n := by
  unfold fileBytes bytes
  apply map_congr_left
  intro i hi
  have hlt := mem_range.1 hi
  have hdiv : (off + i) / BSIZE = off / BSIZE := by
    unfold BSIZE at *
    omega
  have hmod : (off + i) % BSIZE = off % BSIZE + i := by
    unfold BSIZE at *
    omega
  rw [fileByte, hdiv, hmod, Nat.add_assoc]

theorem fileBytes_eq {l : List UInt8} (hlen : l.length = n)
    (h : ∀ i (hi : i < l.length), fileByte m d (off + i) = l[i]) : fileBytes m d off n = l := by
  unfold fileBytes
  apply ext_getElem
  · rw [length_map, length_range, hlen]
  · intro i _ hi
    rw [getElem_map, getElem_range]
    exact h i hi

theorem fileBytes_congr (hrefs : ∀ bn, blockAddr m' d' bn = blockAddr m d bn)
    (hdata : ∀ bn, bn * BSIZE < off + n → off < bn * BSIZE + BSIZE →
      Agree m m' (blockAddr m d bn * BSIZE) BSIZE) : fileBytes m' d' off n = fileBytes m d off n := by
  unfold fileBytes
  apply map_congr_left
  intro i hi
  have hlt := mem_range.1 hi
  have hmod : (off + i) % BSIZE < BSIZE := Nat.mod_lt _ (by decide)
  unfold fileByte
  rw [hrefs]
  refine hdata _ ?_ ?_ _ (Nat.le_add_right _ _) (by omega)
  all_goals
    unfold BSIZE at *
    omega

theorem SameFile.fileBytes (h : SameFile m m' d) (hblocks : ∀ bn, bn * BSIZE < off + n → blockAddr m d bn ≠ 0) :
    fileBytes m' d off n = fileBytes m d off n :=
  fileBytes_congr (fun _ => h.refs _) fun bn hbn _ => h.data bn (hblocks bn hbn)

theorem Grows.fileByte (h : Grows m d m' d') (hi : blockAddr m d (i / BSIZE) ≠ 0) :
    fileByte m' d' i = fileByte m d i := by
  have hblock : blockAddr m' d' (i / BSIZE) = blockAddr m d (i / BSIZE) := h.refs _ hi
  have hmod : i % BSIZE < BSIZE := Nat.mod_lt _ (by decide)
  unfold Fs.fileByte
  rw [hblock]
  exact h.data _ hi _ (Nat.le_add_right _ _) (by omega)

theorem Grows.fileBytes (h : Grows m d m' d') (hblocks : ∀ bn, bn * BSIZE < off + n → blockAddr m d bn ≠ 0) :
    fileBytes m' d' off n = fileBytes m d off n := by
  unfold Fs.fileBytes
  apply map_congr_left
  intro i hi
  have hlt := mem_range.1 hi
  exact h.fileByte (hblocks _ (Nat.lt_of_le_of_lt (Nat.div_mul_le_self _ _) (by omega)))

/-! ## Writing inside of a block -/

section Store

variable {V : Nat → Dinode} {x o : Nat} {l : List UInt8} (h : Good sb V x m d)
  (hl : o + l.length ≤ BSIZE)

include h hl

theorem Good.refAt_store (q : Pos) : refAt (store m (blockAddr m d bn * BSIZE + o) l) d q = refAt m d q := by
  have hch : Changes sb m (store m (blockAddr m d bn * BSIZE + o) l) (· = blockAddr m d bn) := changes_store rfl hl
  refine refAt_congr (fun hind => hch.agree (h.data (q := .addr NDIRECT) hind).1 ?_) q
  exact h.apart (q := .addr NDIRECT) hind posOf_ne_indirect.symm

theorem Good.writeBlock (hne : blockAddr m d bn ≠ 0) : Good sb V x (store m (blockAddr m d bn * BSIZE + o) l) d ∧
      Keeps sb V x m (store m (blockAddr m d bn * BSIZE + o) l) := by
  have hch : Changes sb m (store m (blockAddr m d bn * BSIZE + o) l) (· = blockAddr m d bn) := changes_store rfl hl
  have hmeta := (h.data hne).1
  have hkeeps : Keeps sb V x m (store m (blockAddr m d bn * BSIZE + o) l) := by
    intro y hy hyx htype
    apply hch.sameFile
    intro q hq
    obtain ⟨hlo, -, hapart⟩ := h.other hy hyx htype hq
    exact ⟨hlo, hapart (posOf bn)⟩
  refine ⟨⟨h.lt, h.type, ?_, fun y hy hyx => ?_⟩, hkeeps⟩
  · refine Owners.congr h.owned (owns_congr hkeeps (h.refAt_store hl) rfl) ?_
    exact fun b => and_congr_right fun hb => inUse_of_agree (below_store hmeta) hb
  · rw [hch.dinode (fun b hb => hb ▸ hmeta) hy, h.others y hy hyx]

theorem Good.fileByte_store (hi : blockAddr m d (i / BSIZE) ≠ 0) :
    fileByte (store m (blockAddr m d bn * BSIZE + o) l) d i =
      if bn * BSIZE + o ≤ i ∧ i < bn * BSIZE + o + l.length then l.getD (i - (bn * BSIZE + o)) 0
      else fileByte m d i := by
  have hblock : blockAddr (store m (blockAddr m d bn * BSIZE + o) l) d (i / BSIZE) = blockAddr m d (i / BSIZE) :=
    h.refAt_store hl _
  have hmod : i % BSIZE < BSIZE := Nat.mod_lt _ (by decide)
  have hsplit := Nat.div_add_mod i BSIZE
  unfold fileByte
  rw [hblock]
  unfold Memory.store
  by_cases hsame : i / BSIZE = bn
  · rw [hsame] at hsplit ⊢
    have hin : blockAddr m d bn * BSIZE + o ≤ blockAddr m d bn * BSIZE + i % BSIZE ∧
        blockAddr m d bn * BSIZE + i % BSIZE < blockAddr m d bn * BSIZE + o + l.length ↔
          bn * BSIZE + o ≤ i ∧ i < bn * BSIZE + o + l.length := by
      rw [Nat.mul_comm] at hsplit
      omega
    have hsub : blockAddr m d bn * BSIZE + i % BSIZE - (blockAddr m d bn * BSIZE + o) = i - (bn * BSIZE + o) := by
      rw [Nat.mul_comm] at hsplit
      omega
    simp only [hin, hsub]
  -- Another block of the file is another block of the disk.
  have hother : blockAddr m d (i / BSIZE) ≠ blockAddr m d bn := h.apart hi fun heq => hsame (posOf_inj heq)
  rw [if_neg, if_neg]
  · intro hin
    apply hsame
    unfold BSIZE at *
    omega
  intro hin
  apply hother
  unfold BSIZE at *
  omega

end Store

theorem Good.fileBytes_store {V : Nat → Dinode} {x : Nat} {l : List UInt8} (h : Good sb V x m d)
    (hl : off % BSIZE + l.length ≤ BSIZE) (hblocks : ∀ i < off + l.length, blockAddr m d (i / BSIZE) ≠ 0) :
    fileBytes (store m (blockAddr m d (off / BSIZE) * BSIZE + off % BSIZE) l) d 0 (off + l.length) =
      fileBytes m d 0 off ++ l := by
  have hsplit : off / BSIZE * BSIZE + off % BSIZE = off := Nat.div_add_mod' off BSIZE
  rw [fileBytes_add]
  congr 1
  · unfold fileBytes
    apply map_congr_left
    intro i hi
    have hlt := mem_range.1 hi
    rw [Nat.zero_add, h.fileByte_store hl (hblocks i (by omega)), if_neg (by omega)]
  · refine fileBytes_eq rfl fun i hi => ?_
    rw [Nat.zero_add, h.fileByte_store hl (hblocks _ (by omega)), if_pos (by omega), hsplit, Nat.add_sub_cancel_left,
      getD_eq_getElem _ _ hi]

/-! ## Reading -/

def NoHoles (m : Mem) (d : Dinode) (size : Nat) : Prop := ∀ bn, bn * BSIZE < size → blockAddr m d bn ≠ 0

theorem NoHoles.mono {size' : Nat} (h : NoHoles m d size) (hle : size' ≤ size) : NoHoles m d size' :=
  fun bn hbn => h bn (Nat.lt_of_lt_of_le hbn hle)

theorem readUserLoop_found {c : Nat} (h : NoHoles m d (off + c)) (hk : c ≤ k) :
    readUserLoop sb ip k room off c (s.work ip m d) =
      .ok ((decide (c ≤ room), (fileBytes m d off c).take room), s.work ip m d) := by
  have hdone : ∀ k room off, readUserLoop sb ip k room off 0 (s.work ip m d) =
      .ok ((decide (0 ≤ room), (fileBytes m d off 0).take room), s.work ip m d) := by
    intro k room off
    rw [decide_eq_true (Nat.zero_le room)]
    show _ = Except.ok ((true, take room []), _)
    rw [take_nil]
    cases k <;> rfl
  induction k generalizing room off c with
  | zero =>
    have hzero : c = 0 := Nat.le_zero.1 hk
    rw [hzero]
    exact hdone 0 room off
  | succ k ih =>
    by_cases hc : c = 0
    · rw [hc]
      exact hdone (k + 1) room off
    have hfound : blockAddr m d (off / BSIZE) ≠ 0 := by
      apply h
      unfold BSIZE
      omega
    -- The first block's part, and then the rest.
    obtain ⟨p, hp⟩ : ∃ p, p = min c (BSIZE - off % BSIZE) := ⟨_, rfl⟩
    have hpc : p ≤ c := by omega
    have hpos : 0 < p := by
      unfold BSIZE at hp
      omega
    have hblock : off % BSIZE + p ≤ BSIZE := by
      unfold BSIZE at *
      omega
    have hsplit : fileBytes m d off c = fileBytes m d off p ++ fileBytes m d (off + p) (c - p) := by
      rw [← fileBytes_add, Nat.add_sub_of_le hpc]
    unfold readUserLoop
    rw [if_neg hc, bind_of_ok (bmap_found hfound), if_neg hfound]
    simp only [get_bind, work_disk, ← hp]
    by_cases hroom : room < p
    · have hpart : fileBytes m d off c = fileBytes m d off room ++ fileBytes m d (off + room) (c - room) := by
        rw [← fileBytes_add, Nat.add_sub_of_le (by omega)]
      rw [if_pos hroom, decide_eq_false (by omega), hpart, take_left' length_fileBytes, fileBytes_block (by omega)]
      rfl
    have hrest := @ih (off + p) (room - p) (c - p) (h.mono (by omega)) (by omega)
    have hall : decide (c - p ≤ room - p) = decide (c ≤ room) := decide_eq_decide.2 (by omega)
    have hfirst : (fileBytes m d off p).take room = fileBytes m d off p :=
      take_of_length_le (by rw [length_fileBytes]; omega)
    rw [if_neg hroom, bind_of_ok hrest, hsplit, take_append, length_fileBytes, hfirst, fileBytes_block hblock, hall]
    rfl

/-- Where the destination has room, `readi` is the same to user memory and to the kernel. -/
theorem snd_readUserLoop {r : Nat} (hroom : n ≤ r) :
    Prod.snd <$> readUserLoop sb ip k r off n = readLoop sb ip k off n := by
  induction k generalizing r off n with
  | zero => rfl
  | succ k ih =>
    unfold readUserLoop readLoop
    split
    · rfl
    rw [map_bind]
    congr 1
    funext addr
    split
    · rfl
    rw [map_bind]
    congr 1
    funext s
    rw [if_neg (by omega), ← ih (r := r - min n (BSIZE - off % BSIZE)) (by omega)]
    simp only [map_bind, map_pure, bind_map_left]

theorem readLoop_found (h : NoHoles m d (off + n)) (hk : n ≤ k) :
    readLoop sb ip k off n (s.work ip m d) = .ok (fileBytes m d off n, s.work ip m d) := by
  have hrun : readUserLoop sb ip k n off n (s.work ip m d) = _ := readUserLoop_found h hk
  rw [← snd_readUserLoop (Nat.le_refl n)]
  show (readUserLoop sb ip k n off n _ >>= fun r => pure (r.1.2, r.2)) = _
  rw [hrun, take_of_length_le (by rw [length_fileBytes])]
  rfl

theorem readi_found (h : NoHoles m d (min (off + n) d.size.toNat)) (hoff : off ≤ d.size.toNat)
    (hlt : off + n < 2 ^ 32) : readi sb ip off n (s.work ip m d) =
      .ok (fileBytes m d off (min n (d.size.toNat - off)), s.work ip m d) := by
  unfold readi
  simp only [get_bind, work_inode_self]
  rw [if_neg (by rw [Nat.mod_eq_of_lt hlt]; omega)]
  have hmin : (if d.size.toNat < off + n then d.size.toNat - off else n) = min n (d.size.toNat - off) := by
    split <;> omega
  rw [hmin]
  exact readLoop_found (h.mono (by omega)) (Nat.le_refl _)

theorem readi_beyond (hoff : d.size.toNat < off) : readi sb ip off n (s.work ip m d) = .ok ([], s.work ip m d) := by
  unfold readi
  simp only [get_bind, work_inode_self]
  rw [if_pos (.inl hoff)]
  rfl

def contents (m : Mem) (d : Dinode) : List UInt8 := fileBytes m d 0 d.size.toNat

@[simp] theorem length_contents : (contents m d).length = d.size.toNat := length_fileBytes

theorem getElem?_fileBytes (hi : i < n) : (fileBytes m d off n)[i]? = some (fileByte m d (off + i)) := by
  unfold fileBytes
  rw [getElem?_map, getElem?_range hi]
  rfl

theorem readi_contents (h : NoHoles s.disk (s.inode ip).copy (s.inode ip).copy.size.toNat) (hlt : off + n < 2 ^ 32) :
    readi sb ip off n s = .ok (((contents s.disk (s.inode ip).copy).drop off).take n, s) := by
  obtain ⟨d, hd⟩ : ∃ d, d = (s.inode ip).copy := ⟨_, rfl⟩
  have hwork : s = s.work ip s.disk d := by rw [hd, work_self]
  rw [← hd] at h ⊢
  rw [hwork]
  by_cases hoff : off ≤ d.size.toNat
  · rw [readi_found (h.mono (Nat.min_le_right _ _)) hoff hlt, fileBytes_slice (k := d.size.toNat) (by omega)]
    congr 2
    show take _ ((contents s.disk d).drop off) = take n ((contents s.disk d).drop off)
    rw [take_eq_take_iff, length_drop, length_contents]
    omega
  · rw [readi_beyond (by omega), drop_of_length_le (by rw [length_contents]; omega), take_nil]

end Xv6.Fs
