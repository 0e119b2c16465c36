import Xv6.Fs.Blocks

/-!
# Getting and giving back blocks

`balloc`, `bfree`, `bmap` and `itrunc` of `kernel/fs.c`.  They work on the disk and on the copy of one
inode, and on nothing else of the state.  As long as the blocks have the owners they should have, all
of them return, also when the disk is full.
-/

namespace Xv6.Fs

open Function Hoare Memory Ownership

variable {sb : Superblock} {m m' : Mem} {d d' : Dinode} {V : Nat → Dinode} {x b c k j bn : Nat}
  {s : State} {ip jp : Fin NINODE} {E : Panic → Prop}

/-! ## The part of the state that is worked on -/

/-- The state with another disk and another copy of inode `ip`. -/
def State.work (s : State) (ip : Fin NINODE) (m : Mem) (d : Dinode) : State :=
  (s.setDisk m).setInode ip { s.inode ip with copy := d }

@[simp] theorem work_disk : (s.work ip m d).disk = m := rfl

@[simp] theorem work_inode_self : (s.work ip m d).inode ip = { s.inode ip with copy := d } := update_self _ _ _

@[simp] theorem work_setDisk : (s.work ip m d).setDisk m' = s.work ip m' d := rfl

@[simp] theorem work_setInode : (s.work ip m d).setInode ip { s.inode ip with copy := d' } = s.work ip m d' := by
  unfold State.work State.setInode State.setDisk
  rw [update_idem]

theorem setDisk_eq_work (s : State) (ip : Fin NINODE) (m : Mem) : s.setDisk m = s.work ip m (s.inode ip).copy := by
  unfold State.work State.setInode State.setDisk
  rw [update_eq_self]

theorem work_self (s : State) (ip : Fin NINODE) : s.work ip s.disk (s.inode ip).copy = s :=
  (setDisk_eq_work s ip s.disk).symm

theorem setCopy_work (f : Dinode → Dinode) : setCopy ip f (s.work ip m d) = .ok ((), s.work ip m (f d)) := by
  show Except.ok ((), (s.work ip m d).setInode ip
    { (s.work ip m d).inode ip with copy := f ((s.work ip m d).inode ip).copy }) = _
  rw [work_inode_self, work_setInode]

/-! ## Blocks -/

def allocated (sb : Superblock) (m : Mem) (b : Nat) : Mem := fill (markUsed sb m b) (b * BSIZE) BSIZE 0

def Full (sb : Superblock) (m : Mem) : Prop := ∀ b < sb.size, InUse sb m b

theorem balloc_run (s : State) : Full sb s.disk ∧ balloc sb s = .ok (0, s) ∨
      ∃ b < sb.size, ¬ InUse sb s.disk b ∧ balloc sb s = .ok (b, s.setDisk (allocated sb s.disk b)) := by
  unfold balloc
  rw [get_bind]
  cases hfind : (List.range sb.size).find? fun b => decide (¬ InUse sb s.disk b) with
  | none =>
    refine .inl ⟨fun b hb => ?_, rfl⟩
    have hall := List.find?_eq_none.1 hfind b (List.mem_range.2 hb)
    exact not_not.1 fun hfree => hall (decide_eq_true hfree)
  | some b =>
    have hfree : ¬ InUse sb s.disk b := by simpa using List.find?_some hfind
    have hb : b < sb.size := List.mem_range.1 (List.mem_of_find?_eq_some hfind)
    exact .inr ⟨b, hb, hfree, rfl⟩

theorem balloc_work (sb : Superblock) (s : State) (ip : Fin NINODE) (m : Mem) (d : Dinode) :
    Full sb m ∧ balloc sb (s.work ip m d) = .ok (0, s.work ip m d) ∨
      ∃ b < sb.size, ¬ InUse sb m b ∧ balloc sb (s.work ip m d) = .ok (b, s.work ip (allocated sb m b) d) :=
  balloc_run (s.work ip m d)

theorem inUse_allocated (hb : sb.nmeta ≤ b) (hc : c < sb.size) :
    InUse sb (allocated sb m b) c ↔ b = c ∨ InUse sb m c := by
  unfold allocated
  rw [inUse_of_agree (below_fill hb) hc, inUse_markUsed]

theorem changes_allocated {B : Nat → Prop} (hb : b < sb.size) (hB : B b) : Changes sb m (allocated sb m b) B :=
  (changes_markUsed hb).trans (changes_fill hB)

/-! ## `bmap` -/

/-- Disk and copy may have gained blocks, and everybody else's files are what they were. -/
structure Gained (sb : Superblock) (V : Nat → Dinode) (x : Nat) (m : Mem) (d : Dinode) (m' : Mem)
    (d' : Dinode) : Prop where
  good : Good sb V x m' d'
  keeps : Keeps sb V x m m'
  grows : Grows m d m' d'

theorem Gained.refl (h : Good sb V x m d) : Gained sb V x m d m d := ⟨h, .refl, .refl m d⟩

theorem Gained.trans {m'' : Mem} {d'' : Dinode} (h : Gained sb V x m d m' d')
    (h' : Gained sb V x m' d' m'' d'') : Gained sb V x m d m'' d'' :=
  ⟨h'.good, h.keeps.trans h'.keeps, h.grows.trans h'.grows⟩

section

variable (h : Good sb V x m d)

include h

theorem Good.refAt_takeAddr (hk : k < NDIRECT + 1) (hempty : d.addr k = 0)
    (hb : b < sb.size) (hfree : ¬ InUse sb m b) (q : Pos) :
    refAt (allocated sb m b) (d.setAddr k b) q = if q = .addr k then b else refAt m d q := by
  have hlt := sb.lt_word hb
  cases q with
  | addr i =>
    show (d.setAddr k b).addr i = _
    rw [addr_setAddr hk hlt]
    by_cases hi : i = k
    · rw [if_pos hi, if_pos (by rw [hi])]
    · rw [if_neg hi, if_neg (by rw [Pos.addr.injEq]; exact hi)]
      rfl
  | entry j =>
    rw [if_neg Pos.noConfusion]
    show ite _ _ _ = ite _ _ _
    rw [addr_setAddr hk hlt]
    by_cases hind : NDIRECT = k
    · -- A new indirect block has no entries yet.
      subst hind
      rw [if_pos rfl, hempty]
      simp only [ne_eq, not_true_eq_false, false_and, if_false]
      split
      · rename_i hin
        apply load_fill_zero
        · unfold entryAddr
          omega
        · unfold entryAddr NINDIRECT BSIZE at *
          omega
      · rfl
    rw [if_neg hind]
    -- The indirect block that is there is not the new one.
    refine refAt_congr (d := d) (fun hne => ?_) (.entry j)
    have hused := h.inUse (q := .addr NDIRECT) hne
    exact (changes_allocated (B := (· = b)) hb rfl).agree (h.data (q := .addr NDIRECT) hne).1 fun heq => hfree (heq ▸ hused)

theorem Good.takeAddr (hk : k < NDIRECT + 1) (hempty : d.addr k = 0)
    (hb : b < sb.size) (hfree : ¬ InUse sb m b) : Gained sb V x m d (allocated sb m b) (d.setAddr k b) := by
  have hmeta := h.free hfree
  have hch : Changes sb m (allocated sb m b) fun c => c = b ∨ c = d.addr NDIRECT ∧ c ≠ 0 :=
    changes_allocated hb (.inl rfl)
  obtain ⟨hgood, hkeeps, hgrows⟩ := h.take hb hfree (fun c hc => inUse_allocated hmeta hc) hch
    (h.refAt_takeAddr hk hempty hb hfree) hempty rfl
  exact ⟨hgood, hkeeps, hgrows⟩

theorem Good.refAt_takeEntry (hind : d.addr NDIRECT ≠ 0) (hj : j < NINDIRECT)
    (hb : b < sb.size) (hfree : ¬ InUse sb m b) (q : Pos) :
    refAt (put (allocated sb m b) (entryAddr (d.addr NDIRECT) j) 4 b) d q =
      if q = .entry j then b else refAt m d q := by
  have hlt := sb.lt_word hb
  have hblock := h.data (q := .addr NDIRECT) hind
  have hne : d.addr NDIRECT ≠ b := fun heq => hfree (heq ▸ h.inUse (q := .addr NDIRECT) hind)
  have hold : Agree m (allocated sb m b) (d.addr NDIRECT * BSIZE) BSIZE :=
    (changes_allocated (B := (· = b)) hb rfl).agree hblock.1 hne
  cases q with
  | addr =>
    rw [if_neg Pos.noConfusion]
    rfl
  | entry i =>
    by_cases hi : i = j
    · subst hi
      rw [if_pos rfl]
      show ite _ _ _ = _
      rw [if_pos ⟨hind, hj⟩, load_put hlt]
    rw [if_neg (by rw [Pos.entry.injEq]; exact hi), ← refAt_congr fun _ => hold]
    show ite _ _ _ = ite _ _ _
    split
    · apply load_congr
      apply agree_put
      unfold entryAddr
      omega
    · rfl

theorem Good.takeEntry (hind : d.addr NDIRECT ≠ 0) (hj : j < NINDIRECT)
    (hempty : refAt m d (.entry j) = 0) (hb : b < sb.size) (hfree : ¬ InUse sb m b) :
    Gained sb V x m d (put (allocated sb m b) (entryAddr (d.addr NDIRECT) j) 4 b) d := by
  have hmeta := h.free hfree
  have hblock := h.data (q := .addr NDIRECT) hind
  have hch : Changes sb m (put (allocated sb m b) (entryAddr (d.addr NDIRECT) j) 4 b)
      fun c => c = b ∨ c = d.addr NDIRECT ∧ c ≠ 0 :=
    (changes_allocated hb (.inl rfl)).trans (changes_put (.inr ⟨rfl, hind⟩) hj)
  have huse : ∀ c < sb.size, (InUse sb (put (allocated sb m b) (entryAddr (d.addr NDIRECT) j) 4 b) c ↔
      b = c ∨ InUse sb m c) := by
    intro c hc
    rw [inUse_of_agree (below_put (b := d.addr NDIRECT) hblock.1) hc, inUse_allocated hmeta hc]
  obtain ⟨hgood, hkeeps, hgrows⟩ := h.take hb hfree huse hch (h.refAt_takeEntry hind hj hb hfree) hempty rfl
  exact ⟨hgood, hkeeps, hgrows⟩

theorem orBalloc_work {q : Pos} {addr : Nat} {save : Nat → Sys Unit}
    (haddr : addr = refAt m d q) (hsave : ∀ b < sb.size, ¬ InUse sb m b → refAt m d q = 0 → ∃ m' d',
      save b (s.work ip (allocated sb m b) d) = .ok ((), s.work ip m' d') ∧
        Gained sb V x m d m' d' ∧ refAt m' d' q = b) :
    ∃ m' d', orBalloc sb addr save (s.work ip m d) = .ok (refAt m' d' q, s.work ip m' d') ∧
      Gained sb V x m d m' d' ∧ (refAt m' d' q = 0 → Full sb m') := by
  unfold orBalloc
  by_cases hne : addr ≠ 0
  · rw [if_pos hne, haddr]
    rw [haddr] at hne
    exact ⟨m, d, rfl, .refl h, fun hzero => absurd hzero hne⟩
  rw [if_neg hne]
  have hempty : refAt m d q = 0 := by
    rw [← haddr]
    exact Decidable.not_not.1 hne
  rcases balloc_work sb s ip m d with ⟨hfull, hrun⟩ | ⟨b, hb, hfree, hrun⟩
  · refine ⟨m, d, ?_, .refl h, fun _ => hfull⟩
    rw [bind_of_ok hrun, if_pos rfl, hempty]
    rfl
  have hzero : b ≠ 0 := Nat.ne_of_gt (Nat.lt_of_lt_of_le sb.nmeta_pos (h.free hfree))
  obtain ⟨m', d', hrun', hgained, href⟩ := hsave b hb hfree hempty
  refine ⟨m', d', ?_, hgained, fun hnone => absurd (href.symm.trans hnone) hzero⟩
  rw [bind_of_ok hrun, if_neg hzero, bind_of_ok hrun', href]
  rfl

theorem bmap_work (hbn : bn < MAXFILE) :
    ∃ m' d', bmap sb ip bn (s.work ip m d) = .ok (blockAddr m' d' bn, s.work ip m' d') ∧
      Gained sb V x m d m' d' ∧ (blockAddr m' d' bn = 0 → Full sb m') := by
  unfold bmap
  simp only [get_bind, work_inode_self]
  -- The place of an address that the inode itself holds.
  have hat : ∀ k < NDIRECT + 1, ∃ m' d',
      orBalloc sb (d.addr k) (fun addr => setCopy ip (·.setAddr k addr)) (s.work ip m d) =
        .ok (refAt m' d' (.addr k), s.work ip m' d') ∧ Gained sb V x m d m' d' ∧
        (refAt m' d' (.addr k) = 0 → Full sb m') := by
    intro k hk
    refine orBalloc_work h rfl fun b hb hfree hempty => ?_
    have hlt := sb.lt_word hb
    refine ⟨_, _, setCopy_work _, h.takeAddr hk hempty hb hfree, ?_⟩
    show (d.setAddr k b).addr k = b
    rw [addr_setAddr hk hlt, if_pos rfl]
  by_cases hdirect : bn < NDIRECT
  · rw [if_pos hdirect]
    have hpos : posOf bn = .addr bn := if_pos hdirect
    unfold blockAddr
    rw [hpos]
    exact hat bn (Nat.lt_succ_of_lt hdirect)
  have hj : bn - NDIRECT < NINDIRECT := by
    unfold MAXFILE at hbn
    omega
  have hpos : posOf bn = .entry (bn - NDIRECT) := if_neg hdirect
  rw [if_neg hdirect, if_pos hj]
  unfold blockAddr
  rw [hpos]
  obtain ⟨m₁, d₁, hrun, hgained, hfull⟩ := hat NDIRECT (Nat.lt_succ_self _)
  have haddr : refAt m₁ d₁ (.addr NDIRECT) = d₁.addr NDIRECT := rfl
  rw [bind_of_ok hrun, haddr]
  by_cases hind : d₁.addr NDIRECT = 0
  · refine ⟨m₁, d₁, ?_, hgained, fun _ => hfull hind⟩
    have hnone : refAt m₁ d₁ (.entry (bn - NDIRECT)) = 0 := if_neg fun hboth => hboth.1 hind
    rw [if_pos hind, hnone]
    rfl
  rw [if_neg hind]
  simp only [get_bind, work_disk]
  have hsome : load m₁ (entryAddr (d₁.addr NDIRECT) (bn - NDIRECT)) 4 =
      refAt m₁ d₁ (.entry (bn - NDIRECT)) := (if_pos ⟨hind, hj⟩).symm
  have hsave : ∀ b < sb.size, ¬ InUse sb m₁ b → refAt m₁ d₁ (.entry (bn - NDIRECT)) = 0 → ∃ m' d',
      (modify fun s => s.setDisk (put s.disk (entryAddr (d₁.addr NDIRECT) (bn - NDIRECT)) 4 b) :
        Sys Unit) (s.work ip (allocated sb m₁ b) d₁) = .ok ((), s.work ip m' d') ∧
        Gained sb V x m₁ d₁ m' d' ∧ refAt m' d' (.entry (bn - NDIRECT)) = b := by
    intro b hb hfree hempty
    have hlt := sb.lt_word hb
    refine ⟨put (allocated sb m₁ b) (entryAddr (d₁.addr NDIRECT) (bn - NDIRECT)) 4 b, d₁, rfl,
      hgained.good.takeEntry hind hj hempty hb hfree, ?_⟩
    show ite _ _ _ = b
    rw [if_pos ⟨hind, hj⟩, load_put hlt]
  obtain ⟨m₂, d₂, hrun₂, hgained₂, hfull₂⟩ := orBalloc_work hgained.good hsome hsave
  exact ⟨m₂, d₂, hrun₂, hgained.trans hgained₂, hfull₂⟩

end

theorem orBalloc_found {addr : Nat} {save : Nat → Sys Unit} (hne : addr ≠ 0) :
    orBalloc sb addr save s = .ok (addr, s) := by
  unfold orBalloc
  rw [if_pos hne]
  rfl

theorem bmap_found (hne : blockAddr m d bn ≠ 0) :
    bmap sb ip bn (s.work ip m d) = .ok (blockAddr m d bn, s.work ip m d) := by
  unfold bmap
  simp only [get_bind, work_inode_self]
  rcases blockAddr_cases hne with ⟨hdirect, haddr⟩ | ⟨hdirect, hind, hin, haddr⟩
  all_goals rw [haddr] at hne ⊢
  · rw [if_pos hdirect]
    exact orBalloc_found hne
  · rw [if_neg hdirect, if_pos hin, bind_of_ok (orBalloc_found hind), if_neg hind]
    exact orBalloc_found hne

/-! ## `iupdate` -/

def SameAbove (sb : Superblock) (m m' : Mem) : Prop := ∀ a, sb.bmapstart * BSIZE ≤ a → m' a = m a

theorem sameAbove_putDinode (hx : x < sb.ninodes) : SameAbove sb m (putDinode m (inodeAddr sb x) d) := by
  intro a ha
  have hend := inodeAddr_hi sb hx
  exact agree_putDinode (n := 1) (.inr (Nat.le_trans hend ha)) a (Nat.le_refl a) (Nat.lt_succ_self a)

theorem SameAbove.block (h : SameAbove sb m m') (hb : sb.nmeta ≤ b) : Agree m m' (b * BSIZE) BSIZE := by
  intro a hlo _
  exact h a (Nat.le_trans (Nat.mul_le_mul_right _ (Nat.le_trans sb.bmapstart_le hb)) hlo)

theorem SameAbove.inUse (h : SameAbove sb m m') : InUse sb m' b ↔ InUse sb m b := inUse_congr sb (h _ (bitAddr_lo sb))

theorem SameAbove.sameFile (h : SameAbove sb m m') (hdata : ∀ q, refAt m d q ≠ 0 → sb.nmeta ≤ refAt m d q) :
    SameFile m m' d where
  refs := refAt_congr fun hind => h.block (hdata (.addr NDIRECT) hind)
  data _ hne := h.block (hdata _ hne)

theorem Good.sameAbove (h : Good sb V x m d) (habove : SameAbove sb m m')
    (hothers : ∀ y < sb.ninodes, y ≠ x → dinode sb m' y = dinode sb m y) :
    Good sb V x m' d ∧ Keeps sb V x m m' ∧ SameFile m m' d := by
  have hkeeps : Keeps sb V x m m' := fun y hy hyx hty => habove.sameFile fun q hne => (h.other hy hyx hty hne).1
  have hsame : SameFile m m' d := habove.sameFile fun q hne => (h.data hne).1
  refine ⟨⟨h.lt, h.type, ?_, fun y hy hyx => ?_⟩, hkeeps, hsame⟩
  · exact Owners.congr h.owned (owns_congr hkeeps hsame.refs rfl) fun b => and_congr_right fun _ => habove.inUse
  · rw [hothers y hy hyx, h.others y hy hyx]

theorem iupdate_work : iupdate sb ip (s.work ip m d) =
    .ok ((), s.work ip (putDinode m (inodeAddr sb (s.inode ip).inum) d) d) := by
  show Except.ok ((), (s.work ip m d).setDisk (putDinode m
    (inodeAddr sb ((s.work ip m d).inode ip).inum) ((s.work ip m d).inode ip).copy)) = _
  rw [work_inode_self, work_setDisk]

theorem Good.update (h : Good sb V x m d) :
    Good sb V x (putDinode m (inodeAddr sb x) d) d ∧ Keeps sb V x m (putDinode m (inodeAddr sb x) d) ∧
      SameFile m (putDinode m (inodeAddr sb x) d) d :=
  h.sameAbove (sameAbove_putDinode h.lt) fun _ _ hyx => dinode_putDinode_of_ne sb hyx

def Dinode.emptied (d : Dinode) : Dinode := { d with size := 0, addrs := fun _ => 0 }

theorem refAt_emptied {q : Pos} : refAt m d.emptied q = 0 := by
  have hzero : ∀ k, d.emptied.addr k = 0 := by
    intro k
    unfold Dinode.addr
    split <;> rfl
  cases q with
  | addr k => exact hzero k
  | entry =>
    simp only [refAt, hzero, ne_eq, not_true_eq_false, false_and, if_false]

end Xv6.Fs
