import Xv6.Fs.Model
import Xv6.Lib.Owners

/-!
# Who owns the disk blocks

A block belongs to the layout of the disk or to one place of one inode, and the bitmap marks the blocks that belong
to somebody.  While an inode is worked on, its addresses are those of its copy in memory.
-/

namespace Xv6.Fs

open Function Memory Ownership

variable {sb : Superblock} {m m' m'' : Mem} {d d' d'' : Dinode} {V : Nat → Dinode}
  {x y b c k j bn v : Nat}

/-- The places in an inode that hold the address of a block. -/
inductive Pos where
  | addr (k : Nat)
  | entry (j : Nat)
  deriving DecidableEq

def refAt (m : Mem) (d : Dinode) : Pos → Nat
  | .addr k => d.addr k
  | .entry j =>
    if d.addr NDIRECT ≠ 0 ∧ j < NINDIRECT then load m (entryAddr (d.addr NDIRECT) j) 4 else 0

/-- Where the address of the file's block `bn` is. -/
def posOf (bn : Nat) : Pos := if bn < NDIRECT then .addr bn else .entry (bn - NDIRECT)

def blockAddr (m : Mem) (d : Dinode) (bn : Nat) : Nat := refAt m d (posOf bn)

inductive Slot where
  | kernel (b : Nat)
  | inode (x : Nat) (pos : Pos)

def owns (sb : Superblock) (m : Mem) (V : Nat → Dinode) : Slot → Nat → Prop
  | .kernel c, b => c = b ∧ b < sb.nmeta
  | .inode x pos, b => x < sb.ninodes ∧ (V x).type ≠ 0 ∧ refAt m (V x) pos = b ∧ b ≠ 0

def Owned (sb : Superblock) (m : Mem) (own : Slot → Nat → Prop) : Prop := Owners own fun b => b < sb.size ∧ InUse sb m b

theorem posOf_inj (h : posOf b = posOf c) : b = c := by
  unfold posOf at h
  split at h <;> split at h <;> simp only [Pos.addr.injEq, Pos.entry.injEq, reduceCtorEq] at h <;> omega

theorem posOf_ne_indirect : posOf bn ≠ .addr NDIRECT := by
  unfold posOf
  split
  · intro h
    simp only [Pos.addr.injEq] at h
    omega
  · exact Pos.noConfusion

theorem addr_setAddr (hk : k < NDIRECT + 1) (hv : v < 2 ^ 32) :
    (d.setAddr k v).addr j = if j = k then v else d.addr j := by
  unfold Dinode.addr Dinode.setAddr
  by_cases hj : j < NDIRECT + 1
  · simp only [dif_pos hj]
    by_cases hjk : j = k
    · simp only [if_pos hjk]
      rw [UInt32.toNat_ofNat']
      exact Nat.mod_eq_of_lt hv
    · simp only [if_neg hjk]
  · have hjk : j ≠ k := by omega
    simp only [dif_neg hj, if_neg hjk]

/-! ## What an owner can rely on -/

section

variable (h : Owned sb m (owns sb m V)) (hx : x < sb.ninodes) (htype : (V x).type ≠ 0)

include h hx htype

theorem Owned.data {q : Pos} (hne : refAt m (V x) q ≠ 0) : sb.nmeta ≤ refAt m (V x) q ∧ refAt m (V x) q < sb.size := by
  have hown : owns sb m V (.inode x q) (refAt m (V x) q) := ⟨hx, htype, rfl, hne⟩
  constructor
  · apply Nat.le_of_not_lt
    intro hmeta
    have hkernel : owns sb m V (.kernel (refAt m (V x) q)) (refAt m (V x) q) := ⟨rfl, hmeta⟩
    exact Slot.noConfusion (h.apart hown hkernel)
  · exact ((h.taken_iff _).2 ⟨_, hown⟩).1

theorem Owned.inUse {q : Pos} (hne : refAt m (V x) q ≠ 0) : InUse sb m (refAt m (V x) q) :=
  ((h.taken_iff _).2 ⟨.inode x q, hx, htype, rfl, hne⟩).2

theorem Owned.apart_of_ne {q r : Pos} (hy : y < sb.ninodes) (htype' : (V y).type ≠ 0)
    (hne : refAt m (V x) q ≠ 0) (hdiff : ¬ (x = y ∧ q = r)) : refAt m (V x) q ≠ refAt m (V y) r := by
  intro heq
  have hslot := h.apart (t := .inode x q) (u := .inode y r) ⟨hx, htype, rfl, hne⟩ ⟨hy, htype', heq.symm, hne⟩
  rw [Slot.inode.injEq] at hslot
  exact hdiff hslot

end

theorem Owned.meta_inUse (h : Owned sb m (owns sb m V)) (hb : b < sb.nmeta) : InUse sb m b :=
  ((h.taken_iff b).2 ⟨.kernel b, rfl, hb⟩).2

/-! ## Changes of the disk -/

/-- Only the bitmap and the blocks `B` differ. -/
def Changes (sb : Superblock) (m m' : Mem) (B : Nat → Prop) : Prop :=
  ∀ a, m' a ≠ m a → sb.bmapstart * BSIZE ≤ a ∧ a < sb.nmeta * BSIZE ∨ B (a / BSIZE)

variable {B B' : Nat → Prop}

theorem Changes.trans (h : Changes sb m m' B) (h' : Changes sb m' m'' B) : Changes sb m m'' B := by
  intro a ha
  by_cases hmid : m' a = m a
  · exact h' a (by rwa [hmid])
  · exact h a hmid

theorem changes_markUsed (hb : b < sb.size) : Changes sb m (markUsed sb m b) B := by
  intro a ha
  by_cases hbit : a = bitAddr sb b
  · subst hbit
    exact .inl ⟨bitAddr_lo sb, bitAddr_hi sb hb⟩
  · exact absurd (update_of_ne hbit _ _) ha

theorem changes_fill (hB : B b) : Changes sb m (fill m (b * BSIZE) BSIZE 0) B := by
  intro a ha
  by_cases hin : b * BSIZE ≤ a ∧ a < b * BSIZE + BSIZE
  · have hblock : a / BSIZE = b := by
      unfold BSIZE at *
      omega
    exact .inr (by rwa [hblock])
  · exact absurd (if_neg hin) ha

theorem changes_put (hB : B b) (hj : j < NINDIRECT) : Changes sb m (put m (entryAddr b j) 4 v) B := by
  intro a ha
  by_cases hin : entryAddr b j ≤ a ∧ a < entryAddr b j + 4
  · have hblock : a / BSIZE = b := by
      unfold entryAddr NINDIRECT BSIZE at *
      omega
    exact .inr (by rwa [hblock])
  · exact absurd (if_neg hin) ha

theorem changes_store {off : Nat} {l : List UInt8} (hB : B b) (hl : off + l.length ≤ BSIZE) :
    Changes sb m (store m (b * BSIZE + off) l) B := by
  intro a ha
  by_cases hin : b * BSIZE + off ≤ a ∧ a < b * BSIZE + off + l.length
  · have hblock : a / BSIZE = b := by
      unfold BSIZE at *
      omega
    exact .inr (by rwa [hblock])
  · exact absurd (if_neg hin) ha

theorem Changes.agree (h : Changes sb m m' B) (hc : sb.nmeta ≤ c) (hB : ¬ B c) : Agree m m' (c * BSIZE) BSIZE := by
  intro a hlo hhi
  by_contra hne
  have hstart : sb.nmeta * BSIZE ≤ c * BSIZE := Nat.mul_le_mul_right _ hc
  have hblock : a / BSIZE = c := by
    unfold BSIZE at *
    omega
  rcases h a hne with hbits | hin
  · omega
  · exact hB (by rwa [← hblock])

theorem Changes.dinode (h : Changes sb m m' B) (hB : ∀ b, B b → sb.nmeta ≤ b) (hy : y < sb.ninodes) :
    dinode sb m' y = dinode sb m y := by
  apply dinode_congr
  intro a hlo hhi
  by_contra hne
  have hend := inodeAddr_hi sb hy
  have hmeta : sb.bmapstart ≤ sb.nmeta := Nat.le_trans (Nat.le_add_right _ _) (Nat.le_add_right _ 1)
  rcases h a hne with hbits | hin
  · omega
  · have hstart : sb.bmapstart ≤ a / BSIZE := Nat.le_trans hmeta (hB _ hin)
    have hlow : sb.bmapstart * BSIZE ≤ a := (Nat.le_div_iff_mul_le (by decide)).1 hstart
    omega

theorem inUse_of_agree (h : Agree m m' 0 (sb.nmeta * BSIZE)) (hb : b < sb.size) : InUse sb m' b ↔ InUse sb m b :=
  inUse_congr sb (h _ (Nat.zero_le _) (by rw [Nat.zero_add]; exact bitAddr_hi sb hb))

theorem below_fill (hb : sb.nmeta ≤ b) : Agree m (fill m (b * BSIZE) BSIZE 0) 0 (sb.nmeta * BSIZE) :=
  agree_fill (.inl (by rw [Nat.zero_add]; exact Nat.mul_le_mul_right _ hb))

theorem below_put (hb : sb.nmeta ≤ b) : Agree m (put m (entryAddr b j) 4 v) 0 (sb.nmeta * BSIZE) := by
  have hstart : sb.nmeta * BSIZE ≤ b * BSIZE := Nat.mul_le_mul_right _ hb
  apply agree_put
  unfold entryAddr
  omega

theorem below_store {off : Nat} {l : List UInt8} (hb : sb.nmeta ≤ b) :
    Agree m (store m (b * BSIZE + off) l) 0 (sb.nmeta * BSIZE) := by
  have hstart : sb.nmeta * BSIZE ≤ b * BSIZE := Nat.mul_le_mul_right _ hb
  apply agree_store
  omega

/-! ## Files that stay as they are -/

/-- The file `d` has the same blocks with the same bytes in both. -/
structure SameFile (m m' : Mem) (d : Dinode) : Prop where
  refs : ∀ pos, refAt m' d pos = refAt m d pos
  data : ∀ bn, blockAddr m d bn ≠ 0 → Agree m m' (blockAddr m d bn * BSIZE) BSIZE

theorem SameFile.refl (m : Mem) (d : Dinode) : SameFile m m d := ⟨fun _ => rfl, fun _ _ => .refl _ _ _⟩

theorem SameFile.trans (h : SameFile m m' d) (h' : SameFile m' m'' d) : SameFile m m'' d where
  refs pos := by rw [h'.refs, h.refs]
  data bn hne := by
    have hsame : blockAddr m' d bn = blockAddr m d bn := h.refs _
    have hsecond := h'.data bn (by rwa [hsame])
    rw [hsame] at hsecond
    exact (h.data bn hne).trans hsecond

theorem blockAddr_cases {bn : Nat} (hne : blockAddr m d bn ≠ 0) : bn < NDIRECT ∧ blockAddr m d bn = d.addr bn ∨
    ¬ bn < NDIRECT ∧ d.addr NDIRECT ≠ 0 ∧ bn - NDIRECT < NINDIRECT ∧
      blockAddr m d bn = load m (entryAddr (d.addr NDIRECT) (bn - NDIRECT)) 4 := by
  unfold blockAddr posOf at hne ⊢
  split at hne
  · rename_i hdirect
    exact .inl ⟨hdirect, by rw [if_pos hdirect]; rfl⟩
  · rename_i hdirect
    have hin : d.addr NDIRECT ≠ 0 ∧ bn - NDIRECT < NINDIRECT := by
      by_contra hout
      exact hne (if_neg hout)
    exact .inr ⟨hdirect, hin.1, hin.2, by rw [if_neg hdirect]; exact if_pos hin⟩

theorem refAt_congr (h : d.addr NDIRECT ≠ 0 → Agree m m' (d.addr NDIRECT * BSIZE) BSIZE) (q : Pos) :
    refAt m' d q = refAt m d q := by
  cases q with
  | addr => rfl
  | entry =>
    show ite _ _ _ = ite _ _ _
    split
    · rename_i hin
      apply load_congr
      apply (h hin.1).sub
      · unfold entryAddr
        omega
      · unfold entryAddr BSIZE NINDIRECT at *
        omega
    · rfl

theorem Changes.sameFile (h : Changes sb m m' B)
    (hout : ∀ pos, refAt m d pos ≠ 0 → sb.nmeta ≤ refAt m d pos ∧ ¬ B (refAt m d pos)) : SameFile m m' d where
  refs := refAt_congr fun hind => h.agree (hout (.addr NDIRECT) hind).1 (hout (.addr NDIRECT) hind).2
  data _ hne := h.agree (hout _ hne).1 (hout _ hne).2

/-- Everything but inode `x` has the same files. -/
def Keeps (sb : Superblock) (V : Nat → Dinode) (x : Nat) (m m' : Mem) : Prop :=
  ∀ y < sb.ninodes, y ≠ x → (V y).type ≠ 0 → SameFile m m' (V y)

theorem Keeps.refl : Keeps sb V x m m := fun _ _ _ _ => .refl _ _

theorem Keeps.trans (h : Keeps sb V x m m') (h' : Keeps sb V x m' m'') : Keeps sb V x m m'' :=
  fun y hy hne htype => (h y hy hne htype).trans (h' y hy hne htype)

/-- The file has gained blocks at most. -/
structure Grows (m : Mem) (d : Dinode) (m' : Mem) (d' : Dinode) : Prop where
  attrs : d' = { d with addrs := d'.addrs }
  refs : ∀ pos, refAt m d pos ≠ 0 → refAt m' d' pos = refAt m d pos
  data : ∀ bn, blockAddr m d bn ≠ 0 → Agree m m' (blockAddr m d bn * BSIZE) BSIZE

theorem Grows.refl (m : Mem) (d : Dinode) : Grows m d m d := ⟨rfl, fun _ _ => rfl, fun _ _ => .refl _ _ _⟩

theorem Grows.trans (h : Grows m d m' d') (h' : Grows m' d' m'' d'') : Grows m d m'' d'' where
  attrs := by rw [h'.attrs, h.attrs]
  refs pos hne := by
    have hfirst := h.refs pos hne
    rw [h'.refs pos (by rwa [hfirst]), hfirst]
  data bn hne := by
    have hfirst : blockAddr m' d' bn = blockAddr m d bn := h.refs _ hne
    have hsecond := h'.data bn (by rwa [hfirst])
    rw [hfirst] at hsecond
    exact (h.data bn hne).trans hsecond

/-! ## The inode that is worked on -/

/-- The disk `m` is in order if inode `x` is as its copy `d` says; `V` tells the other inodes. -/
structure Good (sb : Superblock) (V : Nat → Dinode) (x : Nat) (m : Mem) (d : Dinode) : Prop where
  lt : x < sb.ninodes
  type : d.type ≠ 0
  owned : Owned sb m (owns sb m (update V x d))
  others : ∀ y < sb.ninodes, y ≠ x → dinode sb m y = V y

section Good

variable {q r : Pos} (h : Good sb V x m d)
include h

theorem Good.data (hne : refAt m d q ≠ 0) : sb.nmeta ≤ refAt m d q ∧ refAt m d q < sb.size := by
  have hdata := h.owned.data (q := q) h.lt
  simp only [update_self] at hdata
  exact hdata h.type hne

theorem Good.inUse (hne : refAt m d q ≠ 0) : InUse sb m (refAt m d q) := by
  have huse := h.owned.inUse (q := q) h.lt
  simp only [update_self] at huse
  exact huse h.type hne

theorem Good.apart (hne : refAt m d q ≠ 0) (hdiff : q ≠ r) : refAt m d q ≠ refAt m d r := by
  have hapart := h.owned.apart_of_ne (y := x) (q := q) (r := r) h.lt
  simp only [update_self] at hapart
  exact hapart h.type h.lt h.type hne fun hboth => hdiff hboth.2

theorem Good.other (hy : y < sb.ninodes) (hyx : y ≠ x) (htype : (V y).type ≠ 0) (hne : refAt m (V y) q ≠ 0) :
    sb.nmeta ≤ refAt m (V y) q ∧ InUse sb m (refAt m (V y) q) ∧ ∀ r, refAt m (V y) q ≠ refAt m d r := by
  have hview : update V x d y = V y := update_of_ne hyx _ _
  refine ⟨?_, ?_, fun r => ?_⟩
  · have hdata := h.owned.data (q := q) hy
    rw [hview] at hdata
    exact (hdata htype hne).1
  · have huse := h.owned.inUse (q := q) hy
    rw [hview] at huse
    exact huse htype hne
  have hapart := h.owned.apart_of_ne (y := x) (q := q) (r := r) hy
  rw [hview] at hapart
  simp only [update_self] at hapart
  exact hapart htype h.lt h.type hne fun hsame => hyx hsame.1

theorem Good.free (hfree : ¬ InUse sb m b) : sb.nmeta ≤ b :=
  Nat.le_of_not_lt fun hmeta => hfree (h.owned.meta_inUse hmeta)

end Good

theorem Good.of_owned (h : Owned sb m (owns sb m (dinode sb m))) (hx : x < sb.ninodes)
    (htype : (dinode sb m x).type ≠ 0) : Good sb (dinode sb m) x m (dinode sb m x) where
  lt := hx
  type := htype
  owned := by
    rw [update_eq_self]
    exact h
  others _ _ _ := rfl

theorem Good.settle (h : Good sb V x m d) (hx : dinode sb m x = d) : Owned sb m (owns sb m (dinode sb m)) := by
  refine Owners.congr h.owned ?_ fun _ => Iff.rfl
  rintro (c | ⟨y, q⟩) b
  · exact Iff.rfl
  refine and_congr_right fun hy => ?_
  have hview : dinode sb m y = update V x d y := by
    by_cases hyx : y = x
    · rw [hyx, hx, update_self]
    · rw [h.others y hy hyx, update_of_ne hyx]
  rw [hview]

theorem owns_of_keeps (h : Keeps sb V x m m') (hyx : y ≠ x) (pos : Pos) (c : Nat) :
    owns sb m' (update V x d') (.inode y pos) c ↔ owns sb m (update V x d) (.inode y pos) c := by
  simp only [owns, update_of_ne hyx]
  refine and_congr_right fun hy => and_congr_right fun htype => ?_
  rw [(h y hy hyx htype).refs]

theorem owns_congr (h : Keeps sb V x m m') (hrefs : ∀ q, refAt m' d' q = refAt m d q) (htype : d'.type = d.type)
    (slot : Slot) (b : Nat) : owns sb m' (update V x d') slot b ↔ owns sb m (update V x d) slot b := by
  rcases slot with c | ⟨y, q⟩
  · exact Iff.rfl
  by_cases hyx : y = x
  · subst hyx
    simp only [owns, update_self, hrefs, htype]
  · exact owns_of_keeps h hyx q b

theorem refAt_resize {v : UInt32} (q : Pos) : refAt m { d with size := v } q = refAt m d q := by
  cases q <;> rfl

theorem Good.resize (h : Good sb V x m d) (v : UInt32) : Good sb V x m { d with size := v } where
  lt := h.lt
  type := h.type
  owned := by
    exact Owners.congr h.owned (owns_congr .refl refAt_resize rfl) fun _ => Iff.rfl
  others := h.others

theorem Superblock.nmeta_pos (sb : Superblock) : 0 < sb.nmeta := Nat.succ_pos _

theorem Superblock.bmapstart_le (sb : Superblock) : sb.bmapstart ≤ sb.nmeta :=
  Nat.le_trans (Nat.le_add_right _ _) (Nat.le_add_right _ 1)

theorem Good.take {pos : Pos} (h : Good sb V x m d) (hb : b < sb.size) (hfree : ¬ InUse sb m b)
    (huse : ∀ c < sb.size, (InUse sb m' c ↔ b = c ∨ InUse sb m c))
    (hch : Changes sb m m' fun c => c = b ∨ c = d.addr NDIRECT ∧ c ≠ 0)
    (href : ∀ q, refAt m' d' q = if q = pos then b else refAt m d q) (hempty : refAt m d pos = 0)
    (hattrs : d' = { d with addrs := d'.addrs }) :
    Good sb V x m' d' ∧ Keeps sb V x m m' ∧ Grows m d m' d' := by
  have hmeta := h.free hfree
  have hzero : b ≠ 0 := Nat.ne_of_gt (Nat.lt_of_lt_of_le sb.nmeta_pos hmeta)
  have htype : d'.type = d.type := by rw [hattrs]
  have hdata : ∀ c, c = b ∨ c = d.addr NDIRECT ∧ c ≠ 0 → sb.nmeta ≤ c := by
    rintro c (rfl | ⟨rfl, hne⟩)
    · exact hmeta
    · exact (h.data (q := .addr NDIRECT) hne).1
  have hkeeps : Keeps sb V x m m' := by
    intro y hy hyx hty
    apply hch.sameFile
    intro q hne
    obtain ⟨hlo, hused, hapart⟩ := h.other hy hyx hty hne
    refine ⟨hlo, ?_⟩
    rintro (heq | ⟨heq, -⟩)
    · exact hfree (heq ▸ hused)
    · exact hapart (.addr NDIRECT) heq
  refine ⟨⟨h.lt, htype ▸ h.type, ?_, fun y hy hyx => ?_⟩, hkeeps, hattrs, fun q hne => ?_, fun bn hne => ?_⟩
  · apply h.owned.take (t := .inode x pos) (b := b) fun htaken => hfree htaken.2
    · rintro (c' | ⟨y, q⟩) c
      · simp [owns]
      by_cases hyx : y = x
      · subst hyx
        simp only [owns, update_self, href, htype, Slot.inode.injEq, true_and]
        by_cases hq : q = pos
        · subst hq
          rw [if_pos rfl, hempty]
          constructor
          · rintro ⟨-, -, rfl, -⟩
            exact .inr ⟨rfl, rfl⟩
          · rintro (⟨-, -, rfl, hne⟩ | ⟨-, rfl⟩)
            · exact absurd rfl hne
            · exact ⟨h.lt, h.type, rfl, hzero⟩
        · simp only [hq, if_false, false_and, or_false]
      · rw [owns_of_keeps (d := d) hkeeps hyx]
        simp [hyx]
    intro c
    constructor
    · rintro ⟨hc, hused⟩
      exact ((huse c hc).1 hused).elim (fun heq => .inr heq.symm) fun hold => .inl ⟨hc, hold⟩
    · rintro (⟨hc, hold⟩ | rfl)
      · exact ⟨hc, (huse c hc).2 (.inr hold)⟩
      · exact ⟨hb, (huse c hb).2 (.inl rfl)⟩
  · rw [hch.dinode hdata hy, h.others y hy hyx]
  · have hq : q ≠ pos := fun heq => hne (heq ▸ hempty)
    rw [href, if_neg hq]
  apply hch.agree (h.data hne).1
  rintro (heq | ⟨heq, -⟩)
  · exact hfree (heq ▸ h.inUse hne)
  · exact h.apart hne posOf_ne_indirect heq

end Xv6.Fs
