import Xv6.Fs.Lookup
import Xv6.Mkfs.Image

/-!
# Is the image in order?

Whether the kernel can work with what `mkfs` leaves.  Blocks are counted up to the end of the image and
no further, since the next `rsect` would fail.  Inode numbers are not checked at all, and rounding up the
size of the root directory adds a whole block when the entries end at the end of one.
-/

namespace Xv6.Mkfs

open Fs Hoare List Memory

variable {m : Mem} {s : State} {x k n : Nat} {files : List Input} {l : List UInt8}

theorem length_entries : (entries k files).length = sizeofDirent * files.length := by
  induction files generalizing k with
  | nil => rfl
  | cons f files ih =>
    show (dirent k _ ++ entries (k + 1) files).length = _
    rw [length_append, length_dirent, ih, length_cons, Nat.mul_add, Nat.mul_one, Nat.add_comm]

theorem length_rootContent : (rootContent files).length = sizeofDirent * (files.length + 2) := by
  unfold rootContent
  rw [length_append, length_append, length_dirent, length_dirent, length_entries, Nat.mul_add]
  omega

theorem main_returns (hfew : files.length + 2 ≤ NINODES) (hok : Acceptable files) :
    ∃ s, main files .start = .ok ((), s) ∧ Final files s := by
  have hrule : Triple (· = State.start) (main files) (fun _ => Final files) fun _ => False :=
    (main_rule hfew).allow fun _ hnot => hnot hok
  obtain ⟨_, s, hrun, hfinal⟩ := hrule.returns rfl
  exact ⟨s, hrun, hfinal⟩

theorem acceptable_of_empty (hok : ∀ f ∈ files, Accepted f) (hempty : ∀ f ∈ files, f.content = [])
    (hfew : files.length + 2 ≤ NINODES) : Acceptable files := by
  have hlen : (rootContent files).length = _ := length_rootContent
  have hzero : ∀ x, x ≠ ROOTINO → (planned files x).content.length = 0 := by
    intro x hx
    unfold planned
    rw [if_neg hx]
    cases hget : files[x - 2]? with
    | none => rfl
    | some f => exact congrArg length (hempty f (mem_of_getElem? hget))
  have hused : blocksUsed (files.length + 2) (planned files) = blocksOf (rootContent files).length :=
    Finset.sum_eq_single_of_mem ROOTINO (Finset.mem_Ico.2 ⟨by decide, by unfold ROOTINO; omega⟩) fun x _ hx => by
      rw [hzero x hx, blocksOf_zero]
  refine ⟨hok, ?_, fun x _ _ => ?_⟩
  · have hfour : blocksOf (rootContent files).length ≤ blocksOf (sizeofDirent * NINODES) :=
      blocksOf_mono (hlen ▸ Nat.mul_le_mul_left _ hfew)
    have hmany : nmeta + blocksOf (sizeofDirent * NINODES) ≤ FSSIZE := by decide
    omega
  by_cases hx : x = ROOTINO
  · have hmany : sizeofDirent * NINODES ≤ MAXFILE * BSIZE := by decide
    rw [hx]
    show (rootContent files).length ≤ _
    rw [hlen]
    exact Nat.le_trans (Nat.mul_le_mul_left _ hfew) hmany
  · rw [hzero x hx]
    exact Nat.zero_le _

/-! ## What the kernel relies on -/

def Refers (m : Mem) (x : Nat) (q : Pos) (b : Nat) : Prop :=
  x < sb.ninodes ∧ (dinode sb m x).type ≠ 0 ∧ refAt m (dinode sb m x) q = b ∧ b ≠ 0

structure Consistent (s : State) : Prop where
  super : ∀ i < 8, load s.img (BSIZE + 4 * i) 4 =
    [FSMAGIC, sb.size, nblocks, sb.ninodes, nlog, 2, sb.inodestart, sb.bmapstart].getD i 0
  inodes : ∀ x < s.freeinode, x < sb.ninodes
  data : ∀ {x q b}, Refers s.img x q b → sb.nmeta ≤ b ∧ b < sb.size ∧ InUse sb s.img b
  distinct : ∀ {x q y r b}, Refers s.img x q b → Refers s.img y r b → x = y ∧ q = r
  noOther : ∀ b, sb.nmeta ≤ b → b < sb.size → InUse sb s.img b → ∃ x q, Refers s.img x q b
  noHoles : ∀ x < sb.ninodes, (dinode sb s.img x).type ≠ 0 →
    NoHoles s.img (dinode sb s.img x) (dinode sb s.img x).size.toNat

theorem load_front (h : ∀ a < sb.inodestart * BSIZE, m a = front a) {i : Nat} (hi : i < 8) :
    load m (BSIZE + 4 * i) 4 =
      [FSMAGIC, sb.size, nblocks, sb.ninodes, nlog, 2, sb.inodestart, sb.bmapstart].getD i 0 := by
  have hagree : Agree (window superblock 0) (window m BSIZE) (4 * i) 4 := by
    intro a _ hhi
    have hin : 1 * BSIZE ≤ BSIZE + a ∧ BSIZE + a < 1 * BSIZE + BSIZE := by
      unfold BSIZE
      omega
    have hlt : BSIZE + a < sb.inodestart * BSIZE :=
      Nat.lt_of_lt_of_le hin.2 (Nat.mul_le_mul_right BSIZE sb.two_le |>.trans_eq' (by decide))
    show m (BSIZE + a) = superblock (0 + a)
    rw [h _ hlt, front, blit, if_pos hin, Nat.one_mul, Nat.add_sub_cancel_left, Nat.zero_add]
  rw [← load_window, load_congr hagree, load_window, Nat.zero_add]
  have hlt : ∀ i < 8, [FSMAGIC, FSSIZE, nblocks, NINODES, nlog, 2, sb.inodestart, sb.bmapstart].getD i 0 < 256 ^ 4 := by
    decide
  have hload : load superblock (0 + 4 * i) 4 = _ := load_putArray hi (hlt i hi)
  rw [Nat.zero_add] at hload
  exact hload

theorem Final.consistent (h : Final files s) (hfew : files.length + 2 ≤ NINODES)
    (hround : (files.length + 2) % 64 ≠ 0) : Consistent s where
  super i hi := load_front h.front hi
  inodes x hx := by
    rw [h.freeinode] at hx
    exact Nat.lt_of_lt_of_le hx hfew
  data hrefers := by
    obtain ⟨hx, htype, rfl, hne⟩ := hrefers
    obtain ⟨hlo, hhi⟩ := h.owned.data hx htype hne
    exact ⟨hlo, hhi, h.owned.inUse hx htype hne⟩
  distinct {x q y r b} hrefers hrefers' := by
    have hslot := h.owned.apart (t := .inode x q) (u := .inode y r) hrefers hrefers'
    rwa [Slot.inode.injEq] at hslot
  noOther b hlo hhi huse := by
    obtain ⟨c | ⟨x, q⟩, hown⟩ := (h.owned.taken_iff b).1 ⟨hhi, huse⟩
    · exact absurd hown.2 (Nat.not_lt_of_le hlo)
    · exact ⟨x, q, hown⟩
  noHoles x hx htype bn hbn := by
    have hin : 1 ≤ x ∧ x < files.length + 2 := by
      by_contra hout
      exact htype (h.unused x hx hout)
    rw [(h.holds x hin.1 hin.2).covers.blocks]
    by_cases hroot : x = ROOTINO
    · rw [hroot, h.root, length_rootContent] at hbn
      rw [hroot]
      show bn * BSIZE < (rootContent files).length
      rw [length_rootContent]
      unfold sizeofDirent BSIZE at *
      omega
    · rwa [h.size x (by unfold ROOTINO at hroot; omega) hin.2] at hbn

/-- Rounding up the size of a root directory that ends with a block makes a hole. -/
theorem Final.hole (h : Final files s) (hround : (files.length + 2) % 64 = 0) : ¬ Consistent s := by
  intro hcons
  have hlen : (rootContent files).length = sizeofDirent * (files.length + 2) := length_rootContent
  have hholds := h.holds ROOTINO (by decide) (by unfold ROOTINO; omega)
  have htype : (dinode sb s.img ROOTINO).type ≠ 0 := by
    rw [hholds.type]
    exact (by decide : T_DIR ≠ 0)
  have hnext : (rootContent files).length / BSIZE * BSIZE < (dinode sb s.img ROOTINO).size.toNat := by
    rw [h.root]
    exact Nat.mul_lt_mul_of_pos_right (Nat.lt_succ_self _) (by decide)
  have hover : (rootContent files).length / BSIZE * BSIZE < (rootContent files).length :=
    (hholds.covers.blocks _).1 (hcons.noHoles ROOTINO (by decide) htype _ hnext)
  rw [hlen] at hover
  unfold sizeofDirent BSIZE at hover
  omega

/-! ## How many inodes there are -/

/-- `prog` hands out the inodes from `k` up to `i`, if it returns. -/
def Counts {α : Type} (prog : Mk α) (k i : Nat) : Prop :=
  Triple (·.freeinode = k) prog (fun _ s => s.freeinode = i) fun _ => True

section Counts

variable {α β : Type} {i j sec : Nat} {din : Dinode}

theorem Counts.bind {prog : Mk α} {next : α → Mk β} (h : Counts prog k i) (hnext : ∀ a, Counts (next a) i j) :
    Counts (prog >>= next) k j := Triple.bind h hnext

theorem Counts.pure (a : α) : Counts (Pure.pure a) k k := Triple.pure fun _ hs => hs

theorem Counts.throw (e : Abort) : Counts (throw e : Mk α) k i := Triple.throw fun _ _ => trivial

theorem Counts.ite {c : Prop} [Decidable c] {prog prog' : Mk α} (h : Counts prog k i) (h' : Counts prog' k i) :
    Counts (if c then prog else prog') k i := Triple.ite (fun _ => h) fun _ => h'

theorem get_counts : Counts (get : Mk State) k k := Triple.get fun _ hs => hs

theorem rsect_counts : Counts (rsect sec) k k := get_counts.bind fun _ => .ite (.pure _) (.throw _)

theorem wsect_counts {buf : Mem} : Counts (wsect sec buf) k k := Triple.modify fun _ hs => hs

theorem winode_counts : Counts (winode x din) k k := rsect_counts.bind fun _ => wsect_counts

theorem ialloc_counts {type : Int16} : Counts (ialloc type) k (k + 1) := by
  refine Triple.bind (Q := fun s _ => s.freeinode = k) (.get fun _ hs => hs) fun s => .known (fun _ hs => hs) fun hs => ?_
  refine Triple.bind (Q := fun _ t => t.freeinode = k + 1) (.of_ok (fun _ => trivial) fun _ _ _ _ hrun => ?_) fun _ => ?_
  · cases hrun
    exact congrArg (· + 1) hs
  · exact winode_counts.bind fun _ => .pure _

theorem nextBlock_counts : Counts nextBlock k k :=
  Triple.of_ok (fun _ => trivial) fun _ _ _ hs hrun => by
    cases hrun
    exact hs

theorem fileBlock_counts {fbn : Nat} : Counts (fileBlock din fbn) k k := by
  unfold fileBlock
  refine .ite (.ite (nextBlock_counts.bind fun _ => .pure _) (.pure _)) ?_
  dsimp only
  have hentry : ∀ {sec a : Nat} {buf : Mem} {din : Dinode}, Counts (if load buf a 4 = 0 then do
      let x ← nextBlock
      wsect sec (put buf a 4 x)
      pure (x, din) else pure (load buf a 4, din)) k k :=
    .ite (nextBlock_counts.bind fun _ => wsect_counts.bind fun _ => .pure _) (.pure _)
  exact .ite (nextBlock_counts.bind fun _ => (Counts.pure _).bind fun _ => rsect_counts.bind fun _ => hentry)
    ((Counts.pure _).bind fun _ => rsect_counts.bind fun _ => hentry)

theorem appendLoop_counts {fuel off : Nat} : Counts (appendLoop fuel din off l) k k := by
  induction fuel generalizing din off l with
  | zero => exact .pure _
  | succ fuel ih =>
    unfold appendLoop appendBlock
    refine .ite (.pure _) (.ite (.throw _) (.bind (i := k) ?_ fun _ => ih))
    exact fileBlock_counts.bind fun _ => rsect_counts.bind fun _ => wsect_counts.bind fun _ => .pure _

theorem iappend_counts : Counts (iappend x l) k k :=
  .bind (i := k) (rsect_counts.bind fun _ => .pure _) fun _ => appendLoop_counts.bind fun _ => winode_counts

theorem forM_counts {body : α → Mk PUnit} {l : List α} (c : Nat) (h : ∀ a k, Counts (body a) k (k + c)) :
    Counts (l.forM body) k (k + l.length * c) := by
  induction l generalizing k with
  | nil =>
    rw [length_nil, Nat.zero_mul]
    exact .pure _
  | cons a l ih =>
    have hnext := ih (k := k + c)
    rw [Nat.add_assoc, Nat.add_comm c, ← Nat.succ_mul] at hnext
    exact (h a k).bind fun _ => hnext

theorem addFile_counts (f : Input) : Counts (addFile f) k (k + 1) := by
  unfold addFile
  refine .ite (.throw _) ?_
  split
  · exact .throw _
  · refine .ite (.throw _) (ialloc_counts.bind fun _ => iappend_counts.bind fun _ => ?_)
    exact forM_counts 0 fun _ _ => iappend_counts

theorem main_counts : Counts (main files) 1 (files.length + 2) := by
  unfold main
  have hzero : Counts ((List.range FSSIZE).forM fun i => wsect i zeroes) 1 (1 + (List.range FSSIZE).length * 0) :=
    forM_counts 0 fun _ _ => wsect_counts
  rw [Nat.mul_zero] at hzero
  refine .bind (i := 1) (Triple.modify fun _ hs => hs) fun _ => hzero.bind fun _ => ?_
  refine wsect_counts.bind fun _ => ialloc_counts.bind fun _ => .ite (.throw _) ?_
  refine iappend_counts.bind fun _ => iappend_counts.bind fun _ => .bind (i := files.length + 2) ?_ fun _ => ?_
  · have hfiles := forM_counts (k := 2) (l := files) 1 fun f k => addFile_counts f
    rwa [Nat.mul_one, Nat.add_comm] at hfiles
  · refine .bind (i := files.length + 2) (rsect_counts.bind fun _ => .pure _) fun _ => winode_counts.bind fun _ => ?_
    exact get_counts.bind fun _ => .ite (.throw _) wsect_counts

end Counts

/-- If `main` returns, the image is in order if and only if there are inodes enough and the root directory does not end at
the end of a block. -/
theorem consistent_iff_of_main (hrun : main files .start = .ok ((), s)) :
    Consistent s ↔ files.length ≤ 198 ∧ (files.length + 2) % 64 ≠ 0 := by
  have hcount : s.freeinode = files.length + 2 := main_counts.ok rfl hrun
  refine ⟨fun hcons => ?_, fun ⟨hfew, hround⟩ => ?_⟩
  · have hfew : files.length ≤ 198 := by
      by_contra hmany
      have hlt := hcons.inodes 200 (by omega)
      exact absurd hlt (by decide)
    have hfinal := (main_rule (Nat.add_le_add_right hfew 2)).ok rfl hrun
    exact ⟨hfew, fun hround => hfinal.hole hround hcons⟩
  · have hinodes : files.length + 2 ≤ NINODES := Nat.add_le_add_right hfew 2
    exact ((main_rule hinodes).ok rfl hrun).consistent hinodes hround

def twoBytes : Input where
  path := [102]
  pieces := some [[97, 98]]
  noNul := by decide
  delivered := by decide

theorem acceptable_twoBytes : Acceptable [twoBytes] where
  accepted f hf := by
    rw [mem_singleton.1 hf]
    exact ⟨by decide, rfl, by decide⟩
  roomy := ⟨by decide, by decide⟩

theorem consistent_iff_of_main_twoBytes : ∃ s, main [twoBytes] .start = .ok ((), s) ∧ Consistent s := by
  obtain ⟨s, hrun, -⟩ := main_returns (by decide) acceptable_twoBytes
  exact ⟨s, hrun, (consistent_iff_of_main hrun).mpr (by decide)⟩

/-! ## A root directory that fills its blocks -/

def sixtyTwo : List Input := (List.finRange 62).map fun (i : Fin 62) =>
  { path := [97, UInt8.ofNat (48 + i.val)]
    pieces := some []
    noNul := by
      revert i
      decide
    delivered := fun _ hl => absurd hl List.not_mem_nil }

theorem acceptable_sixtyTwo : Acceptable sixtyTwo := by
  refine acceptable_of_empty (fun f hf => ?_) (fun f hf => ?_) (by decide)
  · obtain ⟨i, -, rfl⟩ := mem_map.1 hf
    have hname : ∀ i : Fin 62, slash ∉ basename [97, UInt8.ofNat (48 + i.val)] ∧
        (shortname [97, UInt8.ofNat (48 + i.val)]).length ≤ DIRSIZ := by decide
    exact ⟨(hname i).1, rfl, (hname i).2⟩
  · obtain ⟨i, -, rfl⟩ := mem_map.1 hf
    rfl

theorem main_leaves_hole : ¬ ∀ files s, main files .start = .ok ((), s) → Consistent s := by
  intro hall
  obtain ⟨s, hrun, hfinal⟩ := main_returns (by decide) acceptable_sixtyTwo
  exact hfinal.hole (by decide) (hall _ s hrun)

end Xv6.Mkfs
