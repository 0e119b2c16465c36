import Mathlib.Algebra.BigOperators.Intervals
import Xv6.Lib.Sums
import Xv6.Mkfs.Append

/-!
# The image that `mkfs` makes

What `main` has put into the image can be told without any blocks: a list of nodes with a type and a
content each.  `Image` says that the image holds them and is in order as the kernel wants it, and every
function that `main` calls has a rule for it.  A run fails only if a file has no room.
-/

namespace Xv6.Mkfs

open Finset Fs Function Hoare Memory Ownership

variable {m m' : Mem} {s s' : State} {d : Dinode} {x y a n k : Nat} {p q : List UInt8}

/-- What an inode stands for. -/
structure Node where
  type : Int16
  content : List UInt8

/-- The inode `d` has the content of the node, whatever its size says. -/
structure Holds (m : Mem) (d : Dinode) (v : Node) : Prop where
  type : d.type = v.type
  nlink : d.nlink = 1
  covers : Covers m d v.content.length
  bytes : fileBytes m d 0 v.content.length = v.content

theorem Holds.congr {v : Node} (h : Holds m d v) (hsame : SameFile m m' d) : Holds m' d v where
  type := h.type
  nlink := h.nlink
  covers := h.covers.congr hsame.refs
  bytes := by
    rw [hsame.fileBytes fun bn hbn => (h.covers.blocks bn).2 (by omega), h.bytes]

theorem fileBytes_resize {v : UInt32} : fileBytes m { d with size := v } a n = fileBytes m d a n :=
  fileBytes_congr (fun _ => refAt_resize _) fun _ _ _ => .refl _ _ _

theorem Holds.resize {v : Node} (h : Holds m d v) (size : UInt32) : Holds m { d with size := size } v where
  type := h.type
  nlink := h.nlink
  covers := h.covers.congr refAt_resize
  bytes := by
    rw [fileBytes_resize, h.bytes]

variable {node node' : Nat → Node}

def blocksUsed (n : Nat) (node : Nat → Node) : Nat := ∑ x ∈ Ico 1 n, blocksOf (node x).content.length

/-- The nodes below `n` fit into an image. -/
structure Roomy (n : Nat) (node : Nat → Node) : Prop where
  blocks : nmeta + blocksUsed n node ≤ FSSIZE
  small : ∀ x, 1 ≤ x → x < n → (node x).content.length ≤ MAXFILE * BSIZE

theorem Roomy.mono (h : Roomy k node') (hn : n ≤ k)
    (hle : ∀ x, 1 ≤ x → x < n → (node x).content.length ≤ (node' x).content.length) : Roomy n node where
  blocks := by
    have hsum : blocksUsed n node ≤ blocksUsed k node' := by
      unfold blocksUsed
      calc ∑ x ∈ Ico 1 n, blocksOf (node x).content.length
          ≤ ∑ x ∈ Ico 1 n, blocksOf (node' x).content.length :=
            sum_le_sum fun x hx => blocksOf_mono (hle x (mem_Ico.1 hx).1 (mem_Ico.1 hx).2)
        _ ≤ ∑ x ∈ Ico 1 k, blocksOf (node' x).content.length := sum_le_sum_of_subset (Ico_subset_Ico_right hn)
    have hroom := h.blocks
    omega
  small x hx hlt := Nat.le_trans (hle x hx hlt) (h.small x hx (Nat.lt_of_lt_of_le hlt hn))

def front : Mem := blit zeroes 1 superblock

/-- The inodes 1 up to `n` of the image hold the nodes. -/
structure Image (n : Nat) (node : Nat → Node) (s : State) : Prop where
  freeinode : s.freeinode = n
  few : n ≤ NINODES
  owned : Owned sb s.disk (owns sb s.disk (dinode sb s.disk))
  blank : ∀ a, s.freeblock * BSIZE ≤ a → s.img a = 0
  front : ∀ a < sb.inodestart * BSIZE, s.img a = front a
  count : s.freeblock = nmeta + blocksUsed n node
  roomy : Roomy n node
  type : ∀ x, 1 ≤ x → x < n → (node x).type ≠ 0
  holds : ∀ x, 1 ≤ x → x < n → Holds s.disk (dinode sb s.disk x) (node x)
  size : ∀ x, 1 ≤ x → x < n → (dinode sb s.disk x).size.toNat = (node x).content.length
  unused : ∀ x < NINODES, ¬ (1 ≤ x ∧ x < n) → (dinode sb s.disk x).type = 0

theorem Image.hi (h : Image n node s) : s.freeblock ≤ FSSIZE := by
  rw [h.count]
  exact h.roomy.blocks

theorem Image.type_ne (h : Image n node s) (hx : 1 ≤ x) (hlt : x < n) : (dinode sb s.disk x).type ≠ 0 := by
  rw [(h.holds x hx hlt).type]
  exact h.type x hx hlt

theorem Image.draft (h : Image n node s) (hx : 1 ≤ x) (hlt : x < n) :
    Draft (dinode sb s.disk) x s (dinode sb s.disk x) :=
  ⟨.of_owned h.owned (Nat.lt_of_lt_of_le hlt h.few) (h.type_ne hx hlt), h.hi, h.blank⟩

/-! ## `iappend` -/

def appendTo (node : Nat → Node) (x : Nat) (p : List UInt8) : Nat → Node :=
  update node x ⟨(node x).type, (node x).content ++ p⟩

theorem appendTo_self : appendTo node x p x = ⟨(node x).type, (node x).content ++ p⟩ := update_self _ _ _

theorem appendTo_of_ne (h : y ≠ x) : appendTo node x p y = node y := update_of_ne h _ _

theorem length_le_appendTo : (node y).content.length ≤ (appendTo node x p y).content.length := by
  by_cases hyx : y = x
  · rw [hyx, appendTo_self, List.length_append]
    exact Nat.le_add_right _ _
  · rw [appendTo_of_ne hyx]

theorem appendTo_append : appendTo (appendTo node x p) x q = appendTo node x (p ++ q) := by
  unfold appendTo
  rw [update_idem, update_self, List.append_assoc]

theorem blocksUsed_appendTo (node : Nat → Node) (p : List UInt8) (hx : 1 ≤ x) (hlt : x < n) :
    blocksUsed n (appendTo node x p) + blocksOf (node x).content.length =
      blocksUsed n node + blocksOf ((node x).content.length + p.length) := by
  have hsum := Sums.sum_change (f := fun y => blocksOf (appendTo node x p y).content.length)
    (g := fun y => blocksOf (node y).content.length) (mem_Ico.2 ⟨hx, hlt⟩) fun y _ hne => by
      rw [appendTo_of_ne hne]
  simp only [appendTo_self, List.length_append] at hsum
  exact hsum

theorem Image.fits_iff (h : Image n node s) (hx : 1 ≤ x) (hlt : x < n) :
    Fits s (node x).content.length p.length ↔ Roomy n (appendTo node x p) := by
  have hsum := blocksUsed_appendTo node p hx hlt
  have hcount := h.count
  constructor
  · rintro ⟨hsmall, hroom⟩
    refine ⟨by omega, fun y hy hyn => ?_⟩
    by_cases hyx : y = x
    · rw [hyx, appendTo_self, List.length_append]
      exact hsmall
    · rw [appendTo_of_ne hyx]
      exact h.roomy.small y hy hyn
  intro hroomy
  have hsmall := hroomy.small x hx hlt
  have hroom := hroomy.blocks
  rw [appendTo_self, List.length_append] at hsmall
  exact ⟨hsmall, by omega⟩

theorem Image.appended {d' : Dinode} (h : Image n node s) (hx : 1 ≤ x) (hlt : x < n)
    (hroomy : Roomy n (appendTo node x p))
    (happ : Appended (dinode sb s.disk) x s (dinode sb s.disk x) (node x).content.length p s' d') :
    Image n (appendTo node x p) { s' with
      img := putDinode s'.img (inodeAddr sb x)
        { d' with size := UInt32.ofNat ((node x).content.length + p.length) } } := by
  obtain ⟨v, hv⟩ : ∃ v, v = UInt32.ofNat ((node x).content.length + p.length) := ⟨_, rfl⟩
  rw [← hv]
  have hadv := happ.advances
  have hxn : x < NINODES := Nat.lt_of_lt_of_le hlt h.few
  have hdisk := disk_putDinode (s := s') (d := { d' with size := v }) hxn
  obtain ⟨hgood, hkeeps, hsame⟩ := (hadv.draft.good.resize v).update
  have hself : dinode sb (putDinode s'.disk (inodeAddr sb x) { d' with size := v }) x = { d' with size := v } :=
    dinode_putDinode_self sb
  have hothers : ∀ y < NINODES, y ≠ x →
      dinode sb (putDinode s'.disk (inodeAddr sb x) { d' with size := v }) y = dinode sb s.disk y := hgood.others
  have hlen : (appendTo node x p x).content.length = (node x).content.length + p.length := by
    rw [appendTo_self, List.length_append]
  have hsmall := hroomy.small x hx hlt
  have hsize : v.toNat = (node x).content.length + p.length := by
    rw [hv, UInt32.toNat_ofNat']
    apply Nat.mod_eq_of_lt
    rw [← hlen]
    exact Nat.lt_of_le_of_lt hsmall (by decide)
  have hinode := inodeAddr_hi sb (x := x) hxn
  have hbits : sb.bmapstart * BSIZE ≤ sb.nmeta * BSIZE := Nat.mul_le_mul_right _ sb.bmapstart_le
  refine ⟨hadv.freeinode.trans h.freeinode, h.few, ?_, fun a ha => ?_, fun a ha => ?_, ?_, hroomy, ?_, ?_, ?_, ?_⟩
  · rw [hdisk]
    exact hgood.settle hself
  · have hfar : s'.freeblock * BSIZE ≤ a := ha
    have hlo : sb.nmeta * BSIZE ≤ s'.freeblock * BSIZE := Nat.mul_le_mul_right _ hadv.draft.lo
    exact (putDinode_outside (.inr (by omega))).trans (hadv.draft.blank a hfar)
  · have hlo := inodeAddr_lo sb (x := x)
    exact (putDinode_outside (.inl (by omega))).trans ((hadv.super a ha).trans (h.front a ha))
  · have hsum := blocksUsed_appendTo node p hx hlt
    have hcount := h.count
    have hcount' := happ.count
    show s'.freeblock = _
    omega
  · intro y hy hyn
    by_cases hyx : y = x
    · rw [hyx, appendTo_self]
      exact h.type x hx hlt
    · rw [appendTo_of_ne hyx]
      exact h.type y hy hyn
  · intro y hy hyn
    rw [hdisk]
    by_cases hyx : y = x
    · subst hyx
      have hold := h.holds y hx hlt
      have hnew : Holds s'.disk d' (appendTo node y p y) := by
        refine ⟨?_, ?_, ?_, ?_⟩
        · rw [hadv.attrs, appendTo_self]
          exact hold.type
        · rw [hadv.attrs]
          exact hold.nlink
        · rw [hlen]
          exact happ.covers
        · rw [hlen, happ.bytes, hold.bytes, appendTo_self]
      rw [hself]
      exact (hnew.resize v).congr hsame
    · rw [hothers y (Nat.lt_of_lt_of_le hyn h.few) hyx, appendTo_of_ne hyx]
      have htype := h.type_ne hy hyn
      exact (h.holds y hy hyn).congr ((hadv.keeps.trans hkeeps) y (Nat.lt_of_lt_of_le hyn h.few) hyx htype)
  · intro y hy hyn
    rw [hdisk]
    by_cases hyx : y = x
    · rw [hyx, hself, hlen]
      exact hsize
    · rw [hothers y (Nat.lt_of_lt_of_le hyn h.few) hyx, appendTo_of_ne hyx]
      exact h.size y hy hyn
  · intro y hyn hout
    rw [hdisk, hothers y hyn fun heq => hout (heq ▸ ⟨hx, hlt⟩)]
    exact h.unused y hyn hout

theorem iappend_rule (hx : 1 ≤ x) (hlt : x < n) :
    Triple (Image n node) (iappend x p) (fun _ => Image n (appendTo node x p))
      fun _ => ¬ Roomy n (appendTo node x p) := by
  have hrun : ∀ s, Image n node s →
      (Roomy n (appendTo node x p) ∧ ∃ t, iappend x p s = .ok ((), t) ∧ Image n (appendTo node x p) t) ∨
        (¬ Roomy n (appendTo node x p) ∧ ∃ e, iappend x p s = .error e) := by
    intro s h
    have hxn : x < NINODES := Nat.lt_of_lt_of_le hlt h.few
    have hread : rinode x s = .ok (dinode sb s.disk x, s) := by
      rw [rinode_run hxn, dinode_disk hxn]
    unfold iappend
    rw [bind_of_ok hread, h.size x hx hlt, ← h.fits_iff hx hlt]
    rcases appendLoop_run (k := p.length) (h.draft hx hlt) (h.holds x hx hlt).covers
      (h.roomy.small x hx hlt) (Nat.le_refl p.length) with ⟨hfits, s', d', hloop, happ⟩ | ⟨hfits, e, hloop⟩
    · refine .inl ⟨hfits, _, ?_, h.appended hx hlt ((h.fits_iff hx hlt).1 hfits) happ⟩
      rw [bind_of_ok hloop]
      exact winode_run hxn
    · exact .inr ⟨hfits, e, bind_of_error hloop⟩
  constructor
  · intro s u t hs hok
    rcases hrun s hs with ⟨-, t', hok', himage⟩ | ⟨-, e, herr⟩
    · rw [hok'] at hok
      cases hok
      exact himage
    · rw [herr] at hok
      cases hok
  intro s e hs herr
  rcases hrun s hs with ⟨-, t', hok', -⟩ | ⟨hfull, -⟩
  · rw [hok'] at herr
    cases herr
  · exact hfull

theorem appendTo_nil : appendTo node x [] = node := by
  unfold appendTo
  rw [List.append_nil]
  exact update_eq_self _ _

theorem appendAll_rule (hx : 1 ≤ x) (hlt : x < n) (l : List (List UInt8)) :
    Triple (Image n node) (l.forM (iappend x)) (fun _ => Image n (appendTo node x l.flatten))
      fun _ => ¬ Roomy n (appendTo node x l.flatten) := by
  induction l generalizing node with
  | nil =>
    rw [List.flatten_nil, appendTo_nil]
    exact .pure fun _ hs => hs
  | cons p l ih =>
    have hrest := @ih (appendTo node x p)
    rw [appendTo_append] at hrest
    rw [List.flatten_cons]
    refine ((iappend_rule hx hlt).allow fun _ hfull hroomy => hfull ?_).bind fun _ => hrest
    rw [← appendTo_append] at hroomy
    exact hroomy.mono (Nat.le_refl _) fun y _ _ => length_le_appendTo

/-! ## `ialloc` -/

theorem refAt_emptyInode {type : Int16} (q : Pos) : refAt m (emptyInode type) q = 0 :=
  refAt_emptied (d := emptyInode type)

theorem Holds.empty {type : Int16} : Holds m (emptyInode type) ⟨type, []⟩ where
  type := rfl
  nlink := rfl
  covers := by
    refine ⟨fun bn => ?_, ?_⟩
    · rw [blockAddr, refAt_emptyInode]
      exact iff_of_false (fun h => h rfl) (Nat.not_lt_zero _)
    · have hzero : (emptyInode type).addr NDIRECT = 0 := refAt_emptyInode (m := m) (.addr NDIRECT)
      rw [hzero]
      exact iff_of_false (fun h => h rfl) (Nat.not_lt_zero _)
  bytes := rfl

theorem owned_emptyInode (type : Int16) (h : Owned sb m (owns sb m (dinode sb m))) (hx : x < NINODES)
    (hfree : (dinode sb m x).type = 0) : Owned sb (putDinode m (inodeAddr sb x) (emptyInode type))
      (owns sb (putDinode m (inodeAddr sb x) (emptyInode type))
        (dinode sb (putDinode m (inodeAddr sb x) (emptyInode type)))) ∧ ∀ y < NINODES, (dinode sb m y).type ≠ 0 →
      SameFile m (putDinode m (inodeAddr sb x) (emptyInode type)) (dinode sb m y) := by
  have habove : SameAbove sb m (putDinode m (inodeAddr sb x) (emptyInode type)) := sameAbove_putDinode hx
  have hsame : ∀ y < NINODES, (dinode sb m y).type ≠ 0 →
      SameFile m (putDinode m (inodeAddr sb x) (emptyInode type)) (dinode sb m y) :=
    fun y hy htype => habove.sameFile fun q hne => (h.data hy htype hne).1
  refine ⟨Owners.congr h ?_ fun b => and_congr_right fun _ => habove.inUse, hsame⟩
  rintro (c | ⟨y, q⟩) b
  · exact Iff.rfl
  refine and_congr_right fun hy => ?_
  by_cases hyx : y = x
  · rw [hyx, dinode_putDinode_self, refAt_emptyInode, hfree]
    exact iff_of_false (fun hown => hown.2.2 hown.2.1.symm) fun hown => hown.1 rfl
  · rw [dinode_putDinode_of_ne sb hyx]
    refine and_congr_right fun htype => ?_
    rw [(hsame y hy htype).refs]

theorem blocksUsed_succ (hn : 1 ≤ n) (v : Node) :
    blocksUsed (n + 1) (update node n v) = blocksUsed n node + blocksOf v.content.length := by
  unfold blocksUsed
  rw [sum_Ico_succ_top hn, update_self]
  congr 1
  apply sum_congr rfl
  intro y hy
  rw [update_of_ne (Nat.ne_of_lt (mem_Ico.1 hy).2)]

theorem blocksOf_zero : blocksOf 0 = 0 := by decide

variable {E : Abort → Prop}

theorem ialloc_rule {type : Int16} (hn : 1 ≤ n) (hlt : n < NINODES) (htype : type ≠ 0) :
    Triple (Image n node) (ialloc type) (fun x s => x = n ∧ Image (n + 1) (update node n ⟨type, []⟩) s) E := by
  apply Triple.of_returns
  intro s h
  have hinode := inodeAddr_hi sb (x := n) hlt
  have hdisk : (⟨putDinode s.img (inodeAddr sb n) (emptyInode type), n + 1, s.freeblock⟩ : State).disk =
      putDinode s.disk (inodeAddr sb n) (emptyInode type) := disk_putDinode (s := s) hlt
  have hfree : (dinode sb s.disk n).type = 0 := h.unused n hlt fun hin => Nat.lt_irrefl n hin.2
  obtain ⟨howned, hsame⟩ := owned_emptyInode type h.owned hlt hfree
  have hbits : sb.bmapstart * BSIZE ≤ sb.nmeta * BSIZE := Nat.mul_le_mul_right _ sb.bmapstart_le
  have hself : dinode sb (putDinode s.disk (inodeAddr sb n) (emptyInode type)) n = emptyInode type :=
    dinode_putDinode_self sb
  have hothers : ∀ y, y ≠ n → dinode sb (putDinode s.disk (inodeAddr sb n) (emptyInode type)) y = dinode sb s.disk y :=
    fun y hyn => dinode_putDinode_of_ne sb hyn
  have hrun : ialloc type s = .ok (n, { s with
      img := putDinode s.img (inodeAddr sb n) (emptyInode type), freeinode := n + 1 }) := by
    unfold ialloc
    rw [get_bind, h.freeinode, set_bind]
    exact bind_of_ok (winode_run (s := { s with freeinode := n + 1 }) hlt)
  have hlast : ∀ {y}, y < n + 1 → y ≠ n → y < n := fun hy hne => Nat.lt_of_le_of_ne (Nat.lt_succ_iff.1 hy) hne
  have hcount : blocksUsed (n + 1) (update node n ⟨type, []⟩) = blocksUsed n node := by
    rw [blocksUsed_succ hn]
    exact congrArg _ blocksOf_zero
  refine ⟨n, _, hrun, rfl, rfl, hlt, ?_, fun a ha => ?_, fun a ha => ?_, ?_, ⟨?_, ?_⟩, ?_, ?_, ?_, ?_⟩
  · rw [hdisk]
    exact howned
  · have hfar : s.freeblock * BSIZE ≤ a := ha
    have hlo : sb.nmeta * BSIZE ≤ s.freeblock * BSIZE := by
      apply Nat.mul_le_mul_right
      rw [h.count]
      exact Nat.le_add_right _ _
    exact (putDinode_outside (.inr (by omega))).trans (h.blank a hfar)
  · have hlo := inodeAddr_lo sb (x := n)
    exact (putDinode_outside (.inl (by omega))).trans (h.front a ha)
  · rw [hcount]
    exact h.count
  · rw [hcount]
    exact h.roomy.blocks
  · intro y hy hyn
    by_cases hne : y = n
    · rw [hne, update_self]
      exact Nat.zero_le _
    · rw [update_of_ne hne]
      exact h.roomy.small y hy (hlast hyn hne)
  · intro y hy hyn
    by_cases hne : y = n
    · rw [hne, update_self]
      exact htype
    · rw [update_of_ne hne]
      exact h.type y hy (hlast hyn hne)
  · intro y hy hyn
    rw [hdisk]
    by_cases hne : y = n
    · rw [hne, update_self, hself]
      exact .empty
    · rw [update_of_ne hne, hothers y hne]
      have hyn' := hlast hyn hne
      exact (h.holds y hy hyn').congr (hsame y (Nat.lt_trans hyn' hlt) (h.type_ne hy hyn'))
  · intro y hy hyn
    rw [hdisk]
    by_cases hne : y = n
    · rw [hne, update_self, hself]
      rfl
    · rw [update_of_ne hne, hothers y hne]
      exact h.size y hy (hlast hyn hne)
  intro y hyn hout
  have hne : y ≠ n := by
    rintro rfl
    exact hout ⟨hn, Nat.lt_succ_self _⟩
  rw [hdisk, hothers y hne]
  exact h.unused y hyn fun hin => hout ⟨hin.1, Nat.lt_succ_of_lt hin.2⟩

/-! ## Files -/

def Input.content (f : Input) : List UInt8 := (f.pieces.getD []).flatten

def entries : Nat → List Input → List UInt8
  | _, [] => []
  | k, f :: files => dirent k (shortname f.path) ++ entries (k + 1) files

def rootContent (files : List Input) : List UInt8 := dirent ROOTINO dot ++ dirent ROOTINO dotdot ++ entries 2 files

def planned (files : List Input) (x : Nat) : Node :=
  if x = ROOTINO then ⟨T_DIR, rootContent files⟩
  else ⟨T_FILE, (files[x - 2]?.map Input.content).getD []⟩

/-- What `main` insists on. -/
structure Accepted (f : Input) : Prop where
  noSlash : slash ∉ basename f.path
  opens : f.pieces.isSome
  short : (shortname f.path).length ≤ DIRSIZ

structure Acceptable (files : List Input) : Prop where
  accepted : ∀ f ∈ files, Accepted f
  roomy : Roomy (files.length + 2) (planned files)

variable {files rest : List Input} {f : Input}

theorem entries_append : entries k (files ++ rest) = entries k files ++ entries (k + files.length) rest := by
  induction files generalizing k with
  | nil => rfl
  | cons g files ih =>
    have hnext : k + 1 + files.length = k + (g :: files).length := by
      rw [List.length_cons]
      omega
    show dirent k _ ++ entries (k + 1) (files ++ rest) = (dirent k _ ++ entries (k + 1) files) ++ _
    rw [ih, hnext, List.append_assoc]

theorem rootContent_append : rootContent (files ++ rest) = rootContent files ++ entries (files.length + 2) rest := by
  unfold rootContent
  rw [entries_append, List.append_assoc, List.append_assoc, List.append_assoc, Nat.add_comm 2]

theorem planned_append (hx : 1 ≤ x) (hlt : x < files.length + 3) : planned (files ++ [f]) x = appendTo (appendTo
      (update (planned files) (files.length + 2) ⟨T_FILE, []⟩) ROOTINO
        (dirent (files.length + 2) (shortname f.path))) (files.length + 2) f.content x := by
  have hroot : ROOTINO ≠ files.length + 2 := by
    unfold ROOTINO
    omega
  unfold appendTo
  by_cases hlast : x = files.length + 2
  · rw [hlast, update_self, update_of_ne hroot.symm, update_self]
    unfold planned
    rw [if_neg hroot.symm, Nat.add_sub_cancel, List.getElem?_concat_length]
    rfl
  rw [update_of_ne hlast]
  by_cases hone : x = ROOTINO
  · rw [hone, update_self, update_of_ne hroot]
    show Node.mk T_DIR _ = Node.mk T_DIR (rootContent files ++ _)
    rw [rootContent_append]
    show Node.mk T_DIR (_ ++ (dirent _ _ ++ [])) = _
    rw [List.append_nil]
  rw [update_of_ne hone, update_of_ne hlast]
  unfold planned
  rw [if_neg hone, if_neg hone, List.getElem?_append_left]
  unfold ROOTINO at hone
  omega

theorem Image.congr (h : Image n node s) (hsame : ∀ x, 1 ≤ x → x < n → node' x = node x) : Image n node' s := by
  have hused : blocksUsed n node' = blocksUsed n node :=
    sum_congr rfl fun x hx => by rw [hsame x (mem_Ico.1 hx).1 (mem_Ico.1 hx).2]
  refine ⟨h.freeinode, h.few, h.owned, h.blank, h.front, ?_, ?_, ?_, ?_, ?_, h.unused⟩
  · rw [hused]
    exact h.count
  · exact h.roomy.mono (Nat.le_refl n) fun x hx hlt => by rw [hsame x hx hlt]
  · intro x hx hlt
    rw [hsame x hx hlt]
    exact h.type x hx hlt
  · intro x hx hlt
    rw [hsame x hx hlt]
    exact h.holds x hx hlt
  · intro x hx hlt
    rw [hsame x hx hlt]
    exact h.size x hx hlt

theorem addFile_rule (hfew : files.length + 2 < NINODES) : Triple (Image (files.length + 2) (planned files)) (addFile f)
      (fun _ => Image (files.length + 3) (planned (files ++ [f])))
      fun _ => Accepted f → ¬ Roomy (files.length + 3) (planned (files ++ [f])) := by
  unfold addFile
  refine .ite (fun hslash => .throw fun _ _ hok => absurd hslash hok.noSlash) fun hslash => ?_
  cases hpieces : f.pieces with
  | none =>
    refine .throw fun _ _ hok => ?_
    have hopens := hok.opens
    rw [hpieces] at hopens
    cases hopens
  | some pieces =>
    have hcontent : pieces.flatten = f.content := by
      unfold Input.content
      rw [hpieces]
      rfl
    refine .ite (fun hlong => .throw fun _ _ hok => absurd hok.short (Nat.not_le_of_lt hlong)) fun hshort => ?_
    refine (ialloc_rule (by omega) hfew (by decide)).bind fun inum => .assume fun hinum => ?_
    subst hinum
    have hroot : ROOTINO ≠ files.length + 2 := by
      unfold ROOTINO
      omega
    refine ((iappend_rule (by decide) (by unfold ROOTINO; omega)).allow fun _ hfull _ hroomy => hfull ?_).bind fun _ => ?_
    · refine hroomy.mono (Nat.le_refl _) fun x hx hlt => ?_
      rw [planned_append hx hlt]
      exact length_le_appendTo
    refine ((appendAll_rule (by omega) (Nat.lt_succ_self _) pieces).allow fun _ hfull _ hroomy => hfull ?_).post
      fun _ s h => ?_
    · rw [hcontent]
      exact hroomy.mono (Nat.le_refl _) fun x hx hlt => by rw [planned_append hx hlt]
    · rw [hcontent] at h
      exact h.congr fun x hx hlt => planned_append hx hlt

theorem Acceptable.init (h : Acceptable (files ++ rest)) : Acceptable files := by
  refine ⟨fun f hf => h.accepted f (List.mem_append_left _ hf), ?_⟩
  refine h.roomy.mono (by rw [List.length_append]; omega) fun x hx hlt => ?_
  unfold planned
  by_cases hone : x = ROOTINO
  · rw [if_pos hone, if_pos hone, rootContent_append, List.length_append]
    exact Nat.le_add_right _ _
  · rw [if_neg hone, if_neg hone, List.getElem?_append_left]
    unfold ROOTINO at hone
    omega

theorem addAll_rule (hfew : (files ++ rest).length + 2 ≤ NINODES) :
    Triple (Image (files.length + 2) (planned files)) (rest.forM addFile)
      (fun _ => Image ((files ++ rest).length + 2) (planned (files ++ rest)))
      fun _ => ¬ Acceptable (files ++ rest) := by
  induction rest generalizing files with
  | nil =>
    rw [List.append_nil]
    exact .pure fun _ hs => hs
  | cons f rest ih =>
    have happ : files ++ f :: rest = (files ++ [f]) ++ rest := by rw [List.append_assoc]; rfl
    have hlen : (files ++ [f]).length + 2 = files.length + 3 := by rw [List.length_append]; rfl
    rw [happ] at hfew ⊢
    have hone : files.length + 2 < NINODES := by
      rw [List.length_append] at hfew
      omega
    refine ((addFile_rule hone).allow fun _ hfull hok => ?_).bind fun _ => ?_
    · have hfirst := hok.init
      refine hfull (hfirst.accepted f (List.mem_append_right _ (List.mem_singleton_self f))) ?_
      rw [← hlen]
      exact hfirst.roomy
    · rw [← hlen]
      exact ih hfew

/-! ## `main` -/

theorem blit_zeroes : blit zeroes k zeroes = zeroes := by
  funext a
  unfold blit
  split <;> rfl

theorem zero_rule (s : State) (h : s.img = zeroes) :
    Triple (· = s) ((List.range FSSIZE).forM fun i => wsect i zeroes) (fun _ => (· = s)) E := by
  refine Triple.forM_range (I := fun _ t => t = s) fun i _ => .modify ?_
  rintro t rfl
  show ({ t with img := blit t.img i zeroes } : State) = t
  rw [h, blit_zeroes, ← h]

def State.bare : State := ⟨front, 1, nmeta⟩

theorem front_eq (h : 2 * BSIZE ≤ a) : front a = 0 := by
  unfold front blit
  rw [if_neg (by omega)]
  rfl

theorem type_zeroes (h : Agree zeroes m a 64) : (loadDinode m a).type = 0 := by
  rw [loadDinode_congr h]
  rfl

theorem image_bare : Image 1 node State.bare := by
  have hmeta : State.bare.freeblock = sb.nmeta := by decide
  have htype : ∀ x < NINODES, (dinode sb State.bare.disk x).type = 0 := by
    intro x hx
    rw [dinode_disk hx]
    apply type_zeroes
    intro a hlo _
    have hstart : 2 * BSIZE ≤ sb.inodestart * BSIZE := Nat.mul_le_mul_right _ sb.two_le
    exact front_eq (Nat.le_trans hstart (Nat.le_trans (inodeAddr_lo sb) hlo))
  have hnone : ∀ {x q b}, ¬ owns sb State.bare.disk (dinode sb State.bare.disk) (.inode x q) b :=
    fun hown => hown.2.1 (htype _ hown.1)
  refine ⟨rfl, by decide, ⟨fun {t u b} ht hu => ?_, fun b => ?_⟩, fun a ha => front_eq ?_, fun _ _ => rfl, ?_, ⟨?_, ?_⟩,
    ?_, ?_, ?_, fun x hx _ => htype x hx⟩
  · cases t with
    | inode => exact absurd ht hnone
    | kernel =>
      cases u with
      | inode => exact absurd hu hnone
      | kernel => rw [ht.1, hu.1]
  · constructor
    · rintro ⟨hb, huse⟩
      rw [inUse_disk hb, hmeta] at huse
      exact ⟨.kernel b, rfl, huse⟩
    rintro ⟨c | ⟨x, q⟩, hown⟩
    · have hb : b < sb.nmeta := hown.2
      have hsize : sb.nmeta ≤ sb.size := by decide
      refine ⟨Nat.lt_of_lt_of_le hb hsize, ?_⟩
      rw [inUse_disk (Nat.lt_of_lt_of_le hb hsize), hmeta]
      exact hb
    · exact absurd hown hnone
  · have hlo : 2 * BSIZE ≤ State.bare.freeblock * BSIZE := Nat.mul_le_mul_right _ (by decide)
    exact Nat.le_trans hlo ha
  · exact (congrArg (nmeta + ·) (sum_empty (f := fun x => blocksOf (node x).content.length))).symm
  · have hempty : blocksUsed 1 node = 0 := sum_empty
    rw [hempty]
    decide
  all_goals
    intro x hx hlt
    omega

/-- The image when `main` returns: the bitmap is there, and the root directory looks larger than it is. -/
structure Final (files : List Input) (s : State) : Prop where
  freeinode : s.freeinode = files.length + 2
  front : ∀ a < sb.inodestart * BSIZE, s.img a = front a
  owned : Owned sb s.img (owns sb s.img (dinode sb s.img))
  holds : ∀ x, 1 ≤ x → x < files.length + 2 → Holds s.img (dinode sb s.img x) (planned files x)
  root : (dinode sb s.img ROOTINO).size.toNat = ((rootContent files).length / BSIZE + 1) * BSIZE
  size : ∀ x, 2 ≤ x → x < files.length + 2 → (dinode sb s.img x).size.toNat = (planned files x).content.length
  unused : ∀ x < NINODES, ¬ (1 ≤ x ∧ x < files.length + 2) → (dinode sb s.img x).type = 0

theorem finish_rule : Triple (Image (files.length + 2) (planned files)) (do
        let din ← rinode ROOTINO
        winode ROOTINO { din with size := UInt32.ofNat ((din.size.toNat / BSIZE + 1) * BSIZE) }
        let s ← get
        balloc s.freeblock : Mk Unit) (fun _ => Final files) E := by
  apply Triple.of_returns
  intro s h
  have hroot : ROOTINO < files.length + 2 := by
    unfold ROOTINO
    omega
  have hxn : ROOTINO < NINODES := by decide
  have hread : rinode ROOTINO s = .ok (dinode sb s.disk ROOTINO, s) := by
    rw [rinode_run hxn, dinode_disk hxn]
  have hlen : (dinode sb s.disk ROOTINO).size.toNat = (rootContent files).length := h.size ROOTINO (by decide) hroot
  obtain ⟨v, hv⟩ : ∃ v, v = UInt32.ofNat (((rootContent files).length / BSIZE + 1) * BSIZE) := ⟨_, rfl⟩
  have hdisk := disk_putDinode (s := s) (d := { dinode sb s.disk ROOTINO with size := v }) hxn
  have hfull : ¬ BPB ≤ s.freeblock := by
    have hhi := h.hi
    have hsmall : FSSIZE < BPB := by decide
    omega
  have hsize : v.toNat = ((rootContent files).length / BSIZE + 1) * BSIZE := by
    have hsmall : (rootContent files).length ≤ MAXFILE * BSIZE := h.roomy.small ROOTINO (by decide) hroot
    rw [hv, UInt32.toNat_ofNat']
    apply Nat.mod_eq_of_lt
    unfold MAXFILE NDIRECT NINDIRECT BSIZE at *
    omega
  obtain ⟨hgood, hkeeps, hsame⟩ := ((h.draft (by decide) hroot).good.resize v).update
  have hself := dinode_putDinode_self sb (m := s.disk) (x := ROOTINO) (d := { dinode sb s.disk ROOTINO with size := v })
  have hfront : ∀ a < sb.inodestart * BSIZE, putDinode s.disk (inodeAddr sb ROOTINO)
      { dinode sb s.disk ROOTINO with size := v } a = front a := by
    intro a ha
    have hlo := inodeAddr_lo sb (x := ROOTINO)
    have hbits : sb.inodestart * BSIZE ≤ sb.bmapstart * BSIZE := by decide
    rw [putDinode_outside (.inl (by omega)), disk_of_ne (.inl (by omega)), h.front a ha]
  obtain ⟨m, hm⟩ : ∃ m, m = putDinode s.disk (inodeAddr sb ROOTINO) { dinode sb s.disk ROOTINO with size := v } := ⟨_, rfl⟩
  rw [← hm] at hdisk hgood hkeeps hsame hself hfront
  refine ⟨(), ⟨m, s.freeinode, s.freeblock⟩, ?_, h.freeinode, hfront, hgood.settle hself, fun y hy hyn => ?_, ?_,
    fun y hy hyn => ?_, fun y hyn hout => ?_⟩
  · rw [bind_of_ok hread, hlen, ← hv, bind_of_ok (winode_run hxn), get_bind]
    unfold balloc
    rw [if_neg hfull]
    exact congrArg (fun m => Except.ok ((), ({ s with img := m } : State))) hdisk
  · show Holds m (dinode sb m y) _
    by_cases hyx : y = ROOTINO
    · rw [hyx, hself]
      exact ((h.holds ROOTINO (by decide) hroot).resize v).congr hsame
    · rw [hgood.others y (Nat.lt_of_lt_of_le hyn h.few) hyx]
      exact (h.holds y hy hyn).congr (hkeeps y (Nat.lt_of_lt_of_le hyn h.few) hyx (h.type_ne hy hyn))
  · show (dinode sb m ROOTINO).size.toNat = _
    rw [hself]
    exact hsize
  · show (dinode sb m y).size.toNat = _
    rw [hgood.others y (Nat.lt_of_lt_of_le hyn h.few) (by unfold ROOTINO; omega)]
    exact h.size y (by omega) hyn
  have hne : y ≠ ROOTINO := by
    rintro rfl
    exact hout ⟨by decide, hroot⟩
  show (dinode sb m y).type = _
  rw [hgood.others y hyn hne]
  exact h.unused y hyn hout

theorem planned_nil (node : Nat → Node) (hx : 1 ≤ x) (hlt : x < 2) :
    planned [] x = appendTo (appendTo (update node 1 ⟨T_DIR, []⟩) ROOTINO (dirent ROOTINO dot)) ROOTINO
      (dirent ROOTINO dotdot) x := by
  have hone : x = ROOTINO := by
    unfold ROOTINO
    omega
  rw [appendTo_append, hone, appendTo_self]
  show Node.mk T_DIR (_ ++ []) = Node.mk T_DIR ([] ++ _)
  rw [List.append_nil, List.nil_append]

theorem main_rule (hfew : files.length + 2 ≤ NINODES) :
    Triple (· = State.start) (main files) (fun _ => Final files) fun _ => ¬ Acceptable files := by
  let node : Nat → Node := fun _ => ⟨0, []⟩
  have hroomy : Acceptable files → Roomy 2 (planned []) := fun hok =>
    have happ : Acceptable ([] ++ files) := hok
    happ.init.roomy
  unfold main
  refine Triple.bind (Q := fun _ => (· = (⟨zeroes, 1, nmeta⟩ : State))) (.modify fun s hs => by rw [hs]; rfl) fun _ => ?_
  refine (zero_rule ⟨zeroes, 1, nmeta⟩ rfl).bind fun _ => ?_
  refine Triple.bind (Q := fun _ => (· = State.bare)) (.modify fun s hs => by rw [hs]; rfl) fun _ => ?_
  have hialloc : Triple (Image 1 node) (ialloc T_DIR) (fun x s => x = 1 ∧ Image 2 (update node 1 ⟨T_DIR, []⟩) s)
      fun _ => ¬ Acceptable files := ialloc_rule (Nat.le_refl 1) (by decide) (by decide)
  refine (hialloc.pre fun s hs => ?_).bind fun rootino => .assume fun hroot => ?_
  · rw [hs]
    exact image_bare
  subst hroot
  rw [if_neg (by decide : ¬ 1 ≠ ROOTINO)]
  refine ((iappend_rule (by decide) (by decide)).allow fun _ hfull hok => hfull ?_).bind fun _ => ?_
  · refine (hroomy hok).mono (Nat.le_refl 2) fun x hx hlt => ?_
    rw [planned_nil node hx hlt]
    exact length_le_appendTo
  refine ((iappend_rule (by decide) (by decide)).allow fun _ hfull hok => hfull ?_).bind fun _ => ?_
  · exact (hroomy hok).mono (Nat.le_refl 2) fun x hx hlt => by rw [planned_nil node hx hlt]
  refine Triple.bind ((@addAll_rule [] files hfew).pre fun s h => ?_) fun _ => finish_rule
  exact h.congr fun x hx hlt => planned_nil node hx hlt

end Xv6.Mkfs
