import Mathlib.Data.List.TakeWhile
import Xv6.Fs.Contents

/-!
# Finding a name

What `dirlookup` and `namei` do when nothing is in their way: the inodes in memory are unlocked and agree
with the disk, there are entries to spare in the inode table, and the blocks of the directory are there.
-/

namespace Xv6.Fs

open Function Hoare List Memory

variable {sb : Superblock} {m : Mem} {d : Dinode} {s s' : State} {ip jp : Fin NINODE} {x n k i j : Nat}
  {p q name : List UInt8}

/-! ## Names in directory entries -/

theorem strncpy_nil : strncpy n [] = List.replicate n 0 := by
  cases n <;> rfl

theorem strncpy_cons {c : UInt8} (hc : c ≠ 0) : strncpy (n + 1) (c :: p) = c :: strncpy n p := if_neg hc

theorem strncmp_cons {a c : UInt8} (ha : a ≠ 0) :
    strncmp (n + 1) (a :: p) (c :: q) = 0 ↔ a = c ∧ strncmp n p q = 0 := by
  by_cases hac : a = c
  · have hstep : strncmp (n + 1) (a :: p) (c :: q) = strncmp n p q := if_pos ⟨ha, hac⟩
    rw [hstep, and_iff_right hac]
  have hstep : strncmp (n + 1) (a :: p) (c :: q) = a.toNat - c.toNat := if_neg fun hand => hac hand.2
  rw [hstep]
  refine iff_of_false (fun hsub => hac (UInt8.toNat_inj.1 ?_)) fun hand => hac hand.1
  omega

theorem strncmp_nil {c : UInt8} : strncmp (n + 1) [] (c :: q) = 0 ↔ c = 0 := by
  have hstep : strncmp (n + 1) [] (c :: q) = 0 - c.toNat := if_neg fun hand => hand.1 rfl
  rw [hstep, ← UInt8.toNat_inj]
  have hzero : (0 : UInt8).toNat = 0 := rfl
  omega

theorem strncmp_strncpy (hp : 0 ∉ p) (hq : 0 ∉ q) (hpn : p.length ≤ n) (hqn : q.length ≤ n) :
    strncmp n p (strncpy n q) = 0 ↔ p = q := by
  induction n generalizing p q with
  | zero =>
    rw [eq_nil_of_length_eq_zero (Nat.le_zero.1 hpn), eq_nil_of_length_eq_zero (Nat.le_zero.1 hqn)]
    exact iff_of_true rfl rfl
  | succ n ih =>
    -- Where the shorter name ends, its NUL differs from the other one's character.
    cases q with
    | nil =>
      rw [strncpy_nil, replicate_succ]
      cases p with
      | nil => exact iff_of_true (strncmp_nil.2 rfl) rfl
      | cons a =>
        have ha : a ≠ 0 := fun heq => hp (heq ▸ mem_cons_self)
        rw [strncmp_cons ha]
        exact iff_of_false (fun hand => ha hand.1) (cons_ne_nil _ _)
    | cons c =>
      have hc : c ≠ 0 := fun heq => hq (heq ▸ mem_cons_self)
      rw [strncpy_cons hc]
      cases p with
      | nil => exact iff_of_false (fun hnil => hc (strncmp_nil.1 hnil)) (cons_ne_nil _ _).symm
      | cons a =>
        have ha : a ≠ 0 := fun heq => hp (heq ▸ mem_cons_self)
        rw [strncmp_cons ha, cons.injEq, ih (fun h => hp (mem_cons_of_mem _ h))
          (fun h => hq (mem_cons_of_mem _ h)) (Nat.le_of_succ_le_succ hpn) (Nat.le_of_succ_le_succ hqn)]

theorem direntInum_dirent (hx : x < 2 ^ 16) : direntInum (dirent x name) = x := by
  have htake : (dirent x name).take 2 = [UInt8.ofNat x, UInt8.ofNat (x / 256)] := by
    unfold dirent digits
    rw [take_append_of_le_length (by simp)]
    simp [range_succ]
  unfold direntInum
  rw [htake]
  simp only [number, UInt8.toNat_ofNat']
  omega

theorem direntName_dirent : direntName (dirent x name) = strncpy DIRSIZ name := by
  unfold direntName dirent
  rw [drop_append_of_le_length (by simp [digits])]
  simp [digits]

theorem length_strncpy : (strncpy n p).length = n := by
  induction n generalizing p with
  | zero => rfl
  | succ n ih =>
    unfold strncpy
    split
    · exact length_replicate
    · rw [length_cons, ih]

theorem length_dirent : (dirent x p).length = sizeofDirent := by
  unfold dirent digits
  rw [length_append, length_map, length_range, length_strncpy]
  rfl

theorem skipelem_slash (hne : name ≠ []) (hslash : slash ∉ name) (hnul : 0 ∉ name) (hlen : name.length ≤ DIRSIZ) :
    skipelem (slash :: name) = some (name, []) := by
  have hkeep : ∀ c ∈ name, (decide (c ≠ slash ∧ c ≠ 0)) = true := by
    intro c hc
    exact decide_eq_true ⟨fun heq => hslash (heq ▸ hc), fun heq => hnul (heq ▸ hc)⟩
  have hdrop : (slash :: name).dropWhile (· = slash) = name := by
    obtain ⟨c, l, rfl⟩ := exists_cons_of_ne_nil hne
    have hc : c ≠ slash := fun heq => hslash (heq ▸ mem_cons_self)
    rw [dropWhile_cons_of_pos (by decide), dropWhile_cons_of_neg (by simpa using hc)]
  have hhead : name.headD 0 ≠ 0 := by
    obtain ⟨c, l, rfl⟩ := exists_cons_of_ne_nil hne
    exact fun heq => hnul (heq ▸ mem_cons_self)
  unfold skipelem
  simp only [hdrop]
  rw [if_neg hhead, takeWhile_eq_self_iff.2 hkeep, dropWhile_eq_nil_iff.2 hkeep, take_of_length_le hlen]
  rfl

/-! ## Directories -/

/-- The first `n` entries of a directory. -/
structure Lists (m : Mem) (d : Dinode) (n : Nat) (inum : Nat → Nat) (nm : Nat → List UInt8) : Prop where
  size : n * sizeofDirent ≤ d.size.toNat
  noHoles : NoHoles m d (n * sizeofDirent)
  entry : ∀ i < n, fileBytes m d (i * sizeofDirent) sizeofDirent = dirent (inum i) (nm i)
  inum : ∀ i < n, 0 < inum i ∧ inum i < 2 ^ 16
  name : ∀ i < n, 0 ∉ nm i ∧ (nm i).length ≤ DIRSIZ

section Lists

variable {inum : Nat → Nat} {nm : Nat → List UInt8}

section

variable (h : Lists s.disk (s.inode ip).copy n inum nm)

include h

theorem Lists.read (hi : i < n) : readi sb ip (i * sizeofDirent) sizeofDirent s = .ok (dirent (inum i) (nm i), s) := by
  have hle : i * sizeofDirent + sizeofDirent ≤ n * sizeofDirent := by
    rw [← Nat.succ_mul]
    exact Nat.mul_le_mul_right _ hi
  have hsize := h.size
  have hlt := (s.inode ip).copy.size.toNat_lt
  have hbound : i * sizeofDirent + sizeofDirent < 2 ^ 32 := by omega
  have hrun : readi sb ip (i * sizeofDirent) sizeofDirent (s.work ip s.disk (s.inode ip).copy) = _ :=
    readi_found (h.noHoles.mono (Nat.le_trans (Nat.min_le_left _ _) hle)) (by omega) hbound
  rw [work_self, Nat.min_eq_left (by omega), h.entry i hi] at hrun
  exact hrun

theorem Lists.lookup (hj : j < n) (hfound : nm j = name)
    (hfirst : ∀ i < j, nm i ≠ name) (hi : i ≤ j) (hk : j < i + k) :
    dirlookupLoop sb ip name k (i * sizeofDirent) s = .ok (some (inum j, j * sizeofDirent), s) := by
  have hname := h.name j hj
  rw [hfound] at hname
  induction k generalizing i with
  | zero => omega
  | succ k ih =>
    have hin : i < n := Nat.lt_of_le_of_lt hi hj
    have hbelow : ¬ (s.inode ip).copy.size.toNat ≤ i * sizeofDirent := by
      have hsize := h.size
      have hle : (i + 1) * sizeofDirent ≤ n * sizeofDirent := Nat.mul_le_mul_right _ hin
      unfold sizeofDirent at *
      omega
    have hcmp : namecmp name (direntName (dirent (inum i) (nm i))) = 0 ↔ name = nm i := by
      rw [direntName_dirent]
      exact strncmp_strncpy hname.1 (h.name i hin).1 hname.2 (h.name i hin).2
    unfold dirlookupLoop
    rw [get_bind, if_neg hbelow, bind_of_ok (h.read hin), if_neg (not_not.2 length_dirent),
      direntInum_dirent (h.inum i hin).2]
    by_cases hij : i = j
    · subst hij
      rw [if_pos ⟨Nat.ne_of_gt (h.inum i hin).1, hcmp.2 hfound.symm⟩]
      rfl
    have hlt : i < j := Nat.lt_of_le_of_ne hi hij
    rw [if_neg fun hand => hfirst i hlt (hcmp.1 hand.2).symm]
    have hnext := ih (i := i + 1) hlt (by omega)
    rwa [Nat.add_mul, Nat.one_mul] at hnext

theorem Lists.dirlookup (htype : (s.inode ip).copy.type = T_DIR)
    (hj : j < n) (hfound : nm j = name) (hfirst : ∀ i < j, nm i ≠ name) : dirlookup sb ip name s = (do
      let jp ← iget (inum j)
      pure (some (jp, j * sizeofDirent)) : Sys _) s := by
  have hrounds : j < 0 + rounds s ip := by
    have hsize := h.size
    have hle : (j + 1) * sizeofDirent ≤ n * sizeofDirent := Nat.mul_le_mul_right _ hj
    unfold rounds sizeofDirent at *
    omega
  have hloop : dirlookupLoop sb ip name (rounds s ip) (0 * sizeofDirent) s = _ :=
    h.lookup hj hfound hfirst (Nat.zero_le j) hrounds
  rw [Nat.zero_mul] at hloop
  unfold Fs.dirlookup
  rw [get_bind, if_neg (not_not.2 htype), bind_of_ok hloop]

end

end Lists

/-! ## The inode table -/

/-- The inodes in memory agree with the disk. -/
structure Coherent (sb : Superblock) (s : State) : Prop where
  nonneg : ∀ ip, 0 ≤ (s.inode ip).ref
  copy : ∀ ip, 0 < (s.inode ip).ref → (s.inode ip).valid = true → (s.inode ip).copy = dinode sb s.disk (s.inode ip).inum

variable {v : Inode}

theorem setInode_self : (s.setInode ip v).inode ip = v := update_self _ _ _

theorem setInode_of_ne (h : jp ≠ ip) : (s.setInode ip v).inode jp = s.inode jp := update_of_ne h _ _

theorem Coherent.setInode (h : Coherent sb s) (hpos : 0 ≤ v.ref)
    (hcopy : v.valid = true → v.copy = dinode sb s.disk v.inum) : Coherent sb (s.setInode ip v) where
  nonneg jp := by
    by_cases hne : jp = ip
    · rw [hne, setInode_self]
      exact hpos
    · rw [setInode_of_ne hne]
      exact h.nonneg jp
  copy jp hpos hvalid := by
    by_cases hne : jp = ip
    · subst hne
      rw [setInode_self] at hvalid ⊢
      exact hcopy hvalid
    · rw [setInode_of_ne hne] at hpos hvalid ⊢
      exact h.copy jp hpos hvalid

structure Got (x : Nat) (ip : Fin NINODE) (s s' : State) : Prop where
  disk : s'.disk = s.disk
  others : ∀ jp, jp ≠ ip → s'.inode jp = s.inode jp
  inum : (s'.inode ip).inum = x
  ref : 0 < (s'.inode ip).ref
  locked : (s'.inode ip).locked = (s.inode ip).locked
  was : (s.inode ip).ref = 0 ∨ (s.inode ip).inum = x

theorem got_setInode (hinum : v.inum = x) (href : 0 < v.ref) (hlocked : v.locked = (s.inode ip).locked)
    (hwas : (s.inode ip).ref = 0 ∨ (s.inode ip).inum = x) : Got x ip s (s.setInode ip v) where
  disk := rfl
  others _ hne := setInode_of_ne hne
  inum := by
    rw [setInode_self]
    exact hinum
  ref := by
    rw [setInode_self]
    exact href
  locked := by
    rw [setInode_self]
    exact hlocked
  was := hwas

theorem Coherent.iget (h : Coherent sb s) (hfree : (s.inode jp).ref = 0) :
    ∃ ip s', iget x s = .ok (ip, s') ∧ Got x ip s s' ∧ Coherent sb s' := by
  unfold Fs.iget
  rw [get_bind]
  cases hfind : (finRange NINODE).find? fun ip =>
      decide (0 < (s.inode ip).ref ∧ (s.inode ip).inum = x) with
  | some ip =>
    have hip : 0 < (s.inode ip).ref ∧ (s.inode ip).inum = x := by simpa using find?_some hfind
    have hup : 0 < (s.inode ip).ref + 1 := Int.lt_add_one_of_le (Int.le_of_lt hip.1)
    exact ⟨ip, _, rfl, got_setInode hip.2 hup rfl (.inr hip.2), h.setInode (Int.le_of_lt hup) (h.copy ip hip.1)⟩
  | none =>
    dsimp only
    cases hempty : (finRange NINODE).find? fun ip => decide ((s.inode ip).ref = 0) with
    | none =>
      have hnone := find?_eq_none.1 hempty jp (mem_finRange jp)
      exact absurd (decide_eq_true hfree) hnone
    | some ip =>
      have hip : (s.inode ip).ref = 0 := by simpa using find?_some hempty
      exact ⟨ip, _, rfl, got_setInode rfl Int.one_pos rfl (.inl hip),
        h.setInode (Int.le_of_lt Int.one_pos) (fun hvalid => absurd hvalid Bool.false_ne_true)⟩

def inodeOf (sb : Superblock) (s : State) (ip : Fin NINODE) : Dinode :=
  if (s.inode ip).valid then (s.inode ip).copy else dinode sb s.disk (s.inode ip).inum

theorem ilock_run (href : 0 < (s.inode ip).ref) (hlock : (s.inode ip).locked = false) (htype : (inodeOf sb s ip).type ≠ 0) :
    ilock sb ip s = .ok ((), s.setInode ip
      { s.inode ip with locked := true, valid := true, copy := inodeOf sb s ip }) := by
  unfold inodeOf at *
  unfold Fs.ilock
  rw [get_bind, if_neg (by omega), hlock, if_neg Bool.false_ne_true, modify_bind]
  by_cases hvalid : (s.inode ip).valid = true
  · rw [if_pos hvalid, if_pos hvalid, ← hvalid]
    rfl
  rw [if_neg hvalid] at htype ⊢
  rw [if_neg hvalid, modify_bind, if_neg htype]
  -- The entry is set twice.
  have hidem : ∀ v w : Inode, (s.setInode ip v).setInode ip w = s.setInode ip w := by
    intro v w
    unfold State.setInode
    rw [update_idem]
  show Except.ok ((), (s.setInode ip { s.inode ip with locked := true }).setInode ip
    { (s.setInode ip { s.inode ip with locked := true }).inode ip with copy := _, valid := true }) = _
  rw [setInode_self, hidem]

def lockedInode (sb : Superblock) (s : State) (ip : Fin NINODE) : Inode :=
  { s.inode ip with locked := true, valid := true, copy := dinode sb s.disk (s.inode ip).inum }

theorem Coherent.inodeOf (h : Coherent sb s) (href : 0 < (s.inode ip).ref) :
    inodeOf sb s ip = dinode sb s.disk (s.inode ip).inum := by
  unfold Fs.inodeOf
  split
  · rename_i hvalid
    exact h.copy ip href hvalid
  · rfl

theorem Coherent.ilock (h : Coherent sb s) (href : 0 < (s.inode ip).ref) (hlock : (s.inode ip).locked = false)
    (htype : (dinode sb s.disk (s.inode ip).inum).type ≠ 0) :
    ilock sb ip s = .ok ((), s.setInode ip (lockedInode sb s ip)) := by
  have hinode := h.inodeOf href
  rw [ilock_run href hlock (by rwa [hinode]), hinode]
  rfl

def releasedInode (v : Inode) : Inode := { v with locked := false, ref := v.ref - 1 }

theorem iunlockput_run (href : 0 < (s.inode ip).ref) (hlock : (s.inode ip).locked = true)
    (hnlink : (s.inode ip).copy.nlink ≠ 0) :
    iunlockput sb ip s = .ok ((), s.setInode ip (releasedInode (s.inode ip))) := by
  have hunlock : iunlock ip s = .ok ((), s.setInode ip { s.inode ip with locked := false }) := by
    unfold iunlock
    rw [get_bind, if_neg]
    · rfl
    rw [hlock]
    rintro (heq | hlt)
    · cases heq
    · omega
  unfold iunlockput
  rw [bind_of_ok hunlock]
  unfold iput
  rw [get_bind, setInode_self, if_neg fun hall => hnlink hall.2.2]
  show Except.ok ((), (s.setInode ip { s.inode ip with locked := false }).setInode ip
    { (s.setInode ip { s.inode ip with locked := false }).inode ip with
      ref := ((s.setInode ip { s.inode ip with locked := false }).inode ip).ref - 1 }) = _
  rw [setInode_self]
  unfold State.setInode
  rw [update_idem]
  rfl

/-! ## A name in the root directory -/

variable {inum : Nat → Nat} {nm : Nat → List UInt8}

theorem namei_root (h : Coherent sb s) (hunlocked : ∀ ip, (s.inode ip).locked = false)
    (hroom : ip ≠ jp ∧ (s.inode ip).ref = 0 ∧ (s.inode jp).ref = 0) (pr : Fin NPROC)
    (htype : (dinode sb s.disk ROOTINO).type = T_DIR) (hnlink : (dinode sb s.disk ROOTINO).nlink ≠ 0)
    (hlists : Lists s.disk (dinode sb s.disk ROOTINO) n inum nm) (hj : j < n) (hfound : nm j = name)
    (hfirst : ∀ i < j, nm i ≠ name) (hother : inum j ≠ ROOTINO) (hne : name ≠ []) (hslash : slash ∉ name) :
    ∃ kp s', namei sb pr (slash :: name) s = .ok (some kp, s') ∧ s'.disk = s.disk ∧ Coherent sb s' ∧
      (s'.inode kp).inum = inum j ∧ 0 < (s'.inode kp).ref ∧ (s'.inode kp).locked = false := by
  have hname := hlists.name j hj
  rw [hfound] at hname
  obtain ⟨a, s₁, hrun₁, hgot₁, hcoh₁⟩ := h.iget (x := ROOTINO) hroom.2.1
  have hlock₁ : (s₁.inode a).locked = false := hgot₁.locked.trans (hunlocked a)
  have hroot : dinode sb s₁.disk (s₁.inode a).inum = dinode sb s.disk ROOTINO := by
    rw [hgot₁.disk, hgot₁.inum]
  have hrun₂ := hcoh₁.ilock hgot₁.ref hlock₁ (by rw [hroot, htype]; decide)
  obtain ⟨s₂, hs₂⟩ : ∃ s₂, s₂ = s₁.setInode a (lockedInode sb s₁ a) := ⟨_, rfl⟩
  rw [← hs₂] at hrun₂
  have hself₂ : s₂.inode a = lockedInode sb s₁ a := by rw [hs₂, setInode_self]
  have hothers₂ : ∀ b, b ≠ a → s₂.inode b = s.inode b := by
    intro b hb
    rw [hs₂, setInode_of_ne hb, hgot₁.others b hb]
  have hdisk₂ : s₂.disk = s.disk := by
    rw [hs₂]
    exact hgot₁.disk
  have hcopy₂ : (s₂.inode a).copy = dinode sb s.disk ROOTINO := by
    rw [hself₂]
    exact hroot
  have hcoh₂ : Coherent sb s₂ := by
    rw [hs₂]
    exact hcoh₁.setInode (Int.le_of_lt hgot₁.ref) fun _ => rfl
  have hlists₂ : Lists s₂.disk (s₂.inode a).copy n inum nm := by
    rw [hdisk₂, hcopy₂]
    exact hlists
  -- One of the two free entries is still free.
  obtain ⟨b, hfree⟩ : ∃ b, (s₂.inode b).ref = 0 := by
    by_cases hip : ip = a
    · refine ⟨jp, ?_⟩
      rw [hothers₂ jp (hip ▸ hroom.1.symm)]
      exact hroom.2.2
    · refine ⟨ip, ?_⟩
      rw [hothers₂ ip hip]
      exact hroom.2.1
  obtain ⟨c, s₃, hrun₃, hgot₃, hcoh₃⟩ := hcoh₂.iget (x := inum j) hfree
  have hca : c ≠ a := by
    rintro rfl
    rcases hgot₃.was with hzero | hsame
    · rw [hself₂] at hzero
      exact Int.lt_irrefl 0 (hzero ▸ hgot₁.ref)
    · rw [hself₂] at hsame
      exact hother (hsame.symm.trans hgot₁.inum)
  have hself₃ : s₃.inode a = lockedInode sb s₁ a := by rw [hgot₃.others a hca.symm, hself₂]
  have href₃ : 0 < (s₃.inode a).ref := by
    rw [hself₃]
    exact hgot₁.ref
  have hcopy₃ : (s₃.inode a).copy = dinode sb s.disk ROOTINO := by rw [hgot₃.others a hca.symm, hcopy₂]
  have hrun₄ : iunlockput sb a s₃ = .ok ((), s₃.setInode a (releasedInode (s₃.inode a))) :=
    iunlockput_run href₃ (by rw [hself₃]; rfl) (by rw [hcopy₃]; exact hnlink)
  have hcoh₄ : Coherent sb (s₃.setInode a (releasedInode (s₃.inode a))) :=
    hcoh₃.setInode (Int.sub_nonneg_of_le href₃) (hcoh₃.copy a href₃)
  have hlook : dirlookup sb a name s₂ = .ok (some (c, j * sizeofDirent), s₃) := by
    rw [hlists₂.dirlookup (hcopy₂ ▸ htype) hj hfound hfirst, bind_of_ok hrun₃]
    rfl
  have hloop : namexLoop sb false (name.length + 2) a (slash :: name) [] s₁ =
      .ok (some (c, name), s₃.setInode a (releasedInode (s₃.inode a))) := by
    rw [namexLoop, skipelem_slash hne hslash hname.1 hname.2]
    dsimp only
    rw [bind_of_ok hrun₂, get_bind, if_neg (by rw [hcopy₂]; exact not_not.2 htype),
      if_neg (fun hand => Bool.false_ne_true hand.1), bind_of_ok hlook]
    dsimp only
    rw [bind_of_ok hrun₄]
    rfl
  have hnamex : namex sb pr (slash :: name) false s =
      .ok (some (c, name), s₃.setInode a (releasedInode (s₃.inode a))) := by
    unfold namex
    have hhead : (slash :: name).headD 0 = slash := rfl
    rw [get_bind, if_pos hhead, bind_of_ok hrun₁]
    exact hloop
  refine ⟨c, _, bind_of_ok hnamex, hgot₃.disk.trans hdisk₂, hcoh₄, ?_⟩
  rw [setInode_of_ne hca, hgot₃.locked, hothers₂ c hca]
  exact ⟨hgot₃.inum, hgot₃.ref, hunlocked c⟩

end Xv6.Fs
