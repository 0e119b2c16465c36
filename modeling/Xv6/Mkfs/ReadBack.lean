import Xv6.Mkfs.Consistent

/-!
# Reading the image

Two programs know the format of the disk: `mkfs` writes it and the kernel reads it.  A file that `mkfs` was
given is found under its short name by the kernel's `namei`, and `readi` returns its bytes.
-/

namespace Xv6.Mkfs

open Fs Hoare List Memory

variable {m : Mem} {s : State} {d : Dinode} {x k i n off : Nat} {files : List Input} {f : Input}

/-! ## The entries of the root directory -/

def entryInum (i : Nat) : Nat := if i < 2 then ROOTINO else i

def entryName (files : List Input) : Nat → List UInt8
  | 0 => dot
  | 1 => dotdot
  | i + 2 => (files[i]?.map fun f => shortname f.path).getD []

theorem slice_entries (hi : i < files.length) : ((entries k files).drop (i * sizeofDirent)).take sizeofDirent =
      dirent (k + i) ((files[i]?.map fun f => shortname f.path).getD []) := by
  induction files generalizing k i with
  | nil => exact absurd hi (Nat.not_lt_zero i)
  | cons f files ih =>
    cases i with
    | zero =>
      rw [Nat.zero_mul, drop_zero]
      exact take_left' length_dirent
    | succ i =>
      have hnext : (i + 1) * sizeofDirent = (dirent k (shortname f.path)).length + i * sizeofDirent := by
        rw [length_dirent, Nat.add_mul, Nat.one_mul, Nat.add_comm]
      show ((dirent k _ ++ entries (k + 1) files).drop _).take _ = _
      rw [hnext, drop_length_add_append, ih (Nat.lt_of_succ_lt_succ hi), Nat.add_right_comm]
      rfl

theorem slice_rootContent (hi : i < files.length + 2) :
    ((rootContent files).drop (i * sizeofDirent)).take sizeofDirent = dirent (entryInum i) (entryName files i) := by
  unfold rootContent
  match i with
  | 0 =>
    rw [append_assoc]
    exact take_left' length_dirent
  | 1 =>
    rw [append_assoc, Nat.one_mul, drop_left' length_dirent]
    exact take_left' length_dirent
  | i + 2 =>
    have hdots : (dirent ROOTINO dot ++ dirent ROOTINO dotdot).length = 2 * sizeofDirent := by
      rw [length_append, length_dirent, length_dirent]
      rfl
    have hnext : (i + 2) * sizeofDirent = (dirent ROOTINO dot ++ dirent ROOTINO dotdot).length + i * sizeofDirent := by
      rw [hdots, Nat.add_mul, Nat.add_comm]
    have hlt : i < files.length := by omega
    rw [hnext, drop_length_add_append, slice_entries hlt, Nat.add_comm 2]
    rfl

theorem mem_of_mem_shortname {c : UInt8} {path : List UInt8} (h : c ∈ shortname path) : c ∈ basename path := by
  unfold shortname at h
  split at h
  · exact mem_of_mem_tail h
  · exact h

theorem mem_of_mem_basename {c : UInt8} {path : List UInt8} (h : c ∈ basename path) : c ∈ path := by
  unfold basename at h
  split at h
  · exact mem_of_mem_drop h
  · exact h

theorem entryName_add_two : entryName files (i + 2) = (files[i]?.map fun f => shortname f.path).getD [] := rfl

theorem entryName_ok (hok : ∀ f ∈ files, Accepted f) : 0 ∉ entryName files i ∧ (entryName files i).length ≤ DIRSIZ := by
  have hdots : ∀ l ∈ [dot, dotdot], 0 ∉ l ∧ l.length ≤ DIRSIZ := by decide
  match i with
  | 0 => exact hdots dot (by decide)
  | 1 => exact hdots dotdot (by decide)
  | i + 2 =>
    rw [entryName_add_two]
    cases hget : files[i]? with
    | none => exact ⟨not_mem_nil, Nat.zero_le _⟩
    | some f =>
      have hf := mem_of_getElem? hget
      exact ⟨fun h => f.noNul (mem_of_mem_basename (mem_of_mem_shortname h)), (hok f hf).short⟩

theorem Final.lists (h : Final files s) (hok : ∀ f ∈ files, Accepted f) (hfew : files.length + 2 ≤ NINODES) :
    Lists s.img (dinode sb s.img ROOTINO) (files.length + 2) entryInum (entryName files) where
  size := by
    rw [h.root, length_rootContent]
    unfold sizeofDirent BSIZE
    omega
  noHoles bn hbn := by
    have hroot := h.holds ROOTINO (by decide) (by unfold ROOTINO; omega)
    rw [hroot.covers.blocks]
    show bn * BSIZE < (rootContent files).length
    rw [length_rootContent, Nat.mul_comm sizeofDirent]
    exact hbn
  entry i hi := by
    have hroot := h.holds ROOTINO (by decide) (by unfold ROOTINO; omega)
    have hbytes : fileBytes s.img (dinode sb s.img ROOTINO) 0 (rootContent files).length = rootContent files := hroot.bytes
    have hle : i * sizeofDirent + sizeofDirent ≤ (rootContent files).length := by
      rw [length_rootContent, ← Nat.succ_mul, Nat.mul_comm]
      exact Nat.mul_le_mul_left _ hi
    rw [fileBytes_slice hle, hbytes, slice_rootContent hi]
  inum i hi := by
    unfold entryInum ROOTINO
    unfold NINODES at hfew
    split <;> omega
  name i _ := entryName_ok hok

/-! ## The kernel on the image -/

/-- A kernel that works on the disk `m` and has two inodes to spare. -/
structure Mounted (m : Mem) (t : Fs.State) : Prop where
  disk : t.disk = m
  coherent : Coherent sb t
  unlocked : ∀ ip, (t.inode ip).locked = false
  room : ∃ ip jp, ip ≠ jp ∧ (t.inode ip).ref = 0 ∧ (t.inode jp).ref = 0

/-- The inode that is locked is the file's, and `readi` returns the file's bytes. -/
structure Reads (t : Fs.State) (ip : Fin NINODE) (f : Input) : Prop where
  type : (t.inode ip).copy.type = T_FILE
  nlink : (t.inode ip).copy.nlink = 1
  size : (t.inode ip).copy.size.toNat = f.content.length
  read : ∀ off n, off + n < 2 ^ 32 → readi sb ip off n t = .ok ((f.content.drop off).take n, t)

theorem read_content {t : Fs.State} {ip : Fin NINODE} {l : List UInt8} (hsize : (t.inode ip).copy.size.toNat = l.length)
    (hcovers : Covers t.disk (t.inode ip).copy l.length) (hbytes : fileBytes t.disk (t.inode ip).copy 0 l.length = l)
    (hlt : off + n < 2 ^ 32) : readi sb ip off n t = .ok ((l.drop off).take n, t) := by
  have hholes : NoHoles t.disk (t.inode ip).copy (t.inode ip).copy.size.toNat := by
    intro bn hbn
    rwa [hcovers.blocks, ← hsize]
  rw [readi_contents hholes hlt, contents, hsize, hbytes]

/-- Every file is found and read, if the list of files is as `ok` says. -/
def ReadsBack (ok : List Input → Prop) : Prop :=
  ∀ files, files.length + 2 ≤ NINODES → Acceptable files → (files.map fun f => shortname f.path).Nodup → ok files →
    ∃ s, main files .start = .ok ((), s) ∧ ∀ f ∈ files, ∀ t p, Mounted s.img t → ∃ ip t₁ t₂,
      namei sb p (slash :: shortname f.path) t = .ok (some ip, t₁) ∧ ilock sb ip t₁ = .ok ((), t₂) ∧ Reads t₂ ip f

/-- The short names are names, and not those of the first two entries. -/
def Named (files : List Input) : Prop :=
  ∀ f ∈ files, shortname f.path ≠ [] ∧ shortname f.path ≠ dot ∧ shortname f.path ≠ dotdot

theorem entryName_of_getElem (hget : files[i]? = some f) : entryName files (i + 2) = shortname f.path := by
  rw [entryName_add_two, hget]
  rfl

theorem entryName_first (hnodup : (files.map fun f => shortname f.path).Nodup) (hnamed : Named files)
    (hget : files[i]? = some f) : ∀ j < i + 2, entryName files j ≠ shortname f.path := by
  intro j hj
  have hf := hnamed f (mem_of_getElem? hget)
  match j with
  | 0 => exact hf.2.1.symm
  | 1 => exact hf.2.2.symm
  | j + 2 =>
    obtain ⟨hi, -⟩ := List.getElem?_eq_some_iff.1 hget
    have hji : j < i := by omega
    have hj' : j < files.length := Nat.lt_trans hji hi
    have hget' := getElem?_eq_getElem hj'
    rw [entryName_of_getElem hget']
    intro heq
    have hsame : (files.map fun f => shortname f.path)[j]? = (files.map fun f => shortname f.path)[i]? := by
      rw [getElem?_map, getElem?_map, hget', hget]
      exact congrArg some heq
    exact Nat.ne_of_lt hji ((getElem?_inj (by rwa [length_map]) hnodup).1 hsame)

theorem planned_file (hget : files[i]? = some f) : planned files (i + 2) = ⟨T_FILE, f.content⟩ := by
  unfold planned
  rw [if_neg (by unfold ROOTINO; omega), Nat.add_sub_cancel, hget]
  rfl

/-- The kernel finds and reads what `mkfs` was given. -/
theorem readsBack_named : ReadsBack Named := by
  intro files hfew hok hnodup hnamed
  obtain ⟨s, hrun, hfinal⟩ := main_returns hfew hok
  refine ⟨s, hrun, fun f hf t p hmount => ?_⟩
  obtain ⟨i, hget⟩ := mem_iff_getElem?.1 hf
  obtain ⟨hi, -⟩ := List.getElem?_eq_some_iff.1 hget
  obtain ⟨ip, jp, hroom⟩ := hmount.room
  have hroot := hfinal.holds ROOTINO (by decide) (by unfold ROOTINO; omega)
  have hfile := hfinal.holds (i + 2) (by omega) (by omega)
  have hsize := hfinal.size (i + 2) (by omega) (by omega)
  have hlists := hfinal.lists hok.accepted hfew
  have hslash : slash ∉ shortname f.path := fun h => (hok.accepted f hf).noSlash (mem_of_mem_shortname h)
  rw [planned_file hget] at hfile hsize
  rw [← hmount.disk] at hroot hfile hsize hlists
  obtain ⟨kp, t₁, hnamei, hdisk, hcoh, hinum, href, hlock⟩ := namei_root hmount.coherent hmount.unlocked hroom p hroot.type
    (by rw [hroot.nlink]; decide) hlists (j := i + 2) (by omega) (entryName_of_getElem hget)
    (entryName_first hnodup hnamed hget) (by unfold entryInum ROOTINO; split <;> omega) (hnamed f hf).1 hslash
  have hinode : dinode sb t₁.disk (t₁.inode kp).inum = dinode sb t.disk (i + 2) := by
    rw [hdisk, hinum]
    rfl
  have htype : T_FILE ≠ 0 := by decide
  have hilock := hcoh.ilock href hlock (by rw [hinode, hfile.type]; exact htype)
  have hcopy : ((t₁.setInode kp (lockedInode sb t₁ kp)).inode kp).copy = dinode sb t.disk (i + 2) := by
    rw [setInode_self]
    exact hinode
  have hdisk' : (t₁.setInode kp (lockedInode sb t₁ kp)).disk = t.disk := hdisk
  refine ⟨kp, t₁, _, hnamei, hilock, ?_, ?_, ?_, fun off n hlt => ?_⟩
  · rw [hcopy, hfile.type]
  · rw [hcopy, hfile.nlink]
  · rw [hcopy, hsize]
  apply read_content
  · rw [hcopy, hsize]
  · rw [hcopy, hdisk']
    exact hfile.covers
  · rw [hcopy, hdisk']
    exact hfile.bytes
  · exact hlt

/-! ## A file without a name -/

def booted (m : Mem) : Fs.State where
  disk := m
  inode _ := ⟨0, 0, false, false, emptyInode 0⟩
  file _ := ⟨.none, false, none, 0⟩
  proc _ := ⟨none⟩

theorem booted_mounted : Mounted m (booted m) where
  disk := rfl
  coherent := ⟨fun _ => Int.le_refl 0, fun _ hpos => absurd hpos (Int.lt_irrefl 0)⟩
  unlocked _ := rfl
  room := ⟨⟨0, by decide⟩, ⟨1, by decide⟩, by decide, rfl, rfl⟩

theorem delivered_nil : ∀ l ∈ (some ([] : List (List UInt8))).getD [], 0 < l.length ∧ l.length ≤ BSIZE :=
  fun _ hl => absurd hl not_mem_nil

/-- An empty file whose name is `"_"`. -/
def underscoreFile : Input where
  path := [underscore]
  pieces := some []
  noNul := by decide
  delivered := delivered_nil

theorem acceptable_underscoreFile : Acceptable [underscoreFile] := by
  refine acceptable_of_empty (fun f hf => ?_) (fun f hf => ?_) (by decide)
  · rw [mem_singleton.1 hf]
    exact ⟨by decide, rfl, by decide⟩
  · rw [mem_singleton.1 hf]
    rfl

/-- The short name of `"_"` is empty, and `"/"` is the root directory. -/
theorem readsBack_needs_names : ¬ ReadsBack fun _ => True := by
  intro hall
  obtain ⟨s, hrun, hback⟩ := hall [underscoreFile] (by decide) acceptable_underscoreFile (by decide) trivial
  have hfinal := (main_rule (by decide)).ok rfl hrun
  have hroot := hfinal.holds ROOTINO (by decide) (by decide)
  have hbooted := booted_mounted (m := s.img)
  obtain ⟨ip, t₁, t₂, hnamei, hilock, hreads⟩ :=
    hback underscoreFile (mem_singleton_self _) (booted s.img) 0 hbooted
  have hfree : ((booted s.img).inode ⟨0, by decide⟩).ref = 0 := rfl
  obtain ⟨a, t, higet, hgot, hcoh⟩ := hbooted.coherent.iget (x := ROOTINO) hfree
  have hdir : namei sb 0 (slash :: shortname underscoreFile.path) (booted s.img) = .ok (some a, t) := by
    have hnamex : namex sb 0 (slash :: shortname underscoreFile.path) false (booted s.img) =
        .ok (some (a, []), t) := by
      have hhead : (slash :: shortname underscoreFile.path).headD 0 = slash := rfl
      have hend : skipelem (slash :: shortname underscoreFile.path) = none := by decide
      unfold namex
      rw [get_bind, if_pos hhead, bind_of_ok higet, namexLoop, hend]
      rfl
    exact bind_of_ok hnamex
  rw [hdir] at hnamei
  obtain ⟨rfl, rfl⟩ : a = ip ∧ t = t₁ := by
    cases hnamei
    exact ⟨rfl, rfl⟩
  have hinode : dinode sb t.disk (t.inode a).inum = dinode sb s.img ROOTINO := by
    rw [hgot.disk, hgot.inum]
    rfl
  have htype : T_DIR ≠ 0 := by decide
  rw [hcoh.ilock hgot.ref hgot.locked (by rw [hinode, hroot.type]; exact htype)] at hilock
  cases hilock
  have hfile := hreads.type
  rw [setInode_self] at hfile
  have hboth : T_DIR = T_FILE := by
    rw [← hfile]
    exact (hroot.type.symm.trans (congrArg Dinode.type hinode.symm))
  exact absurd hboth (by decide)

end Xv6.Mkfs
