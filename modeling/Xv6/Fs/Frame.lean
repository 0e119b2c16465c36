import Xv6.Fs.Bmap

/-!
# What reading and writing leave alone

`readi` and `writei` change the disk and the copy of the inode that they are called for.  Whatever else is
known of the state stays true, also where the disk is not in order.
-/

namespace Xv6.Fs

open Memory Hoare

variable {sb : Superblock} {ip : Fin NINODE} {P : State → Prop} {E : Panic → Prop} {k off n bn : Nat}

/-- `P` is about neither the disk nor the copy of inode `ip`. -/
structure Stable (ip : Fin NINODE) (P : State → Prop) : Prop where
  disk : ∀ {s} m, P s → P (s.setDisk m)
  copy : ∀ {s} d, P s → P (s.setInode ip { s.inode ip with copy := d })

theorem stable_entry (ref : Int) (locked : Bool) :
    Stable ip fun s => (s.inode ip).ref = ref ∧ (s.inode ip).locked = locked where
  disk _ h := h
  copy {s} d h := by
    unfold State.setInode
    simp only [Function.update_self]
    exact h

theorem Stable.get (P : State → Prop) : Triple P (get : Sys State) (fun _ => P) E := .get fun _ h => h

section

variable (h : Stable ip P)

include h

theorem Stable.balloc : Triple P (balloc sb) (fun _ => P) E := by
  apply Triple.of_returns
  intro s hs
  rcases @balloc_run sb s with ⟨-, hrun⟩ | ⟨b, -, -, hrun⟩
  · exact ⟨_, _, hrun, hs⟩
  · exact ⟨_, _, hrun, h.disk _ hs⟩

theorem Stable.setCopy (g : Dinode → Dinode) : Triple P (setCopy ip g) (fun _ => P) E := .modify fun _ hs => h.copy _ hs

theorem Stable.orBalloc {addr : Nat} {save : Nat → Sys Unit}
    (hsave : ∀ b, Triple P (save b) (fun _ => P) E) : Triple P (orBalloc sb addr save) (fun _ => P) E := by
  unfold Fs.orBalloc
  refine .ite (fun _ => .pure fun _ hs => hs) fun _ => .bind h.balloc fun b => ?_
  exact .ite (fun _ => .pure fun _ hs => hs) fun _ => .bind (hsave b) fun _ => .pure fun _ hs => hs

theorem Stable.bmap : Triple P (bmap sb ip bn) (fun _ => P) (· = .bmapOutOfRange) := by
  unfold Fs.bmap
  refine .bind (Stable.get P) fun s => .ite (fun _ => h.orBalloc fun _ => h.setCopy _) fun _ => .ite (fun _ => ?_) fun _ =>
    .throw fun _ _ => rfl
  refine .bind (h.orBalloc fun _ => h.setCopy _) fun addr => .ite (fun _ => .pure fun _ hs => hs) fun _ => ?_
  exact .bind (Stable.get P) fun s => h.orBalloc fun _ => .modify fun _ hs => h.disk _ hs

theorem Stable.iupdate (jp : Fin NINODE) : Triple P (iupdate sb jp) (fun _ => P) E := .modify fun _ hs => h.disk _ hs

theorem Stable.writeLoop (src : List UInt8) :
    Triple P (writeLoop sb ip k src off n) (fun _ => P) (· = .bmapOutOfRange) := by
  induction k generalizing src off n with
  | zero => exact .pure fun _ hs => hs
  | succ k ih =>
    unfold Fs.writeLoop
    refine .ite (fun _ => .pure fun _ hs => hs) fun _ => .bind h.bmap fun addr => .ite (fun _ => .pure fun _ hs => hs) fun _ => ?_
    refine .bind (.modify fun _ hs => h.disk _ hs) fun _ => .ite (fun _ => .pure fun _ hs => hs) fun _ => ?_
    exact .bind (ih _) fun _ => .pure fun _ hs => hs

theorem Stable.writei (src : List UInt8) : Triple P (writei sb ip src off n) (fun _ => P) (· = .bmapOutOfRange) := by
  unfold Fs.writei
  refine .bind (Stable.get P) fun s => .ite (fun _ => .pure fun _ hs => hs) fun _ => .ite (fun _ => .pure fun _ hs => hs) fun _ => ?_
  refine .bind (h.writeLoop src) fun tot => .bind (Stable.get P) fun t => ?_
  have htail : Triple P (do
      Fs.iupdate sb ip
      pure (tot : Int) : Sys Int) (fun _ => P) (· = .bmapOutOfRange) :=
    .bind (h.iupdate ip) fun _ => .pure fun _ hs => hs
  exact .ite (fun _ => .bind (h.setCopy _) fun _ => htail) fun _ => htail

end

end Xv6.Fs
