import Xv6.Vm.Break
import Xv6.Vm.Lazy

/-!
# Where `sbrk` puts the break

What `sys_sbrk` does to a process that has no region attached, with whatever memory is left.  Breaks need not be
aligned, the increment is a signed `int`, and an eager call may fail after it has mapped some of the pages.
-/

namespace Xv6.Vm

open Finset Hoare Memory PageMap

variable {L : Layout} {k k' : Kmem L} {root lo hi v w x pa f : Nat}

/-! ## What clearing a range frees -/

/-- The free list has got the pages that were mapped in a range, and no others. -/
structure FreesRange (k k' : Kmem L) (root lo hi : Nat) : Prop where
  freed : ∀ {v x f}, lo ≤ v → v < hi → lookup k root v = some (x, f) → k.free x = 0 ∧ k'.free x = 1
  others : ∀ x, (∀ v f, lo ≤ v → v < hi → lookup k root v ≠ some (x, f)) → k'.free x = k.free x

theorem Cleared.freesRange (h : Owns k root) (hc : Cleared k k' root lo hi) (hhi : hi ≤ trapframeNo) :
    FreesRange k k' root lo hi := by
  refine ⟨fun {v x f} hlo hlt hlook => ?_, fun x hout => ?_⟩
  · have hv : v < trapframeNo := Nat.lt_of_lt_of_le hlt hhi
    -- Nothing else is mapped to it, so that no user page of the table is `x` now.
    have hnone : users (lookup k' root) x = 0 := by
      apply users_eq_zero
      intro w hw hpoints
      obtain ⟨f', hlook'⟩ := hpoints.eq
      rw [hc.entries] at hlook'
      split at hlook'
      · cases hlook'
      · have heq := h.inj hw hv hlook' hlook
        omega
    have hcount := hc.conserves.count x
    have hpos := users_pos hv hlook
    have honce := h.once x
    have htables := hc.tables x
    unfold estate at hcount honce
    omega
  have husers : users (lookup k' root) x = users (lookup k root) x := by
    apply sum_congr rfl
    intro v hv
    rw [hc.entries]
    by_cases hin : lo ≤ v ∧ v < hi
    · have hnot : ¬ PointsTo (lookup k root v) x := by
        intro hpoints
        obtain ⟨f, hlook⟩ := hpoints.eq
        exact hout v f hin.1 hin.2 hlook
      rw [if_pos hin, if_neg (not_pointsTo_none x), if_neg hnot]
    · rw [if_neg hin]
  have hcount := hc.conserves.count x
  have htables := hc.tables x
  unfold estate at hcount
  omega

theorem Restored.returned (h : Restored k k' root) (x : Nat) :
    k'.free x + pages k'.mem 2 root x = k.free x + pages k.mem 2 root x := by
  have hcount := h.conserves.count x
  unfold estate at hcount
  rw [h.entries] at hcount
  omega

/-! ## Processes without regions -/

/-- The memory of the process ends at its break, and no page of it is anybody else's. -/
structure State.Private (s : State L) (p : Fin NPROC) : Prop where
  owns : Owns s.kmem (s.proc p).pagetable
  above : ∀ v, pagesOf (s.proc p).sz ≤ v → v < trapframeNo → lookup s.kmem (s.proc p).pagetable v = none
  le : (s.proc p).sz ≤ TRAPFRAME

variable {s : State L} {p : Fin NPROC} {g : Ledger}

theorem State.Presents.isPrivate {A : UserMem} (h : s.Presents p A) : s.Private p :=
  ⟨h.sound.owns, fun _ hlo hhi => h.sound.above hlo hhi, h.le⟩

/-! ## The outcomes of `sbrk` -/

/-- What `sbrk` of `n` bytes returns, and the state in which it leaves the system. -/
inductive MovesBreak (s : State L) (p : Fin NPROC) (n t : Int) : Int → State L → Prop
  /-- Size and mappings are as before.  What is missing on the free list are page-table pages. -/
  | failed {k' : Kmem L} : 0 ≤ n → Restored s.kmem k' (s.proc p).pagetable →
      (∀ x, k'.free x + pages k'.mem 2 (s.proc p).pagetable x =
        s.kmem.free x + pages s.kmem.mem 2 (s.proc p).pagetable x) →
      MovesBreak s p n t (-1) (s.resize p k' (s.proc p).sz)
  | grownLazily : 0 ≤ n → t ≠ SBRK_EAGER →
      MovesBreak s p n t (s.proc p).sz (s.resize p s.kmem ((s.proc p).sz + n).toNat)
  /-- The pages between the two breaks are mapped to pages full of zeros. -/
  | grown {k' : Kmem L} : 0 ≤ n → t = SBRK_EAGER →
      Grows s.kmem k' (s.proc p).pagetable (pagesOf (s.proc p).sz) (pagesOf ((s.proc p).sz + n).toNat) heapFlags →
      MovesBreak s p n t (s.proc p).sz (s.resize p k' ((s.proc p).sz + n).toNat)
  /-- The pages between the two breaks are not mapped any more, and those that were are free. -/
  | shrunk {k' : Kmem L} : n < 0 → 0 ≤ (s.proc p).sz + n →
      Cleared s.kmem k' (s.proc p).pagetable (pagesOf ((s.proc p).sz + n).toNat) (pagesOf (s.proc p).sz) →
      FreesRange s.kmem k' (s.proc p).pagetable (pagesOf ((s.proc p).sz + n).toNat) (pagesOf (s.proc p).sz) →
      MovesBreak s p n t (s.proc p).sz (s.resize p k' ((s.proc p).sz + n).toNat)
  | ignored : n < 0 → (s.proc p).sz + n < 0 → MovesBreak s p n t (s.proc p).sz s

theorem State.resize_self (s : State L) (p : Fin NPROC) : s.resize p s.kmem (s.proc p).sz = s := by
  have hproc : (fun q => if q = p then { s.proc p with sz := (s.proc p).sz } else s.proc q) = s.proc := by
    funext q
    by_cases hq : q = p
    · rw [if_pos hq, hq]
    · rw [if_neg hq]
  unfold State.resize State.setProc State.setKmem
  rw [hproc]

theorem State.resize_same (s : State L) (p : Fin NPROC) (k : Kmem L) : s.resize p k (s.proc p).sz = s.setKmem k :=
  State.resize_self (s.setKmem k) p

section Moves

variable {n t : Int}

theorem State.Private.refuses (h : s.Private p) (hn : 0 ≤ n) : MovesBreak s p n t (-1) s := by
  have hfail : MovesBreak s p n t (-1) (s.resize p s.kmem (s.proc p).sz) := .failed hn (.refl h.owns) fun _ => rfl
  rw [State.resize_self] at hfail
  exact hfail

theorem State.Private.grow (h : s.Private p) (hn : 0 < n) (hmax : n < 2 ^ 31) : ∃ r s', growproc p n s = .ok (r, s') ∧
      (r = -1 ∧ MovesBreak s p n SBRK_EAGER (-1) s' ∨ r = 0 ∧ MovesBreak s p n SBRK_EAGER (s.proc p).sz s') := by
  have hle := h.le
  have hbound : TRAPFRAME < 2 ^ 38 := by decide
  have hnew : uint64 ((s.proc p).sz + n) = ((s.proc p).sz + n).toNat := uint64_of_nonneg (by omega) (by omega)
  have hn' : 0 ≤ n := Int.le_of_lt hn
  unfold growproc
  rw [get_bind, if_pos hn, hnew]
  by_cases hbig : TRAPFRAME < ((s.proc p).sz + n).toNat
  · rw [if_pos hbig]
    exact ⟨-1, s, rfl, .inl ⟨rfl, h.refuses hn'⟩⟩
  rw [if_neg hbig]
  -- Beyond the break nothing is mapped, and the new break is below the trapframe.
  have hroom : Room s.kmem (s.proc p).pagetable (pagesOf (s.proc p).sz) (pagesOf ((s.proc p).sz + n).toNat)
      (allocFlags PTE_W) := by
    intro k w _ hlo hhi
    have htop := pagesOf_le_trapframeNo (Nat.le_of_not_lt hbig)
    exact ⟨by omega, h.above w hlo (by omega)⟩
  obtain ⟨ret, k', hrun, hcases⟩ := h.owns.uvmalloc (show PTE_W < 2 ^ 10 by decide) hle
    (show (s.proc p).sz ≤ ((s.proc p).sz + n).toNat by omega) hroom
  rw [bind_of_ok (lift_of_ok hrun)]
  rcases hcases with ⟨rfl, hgrows⟩ | ⟨rfl, hback⟩
  · rw [if_neg (by omega)]
    exact ⟨0, s.resize p k' _, rfl, .inr ⟨rfl, .grown hn' rfl hgrows⟩⟩
  rw [if_pos rfl]
  refine ⟨-1, s.setKmem k', rfl, .inl ⟨rfl, ?_⟩⟩
  rw [← State.resize_same]
  exact .failed hn' hback hback.returned

theorem State.Private.shrink (h : s.Private p) (hn : n < 0) (hmin : -2 ^ 31 ≤ n) :
    ∃ s', growproc p n s = .ok (0, s') ∧ MovesBreak s p n t (s.proc p).sz s' := by
  have hle := h.le
  by_cases hlow : 0 ≤ ((s.proc p).sz : Int) + n
  · obtain ⟨k', hrun, hc⟩ := h.owns.uvmdealloc hle (show ((s.proc p).sz + n).toNat < (s.proc p).sz by omega)
    refine ⟨_, growproc_dealloc hle hn hlow hrun, .shrunk hn hlow hc ?_⟩
    exact hc.freesRange h.owns (pagesOf_le_trapframeNo hle)
  · refine ⟨_, growproc_wraps hle hn hmin hlow, ?_⟩
    rw [State.resize_self]
    exact .ignored hn (by omega)

end Moves

/-- `sbrk` moves the break by just what it is asked for, or not at all. -/
theorem sysSbrk_moves_break (s : State L) (p : Fin NPROC) (n : BitVec 32) (t : Int) (h : s.Private p) :
    ∃ ret s', sysSbrk p n.toInt t s = .ok (ret, s') ∧ MovesBreak s p n.toInt t ret s' := by
  have hmin : -2 ^ 31 ≤ n.toInt := BitVec.le_toInt n
  have hmax : n.toInt < 2 ^ 31 := BitVec.toInt_lt
  generalize n.toInt = n at hmin hmax
  have hle := h.le
  have hbound : TRAPFRAME < 2 ^ 38 := by decide
  unfold sysSbrk
  rw [get_bind]
  by_cases hneg : n < 0
  · obtain ⟨s', hrun, hs'⟩ := h.shrink (t := t) hneg hmin
    rw [if_pos (.inr hneg), bind_of_ok hrun]
    exact ⟨_, s', rfl, hs'⟩
  have hn : 0 ≤ n := Int.not_lt.mp hneg
  have hnew : uint64 ((s.proc p).sz + n) = ((s.proc p).sz + n).toNat := uint64_of_nonneg (by omega) (by omega)
  by_cases heager : t = SBRK_EAGER
  · rw [if_pos (.inl heager), heager]
    rcases Int.lt_or_eq_of_le hn with hpos | rfl
    · obtain ⟨r, s', hrun, ⟨rfl, hs'⟩ | ⟨rfl, hs'⟩⟩ := h.grow hpos hmax
      · rw [bind_of_ok hrun]
        exact ⟨-1, s', rfl, hs'⟩
      · rw [bind_of_ok hrun]
        exact ⟨_, s', rfl, hs'⟩
    -- `growproc(0)` does nothing.
    have hsame : MovesBreak s p 0 SBRK_EAGER (s.proc p).sz (s.resize p s.kmem ((s.proc p).sz + (0 : Int)).toNat) := by
      refine .grown hn rfl ?_
      rw [Int.add_zero, Int.toNat_natCast]
      exact .refl h.owns _ _
    rw [Int.add_zero, Int.toNat_natCast, State.resize_self] at hsame
    exact ⟨_, s, rfl, hsame⟩
  rw [if_neg (by tauto), hnew, if_neg (by omega)]
  by_cases hbig : TRAPFRAME < ((s.proc p).sz + n).toNat
  · rw [if_pos hbig]
    exact ⟨-1, s, rfl, h.refuses hn⟩
  · rw [if_neg hbig]
    exact ⟨_, s.resize p s.kmem _, rfl, .grownLazily hn heager⟩

/-- The first process grows by two pages. -/
theorem sysSbrk_moves_break_first : ∃ s : State smallKernel, Booted s ∧ s.Private 0 ∧
    ∃ ret s', sysSbrk 0 (8192#32).toInt SBRK_EAGER s = .ok (ret, s') ∧ MovesBreak s 0 (8192#32).toInt SBRK_EAGER ret s' := by
  have hstart : startsEmpty (fun _ => true) = true := by decide +kernel
  obtain ⟨s, hboot, ⟨A, hs⟩, -⟩ := booted_of_startsEmpty hstart
  exact ⟨s, hboot, hs.isPrivate, sysSbrk_moves_break s 0 8192#32 SBRK_EAGER hs.isPrivate⟩

end Xv6.Vm
