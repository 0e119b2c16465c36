import Xv6.Vm.Books
import Xv6.Vm.UserMemory

/-!
# The heap

`sbrk` on the memory of a process, as an array of bytes.  A heap that grows lazily gets a new size and no
page; one that grows at once gets the pages too, and they are just what was missing.
-/

namespace Xv6.Vm

open Hoare Memory PageMap

variable {L : Layout} {k k' : Kmem L} {root n v w pa f va : Nat} {A : UserMem} {q : Space}

/-! ## Growing -/

theorem Presents.grow (sz : Nat) (h : Presents k q A) (hle : q.sz ≤ sz) (hsz : sz ≤ TRAPFRAME) :
    Presents k { q with sz := sz } { A.fresh (pagesOf q.sz) (pagesOf sz) with sz := sz } := by
  have hmono : pagesOf q.sz ≤ pagesOf sz := by
    unfold pagesOf PGSIZE
    omega
  have hmax : pagesOf sz ≤ trapframeNo := by
    unfold pagesOf trapframeNo TRAPFRAME TRAMPOLINE MAXVA PGSIZE at *
    omega
  have hdiv : ∀ {v off}, off < PGSIZE → (v * PGSIZE + off) / PGSIZE = v := by
    intro v off hoff
    unfold PGSIZE at *
    omega
  refine ⟨rfl, hsz, h.sound.mono hmono hmax, fun {v pa f} hv hlook => ?_, fun {v} hv hlook => ?_⟩
  · have hold : v < pagesOf q.sz := by
      by_contra hge
      rw [h.sound.above (Nat.le_of_not_lt hge) (Nat.lt_of_lt_of_le hv hmax)] at hlook
      cases hlook
    obtain ⟨hflags, hbytes⟩ := h.shows.there hold hlook
    have hout : ¬ (pagesOf q.sz ≤ v ∧ v < pagesOf sz) := by omega
    refine ⟨(if_neg hout).trans hflags, fun off hoff => ?_⟩
    rw [hbytes off hoff]
    symm
    apply if_neg
    rw [hdiv hoff]
    exact hout
  by_cases hold : v < pagesOf q.sz
  · obtain ⟨hflags, hbytes⟩ := h.shows.missing hold hlook
    have hout : ¬ (pagesOf q.sz ≤ v ∧ v < pagesOf sz) := by omega
    refine ⟨(if_neg hout).trans hflags, fun off hoff => ?_⟩
    rw [← hbytes off hoff]
    apply if_neg
    rw [hdiv hoff]
    exact hout
  have hin : pagesOf q.sz ≤ v ∧ v < pagesOf sz := ⟨Nat.le_of_not_lt hold, hv⟩
  refine ⟨if_pos hin, fun off hoff => if_pos ?_⟩
  rw [hdiv hoff]
  exact hin

theorem uvmallocLoop_fresh {oldsz newsz m : Nat} (h : Sound k root n) (hs : Shows k root n A) (hv : v + m ≤ n)
    (hnone : ∀ w, v ≤ w → w < v + m → lookup k root w = none) (hlen : 3 * m ≤ k.freelist.length) :
    ∃ k', uvmallocLoop root oldsz newsz PTE_W m (v * PGSIZE) k = .ok (newsz, k') ∧ Sound k' root n ∧
      Shows k' root n A := by
  induction m generalizing v k with
  | zero => exact ⟨k, rfl, h, hs⟩
  | succ m ih =>
    have hvn : v < n := by omega
    have hfirst := hnone v (Nat.le_refl v) (by omega)
    obtain ⟨c, k₁, k₂, k₃, halloc, hc, hset, hmap, hm⟩ := h.map_fresh hvn hfirst (by omega)
      (show PTE_R ||| PTE_U ||| PTE_W < 2 ^ 10 by decide)
    have hshows := hm.shows hs hvn h.le hfirst (by decide)
    have hcost := hm.cost
    obtain ⟨k', hrest, hsound', hshows'⟩ := ih (v := v + 1) hm.sound hshows (by omega)
      (fun w hlo hhi => by
        rw [hm.entries, Function.update_of_ne (by omega)]
        exact hnone w (by omega) (by omega)) (by omega)
    refine ⟨k', ?_, hsound', hshows'⟩
    rw [Nat.succ_mul] at hrest
    rw [uvmallocLoop, bind_of_ok halloc, if_neg hc, bind_of_ok hset, bind_of_ok hmap]
    exact hrest

theorem pagesOf_mul_eq {sz : Nat} (h : sz ≤ TRAPFRAME) : PGROUNDUP sz = pagesOf sz * PGSIZE :=
  PGROUNDUP_eq (Nat.le_trans h (by decide))

theorem uvmalloc_fresh {oldsz newsz : Nat} (h : Sound k root (pagesOf newsz)) (hs : Shows k root (pagesOf newsz) A)
    (hle : oldsz ≤ newsz) (hnew : newsz ≤ TRAPFRAME)
    (hnone : ∀ w, pagesOf oldsz ≤ w → w < pagesOf newsz → lookup k root w = none)
    (hlen : 3 * (pagesOf newsz - pagesOf oldsz) ≤ k.freelist.length) :
    ∃ k', uvmalloc root oldsz newsz PTE_W k = .ok (newsz, k') ∧ Sound k' root (pagesOf newsz) ∧
      Shows k' root (pagesOf newsz) A := by
  have hup := pagesOf_mul_eq (Nat.le_trans hle hnew)
  have hrounds : (newsz - PGROUNDUP oldsz + PGSIZE - 1) / PGSIZE = pagesOf newsz - pagesOf oldsz := by
    rw [hup]
    unfold pagesOf PGSIZE
    omega
  have hmono : pagesOf oldsz ≤ pagesOf newsz := by
    unfold pagesOf PGSIZE
    omega
  unfold uvmalloc
  rw [if_neg (Nat.not_lt_of_le hle), hrounds, hup]
  exact uvmallocLoop_fresh h hs (by omega) (fun w hlo hhi => hnone w hlo (by omega)) hlen

/-! ## Shrinking -/

theorem Presents.uvmdealloc (sz : Nat) (h : Presents k q A) (hlt : sz < q.sz) :
    ∃ k', uvmdealloc q.pagetable q.sz sz k = .ok (sz, k') ∧ Presents k' { q with sz := sz } { A with sz := sz } := by
  have hsz : sz ≤ TRAPFRAME := Nat.le_trans (Nat.le_of_lt hlt) h.le
  have hmono : pagesOf sz ≤ pagesOf q.sz := pagesOf_mono (Nat.le_of_lt hlt)
  obtain ⟨k', hrun, hk'⟩ := h.sound.owns.uvmdealloc h.le hlt
  have hkeep : ∀ {w}, w < pagesOf sz → lookup k' q.pagetable w = lookup k q.pagetable w := by
    intro w hw
    rw [hk'.entries, if_neg (by omega)]
  have hle := h.sound.le
  refine ⟨k', hrun, rfl, hsz, hk'.owns.sound (fun {w} hnw hw => ?_) (fun {w pa f} hw hl => ?_) (Nat.le_trans hmono hle),
    fun {w pa f} hw hlook => ?_, fun {w} hw hlook => ?_⟩
  · rw [hk'.entries]
    split
    · rfl
    · next hout =>
      have hlo : pagesOf sz ≤ w := hnw
      exact h.sound.above (by omega) hw
  · rw [hk'.entries, if_neg (by omega)] at hl
    exact h.sound.top hw hl
  · have hlook : lookup k q.pagetable w = some (pa, f) := (hkeep hw).symm.trans hlook
    obtain ⟨hflags, hbytes⟩ := h.shows.there (Nat.lt_of_lt_of_le hw hmono) hlook
    refine ⟨hflags, fun off hoff => ?_⟩
    have hw' : w < pagesOf sz := hw
    have hsame := hk'.spares (by omega) (by omega) hlook
    rw [hsame (pa + off) (Nat.le_add_right _ _) (by omega)]
    exact hbytes off hoff
  · exact h.shows.missing (Nat.lt_of_lt_of_le hw hmono) ((hkeep hw).symm.trans hlook)

/-! ## `sbrk` -/

variable {s : State L} {p : Fin NPROC}

def State.Presents (s : State L) (p : Fin NPROC) (A : UserMem) : Prop := Vm.Presents s.kmem (s.proc p).space A

theorem uint64_of_nonneg {x : Int} (h : 0 ≤ x) (hlt : x < 2 ^ 64) : uint64 x = x.toNat := by
  unfold uint64
  rw [Int.emod_eq_of_lt h hlt]

/-- How many pages `sbrk` may take, for the memory and for the table. -/
def growthCost (sz : Nat) (n : Int) : Nat :=
  if TRAPFRAME < sz + n then 0 else 3 * (pagesOf (sz + n).toNat - pagesOf sz)

def State.resize (s : State L) (p : Fin NPROC) (k : Kmem L) (sz : Nat) : State L :=
  (s.setKmem k).setProc p { s.proc p with sz := sz }

theorem State.Presents.resize {sz : Nat} (h : Vm.Presents k { (s.proc p).space with sz := sz } A) :
    (s.resize p k sz).Presents p A := by
  unfold State.Presents State.resize
  rw [setProc_self]
  exact h

section Growing

variable {n t : Int}

theorem State.Presents.newsize (h : s.Presents p A) (hn : 0 ≤ n) (hmax : n < 2 ^ 31) :
    uint64 ((s.proc p).sz + n) = (A.sz + n).toNat ∧ (TRAPFRAME < (A.sz + n).toNat ↔ (TRAPFRAME : Int) < A.sz + n) ∧
      A.sz ≤ (A.sz + n).toNat := by
  have hsize : A.sz = (s.proc p).sz := h.size
  have hle : (s.proc p).sz ≤ TRAPFRAME := h.le
  have hbound : TRAPFRAME < 2 ^ 38 := by decide
  rw [← hsize] at hle ⊢
  exact ⟨uint64_of_nonneg (by omega) (by omega), by omega, by omega⟩

theorem State.Presents.grown (h : s.Presents p A) (hn : 0 ≤ n) (hfits : ¬ (TRAPFRAME : Int) < A.sz + n) :
    Vm.Presents s.kmem { (s.proc p).space with sz := (A.sz + n).toNat } (A.sbrk n).1 := by
  have hsize : A.sz = (s.proc p).space.sz := h.size
  have hgrow := Vm.Presents.grow (A.sz + n).toNat h (by omega) (by omega)
  unfold UserMem.sbrk
  rw [if_pos hn, if_neg hfits]
  rw [← hsize] at hgrow
  exact hgrow

theorem UserMem.sbrk_snd (hn : 0 ≤ n) : (A.sbrk n).2 = if (TRAPFRAME : Int) < A.sz + n then -1 else (A.sz : Int) := by
  unfold UserMem.sbrk
  rw [if_pos hn]
  split <;> rfl

theorem UserMem.sbrk_fails (hn : 0 ≤ n) (hbig : (TRAPFRAME : Int) < A.sz + n) : (A.sbrk n).1 = A := by
  unfold UserMem.sbrk
  rw [if_pos hn, if_pos hbig]

theorem growproc_grows (h : s.Presents p A) (hn : 0 ≤ n) (hmax : n < 2 ^ 31)
    (hlen : growthCost A.sz n ≤ s.kmem.freelist.length) :
    ∃ s', growproc p n s = .ok (if (TRAPFRAME : Int) < A.sz + n then -1 else 0, s') ∧ s'.Presents p (A.sbrk n).1 := by
  obtain ⟨hnew, hbig, hle⟩ := h.newsize hn hmax
  have hsize : A.sz = (s.proc p).sz := h.size
  unfold growproc
  rw [get_bind]
  rcases Int.lt_or_eq_of_le hn with hpos | rfl
  · rw [if_pos hpos, hnew]
    by_cases hfits : (TRAPFRAME : Int) < A.sz + n
    · rw [if_pos (hbig.mpr hfits), if_pos hfits, UserMem.sbrk_fails hn hfits]
      exact ⟨s, rfl, h⟩
    have hgrown := h.grown hn hfits
    have hnone : ∀ w, pagesOf (s.proc p).sz ≤ w → w < pagesOf (A.sz + n).toNat →
        lookup s.kmem (s.proc p).pagetable w = none :=
      fun w hlo hhi => h.sound.above hlo (Nat.lt_of_lt_of_le hhi hgrown.sound.le)
    unfold growthCost at hlen
    rw [if_neg hfits] at hlen
    obtain ⟨k', hrun, hsound, hshows⟩ := uvmalloc_fresh hgrown.sound hgrown.shows (show (s.proc p).sz ≤ (A.sz + n).toNat by omega)
      hgrown.le hnone (by rw [hsize] at hlen ⊢; exact hlen)
    have hrun : uvmalloc (s.proc p).pagetable (s.proc p).sz (A.sz + n).toNat PTE_W s.kmem =
        .ok ((A.sz + n).toNat, k') := hrun
    have hne : (A.sz + n).toNat ≠ 0 := by omega
    rw [if_neg fun hbad => hfits (hbig.mp hbad), if_neg hfits, bind_of_ok (lift_of_ok hrun), if_neg hne]
    exact ⟨s.resize p k' (A.sz + n).toNat, rfl, State.Presents.resize ⟨hgrown.size, hgrown.le, hsound, hshows⟩⟩
  have hsame : (A.sz + (0 : Int)).toNat = A.sz := by omega
  have hfits : ¬ (TRAPFRAME : Int) < A.sz + 0 := by
    have hle : (s.proc p).sz ≤ TRAPFRAME := h.le
    omega
  have hgrown := h.grown hn hfits
  rw [hsame, hsize] at hgrown
  rw [if_neg (by decide), if_neg (by decide), if_neg hfits]
  exact ⟨s, rfl, hgrown⟩

theorem sysSbrk_grows (h : s.Presents p A) (hn : 0 ≤ n) (hmax : n < 2 ^ 31)
    (hlen : growthCost A.sz n ≤ s.kmem.freelist.length) :
    ∃ s', sysSbrk p n t s = .ok ((A.sbrk n).2, s') ∧ s'.Presents p (A.sbrk n).1 := by
  obtain ⟨hnew, hbig, hle⟩ := h.newsize hn hmax
  have hsize : A.sz = (s.proc p).sz := h.size
  rw [UserMem.sbrk_snd hn]
  unfold sysSbrk
  rw [get_bind]
  by_cases heager : t = SBRK_EAGER ∨ n < 0
  · rw [if_pos heager]
    obtain ⟨s', hrun, hs'⟩ := growproc_grows h hn hmax hlen
    refine ⟨s', ?_, hs'⟩
    rw [bind_of_ok hrun]
    by_cases hfits : (TRAPFRAME : Int) < A.sz + n
    · rw [if_pos hfits, if_pos hfits]
      rfl
    · rw [if_neg hfits, if_neg hfits, hsize]
      rfl
  rw [if_neg heager, hnew, if_neg (by omega)]
  by_cases hfits : (TRAPFRAME : Int) < A.sz + n
  · rw [if_pos (hbig.mpr hfits), if_pos hfits, UserMem.sbrk_fails hn hfits]
    exact ⟨s, rfl, h⟩
  · rw [if_neg fun hbad => hfits (hbig.mp hbad), if_neg hfits, hsize]
    rw [← hsize]
    exact ⟨s.resize p s.kmem (A.sz + n).toNat, by rw [hsize]; rfl, State.Presents.resize (h.grown hn hfits)⟩

end Growing

section Shrinks

variable {n : Int} (hsz : (s.proc p).sz ≤ TRAPFRAME) (hn : n < 0)

include hsz hn

theorem growproc_dealloc {sz : Nat} (hlow : 0 ≤ ((s.proc p).sz : Int) + n)
    (hrun : Vm.uvmdealloc (s.proc p).pagetable (s.proc p).sz ((s.proc p).sz + n).toNat s.kmem = .ok (sz, k')) :
    growproc p n s = .ok (0, s.resize p k' sz) := by
  have hbound : TRAPFRAME < 2 ^ 38 := by decide
  unfold growproc
  rw [get_bind, if_neg (by omega), if_pos hn, uint64_of_nonneg hlow (by omega), bind_of_ok (lift_of_ok hrun)]
  rfl

/-- The new size wraps around to one beyond the old, and `uvmdealloc` returns the old. -/
theorem growproc_wraps (hmin : -2 ^ 31 ≤ n) (hlow : ¬ 0 ≤ ((s.proc p).sz : Int) + n) :
    growproc p n s = .ok (0, s.resize p s.kmem (s.proc p).sz) := by
  have hbound : TRAPFRAME < 2 ^ 38 := by decide
  have hnew : (s.proc p).sz ≤ uint64 ((s.proc p).sz + n) := by
    unfold uint64
    omega
  have hrun : Vm.uvmdealloc (s.proc p).pagetable (s.proc p).sz (uint64 ((s.proc p).sz + n)) s.kmem =
      .ok ((s.proc p).sz, s.kmem) := by
    unfold Vm.uvmdealloc
    rw [if_pos hnew]
    rfl
  unfold growproc
  rw [get_bind, if_neg (by omega), if_pos hn, bind_of_ok (lift_of_ok hrun)]
  rfl

end Shrinks

theorem growproc_shrinks {n : Int} (h : s.Presents p A) (hn : n < 0) (hmin : -2 ^ 31 ≤ n) :
    ∃ s', growproc p n s = .ok (0, s') ∧ s'.Presents p (A.sbrk n).1 := by
  have hsize : A.sz = (s.proc p).sz := h.size
  unfold UserMem.sbrk
  rw [if_neg (by omega)]
  by_cases hlow : 0 ≤ (A.sz : Int) + n
  · rw [if_pos hlow]
    obtain ⟨k', hrun, hk'⟩ := Vm.Presents.uvmdealloc (A.sz + n).toNat h (show (A.sz + n).toNat < (s.proc p).sz by omega)
    refine ⟨s.resize p k' (A.sz + n).toNat, growproc_dealloc h.le hn (hsize ▸ hlow) ?_, State.Presents.resize hk'⟩
    rw [← hsize]
    exact hsize ▸ hrun
  · rw [if_neg hlow]
    exact ⟨_, growproc_wraps h.le hn hmin (hsize ▸ hlow), State.Presents.resize h⟩

theorem sysSbrk_shrinks {n t : Int} (h : s.Presents p A) (hn : n < 0) (hmin : -2 ^ 31 ≤ n) :
    ∃ s', sysSbrk p n t s = .ok ((A.sbrk n).2, s') ∧ s'.Presents p (A.sbrk n).1 := by
  have hsize : A.sz = (s.proc p).sz := h.size
  obtain ⟨s', hrun, hs'⟩ := growproc_shrinks h hn hmin
  refine ⟨s', ?_, hs'⟩
  have hret : (A.sbrk n).2 = (s.proc p).sz := by
    unfold UserMem.sbrk
    rw [if_neg (by omega)]
    split <;> exact congrArg _ hsize
  unfold sysSbrk
  rw [get_bind, if_pos (.inr hn), bind_of_ok hrun, hret]
  rfl

end Xv6.Vm
