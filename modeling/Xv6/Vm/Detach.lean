import Xv6.Vm.Lazy
import Xv6.Vm.ShmIds

/-!
# Detached regions

`shmem_dt` takes the page out of the table of the process and leaves `p->sz` as it is.  For `vmfault` an
address below `p->sz` that is not mapped is lazily allocated memory.  So the page of a detached region is gone only
once the process has no memory there any more.
-/

namespace Xv6.Vm

open Hoare Memory PageMap Runs

variable {L : Layout} {s t : State L} {g : Ledger} {p : Fin NPROC} {uva va : Nat}

/-- The process has no memory in the page of `uva`: accesses of the user kill it, and copies fail. -/
def Gone (s : State L) (p : Fin NPROC) (uva : Nat) : Prop :=
  ∀ va, va / PGSIZE = uva / PGSIZE →
    (∃ k, userLoad (s.proc p).space va s.kmem = .ok (.killed, k)) ∧
    (∀ b, ∃ k, userWrite (s.proc p).space va b s.kmem = .ok (.killed, k)) ∧
    (∀ len, 0 < len → ∃ k, copyin (s.proc p).space (s.proc p).pagetable va len s.kmem = .ok (none, k)) ∧
    ∀ src, src ≠ [] → ∃ k, copyout (s.proc p).space (s.proc p).pagetable va src s.kmem = .ok (-1, k)

/-- The call gives the process memory in the page of `uva`, or a new image. -/
def MapsAgain (p : Fin NPROC) (uva : Nat) (s : State L) (ev : Act × Int) : Prop :=
  ev.1.proc = p ∧
    match ev.1.call with
    | .sbrk n _ => ev.2 ≠ -1 ∧ pagesOf (s.proc p).sz ≤ uva / PGSIZE ∧
        uva / PGSIZE < pagesOf ((s.proc p).sz + n).toNat
    | .shmat _ => ev.2 = uva
    | .exec _ _ _ => ev.2 ≠ -1
    | _ => False

/-- After `shmdt(uva)` has returned 0, and until the process maps the page again, the page is gone. -/
def DetachedGone (step : State L → Act × Int → State L → Prop) (dom : State L → Fin NPROC → Nat → Prop) : Prop :=
  ∀ s₀ p uva s₁ tr s, Reachable Booted step s₀ → step s₀ (⟨p, .shmdt uva⟩, 0) s₁ →
    Run (restrict (fun s ev => ¬ MapsAgain p uva s ev) step) s₁ tr s →
    (s.proc p).pid = (s₁.proc p).pid → (s.proc p).state = .runnable → dom s p uva → Gone s p uva

/-! ## Where the process has no memory -/

theorem userPage_beyond {k : Kmem L} {q : Space} (hwf : WellFormed L k.mem 2 q.pagetable)
    (hnone : lookup k q.pagetable (va / PGSIZE) = none) (hsz : q.sz ≤ va) : userPage q q.pagetable va k = .ok (0, k) := by
  have hnull : (lookup k q.pagetable).translate va = 0 := by
    unfold Map.translate
    rw [hnone]
    exact ite_self 0
  unfold userPage
  rw [bind_of_ok (walkaddr_eq hwf), hnull, if_pos rfl]
  exact vmfault_refuses hsz

theorem userAccess_beyond {k : Kmem L} {q : Space} {flag : Nat} (hwf : WellFormed L k.mem 2 q.pagetable)
    (hflag : AccessFlag flag) (hnone : lookup k q.pagetable (va / PGSIZE) = none) (hsz : q.sz ≤ va) :
    userAccess q flag va k = .ok (0, k) := by
  unfold userAccess
  rw [bind_of_ok (accessiblePage_none hwf hflag.bits hnone), if_neg (not_not.mpr rfl),
    bind_of_ok (vmfault_refuses hsz), if_pos rfl]
  rfl

theorem Books.gone (h : Books s g) (hp : (s.proc p).state ≠ .unused) (halign : uva % PGSIZE = 0)
    (hsz : (s.proc p).sz ≤ uva) (hhi : uva < TRAPFRAME) : Gone s p uva := by
  intro va hpage
  have hwf : WellFormed L s.kmem.mem 2 (s.proc p).space.pagetable := h.holds.wf _ (h.top hp).mem
  have hdown : PGROUNDDOWN va = uva := by
    unfold PGROUNDDOWN
    rw [hpage]
    exact Nat.div_mul_cancel (Nat.dvd_of_mod_eq_zero halign)
  have hle : (s.proc p).sz ≤ va := by
    have hdownle := PGROUNDDOWN_le va
    omega
  have hnone : lookup s.kmem (s.proc p).space.pagetable (va / PGSIZE) = none := by
    apply h.lookup_beyond hp
    · rw [hpage]
      unfold pagesOf PGSIZE at *
      omega
    rw [hpage]
    unfold trapframeNo
    unfold TRAPFRAME TRAMPOLINE MAXVA PGSIZE at *
    omega
  have hcopy : userPage (s.proc p).space (s.proc p).pagetable (PGROUNDDOWN va) s.kmem = .ok (0, s.kmem) := by
    apply userPage_beyond hwf
    · rw [PGROUNDDOWN_div]
      exact hnone
    · rw [hdown]
      exact hsz
  refine ⟨⟨s.kmem, ?_⟩, fun b => ⟨s.kmem, ?_⟩, fun len hlen => ⟨s.kmem, ?_⟩, fun src hsrc => ⟨s.kmem, ?_⟩⟩
  · unfold userLoad
    rw [bind_of_ok (userAccess_beyond hwf accessFlag_R hnone hle), if_pos rfl]
    rfl
  · unfold userWrite
    rw [bind_of_ok (userAccess_beyond hwf accessFlag_W hnone hle), if_pos rfl]
    rfl
  · obtain ⟨n, rfl⟩ := Nat.exists_eq_succ_of_ne_zero (Nat.ne_of_gt hlen)
    unfold copyin copyinLoop
    rw [if_neg (Nat.succ_ne_zero n), bind_of_ok hcopy, if_pos rfl]
    rfl
  have hlow : ¬ MAXVA ≤ PGROUNDDOWN va := by
    rw [hdown]
    unfold TRAPFRAME TRAMPOLINE at hhi
    omega
  obtain ⟨b, l, rfl⟩ := List.exists_cons_of_ne_nil hsrc
  unfold copyout
  rw [List.length_cons]
  unfold copyoutLoop
  rw [if_neg (by simp), if_neg hlow, bind_of_ok hcopy, if_pos rfl]
  rfl

theorem shmemDt_zero (h : shmemDt p uva s = .ok (0, t)) : uva % PGSIZE = 0 ∧ uva < (s.proc p).sz := by
  unfold shmemDt at h
  simp only [get_bind] at h
  split at h
  · cases h
  · next hargs =>
    rw [not_or, not_or, not_not, Nat.not_le] at hargs
    exact hargs.2

theorem Step.shmdt_zero (h : Step s (⟨p, .shmdt uva⟩, 0) t) : uva % PGSIZE = 0 ∧ uva < (s.proc p).sz :=
  shmemDt_zero h.ran.2

/-! ## The first process detaches a region -/

/-- It gets some memory, and makes and attaches a region above it. -/
def attachAbove : List Act := [⟨0, .sbrk 4096 SBRK_EAGER⟩, ⟨0, .shmget 1 4096⟩, ⟨0, .shmat 0⟩]

/-- The region is then detached, in a state that satisfies `check`. -/
def detachesAbove (check : State smallKernel → Bool) : Bool :=
  match userinit (State.start sixteenPages) with
  | .ok (_, s) => (execs (guarded (fun _ ev => Quiet ev ∨ ShmCall ev.1.call) exec) s attachAbove).any fun r =>
      (exec r.1 ⟨0, .shmdt 4096⟩).any fun u => u.2 = 0 && check u.1
  | .error _ => false

theorem detached_of_detachesAbove {check : State smallKernel → Bool} (h : detachesAbove check = true) :
    ∃ s₀ s₁, Reachable Booted (restrict SparesRegions Step) s₀ ∧
      restrict SparesRegions Step s₀ (⟨0, .shmdt 4096⟩, 0) s₁ ∧ check s₁ = true := by
  unfold detachesAbove at h
  split at h
  · next s huser =>
    have hboot : Booted s := booted_of_userinit (n := 16) (by decide) (by decide) huser
    obtain ⟨s₀, tr, hrun, hdetach⟩ := Run.of_any_execs h
    obtain ⟨s₁, ret, hstep, hcheck⟩ := Exec.of_any hdetach
    rw [Bool.and_eq_true, decide_eq_true_eq] at hcheck
    obtain ⟨hret, hcheck⟩ := hcheck
    dsimp only at hret
    rw [hret] at hstep
    refine ⟨s₀, s₁, ⟨s, tr, hboot, hrun.mono fun _ _ _ hone => ⟨?_, hone.2⟩⟩, ⟨trivial, hstep⟩, hcheck⟩
    exact hone.1.elim sparesRegions_of_quiet sparesRegions_of_shmCall
  · cases h

/-! ## Whether the page is gone -/

/-- A detached page is gone once `p->sz` is at or below it, as long as no attached region is freed. -/
theorem detached_gone (step : State L → Act × Int → State L → Prop) (dom : State L → Fin NPROC → Nat → Prop)
    (hstep : ∀ s ev t, step s ev t → restrict SparesRegions Step s ev t)
    (hdom : ∀ s p uva, dom s p uva → (s.proc p).sz ≤ uva) : DetachedGone step dom := by
  intro s₀ p uva s₁ tr s ⟨s₂, tr₂, hboot, hrun₂⟩ hdetach hrun hpid hlive hin
  have hrun₂ := hrun₂.mono hstep
  have hdetach := hstep _ _ _ hdetach
  have hrun := hrun.mono fun s ev t h => hstep s ev t h.2
  obtain ⟨g₀, hbooks₀⟩ := books_of_reachable ⟨s₂, tr₂, hboot, hrun₂⟩
  obtain ⟨halign, hlt⟩ := hdetach.2.shmdt_zero
  have hle := hbooks₀.sz p
  obtain ⟨g, hbooks⟩ := books_of_reachable ⟨s₂, _, hboot, (hrun₂.snoc hdetach).trans hrun⟩
  exact hbooks.gone (by rw [hlive]; decide) halign (hdom s p uva hin) (Nat.lt_of_lt_of_le hlt hle)

/-- There is no region left, and the process gives back the page above. -/
def shrinksBelow (s : State smallKernel) : Bool :=
  decide (∀ i, (s.shmtable i).key = 0) &&
    (exec s ⟨0, .sbrk (-4096) SBRK_EAGER⟩).any fun u =>
      (u.1.proc 0).sz = 4096 && (u.1.proc 0).state = .runnable && (u.1.proc 0).pid = (s.proc 0).pid

theorem detached_gone_after_shrinking :
    ∃ s₀ s₁ s : State smallKernel, restrict SparesRegions Step s₀ (⟨0, .shmdt 4096⟩, 0) s₁ ∧
      Reachable Booted (restrict SparesRegions Step) s ∧ (s.proc 0).sz ≤ 4096 ∧ Gone s 0 4096 := by
  have hrun : detachesAbove shrinksBelow = true := by decide +kernel
  obtain ⟨s₀, s₁, hreach, hdetach, hcheck⟩ := detached_of_detachesAbove hrun
  unfold shrinksBelow at hcheck
  rw [Bool.and_eq_true, decide_eq_true_eq] at hcheck
  obtain ⟨s, ret, hstep, hafter⟩ := Exec.of_any hcheck.2
  simp only [Bool.and_eq_true, decide_eq_true_eq] at hafter
  obtain ⟨⟨hsz, hlive⟩, hpid⟩ := hafter
  have hshrink : restrict SparesRegions Step s₁ (⟨0, .sbrk (-4096) SBRK_EAGER⟩, ret) s :=
    ⟨fun _ _ _ _ ⟨i, hkey, _⟩ => hkey (hcheck.1 i), hstep⟩
  have hquiet : ¬ MapsAgain 0 4096 s₁ (⟨0, .sbrk (-4096) SBRK_EAGER⟩, ret) := by
    rintro ⟨-, -, hlo, hhi⟩
    unfold pagesOf PGSIZE at *
    omega
  have hgone := detached_gone (restrict SparesRegions Step) (fun s p uva => (s.proc p).sz ≤ uva)
    (fun _ _ _ h => h) (fun _ _ _ h => h) s₀ 0 4096 s₁ _ s hreach hdetach (Run.nil.snoc ⟨hquiet, hshrink⟩) hpid hlive
    (Nat.le_of_eq hsz)
  obtain ⟨s₂, tr, hboot, hrun₂⟩ := hreach
  exact ⟨s₀, s₁, s, hdetach, ⟨s₂, _, hboot, (hrun₂.snoc hdetach).snoc hshrink⟩, Nat.le_of_eq hsz, hgone⟩

/-- The user loads a byte from the detached page, and lives. -/
def loadsDetached (s : State smallKernel) : Bool :=
  (s.proc 0).state = .runnable &&
    match userLoad (s.proc 0).space 4096 s.kmem with
    | .ok (r, _) => r ≠ .killed
    | .error _ => false

theorem detached_page_comes_back : ¬ DetachedGone (L := smallKernel) Step (fun _ _ _ => True) := by
  have hrun : detachesAbove loadsDetached = true := by decide +kernel
  obtain ⟨s₀, s₁, ⟨s, tr, hboot, hreach⟩, hdetach, hcheck⟩ := detached_of_detachesAbove hrun
  unfold loadsDetached at hcheck
  rw [Bool.and_eq_true, decide_eq_true_eq] at hcheck
  obtain ⟨hlive, hload⟩ := hcheck
  intro hclaim
  have hgone := hclaim s₀ 0 4096 s₁ [] s₁ ⟨s, tr, hboot, hreach.mono fun _ _ _ hone => hone.2⟩ hdetach.2 .nil rfl hlive
    trivial
  obtain ⟨⟨k, hkilled⟩, -⟩ := hgone 4096 rfl
  rw [hkilled] at hload
  exact absurd rfl (of_decide_eq_true hload)

end Xv6.Vm
