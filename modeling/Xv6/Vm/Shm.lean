import Xv6.Vm.Attach

/-!
# The lifetime of shared-memory regions

A region of `kernel/shmem.c` keeps one page.  The calls of `kernel/shmem.c` keep that page off the free list, and count
the entries that map it.  But `wait`, `exec` and `sbrk` unmap and free user pages without asking whose they are, so a
region that a process has not detached before is freed under the others' feet.
-/

namespace Xv6.Vm

open Finset Hoare Memory Ledger Runs

variable {L : Layout} {s t : State L} {g g' : Ledger} {k : Kmem L} {p q : Fin NPROC}
  {i : Fin NSHMEM} {r : Shmregion} {ret : Int} {x v w : Nat}

/-! ## Every run -/

/-- How many entries of the page tables of live processes map page `x`. -/
def mappings (s : State L) (x : Nat) : Nat :=
  ∑ p : Fin NPROC, if (s.proc p).state = .unused then 0
    else mapsTo (leaf s.kmem.mem 2 (s.proc p).pagetable) x

structure RegionsSound (s : State L) : Prop where
  not_free : ∀ i, (s.shmtable i).key ≠ 0 → (s.shmtable i).kpage ∉ s.kmem.freelist
  refcount : ∀ i, (s.shmtable i).key ≠ 0 → (s.shmtable i).refcount = mappings s (s.shmtable i).kpage

/-- From boot on, whatever the processes do, the regions are sound. -/
def RegionLifetime (step : State L → Act × Int → State L → Prop) : Prop :=
  ∀ s, Booted s → ∀ tr t, Run step s tr t → RegionsSound t

/-- Whether page `v` of the process belongs to a region that exists. -/
def MapsRegion (s : State L) (p : Fin NPROC) (v : Nat) : Prop :=
  ∃ i, (s.shmtable i).key ≠ 0 ∧ Hits (leaf s.kmem.mem 2 (s.proc p).pagetable v) (s.shmtable i).kpage

/-- No process is reaped or replaces its image while it has a region attached, and `sbrk` does not
cut one off. -/
def SparesRegions (s : State L) (ev : Act × Int) : Prop :=
  match ev.1.call with
  | .wait _ => ev.2 ≠ -1 → ∀ pp, zombieChild s ev.1.proc = some pp →
      ∀ v < NENTRIES, ¬ MapsRegion s pp v
  | .exec _ _ _ => ev.2 ≠ -1 → ∀ v < NENTRIES, ¬ MapsRegion s ev.1.proc v
  | .sbrk n _ => n < 0 → ∀ v, PGROUNDUP (uint64 ((s.proc ev.1.proc).sz + n)) / PGSIZE ≤ v →
      v < PGROUNDUP (s.proc ev.1.proc).sz / PGSIZE → ¬ MapsRegion s ev.1.proc v
  | _ => True

theorem Books.mapsRegion (h : Books s g) (hp : (s.proc p).state ≠ .unused) (hv : v < NENTRIES)
    (hx : s.view.IsRegion x) (hs : g.sees (s.proc p).pagetable v x) : MapsRegion s p v := by
  obtain ⟨i, hi⟩ := hx
  obtain ⟨hkey, hkpage⟩ := Shmregion.of_entry hi
  have hhit := (h.holds.sees _ (h.top hp).mem v hv x (h.accounts.shared_region hi)).mpr hs
  exact ⟨i, hkey, hkpage ▸ hhit⟩

theorem Books.step {a : Act} (h : Books s g) (hgood : SparesRegions s (a, ret))
    (hstep : Step s (a, ret) t) : ∃ g', Books t g' := by
  obtain ⟨hp, hrun⟩ := hstep.ran
  obtain ⟨p, call⟩ := a
  cases call with
  | shmget => exact ((shmemGet_rule (E := Any) p h).ok rfl hrun).2
  | shmat => exact ((shmemAt_rule h hp).ok rfl hrun).2
  | shmdt => exact ((shmemDt_rule (E := Any) h hp).ok rfl hrun).2
  | fork => exact kfork_books h hp hrun
  | exec =>
    exact sysExecCall_books h hp (fun hne v hv x hx hs => hgood hne v hv (h.mapsRegion hp hv hx hs)) hrun
  | sbrk =>
    refine (sysSbrk_rule h hp fun hn v hlo hhi x hx hs => ?_).ok rfl hrun
    exact hgood hn v hlo hhi (h.mapsRegion hp (lt_NENTRIES_of_sz (h.sz _) hhi) hx hs)
  | exit => exact ⟨_, (kexit_rule h hp).ok rfl hrun⟩
  | wait =>
    refine kwait_books h hp (fun pp hpp hne v hv x hx hs => ?_) hrun
    exact hgood hne pp hpp v hv (h.mapsRegion (zombieChild_live hpp) hv hx hs)
  | fault => exact ⟨_, (pageFault_rule h hp).ok rfl hrun⟩
  | store => exact ⟨_, (userStore_rule h hp).ok rfl hrun⟩

theorem Books.tables_eq (h : Books s g) : g.tables = (univ.filter fun p => (s.proc p).state ≠ .unused).image fun p =>
      (s.proc p).pagetable := by
  ext r
  rw [h.accounts.tables, mem_image]
  constructor
  · rintro ⟨p, f, hp⟩
    by_cases hun : (s.proc p).state = .unused
    · have hnone : s.view.space p = none := if_pos hun
      rw [hnone] at hp
      cases hp
    · rw [view_space hun] at hp
      cases hp
      exact ⟨p, mem_filter.mpr ⟨mem_univ p, hun⟩, rfl⟩
  · rintro ⟨p, hp, heq⟩
    exact ⟨p, _, heq ▸ view_space (mem_filter.mp hp).2⟩

theorem Books.count_eq_mappings (h : Books s g) (hi : s.view.region i = some x) : g.count x = mappings s x := by
  have hshared := h.accounts.shared_region hi
  -- In each table, the marks of the ledger are the entries that map the page.
  have hrow : ∀ r ∈ g.tables, ∑ v ∈ range NENTRIES, g.mark r v x = mapsTo (leaf s.kmem.mem 2 r) x := by
    intro r hr
    apply sum_congr rfl
    intro v hv
    have hsees := h.holds.sees r hr v (mem_range.mp hv) x hshared
    by_cases hs : g.sees r v x
    · rw [mark_of_sees hs, if_pos (hsees.mpr hs)]
    · rw [mark_of_not hs, if_neg fun hhit => hs (hsees.mp hhit)]
  have hinj : Set.InjOn (fun p => (s.proc p).pagetable)
      (univ.filter fun p => (s.proc p).state ≠ .unused : Finset (Fin NPROC)) := by
    intro p hp q hq heq
    have hp' := view_space (mem_filter.mp (mem_coe.mp hp)).2
    have hq' := view_space (mem_filter.mp (mem_coe.mp hq)).2
    dsimp only at heq
    rw [heq] at hp'
    exact h.accounts.table_inj hp' hq'
  unfold Ledger.count mappings
  rw [sum_congr rfl hrow, h.tables_eq, sum_image hinj, sum_filter]
  apply sum_congr rfl
  intro p _
  by_cases hun : (s.proc p).state = .unused
  · rw [if_neg (not_not.mpr hun), if_pos hun]
  · rw [if_pos hun, if_neg hun]

theorem Books.regionsSound (h : Books s g) : RegionsSound s := by
  refine ⟨fun i hi hfree => ?_, fun i hi => ?_⟩
  · have hzero := (h.holds.shared _ (h.accounts.shared_region (view_region hi))).1
    exact List.count_eq_zero.mp hzero hfree
  · rw [h.refs i hi, h.count_eq_mappings (view_region hi)]

theorem books_of_reachable (h : Reachable Booted (restrict SparesRegions Step) s) : ∃ g, Books s g := by
  refine Reachable.invariant (P := fun s => ∃ g, Books s g) (fun s hs => booted_books hs) ?_ h
  intro s ev t hbooks hstep
  obtain ⟨g, hg⟩ := hbooks
  exact hg.step hstep.1 hstep.2

theorem regionLifetime_of_sparesRegions (L : Layout) : RegionLifetime (restrict SparesRegions (Step (L := L))) := by
  intro s hs tr t hrun
  obtain ⟨g, h⟩ := books_of_reachable ⟨s, tr, hs, hrun⟩
  exact h.regionsSound

/-! ## A region that is freed while it exists -/

theorem booted_of_userinit {n : Nat} (hn : n ≤ (PHYSTOP - PGROUNDUP L.kend) / PGSIZE)
    (hlist : k.freelist = pagesFrom (PGROUNDUP L.kend) n)
    (huser : userinit (State.start k) = .ok ((), s)) : Booted s := by
  obtain ⟨k₀, hinit, hlist₀⟩ := kinit_run L k.mem
  refine ⟨k.mem, k₀, k, hinit, ⟨(PHYSTOP - PGROUNDUP L.kend) / PGSIZE - n, ?_⟩, huser⟩
  rw [hlist₀, hlist]
  symm
  have hsplit := pagesFrom_drop (PGROUNDUP L.kend) n ((PHYSTOP - PGROUNDUP L.kend) / PGSIZE - n)
  rw [Nat.add_sub_of_le hn] at hsplit
  exact hsplit

/-- The first process makes a region, attaches it and gives the page back with `sbrk(-4096)`. -/
def attachAndShrink : List Act := [⟨0, .shmget 1 4096⟩, ⟨0, .shmat 0⟩, ⟨0, .sbrk (-4096) SBRK_EAGER⟩]

def freedRegion (s : State smallKernel) : Bool := (s.shmtable 0).key ≠ 0 ∧ (s.shmtable 0).kpage ∈ s.kmem.freelist

theorem attachAndShrink_frees : (match userinit (State.start eightPages) with
      | .ok (_, s) => (execs exec s attachAndShrink).any fun r => freedRegion r.1
      | .error _ => false) = true := by
  decide +kernel

theorem regionLifetime_broken_by_shrink : ¬ RegionLifetime (Step (L := smallKernel)) := by
  intro hclaim
  have hrun := attachAndShrink_frees
  split at hrun
  · next s huser =>
    have hboot : Booted s := booted_of_userinit (n := 8) (by decide) (by decide) huser
    rw [Option.any_eq_true] at hrun
    obtain ⟨r, hexecs, hfreed⟩ := hrun
    have hsound := hclaim s hboot r.2 r.1 (Run.of_execs hexecs)
    unfold freedRegion at hfreed
    rw [decide_eq_true_eq] at hfreed
    exact hsound.not_free 0 hfreed.1 hfreed.2
  · cases hrun

/-- The entry for page number `v` in the page table of process `p` leads to page `x`. -/
def State.Maps (s : State L) (p : Fin NPROC) (v x : Nat) : Prop :=
  (s.proc p).state ≠ .unused ∧ v < NENTRIES ∧ Hits (leaf s.kmem.mem 2 (s.proc p).pagetable v) x

/-- After any run, a page that a process maps is neither free nor part of a page table, and unless it is the
trampoline or belongs to a region it is mapped nowhere else. -/
def Isolation (step : State L → Act × Int → State L → Prop) : Prop :=
  ∀ s, Booted s → ∀ tr t, Run step s tr t → ∀ p v x, t.Maps p v x →
    x ∉ t.kmem.freelist ∧
    (∀ q, (t.proc q).state ≠ .unused → pages t.kmem.mem 2 (t.proc q).pagetable x = 0) ∧
    ∀ q w, t.Maps q w x → (q = p ∧ w = v) ∨ x = L.trampoline ∨ ∃ i, (t.shmtable i).key ≠ 0 ∧ (t.shmtable i).kpage = x

section

variable (h : Books s g) (hp : s.Maps p v x) (hq : s.Maps q w x)

include h hp hq

theorem Books.alone_of_shared (hx : g.shared x) : (q = p ∧ w = v) ∨ x = L.trampoline ∨ s.view.IsRegion x := by
  have hallowed : ∀ {p v}, s.Maps p v x → Allowed L s.view (s.proc p).trapframe v x := fun ⟨hlive, hv, hhit⟩ =>
    h.accounts.only (view_space hlive) _ x hx ((h.holds.sees _ (h.top hlive).mem _ hv x hx).mp hhit)
  rcases hallowed hp with ⟨-, htramp⟩ | ⟨hv, hframe⟩ | hregion
  · exact .inr (.inl htramp)
  · rcases hallowed hq with ⟨-, htramp⟩ | ⟨hw, hframe'⟩ | hregion
    · exact .inr (.inl htramp)
    · -- Each process has its own trapframe, at one place.
      left
      refine ⟨?_, hw.trans hv.symm⟩
      have hspace := view_space hq.1
      rw [← hframe', hframe] at hspace
      exact h.accounts.frame_inj hspace (view_space hp.1)
    · exact .inr (.inr hregion)
  · exact .inr (.inr hregion)

theorem Books.alone_of_not_shared (hx : ¬ g.shared x) : q = p ∧ w = v := by
  by_cases hqp : q = p
  · subst hqp
    refine ⟨rfl, ?_⟩
    by_contra hwv
    have htwo := Sums.two_terms_le_sum (f := fun v => if Hits (leaf s.kmem.mem 2 (s.proc q).pagetable v) x then 1 else 0)
      (mem_range.mpr hq.2.1) (mem_range.mpr hp.2.1) hwv
    have hone := h.holds.uses_le (h.top hp.1).mem hx
    simp only [if_pos hp.2.2, if_pos hq.2.2] at htwo
    unfold uses mapsTo at hone
    omega
  have hne : (s.proc p).pagetable ≠ (s.proc q).pagetable := by
    intro heq
    have hspace := view_space hq.1
    rw [← heq] at hspace
    exact hqp (h.accounts.table_inj hspace (view_space hp.1))
  have htwo := h.holds.uses_two_le (h.top hp.1).mem (h.top hq.1).mem hne hx
  have hmine := mapsTo_pos hp.2.1 hp.2.2
  have htheirs := mapsTo_pos hq.2.1 hq.2.2
  unfold uses at htwo
  omega

end

theorem isolation_of_sparesRegions (L : Layout) : Isolation (restrict SparesRegions (Step (L := L))) := by
  intro s hs tr t hrun p v x hp
  obtain ⟨g, h⟩ := books_of_reachable ⟨s, tr, hs, hrun⟩
  refine ⟨?_, fun q hq => h.holds.target_not_page (h.top hp.1).mem (h.top hq).mem hp.2.1 hp.2.2, fun q w hq => ?_⟩
  · have hfree : t.kmem.free x = 0 := by
      by_cases hx : g.shared x
      · exact (h.holds.shared x hx).1
      have hone := h.holds.uses_le (h.top hp.1).mem hx
      have hmine := mapsTo_pos hp.2.1 hp.2.2
      unfold uses at hone
      omega
    exact List.count_eq_zero.mp hfree
  by_cases hx : g.shared x
  · refine (h.alone_of_shared hp hq hx).imp_right (Or.imp_right ?_)
    rintro ⟨i, hi⟩
    exact ⟨i, Shmregion.of_entry hi⟩
  · exact .inl (h.alone_of_not_shared hp hq hx)

end Xv6.Vm
