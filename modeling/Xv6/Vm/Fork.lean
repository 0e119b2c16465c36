import Xv6.Vm.Sbrk

/-!
# What `fork` copies

The child gets a page of its own for every page of the parent below `p->sz`, whatever the parent maps there: holes stay
holes, the guard page stays one, and a region is copied like any other page.
-/

namespace Xv6.Vm

open Hoare Memory PageMap Runs

variable {L : Layout} {s s' : State L} {p np : Fin NPROC}

/-- Process `np` is a copy of process `p`. -/
structure Forked (s s' : State L) (p np : Fin NPROC) : Prop where
  slot : (s.proc np).state = .unused
  state : (s'.proc np).state = .runnable
  pid : (s'.proc np).pid = s.nextpid
  parent : (s'.proc np).parent = some p
  sz : (s'.proc np).sz = (s.proc p).sz
  name : (s'.proc np).name = (s.proc p).name
  others : ∀ q ≠ np, s'.proc q = s.proc q
  shmtable : s'.shmtable = s.shmtable
  /-- The tables of the other processes, their user pages and their trapframes are among these. -/
  unchanged : ∀ y, y % PGSIZE = 0 → s.kmem.free y = 0 → Agree s.kmem.mem s'.kmem.mem y PGSIZE
  tables : ∀ q, (s.proc q).state ≠ .unused → lookup s'.kmem (s.proc q).pagetable = lookup s.kmem (s.proc q).pagetable
  owns : Owns s'.kmem (s'.proc np).pagetable
  hole : ∀ v < pagesOf (s.proc p).sz, lookup s.kmem (s.proc p).pagetable v = none →
    lookup s'.kmem (s'.proc np).pagetable v = none
  copy : ∀ v < pagesOf (s.proc p).sz, ∀ pa f, lookup s.kmem (s.proc p).pagetable v = some (pa, f) →
    ∃ c, lookup s'.kmem (s'.proc np).pagetable v = some (c, f) ∧ s.kmem.free c = 1 ∧
      c ≠ (s'.proc np).trapframe ∧
      (∀ off < PGSIZE, s'.kmem.mem (c + off) = s.kmem.mem (pa + off)) ∧
      ∀ q ≠ np, (s'.proc q).state ≠ .unused → ∀ w < pagesOf (s'.proc q).sz, ∀ f',
        lookup s'.kmem (s'.proc q).pagetable w ≠ some (c, f')

theorem Child.forked {kb k : Kmem L} {tf r : Nat} (h : Child s s' p np kb k tf r) (hp : Forkable s p) :
    Forked s s' p np := by
  have hk := h.copied
  have htaken := h.taken.free tf
  have hlim := hp.free tf
  rw [if_pos rfl] at htaken
  -- The trapframe is not a page that the table of the child accounts for.
  have hzero : estate k r tf = 0 := by
    rw [hk.count]
    omega
  have hpage : ∀ {w c f}, w < trapframeNo → lookup k r w = some (c, f) → c ≠ tf := by
    rintro w c f hw hlook rfl
    have hpos := users_pos hw hlook
    unfold estate at hzero
    omega
  have hsame : SameTable k.mem s'.kmem.mem 2 r := by
    intro y hy
    apply h.frame y (hk.owns.wf.isPage_of_pages hy).1
    rintro rfl
    unfold estate at hzero
    omega
  have hentries : lookup s'.kmem r = lookup k r := lookup_congr hk.owns.wf hsame
  have hfree : ∀ x, s'.kmem.free x = k.free x := by
    intro x
    unfold Kmem.free
    rw [h.freelist]
  obtain ⟨hspace, hbefore⟩ := (hp.space p hp.live).taken h.taken
  have hunchanged : ∀ y, y % PGSIZE = 0 → s.kmem.free y = 0 → Agree s.kmem.mem s'.kmem.mem y PGSIZE := by
    intro y hy hy₀
    have hfreed := h.taken.free y
    have hne : y ≠ tf := by
      rintro rfl
      omega
    exact ((h.taken.others y hy hne).trans (hk.frame y hy (by omega))).trans (h.frame y hy hne)
  have htables : ∀ q', (s.proc q').state ≠ .unused →
      lookup s'.kmem (s.proc q').pagetable = lookup s.kmem (s.proc q').pagetable := fun q' hlive =>
    lookup_congr (hp.space q' hlive).wf fun y hy =>
      hunchanged y ((hp.space q' hlive).wf.isPage_of_pages hy).1 ((hp.space q' hlive).tables y hy)
  have hr : (s'.proc np).pagetable = r := by rw [h.proc]
  refine ⟨h.slot, ?_, ?_, ?_, ?_, ?_, h.others, h.shmtable, hunchanged, htables, ?_, fun v hv hlook => ?_,
    fun v hv pa f hlook => ?_⟩
  · rw [h.proc]
  · rw [h.proc]
  · rw [h.proc]
  · rw [h.proc]
  · rw [h.proc]
  · rw [hr]
    refine ⟨hk.owns.wf.congr hsame, fun x => ?_, fun {w pa f} hw hlook => ?_⟩
    · unfold estate
      rw [hentries, pages_congr hsame, hfree]
      exact hk.owns.once x
    · rw [hentries] at hlook
      exact hk.owns.page hw hlook
  · rw [hr, hentries]
    apply hk.hole v hv
    rw [hbefore]
    exact hlook
  have hnotfree := (hp.space p hp.live).users hv hlook
  rw [← hbefore] at hlook
  obtain ⟨c, hchild, hbytes⟩ := hk.copy v hv pa f hlook
  have hv' : v < trapframeNo := Nat.lt_of_lt_of_le hv hp.top
  have hc := hpage hv' hchild
  have hwas : s.kmem.free c = 1 := by
    have hpos := users_pos hv' hchild
    have hcount := hk.count c
    have hfreed := h.taken.free c
    have hlim := hp.free c
    unfold estate at hcount
    omega
  rw [hr]
  refine ⟨c, ?_, hwas, ?_, fun off hoff => ?_, fun q' hne hlive w hw f' hlook' => ?_⟩
  · rw [hentries]
    exact hchild
  · rw [h.proc]
    exact hc
  · obtain ⟨-, -, hpa⟩ := lookup_some hspace.wf hlook
    have hpane : pa ≠ tf := by
      rintro rfl
      omega
    rw [h.frame c (hk.owns.page hv' hchild).1 hc (c + off) (Nat.le_add_right _ _) (by omega), hbytes off hoff]
    exact h.taken.others pa hpa hpane (pa + off) (Nat.le_add_right _ _) (by omega)
  -- What another process maps was not free.
  rw [h.others q' hne] at hlive hw hlook'
  rw [htables q' hlive] at hlook'
  have hfree' := (hp.space q' hlive).users hw hlook'
  omega

/-- `fork` makes a copy of the parent, or leaves everything as it was. -/
theorem kfork_copies (s : State L) (p : Fin NPROC) (h : Forkable s p) : ∃ ret s', kfork p s = .ok (ret, s') ∧
      ((∃ np, ret = s.nextpid ∧ Forked s s' p np) ∨ ret = -1 ∧ Unchanged s s') := by
  obtain ⟨ret, s', hrun, ⟨np, kb, k, tf, r, hret, hchild⟩ | hfailed⟩ := h.kfork
  · exact ⟨ret, s', hrun, .inl ⟨np, hret, hchild.forked h⟩⟩
  · exact ⟨ret, s', hrun, .inr hfailed⟩

/-- Process 0 is live and has a page, and its `fork` returns 2. -/
def forksPage (s : State smallKernel) : Bool :=
  (s.proc 0).state ≠ .unused && (lookup s.kmem (s.proc 0).pagetable 0).isSome && (kfork 0 s).toOption.any (·.1 = 2)

/-- The first process has grown by a page that is there and by one that is not, and forks. -/
theorem kfork_copies_page : ∃ s s' : State smallKernel, ∃ np pa f, kfork 0 s = .ok (2, s') ∧ Forked s s' 0 np ∧
    lookup s.kmem (s.proc 0).pagetable 0 = some (pa, f) := by
  have hrun : startsEmpty (fun s => (exec s ⟨0, .sbrk 4096 SBRK_EAGER⟩).any fun u =>
      (exec u.1 ⟨0, .sbrk 4096 SBRK_LAZY⟩).any fun u => forksPage u.1) = true := by decide +kernel
  obtain ⟨s₀, hboot, -, hrun⟩ := booted_of_startsEmpty hrun
  obtain ⟨s₁, r₁, hstep₁, hrun⟩ := Exec.of_any hrun
  obtain ⟨s, r, hstep, hrun⟩ := Exec.of_any hrun
  have hgrows : ∀ (u : State smallKernel) t r, SparesRegions u (⟨0, .sbrk 4096 t⟩, r) := fun _ _ _ hn => absurd hn (by decide)
  obtain ⟨g₀, hbooks⟩ := booted_books hboot
  obtain ⟨g₁, hbooks⟩ := hbooks.step (hgrows _ _ _) hstep₁
  obtain ⟨g, hbooks⟩ := hbooks.step (hgrows _ _ _) hstep
  unfold forksPage at hrun
  simp only [Bool.and_eq_true, decide_eq_true_eq] at hrun
  obtain ⟨⟨hlive, hpage⟩, hret⟩ := hrun
  obtain ⟨⟨pa, f⟩, hlook⟩ := Option.isSome_iff_exists.mp hpage
  obtain ⟨ret, s', hfork, hforked⟩ := kfork_copies s 0 (hbooks.forkable hlive)
  rw [hfork] at hret
  obtain rfl : ret = 2 := of_decide_eq_true hret
  obtain ⟨np, -, hnp⟩ := hforked.resolve_right fun hfail => absurd hfail.1 (by decide)
  exact ⟨s, s', np, pa, f, hfork, hnp, hlook⟩

end Xv6.Vm
