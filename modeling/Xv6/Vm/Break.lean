import Xv6.Vm.Growth

/-!
# Below the break

A page table maps the user memory of its process, which ends at `p->sz`, and the two pages at the top.
`proc_freepagetable` counts on it: it unmaps the two pages and `sz` bytes, and `freewalk` panics on an
entry that is left.  Here are the places from which `freeproc` and `kexec` call it, and what the memory
is like there.
-/

namespace Xv6.Vm

open Finset Hoare Memory Ledger Runs PageMap

variable {L : Layout} {s t : State L} {g : Ledger} {k k' k₀ k₁ : Kmem L} {p np : Fin NPROC}
  {r r' tf sz v w x c : Nat}

/-! ## The calls of `proc_freepagetable` -/

/-- What `freeproc` does before it comes to the page table. -/
def freeTrapframe (q : Proc) : Kernel L Unit :=
  if q.trapframe ≠ 0 then kfree q.trapframe else pure ()

/-- `freeproc` comes to `proc_freepagetable(pagetable, sz)`, in memory `k'`. -/
structure FromFreeproc (q : Proc) (k k' : Kmem L) (pagetable sz : Nat) : Prop where
  trapframe : freeTrapframe q k = .ok ((), k')
  live : q.pagetable ≠ 0
  pagetable : pagetable = q.pagetable
  sz : sz = q.sz

/-- `sys_exec` comes to `kexec`, in memory `k'`, with the program `file`. -/
def ToKexec (q : Proc) (upath uargv : Nat) (namei : List UInt8 → Option (List UInt8)) (k k' : Kmem L)
    (file : List UInt8) (argv : List (List UInt8)) : Prop :=
  ∃ path k₁ pages, copyinstr q.pagetable upath MAXPATH k = .ok (some path, k₁) ∧
    fetchArgs q.space uargv MAXARG 0 [] [] k₁ = .ok (⟨pages, argv, true⟩, k') ∧ namei path = some file

/-- `kexec` fails and comes to `proc_freepagetable(pagetable, sz)` for what it has built. -/
inductive FromBad (p : Space) (trapframe : Nat) (file : List UInt8) (argv : List (List UInt8))
    (k : Kmem L) : Kmem L → Nat → Nat → Prop
  | segments {r sz : Nat} {k₁ k₂ : Kmem L} (htable : procPagetable trapframe k = .ok (r, k₁))
      (hr : r ≠ 0)
      (hload : loadSegments r file (Elfhdr.ofBytes (readi file 0 sizeofElfhdr)).phnum
        ((Elfhdr.ofBytes (readi file 0 sizeofElfhdr)).phoff % 2 ^ 32) 0 k₁ = .ok ((false, sz), k₂)) :
      FromBad p trapframe file argv k k₂ r sz
  | stack {r sz sz' : Nat} {k₁ k₂ k₃ : Kmem L} (htable : procPagetable trapframe k = .ok (r, k₁))
      (hr : r ≠ 0)
      (hload : loadSegments r file (Elfhdr.ofBytes (readi file 0 sizeofElfhdr)).phnum
        ((Elfhdr.ofBytes (readi file 0 sizeofElfhdr)).phoff % 2 ^ 32) 0 k₁ = .ok ((true, sz), k₂))
      (hstack : buildStack p r (PGROUNDUP sz) argv k₂ = .ok ((sz', none), k₃)) :
      FromBad p trapframe file argv k k₃ r sz'

/-- What `kexec` writes to the trapframe before it frees the old image. -/
def commit (trapframe : Nat) (image : Image) : Kernel L Unit := do
  storeWord (trapframe + trapframeA1) image.sp
  storeWord (trapframe + trapframeEpc) image.entry
  storeWord (trapframe + trapframeSp) image.sp

/-- The call of `ev`, made in `t`, comes to `proc_freepagetable(pagetable, sz)`, in memory `k`.  Where
`allocproc` frees a process that has no page table yet, `freeproc` makes no such call. -/
inductive Teardown (t : State L) : Act × Int → Kmem L → Nat → Nat → Prop
  | wait {p pp : Fin NPROC} {addr pagetable sz : Nat} {ret : Int} {k k' : Kmem L}
      (hchild : zombieChild t p = some pp)
      (hcopy : copyStatus (t.proc p) addr (t.proc pp).xstate t.kmem = .ok (ret, k))
      (hret : ¬ ret < 0) (hfrom : FromFreeproc (t.proc pp) k k' pagetable sz) :
      Teardown t (⟨p, .wait addr⟩, (t.proc pp).pid) k' pagetable sz
  | fork {p np : Fin NPROC} {u : State L} {pagetable sz : Nat} {ret : Int} {k k' : Kmem L}
      (halloc : allocproc t = .ok (some np, u))
      (hcopy : uvmcopy (u.proc p).pagetable (u.proc np).pagetable (u.proc p).sz u.kmem = .ok (ret, k))
      (hret : ret < 0) (hfrom : FromFreeproc (u.proc np) k k' pagetable sz) :
      Teardown t (⟨p, .fork⟩, -1) k' pagetable sz
  | bad {p : Fin NPROC} {upath uargv pagetable sz : Nat} {namei : List UInt8 → Option (List UInt8)}
      {file : List UInt8} {argv : List (List UInt8)} {k k' : Kmem L}
      (hexec : ToKexec (t.proc p) upath uargv namei t.kmem k file argv)
      (hfrom : FromBad (t.proc p).space (t.proc p).trapframe file argv k k' pagetable sz) :
      Teardown t (⟨p, .exec upath uargv namei⟩, -1) k' pagetable sz
  | commit {p : Fin NPROC} {upath uargv : Nat} {namei : List UInt8 → Option (List UInt8)}
      {file : List UInt8} {argv : List (List UInt8)} {image : Image} {k k₁ k₂ : Kmem L}
      (hexec : ToKexec (t.proc p) upath uargv namei t.kmem k file argv)
      (himage : buildImage (t.proc p).space (t.proc p).trapframe file argv k = .ok (some image, k₁))
      (hcommit : commit (t.proc p).trapframe image k₁ = .ok ((), k₂)) :
      Teardown t (⟨p, .exec upath uargv namei⟩, image.argc) k₂ (t.proc p).pagetable (t.proc p).sz

/-- `proc_freepagetable` returns, and it has freed each page of the table once. -/
def FreesOnce (k : Kmem L) (pagetable sz : Nat) : Prop :=
  ∃ k', procFreepagetable pagetable sz k = .ok ((), k') ∧
    ∀ x, 0 < pages k.mem 2 pagetable x → k.free x = 0 ∧ k'.free x = 1

theorem Disposable.freesOnce (h : Disposable k r sz) (hfree : ∀ x, 0 < pages k.mem 2 r x → k.free x = 0) :
    FreesOnce k r sz := by
  obtain ⟨k', hrun, hg⟩ := h.procFreepagetable
  refine ⟨k', hrun, fun x hx => ⟨hfree x hx, ?_⟩⟩
  have husers : users (lookup k r) x = 0 := by
    apply users_eq_zero
    intro v hv hpoints
    obtain ⟨f, hlook⟩ := hpoints.eq
    have hzero := (h.tidy.target hv hlook).2
    omega
  have honce := h.tidy.once x
  have hzero := hfree x hx
  rw [hg.free, estate, husers]
  omega

theorem Plain.freesOnce (h : Plain L g r tf sz) (hk : Holds g k) : FreesOnce k r sz := by
  refine (h.disposable hk).freesOnce fun x hx => ?_
  have honce := (hk.apart h.top.mem).once x
  omega

/-! ## At each call -/

theorem FromFreeproc.kfree {q : Proc} (h : FromFreeproc q k k' r sz) (hq : q.trapframe ≠ 0) :
    kfree q.trapframe k = .ok ((), k') := by
  have hrun := h.trapframe
  unfold freeTrapframe at hrun
  rw [if_pos hq] at hrun
  exact hrun

theorem Books.freeproc_freesOnce (h : Books s g) (hp : (s.proc p).state ≠ .unused) (hspares : SparesAll s g p)
    (hfrom : FromFreeproc (s.proc p) s.kmem k' r sz) : FreesOnce k' r sz := by
  have hframes := h.frames hp
  have hrun := hfrom.kfree hframes.isPage.ne_zero
  obtain ⟨hsame, hdisp⟩ := (h.plain hp hspares).kfree_trapframe h.holds hrun
  rw [hfrom.pagetable, hfrom.sz]
  refine hdisp.freesOnce fun x hx => ?_
  -- The trapframe is free now, but it is no page of the table.
  rw [pages_congr hsame] at hx
  have hmem := (h.top hp).mem
  have hne : x ≠ (s.proc p).trapframe := by
    rintro rfl
    have hzero := (h.holds.shared _ hframes.trapframe).2 _ hmem
    omega
  have honce := (h.holds.apart hmem).once x
  rw [free_of_freelist (kfree_ok hrun).2.1, if_neg hne]
  omega

theorem fork_freesOnce {u : State L} {ret : Int} (h : Books t g) (hp : (t.proc p).state ≠ .unused)
    (halloc : allocproc t = .ok (some np, u))
    (hcopy : uvmcopy (u.proc p).pagetable (u.proc np).pagetable (u.proc p).sz u.kmem = .ok (ret, k))
    (hret : ret < 0) (hfrom : FromFreeproc (u.proc np) k k' r sz) : FreesOnce k' r sz := by
  have hready := h.forkable hp
  obtain ⟨_, u', halloc', hcases⟩ := allocproc_newborn hready.free hready.unused
  rw [halloc] at halloc'
  cases halloc'
  obtain ⟨np', kb, tf, root, ⟨⟩, hu⟩ := hcases.resolve_left fun hnone => by cases hnone.1
  have hne : p ≠ np := by
    rintro rfl
    exact hp hu.slot
  obtain ⟨ret', k₁, hcopy', hcases⟩ := uvmcopy_copies ((hready.space p hp).taken hu.taken).1 hready.top hu.space
  have htable : (u.proc np).pagetable = root := by rw [hu.proc]
  have htf : (u.proc np).trapframe = tf := by rw [hu.proc]
  have hsz : (u.proc np).sz = 0 := by rw [hu.proc]; rfl
  rw [hu.others p hne, htable, hcopy'] at hcopy
  cases hcopy
  obtain ⟨-, hk⟩ := hcases.resolve_left fun hok => by
    rw [hok.1] at hret
    cases hret
  obtain ⟨k₂, hfree, hmade, hentries⟩ := hk.1.kfree_trapframe hu.taken hready.free
  have hfree' := hfrom.kfree (by rw [htf]; exact hu.taken.isPage.ne_zero)
  rw [htf, hfree] at hfree'
  cases hfree'
  rw [hfrom.pagetable, hfrom.sz, htable, hsz]
  refine (hmade.disposable (Nat.zero_le TRAPFRAME) fun v _ hv => ?_).freesOnce fun x hx => ?_
  · rw [hentries]
    exact hk.2 v hv
  · have honce := hmade.owns.apart.once x
    omega

variable {argv : List (List UInt8)} {file : List UInt8}

theorem Books.toKexec {upath uargv : Nat} {namei : List UInt8 → Option (List UInt8)}
    (h : Books t g) (hp : (t.proc p).state ≠ .unused)
    (hexec : ToKexec (t.proc p) upath uargv namei t.kmem k file argv) :
    ∃ cs, FreshAll L g cs ∧ Holds (g.holdAll cs) k := by
  obtain ⟨path, k₁, pages, hpath, hargs, -⟩ := hexec
  have hmem := (h.top hp).mem
  have hk₁ := ((copyinstr_rule hmem).ok h.holds hpath).2
  have hstart : FreshAll L g [] := ⟨fun c hc => absurd hc List.not_mem_nil, List.nodup_nil⟩
  exact ⟨pages, (fetchArgs_rule hmem (h.hasRoom hp) hstart).ok hk₁.holdAll_nil hargs⟩

theorem FromBad.freesOnce {p : Space} (hfrom : FromBad p tf file argv k k' r sz) (h : Holds g k) (hpaged : g.Paged L)
    (hf : Frames L g tf) (hp : p.pagetable ∈ g.tables) (hroom : HasRoom g p) : FreesOnce k' r sz := by
  -- The table is new, and the segments have been loaded up to some size.
  have hloaded : ∀ {r n off sz : Nat} {b : Bool} {k₁ k₂ : Kmem L},
      procPagetable tf k = .ok (r, k₁) → r ≠ 0 → loadSegments r file n off 0 k₁ = .ok ((b, sz), k₂) →
      r ∉ g.tables ∧ sz ≤ TRAPFRAME ∧ Holds ((g.space L r tf).sized r sz) k₂ := by
    intro r n off sz b k₁ k₂ htable hr hload
    obtain ⟨hnew, hk₁⟩ := ((procPagetable_rule (E := Any) hf).ok h htable).resolve_left fun hnull => hr hnull.1
    have hshared : (g.space L r tf).shared tf := hf.trapframe
    exact ⟨hnew.2, (loadSegments_rule hshared (g.space_top L r tf) (Nat.zero_le _)).ok hk₁ hload⟩
  cases hfrom with
  | segments htable hr hload =>
    obtain ⟨-, hsz, hk⟩ := hloaded htable hr hload
    exact (Plain.space hpaged hf hsz).freesOnce hk
  | stack htable hr hload hstack =>
    obtain ⟨hnew, hsz, hk⟩ := hloaded htable hr hload
    have hne : p.pagetable ≠ r := fun heq => hnew (heq ▸ hp)
    have hp' : p.pagetable ∈ (g.space L r tf).tables := mem_insert_of_mem hp
    have hshared : (g.space L r tf).shared tf := hf.trapframe
    obtain ⟨hsz', hk₃⟩ := (buildStack_rule hshared (g.space_top L r tf) hp'
      (hroom.space hne tf) hne (PGROUNDUP_le_TRAPFRAME hsz)).ok (hk.roundedUp hsz) hstack
    exact (Plain.space hpaged hf hsz').freesOnce hk₃

theorem commit_freesOnce {p : Space} {image : Image}
    {k₂ : Kmem L} (h : Holds g k) (hpaged : g.Paged L) (hf : Frames L g tf)
    (ht : Top L g p.pagetable tf) (hsz : p.sz ≤ TRAPFRAME)
    (hroom : ∀ v, g.room p.pagetable v ↔ UserRoom p.sz v) (hnone : NoneShared g p)
    (himage : buildImage p tf file argv k = .ok (some image, k₁))
    (hcommit : commit tf image k₁ = .ok ((), k₂)) : FreesOnce k₂ p.pagetable p.sz := by
  obtain ⟨⟨hnew, -⟩, hk₁⟩ := (buildImage_rule hpaged hf ht.mem fun v hv => (hroom v).mpr (.inl hv)).ok h himage
  have hk₂ := Triple.ok ((hf.storeWord (by decide)).bind fun _ =>
    (hf.storeWord (by decide)).bind fun _ => hf.storeWord (by decide)) hk₁ hcommit
  exact ((hnone.plain hpaged hf ht hroom hsz).beside hnew tf image.sz).freesOnce hk₂

/-! ## Every run -/

/-- The valid entries of a live process are for its memory, the trapframe or the trampoline. -/
def BelowBreak (t : State L) : Prop :=
  ∀ p, (t.proc p).state ≠ .unused → ∀ v < NENTRIES, Valid (leaf t.kmem.mem 2 (t.proc p).pagetable v) →
    v * PGSIZE < PGROUNDUP (t.proc p).sz ∨ v * PGSIZE = TRAPFRAME ∨ v * PGSIZE = TRAMPOLINE

/-- After any run of `good` steps the memory of each process ends at its break, and every further call
that is `good` there gives up address spaces as it should. -/
def TeardownSafe (good : State L → Act × Int → Prop) : Prop :=
  ∀ s, Booted s → ∀ tr t, Run (restrict good Step) s tr t →
    BelowBreak t ∧
      ∀ ev k pagetable sz, (t.proc ev.1.proc).state = .runnable → good t ev →
        Teardown t ev k pagetable sz → FreesOnce k pagetable sz

theorem Books.belowBreak (h : Books t g) : BelowBreak t := by
  intro p hp v hv hvalid
  have hroom := (h.room p hp v).mp (h.holds.room _ (h.top hp).mem v hv hvalid)
  have hmax : (t.proc p).sz ≤ MAXVA := Nat.le_trans (h.sz p) (by decide)
  rw [PGROUNDUP_eq hmax]
  rcases hroom with huser | htop | htop
  · exact .inl (Nat.mul_lt_mul_of_pos_right huser (by decide))
  · rw [htop]
    exact .inr (.inr (by decide))
  · rw [htop]
    exact .inr (.inl (by decide))

theorem Books.teardown {ev : Act × Int} (h : Books t g)
    (hp : (t.proc ev.1.proc).state ≠ .unused) (hgood : SparesRegions t ev)
    (hteardown : Teardown t ev k r sz) : FreesOnce k r sz := by
  cases hteardown with
  | @wait p pp addr _ _ ret k₁ _ hchild hcopy hret hfrom =>
    have hpp := zombieChild_live hchild
    have hk := (copyStatus_rule (h.top hp).mem (h.hasRoom hp)).ok h.holds hcopy
    have hne : ((t.proc pp).pid : Int) ≠ -1 := by omega
    refine (h.setKmem hk).freeproc_freesOnce hpp (fun v hv x hx hs => ?_) hfrom
    exact hgood hne pp hchild v hv (h.mapsRegion hpp hv hx hs)
  | fork halloc hcopy hret hfrom => exact fork_freesOnce h hp halloc hcopy hret hfrom
  | bad hexec hfrom =>
    obtain ⟨cs, hcs, hk⟩ := h.toKexec hp hexec
    exact hfrom.freesOnce hk h.paged (h.frames hp).holdAll (h.top hp).mem (h.hasRoom hp)
  | @commit p _ _ _ _ _ image _ _ _ hexec himage hcommit =>
    obtain ⟨cs, hcs, hk⟩ := h.toKexec hp hexec
    have hne : (image.argc : Int) ≠ -1 := by omega
    have hspares : SparesAll t g p := fun v hv x hx hs => hgood hne v hv (h.mapsRegion hp hv hx hs)
    exact commit_freesOnce (p := (t.proc p).space) hk h.paged (h.frames hp).holdAll
      ((h.top hp).holdAll (h.frames hp) hcs) (h.sz p) (h.room p hp)
      (hspares.noneShared h hp).holdAll himage hcommit

theorem teardownSafe_of_sparesRegions (L : Layout) : TeardownSafe (SparesRegions (L := L)) := by
  intro s hs tr t hrun
  obtain ⟨g, h⟩ := books_of_reachable ⟨s, tr, hs, hrun⟩
  refine ⟨h.belowBreak, fun ev k pagetable sz hrunnable hgood hteardown => ?_⟩
  refine h.teardown ?_ hgood hteardown
  rw [hrunnable]
  decide

/-! ## A region as a page table -/

/-- The first process frees a region with `sbrk` and attaches it once more.  Its child gets the page as
the root of its page table, and the first process marks the first entry as a leaf. -/
def recycleRegion : List Act :=
  [⟨0, .sbrk 4096 0⟩, ⟨0, .shmget 1 4096⟩, ⟨0, .shmat 0⟩, ⟨0, .sbrk 4096 SBRK_EAGER⟩,
    ⟨0, .sbrk (-8192) SBRK_EAGER⟩, ⟨0, .shmat 0⟩, ⟨0, .fork⟩, ⟨0, .store 4096 3⟩, ⟨1, .exit 0⟩]

/-- The first process can wait for the second, and `freewalk` panics then. -/
def leafPanics (s : State smallKernel) : Bool :=
  (s.proc 0).state = .runnable && zombieChild s 0 = some 1 && (s.proc 1).pagetable ≠ 0 &&
    match freeTrapframe (s.proc 1) s.kmem with
    | .error _ => false
    | .ok (_, k) =>
      match procFreepagetable (s.proc 1).pagetable (s.proc 1).sz k with
      | .error e => e = .freewalkLeaf
      | .ok _ => false

theorem recycleRegion_panics : (match userinit (State.start sixteenPages) with
      | .ok (_, s) => (execs (guarded (fun _ _ => True) exec) s recycleRegion).any
          fun r => leafPanics r.1
      | .error _ => false) = true := by
  decide +kernel

theorem teardownSafe_broken_by_recycling : ¬ TeardownSafe (L := smallKernel) (fun _ _ => True) := by
  intro hclaim
  have hrun := recycleRegion_panics
  split at hrun
  · next s huser =>
    have hboot : Booted s := booted_of_userinit (n := 16) (by decide) (by decide) huser
    obtain ⟨t, tr, hrun, hcheck⟩ := Run.of_any_execs hrun
    unfold leafPanics at hcheck
    simp only [Bool.and_eq_true, decide_eq_true_eq] at hcheck
    obtain ⟨⟨⟨hrunnable, hchild⟩, htable⟩, hpanics⟩ := hcheck
    split at hpanics
    · cases hpanics
    next k hfree =>
    have hcopy : copyStatus (t.proc 0) 0 (t.proc 1).xstate t.kmem = .ok (0, t.kmem) := rfl
    obtain ⟨k', hok, -⟩ := (hclaim s hboot tr t hrun).2 _ k _ _ hrunnable trivial
      (.wait hchild hcopy (by decide) ⟨hfree, htable, rfl, rfl⟩)
    rw [hok] at hpanics
    cases hpanics
  · cases hrun

end Xv6.Vm
