import Xv6.Vm.Machine
import Xv6.Vm.Spaces

/-!
# How `fork` makes a process

`allocproc` takes a slot, a page for the trapframe and a page table, and `uvmcopy` copies the user memory.  Memory may
run out at the trapframe, at the page table or at any page of the copy, and then everything that has been taken is put
back.
-/

namespace Xv6.Vm

open Hoare Memory PageMap

variable {L : Layout} {k k' kb : Kmem L} {old new v w x pa f c tf sz : Nat}

/-! ## Copying the pages -/

/-- The rest of a round of `uvmcopy`, for a page that is mapped. -/
def copyPage (old new n v pa f : Nat) : Kernel L Int := do
  let mem ← kalloc
  if mem = 0 then do
    uvmunmap new 0 v true
    pure (-1)
  else do
    memmove mem pa PGSIZE
    let r ← mappages new (v * PGSIZE) PGSIZE mem f
    if r ≠ 0 then do
      kfree mem
      uvmunmap new 0 v true
      pure (-1)
    else uvmcopyLoop old new n ((v + 1) * PGSIZE)

theorem uvmcopyLoop_round {n : Nat} (hwf : WellFormed L k.mem 2 old) (hv : v < NPAGES) :
    uvmcopyLoop old new (n + 1) (v * PGSIZE) k =
      match lookup k old v with
      | none => uvmcopyLoop old new n ((v + 1) * PGSIZE) k
      | some (pa, f) => copyPage old new n v pa f k := by
  have hdiv := mul_PGSIZE_div v
  have hnext : v * PGSIZE + PGSIZE = (v + 1) * PGSIZE := (Nat.succ_mul v PGSIZE).symm
  rw [uvmcopyLoop, bind_of_ok (walk_look_eq (mul_lt_MAXVA hv)), hdiv, lookup_eq hwf hv, hnext]
  cases hslot : slot k.mem 2 old v with
  | none =>
    rw [leaf_of_slot_none hslot, decode_of_not_valid not_valid_zero]
    rfl
  | some a =>
    rw [Option.getD_some, if_neg (slot_ne_zero hwf hslot), ← load_slot hslot]
    show (if ¬ Valid (load k.mem a 8) then uvmcopyLoop old new n ((v + 1) * PGSIZE)
      else copyPage old new n v (PTE2PA (load k.mem a 8)) (PTE_FLAGS (load k.mem a 8)) : Kernel L Int) k = _
    unfold decode
    by_cases hvalid : Valid (load k.mem a 8)
    · rw [if_neg (not_not.mpr hvalid), if_pos hvalid]
    · rw [if_pos hvalid, if_neg hvalid]

/-- Nothing that the parent refers to is free. -/
structure Referenced (k : Kmem L) (old sz : Nat) : Prop where
  wf : WellFormed L k.mem 2 old
  tables : ∀ x, 0 < pages k.mem 2 old x → k.free x = 0
  users : ∀ {v pa f}, v < pagesOf sz → lookup k old v = some (pa, f) → k.free pa = 0

/-- The pages of the parent below `v` have been copied to the child, whose table was made when the memory was `kb`. -/
structure Copied (kb k : Kmem L) (old new v tf : Nat) : Prop extends Made kb k new tf where
  hole : ∀ w < v, lookup kb old w = none → lookup k new w = none
  copy : ∀ w < v, ∀ pa f, lookup kb old w = some (pa, f) →
    ∃ c, lookup k new w = some (c, f) ∧ ∀ off < PGSIZE, k.mem (c + off) = kb.mem (pa + off)
  above : ∀ w, v ≤ w → w < trapframeNo → lookup k new w = none

theorem Copied.parent (h : Copied kb k old new v tf) (hr : Referenced kb old sz) :
    WellFormed L k.mem 2 old ∧ lookup k old = lookup kb old := by
  have hsame : SameTable kb.mem k.mem 2 old := fun y hy => h.frame y (hr.wf.isPage_of_pages hy).1 (hr.tables y hy)
  exact ⟨hr.wf.congr hsame, lookup_congr hr.wf hsame⟩

theorem Copied.skip (h : Copied kb k old new v tf) (hv : v < trapframeNo) (hnone : lookup kb old v = none) :
    Copied kb k old new (v + 1) tf := by
  refine ⟨h.toMade, fun w hw hlook => ?_, fun w hw pa f hlook => ?_, fun w hlo hhi => h.above w (by omega) hhi⟩
  · by_cases heq : w = v
    · rw [heq]
      exact h.above v (Nat.le_refl v) hv
    · exact h.hole w (by omega) hlook
  have hne : w ≠ v := by
    rintro rfl
    rw [hnone] at hlook
    cases hlook
  exact h.copy w (by omega) pa f hlook

theorem Copied.snoc {k₂ k₃ : Kmem L} (h : Copied kb k old new v tf) (hv : v < trapframeNo)
    (hlook : lookup kb old v = some (pa, f)) (hvalid : f ||| PTE_V = f)
    (hbytes : ∀ off < PGSIZE, k₂.mem (c + off) = kb.mem (pa + off)) (hm : Mapped k k₂ k₃ new v c f) :
    Copied kb k₃ old new (v + 1) tf := by
  have hother : ∀ w, w ≠ v → lookup k₃ new w = lookup k new w := by
    intro w hw
    rw [hm.entries, Function.update_of_ne hw]
  refine ⟨h.toMade.step hm.owns hm.conserves fun w hw => hother w (by omega), fun w hw hl => ?_,
    fun w hw pa' f' hl => ?_, fun w hlo hhi => ?_⟩
  · have hne : w ≠ v := by
      rintro rfl
      rw [hlook] at hl
      cases hl
    rw [hother w hne]
    exact h.hole w (by omega) hl
  · by_cases heq : w = v
    · rw [heq, hlook] at hl
      cases hl
      refine ⟨c, ?_, fun off hoff => ?_⟩
      · rw [heq, hm.entries, Function.update_self, hvalid]
      · rw [hm.content (c + off) (Nat.le_add_right _ _) (by omega)]
        exact hbytes off hoff
    obtain ⟨c', hl', hbytes'⟩ := h.copy w (by omega) pa' f' hl
    refine ⟨c', ?_, fun off hoff => ?_⟩
    · rw [hother w heq]
      exact hl'
    · rw [hm.spares (by omega) hl' (c' + off) (Nat.le_add_right _ _) (by omega)]
      exact hbytes' off hoff
  · rw [hother w (by omega)]
    exact h.above w (by omega) hhi

/-- A child whose user pages have been taken away again. -/
def Emptied (kb k : Kmem L) (new tf : Nat) : Prop := Made kb k new tf ∧ ∀ w < trapframeNo, lookup k new w = none

theorem Copied.undo {k₁ : Kmem L} (h : Copied kb k old new v tf) (hv : v ≤ trapframeNo) (hk : Restored k k₁ new) :
    ∃ k', uvmunmap new 0 v true k₁ = .ok ((), k') ∧ Emptied kb k' new tf := by
  obtain ⟨k', hrun, h'⟩ := hk.owns.uvmunmap (v := 0) (n := v) (by omega)
  rw [Nat.zero_mul] at hrun
  rw [Nat.zero_add] at h'
  have hmade : Made kb k₁ new tf := h.toMade.step hk.owns hk.conserves fun w _ => by rw [hk.entries]
  refine ⟨k', hrun, hmade.step h'.owns h'.conserves fun w hw => ?_, fun w hw => ?_⟩
  · rw [h'.entries, if_neg (by omega)]
  rw [h'.entries, hk.entries]
  split
  · rfl
  · next hout => exact h.above w (by omega) hw

theorem kalloc_copy (k : Kmem L) (hpa : pa % PGSIZE = 0) (hfree : k.free pa = 0) : kalloc k = .ok (0, k) ∨
    ∃ c k₁ k₂, kalloc k = .ok (c, k₁) ∧ c ≠ 0 ∧ memmove c pa PGSIZE k₁ = .ok ((), k₂) ∧ Taken k k₂ c ∧
      ∀ off < PGSIZE, k₂.mem (c + off) = k.mem (pa + off) := by
  rcases kalloc_taken k with hnull | ⟨c, k₁, halloc, hc, ht⟩
  · exact .inl hnull
  refine .inr ⟨c, k₁, _, halloc, hc, rfl, ht.write fun y hy hne => ?_, fun off hoff => ?_⟩
  · exact agree_copy (page_disjoint hy ht.isPage.1 hne)
  have hne : pa ≠ c := by
    rintro rfl
    have htaken := ht.free pa
    rw [if_pos rfl] at htaken
    omega
  show copy k₁.mem c pa PGSIZE (c + off) = _
  unfold copy
  rw [if_pos ⟨Nat.le_add_right _ _, by omega⟩, Nat.add_sub_cancel_left]
  exact ht.others pa hpa hne (pa + off) (Nat.le_add_right _ _) (by omega)

theorem lookup_some (hwf : WellFormed L k.mem 2 old) (hlook : lookup k old v = some (pa, f)) :
    f ||| PTE_V = f ∧ f < 2 ^ 10 ∧ pa % PGSIZE = 0 := by
  have hv := lt_of_lookup hlook
  rw [lookup_eq hwf hv, decode] at hlook
  split at hlook
  · next hvalid =>
    cases hlook
    refine ⟨?_, PTE_FLAGS_lt _, PTE2PA_aligned _⟩
    -- Bit 0 is the valid bit, and it is set already.
    have hodd : PTE_FLAGS (leaf k.mem 2 old v) % 2 = 1 := by
      have hbit := valid_iff.mp hvalid
      have hmod : PTE_FLAGS (leaf k.mem 2 old v) = leaf k.mem 2 old v % 2 ^ 10 := Nat.and_two_pow_sub_one_eq_mod _ 10
      rw [hmod]
      omega
    apply Nat.eq_of_testBit_eq
    intro i
    rw [Nat.testBit_or]
    cases i with
    | zero => simp [Nat.testBit_zero, hodd]
    | succ => simp [PTE_V, Nat.testBit_succ]
  · cases hlook

theorem uvmcopyLoop_copies {n : Nat} (hr : Referenced kb old sz) (hn : v + n = pagesOf sz)
    (hsz : pagesOf sz ≤ trapframeNo) (h : Copied kb k old new v tf) :
    ∃ r k', uvmcopyLoop old new n (v * PGSIZE) k = .ok (r, k') ∧
      (r = 0 ∧ Copied kb k' old new (pagesOf sz) tf ∨ r = -1 ∧ Emptied kb k' new tf) := by
  induction n generalizing v k with
  | zero =>
    rw [← hn]
    exact ⟨0, k, rfl, .inl ⟨rfl, h⟩⟩
  | succ n ih =>
    have hv : v < trapframeNo := by omega
    obtain ⟨hwf, hsame⟩ := h.parent hr
    rw [uvmcopyLoop_round hwf (Nat.lt_trans hv trapframeNo_lt), hsame]
    cases hlook : lookup kb old v with
    | none => exact ih (by omega) (h.skip hv hlook)
    | some e =>
      obtain ⟨pa, f⟩ := e
      obtain ⟨hvalid, hperm, hpa⟩ := lookup_some hr.wf hlook
      have hnotfree := hr.users (show v < pagesOf sz by omega) hlook
      have hnotfree' : k.free pa = 0 := by
        have hcount := h.count pa
        unfold estate at hcount
        omega
      -- The page of the parent has not been written since.
      have hbytes : ∀ off < PGSIZE, k.mem (pa + off) = kb.mem (pa + off) :=
        fun off hoff => h.frame pa hpa hnotfree (pa + off) (Nat.le_add_right _ _) (by omega)
      dsimp only
      unfold copyPage
      rcases kalloc_copy k hpa hnotfree' with hnull | ⟨c, k₁, k₂, halloc, hc, hmove, ht, hcopy⟩
      · obtain ⟨k', hundo, h'⟩ := h.undo (Nat.le_of_lt hv) (.refl h.owns)
        refine ⟨-1, k', ?_, .inr ⟨rfl, h'⟩⟩
        rw [bind_of_ok hnull, if_pos rfl, bind_of_ok hundo]
        rfl
      obtain ⟨r, k₃, hmap, ⟨hr₀, hm⟩ | ⟨hr₀, k₄, hfree, hback⟩⟩ :=
        h.owns.tryMap hv (h.above v (Nat.le_refl v) hv) ht hperm
      · have hnext := h.snoc hv hlook hvalid (fun off hoff => (hcopy off hoff).trans (hbytes off hoff)) hm
        obtain ⟨ret, k', hrest, hcases⟩ := ih (by omega) hnext
        refine ⟨ret, k', ?_, hcases⟩
        rw [bind_of_ok halloc, if_neg hc, bind_of_ok hmove, bind_of_ok hmap, if_neg (not_not.mpr hr₀)]
        exact hrest
      obtain ⟨k', hundo, h'⟩ := h.undo (Nat.le_of_lt hv) hback
      refine ⟨-1, k', ?_, .inr ⟨rfl, h'⟩⟩
      rw [bind_of_ok halloc, if_neg hc, bind_of_ok hmove, bind_of_ok hmap, if_pos hr₀, bind_of_ok hfree,
        bind_of_ok hundo]
      rfl

theorem uvmcopy_copies (hr : Referenced kb old sz) (hsz : pagesOf sz ≤ trapframeNo) (h : Emptied kb k new tf) :
    ∃ r k', uvmcopy old new sz k = .ok (r, k') ∧
      (r = 0 ∧ Copied kb k' old new (pagesOf sz) tf ∨ r = -1 ∧ Emptied kb k' new tf) := by
  have hstart : Copied kb k old new 0 tf :=
    ⟨h.1, fun w hw => absurd hw (Nat.not_lt_zero w), fun w hw => absurd hw (Nat.not_lt_zero w), fun w _ hw => h.2 w hw⟩
  have hloop := uvmcopyLoop_copies (n := pagesOf sz) hr (Nat.zero_add _) hsz hstart
  rw [Nat.zero_mul] at hloop
  exact hloop

/-! ## Giving the trapframe back -/

theorem Made.kfree_trapframe {k₀ : Kmem L} (h : Made kb k new tf) (ht : Taken k₀ kb tf) (hfree : ∀ x, k₀.free x ≤ 1) :
    ∃ k', kfree tf k = .ok ((), k') ∧ Made k₀ k' new tf ∧ lookup k' new = lookup k new := by
  obtain ⟨k', hrun, hlist, hmem⟩ := kfree_page k ht.isPage
  have htaken := ht.free tf
  have hlim := hfree tf
  rw [if_pos rfl] at htaken
  have hzero : estate k new tf = 0 := by
    rw [h.count]
    omega
  have hother : ∀ y, y % PGSIZE = 0 → y ≠ tf → Agree k.mem k'.mem y PGSIZE := by
    intro y hy hne
    rw [hmem]
    exact agree_fill (page_disjoint hy ht.isPage.1 hne)
  have hsame : SameTable k.mem k'.mem 2 new := by
    intro y hy
    apply hother y (h.owns.wf.isPage_of_pages hy).1
    rintro rfl
    unfold estate at hzero
    omega
  have hentries := lookup_congr h.owns.wf hsame
  have hcount : ∀ x, estate k' new x = k₀.free x := by
    intro x
    have hbefore := h.count x
    have hpage := ht.free x
    have hafter := free_of_freelist (x := x) hlist
    unfold estate at hbefore ⊢
    rw [hentries, pages_congr hsame]
    omega
  refine ⟨k', hrun, ⟨⟨⟨h.owns.wf.congr hsame, fun x => ?_, fun {w pa f} hw hl => ?_⟩, hcount, fun y hy hy₀ => ?_,
    fun w hw hhigh => ?_⟩, ?_, ?_⟩, hentries⟩
  · rw [hcount]
    exact hfree x
  · rw [hentries] at hl
    exact h.owns.page hw hl
  · have hpage := ht.free y
    have hne : y ≠ tf := by
      rintro rfl
      omega
    exact ((ht.others y hy hne).trans (h.frame y hy (by omega))).trans (hother y hy hne)
  · rw [leaf_congr hsame]
    exact h.beyond w hw hhigh
  · rw [hentries]
    exact h.trampoline
  · rw [hentries]
    exact h.trapframe

theorem NoTrace.kfree_trapframe {k₀ : Kmem L} (h : NoTrace kb k) (ht : Taken k₀ kb tf) :
    ∃ k', kfree tf k = .ok ((), k') ∧ NoTrace k₀ k' := by
  obtain ⟨k', hrun, hlist, hmem⟩ := kfree_page k ht.isPage
  refine ⟨k', hrun, fun x => ?_, fun y hy hy₀ => ?_⟩
  · rw [free_of_freelist hlist, h.free, ht.free x]
  have hpage := ht.free y
  have hne : y ≠ tf := by
    rintro rfl
    rw [if_pos rfl] at hpage
    omega
  rw [hmem]
  exact ((ht.others y hy hne).trans (h.frame y hy (by omega))).trans (agree_fill (page_disjoint hy ht.isPage.1 hne))

/-! ## `allocproc` and `freeproc` -/

variable {s s' : State L} {p np : Fin NPROC}

/-- A call has failed: only a process number may have been used up. -/
structure Unchanged (s s' : State L) : Prop where
  proc : s'.proc = s.proc
  shmtable : s'.shmtable = s.shmtable
  initproc : s'.initproc = s.initproc
  memory : NoTrace s.kmem s'.kmem

theorem freeproc_run (h : freeMemory (s.proc p) s.kmem = .ok ((), k)) :
    freeproc p s = .ok ((), (s.setKmem k).setProc p .zero) := by
  unfold freeproc
  rw [get_bind, bind_of_ok (lift_of_ok h)]
  rfl

theorem Unchanged.freeproc {s₁ : State L} (hzero : s.proc np = .zero) (hother : ∀ q ≠ np, s₁.proc q = s.proc q)
    (hshm : s₁.shmtable = s.shmtable) (hinit : s₁.initproc = s.initproc) (hk : NoTrace s.kmem k) :
    Unchanged s ((s₁.setKmem k).setProc np .zero) := by
  refine ⟨?_, hshm, hinit, hk⟩
  funext q
  by_cases hq : q = np
  · rw [hq, setProc_self, hzero]
  · rw [setProc_of_ne _ _ hq]
    exact hother q hq

def State.claim (s : State L) (np : Fin NPROC) : State L :=
  { s.setProc np { Proc.zero with pid := s.nextpid, state := .used } with nextpid := s.nextpid + 1 }

theorem State.claim_other {k : Kmem L} {q : Proc} (s : State L) {i : Fin NPROC} (h : i ≠ np) :
    (((s.claim np).setKmem k).setProc np q).proc i = s.proc i := by
  rw [setProc_of_ne _ _ h]
  exact setProc_of_ne _ _ h

/-- A process that has a trapframe and an empty address space. -/
structure Newborn (s s' : State L) (np : Fin NPROC) (kb : Kmem L) (tf r : Nat) : Prop where
  slot : (s.proc np).state = .unused
  proc : s'.proc np = { Proc.zero with pid := s.nextpid, state := .used, trapframe := tf, pagetable := r }
  others : ∀ q ≠ np, s'.proc q = s.proc q
  shmtable : s'.shmtable = s.shmtable
  initproc : s'.initproc = s.initproc
  taken : Taken s.kmem kb tf
  nonnull : r ≠ 0
  space : Emptied kb s'.kmem r tf

theorem allocproc_newborn (hfree : ∀ x, s.kmem.free x ≤ 1)
    (hunused : ∀ q, (s.proc q).state = .unused → s.proc q = .zero) : ∃ ret s', allocproc s = .ok (ret, s') ∧
      (ret = none ∧ Unchanged s s' ∨ ∃ np kb tf r, ret = some np ∧ Newborn s s' np kb tf r) := by
  unfold allocproc
  rw [get_bind]
  cases hfind : (List.finRange NPROC).find? fun p => (s.proc p).state = .unused with
  | none => exact ⟨none, s, rfl, .inl ⟨rfl, rfl, rfl, rfl, .refl _⟩⟩
  | some np =>
    have hfound := List.find?_some hfind
    simp only [decide_eq_true_eq] at hfound
    have hzero := hunused np hfound
    simp only [set_bind, hzero]
    show ∃ ret s', (lift kalloc >>= _) (s.claim np) = .ok (ret, s') ∧ _
    have hkmem : (s.claim np).kmem = s.kmem := rfl
    rcases kalloc_taken s.kmem with hnull | ⟨tf, kb, halloc, htf, ht⟩
    · rw [← hkmem] at hnull
      rw [bind_of_ok (lift_of_ok hnull), if_pos rfl, modify_bind]
      have hmemory : freeMemory ({ Proc.zero with pid := s.nextpid, state := .used } : Proc) (s.claim np).kmem =
          .ok ((), (s.claim np).kmem) := rfl
      refine ⟨none, _, (bind_of_ok (freeproc_run ?_)).trans rfl, .inl ⟨rfl,
        Unchanged.freeproc hzero (fun _ => s.claim_other) rfl rfl (.refl _)⟩⟩
      rw [setProc_self]
      exact hmemory
    have hfree' : ∀ x, kb.free x ≤ 1 := by
      intro x
      have htaken := ht.free x
      have hlim := hfree x
      omega
    rw [← hkmem] at halloc
    rw [bind_of_ok (lift_of_ok halloc), if_neg htf]
    obtain ⟨r, k₁, htable, ⟨hr, hk₁⟩ | ⟨hr, hmade, hnone⟩⟩ := procPagetable_made hfree' ht.isPage.1 ht.isPage.lt
    · rw [bind_of_ok (lift_of_ok htable), modify_bind, if_pos hr]
      obtain ⟨k₂, hkfree, hk₂⟩ := hk₁.kfree_trapframe ht
      refine ⟨none, _, (bind_of_ok (freeproc_run ?_)).trans rfl, .inl ⟨rfl,
        Unchanged.freeproc hzero (fun _ => s.claim_other) rfl rfl hk₂⟩⟩
      rw [setProc_self]
      unfold freeMemory
      rw [if_pos htf, if_neg (not_not.mpr hr)]
      exact hkfree
    · rw [bind_of_ok (lift_of_ok htable), modify_bind, if_neg hr]
      exact ⟨some np, _, rfl, .inr ⟨np, kb, tf, r, rfl, hfound, setProc_self _ _ _,
        fun _ => s.claim_other, rfl, rfl, ht, hr, hmade, hnone⟩⟩

theorem Newborn.freeproc {kb k : Kmem L} {tf r : Nat} (h : Newborn s s' np kb tf r) (hfree : ∀ x, s.kmem.free x ≤ 1)
    (hunused : ∀ q, (s.proc q).state = .unused → s.proc q = .zero) (hk : Emptied kb k r tf) :
    ∃ s'', freeproc np (s'.setKmem k) = .ok ((), s'') ∧ Unchanged s s'' := by
  obtain ⟨k₁, hkfree, hmade, hentries⟩ := hk.1.kfree_trapframe h.taken hfree
  obtain ⟨k₂, hfreed, hg⟩ := (hmade.disposable (Nat.zero_le TRAPFRAME) fun v _ hv => by
    rw [hentries]
    exact hk.2 v hv).procFreepagetable
  have hk₂ := hmade.givenUp hg
  have hproc : (s'.setKmem k).proc np =
      { Proc.zero with pid := s.nextpid, state := .used, trapframe := tf, pagetable := r } := h.proc
  refine ⟨_, freeproc_run (k := k₂) ?_, Unchanged.freeproc (hunused np h.slot) h.others h.shmtable h.initproc hk₂⟩
  rw [hproc]
  unfold freeMemory
  rw [if_pos h.taken.isPage.ne_zero, if_pos h.nonnull]
  show (kfree tf >>= fun _ => procFreepagetable r 0) k = _
  rw [bind_of_ok hkfree]
  exact hfreed

/-! ## `fork` -/

/-- The free list holds every page at most once, and no page that a process refers to. -/
structure Forkable (s : State L) (p : Fin NPROC) : Prop where
  live : (s.proc p).state ≠ .unused
  free : ∀ x, s.kmem.free x ≤ 1
  space : ∀ q, (s.proc q).state ≠ .unused → Referenced s.kmem (s.proc q).pagetable (s.proc q).sz
  trapframe : ∀ q, (s.proc q).state ≠ .unused → s.kmem.free (s.proc q).trapframe = 0
  le : (s.proc p).sz ≤ TRAPFRAME
  unused : ∀ q, (s.proc q).state = .unused → s.proc q = .zero

theorem Referenced.taken {k₀ : Kmem L} (h : Referenced k₀ old sz) (ht : Taken k₀ kb c) :
    Referenced kb old sz ∧ lookup kb old = lookup k₀ old := by
  have hless : ∀ {x}, k₀.free x = 0 → kb.free x = 0 := by
    intro x hx
    have htaken := ht.free x
    omega
  have hsame : SameTable k₀.mem kb.mem 2 old := by
    intro y hy
    apply ht.others y (h.wf.isPage_of_pages hy).1
    rintro rfl
    have hzero := h.tables y hy
    have htaken := ht.free y
    rw [if_pos rfl] at htaken
    omega
  have hentries := lookup_congr h.wf hsame
  refine ⟨⟨h.wf.congr hsame, fun x hx => ?_, fun {v pa f} hv hlook => ?_⟩, hentries⟩
  · rw [pages_congr hsame] at hx
    exact hless (h.tables x hx)
  · rw [hentries] at hlook
    exact hless (h.users hv hlook)

theorem Forkable.top (h : Forkable s p) : pagesOf (s.proc p).sz ≤ trapframeNo := pagesOf_le_trapframeNo h.le

/-- The child of `p` that `fork` has made in slot `np`: its table was made when the memory was `kb`, its user memory was
complete in `k`, and after that only its trapframe has been written. -/
structure Child (s s' : State L) (p np : Fin NPROC) (kb k : Kmem L) (tf r : Nat) : Prop where
  slot : (s.proc np).state = .unused
  proc : s'.proc np = ⟨.runnable, 0, s.nextpid, some p, (s.proc p).sz, r, tf, (s.proc p).name⟩
  others : ∀ q ≠ np, s'.proc q = s.proc q
  shmtable : s'.shmtable = s.shmtable
  taken : Taken s.kmem kb tf
  copied : Copied kb k (s.proc p).pagetable r (pagesOf (s.proc p).sz) tf
  freelist : s'.kmem.freelist = k.freelist
  frame : ∀ y, y % PGSIZE = 0 → y ≠ tf → Agree k.mem s'.kmem.mem y PGSIZE

theorem Forkable.kfork (h : Forkable s p) : ∃ ret s', kfork p s = .ok (ret, s') ∧
      ((∃ np kb k tf r, ret = s.nextpid ∧ Child s s' p np kb k tf r) ∨ ret = -1 ∧ Unchanged s s') := by
  obtain ⟨ret, s₁, halloc, ⟨rfl, hs₁⟩ | ⟨np, kb, tf, r, rfl, hs₁⟩⟩ := allocproc_newborn h.free h.unused
  · unfold Vm.kfork
    rw [bind_of_ok halloc]
    exact ⟨-1, s₁, rfl, .inr ⟨rfl, hs₁⟩⟩
  have hne : p ≠ np := by
    rintro rfl
    exact h.live hs₁.slot
  have hparent : s₁.proc p = s.proc p := hs₁.others p hne
  have htable : (s₁.proc np).pagetable = r := by rw [hs₁.proc]
  have htf : (s₁.proc np).trapframe = tf := by rw [hs₁.proc]
  have hpid : (s₁.proc np).pid = s.nextpid := by rw [hs₁.proc]
  obtain ⟨r₀, k, hcopy, ⟨rfl, hk⟩ | ⟨rfl, hk⟩⟩ := uvmcopy_copies ((h.space p h.live).taken hs₁.taken).1 h.top hs₁.space
  · unfold Vm.kfork
    rw [bind_of_ok halloc]
    simp only [get_bind]
    rw [hparent, htable, bind_of_ok (lift_of_ok hcopy), if_neg (by decide), htf, hpid]
    refine ⟨s.nextpid, _, rfl, .inl ⟨np, kb, k, tf, r, rfl, hs₁.slot, ?_, fun q hq => ?_, hs₁.shmtable, hs₁.taken, hk,
      rfl, fun y hy hyne => ?_⟩⟩
    · rw [setProc_self, hs₁.proc]
      rfl
    · rw [setProc_of_ne _ _ hq]
      exact hs₁.others q hq
    · have hdisj := page_disjoint hy hs₁.taken.isPage.1 hyne
      have hsize : sizeofTrapframe ≤ PGSIZE ∧ trapframeA0 + 8 ≤ PGSIZE := by decide
      exact (agree_copy (by omega)).trans (agree_put (by omega))
  unfold Vm.kfork
  rw [bind_of_ok halloc]
  simp only [get_bind]
  rw [hparent, htable, bind_of_ok (lift_of_ok hcopy), if_pos (by decide)]
  obtain ⟨s'', hfreed, hs''⟩ := hs₁.freeproc h.free h.unused hk
  refine ⟨-1, s'', ?_, .inr ⟨rfl, hs''⟩⟩
  rw [bind_of_ok hfreed]
  rfl

end Xv6.Vm
