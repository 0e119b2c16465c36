import Xv6.Vm.Books

/-!
# What the shared-memory calls do

`shmget`, `shmat` and `shmdt` of `kernel/shmem.c`, seen from the region table and the page tables of
all processes: every way a call can end, and what it has changed then.  They keep the books, and return for
every argument, as long as `shmat` finds a page below the trapframe.
-/

namespace Xv6.Vm

open Finset Hoare Memory Ledger PageMap Runs

variable {L : Layout} {s t : State L} {g g' : Ledger} {k k' : Kmem L} {p : Fin NPROC}
  {i : Fin NSHMEM} {r r' c v w x : Nat} {E : Panic → Prop}

/-! ## Entries of a table under kernel code -/

section

variable (h : Holds g k) (hr : r ∈ g.tables)

include h hr

theorem Holds.leaf_kalloc (hrun : Vm.kalloc k = .ok (c, k')) : leaf k'.mem 2 r v = leaf k.mem 2 r v := by
  rcases kalloc_ok hrun with hnone | ⟨hc, hlist, hmem⟩
  · rw [hnone.2]
  have hfree := free_of_freelist (x := c) hlist
  rw [if_pos rfl] at hfree
  -- A free page is no page of a table.
  have hout : ∀ r ∈ g.tables, pages k.mem 2 r c = 0 := by
    intro r hr
    have honce := (h.apart hr).once c
    omega
  rw [hmem]
  exact leaf_congr (h.sameTable_fill hc hout hr)

theorem Holds.leaf_fill {b : UInt8} (hc : L.IsPage c)
    (hs : g.shared c) : leaf (fill k.mem c PGSIZE b) 2 r v = leaf k.mem 2 r v :=
  leaf_congr (h.sameTable_fill hc (h.shared c hs).2 hr)

theorem Holds.leaf_change {e : Nat} (hr' : r' ∈ g.tables)
    (hv : v < NENTRIES) (hw : w < NENTRIES) (hc : Changes k k' r (setLeaf (leaf k.mem 2 r) v e) (fun _ => 0)) :
    leaf k'.mem 2 r' w = if r' = r ∧ w = v then e else leaf k.mem 2 r' w := by
  by_cases hne : r' = r
  · rw [hne, hc.leaf]
    by_cases hw' : w = v
    · rw [hw', setLeaf_self, if_pos ⟨rfl, rfl⟩]
    · rw [setLeaf_of_ne hv hw hw', if_neg fun heq => hw' heq.2]
  · rw [if_neg fun heq => hne heq.1]
    exact leaf_congr (h.sameTable_of_changes hr hc (fun _ hx => absurd rfl hx) hr' hne)

theorem Holds.leaf_grown (hr' : r' ∈ g.tables) (hg : Grown k k' 2 r) : leaf k'.mem 2 r' v = leaf k.mem 2 r' v := by
  by_cases hne : r' = r
  · rw [hne]
    exact hg.leaf v
  · exact leaf_congr (h.sameTable_of_changes hr hg.changes (fun _ hx => absurd rfl hx) hr' hne)

end

theorem Holds.leaf_uvmunmap {va : Nat} {u : Unit} (h : Holds g k) (hr : r ∈ g.tables)
    (hr' : r' ∈ g.tables) (halign : va % PGSIZE = 0) (hmax : va < MAXVA) (hw : w < NENTRIES)
    (hvalid : Valid (leaf k.mem 2 r (va / PGSIZE))) (hrun : uvmunmap r va 1 false k = .ok (u, k')) :
    leaf k'.mem 2 r' w = if r' = r ∧ w = va / PGSIZE then 0 else leaf k.mem 2 r' w := by
  rw [uvmunmap_one halign hmax] at hrun
  obtain ⟨_, k₁, hunmap, hend⟩ := bind_ok hrun
  rw [(pure_ok hend).2]
  obtain ⟨-, hcases⟩ := unmapPage_ok (h.wf r hr) (h.once hr) (fun hfree => by cases hfree) hunmap
  rcases hcases with hnone | ⟨-, hc, -⟩
  · exact absurd hvalid hnone.1
  · simp only [Bool.false_eq_true, false_and, if_false] at hc
    exact h.leaf_change hr hr' (div_lt_NENTRIES hmax) hw hc

/-! ## Entries of the processes -/

def entryAt (s : State L) (p : Fin NPROC) (v : Nat) : Nat := leaf s.kmem.mem 2 (s.proc p).pagetable v

def SameEntries (s t : State L) : Prop :=
  ∀ q, (s.proc q).state ≠ .unused → ∀ w < NENTRIES, entryAt t q w = entryAt s q w

/-- The entry of process `p` for page number `v` is now `e`, and all others are as before. -/
def SetsEntry (s t : State L) (p : Fin NPROC) (v e : Nat) : Prop :=
  ∀ q, (s.proc q).state ≠ .unused → ∀ w < NENTRIES, entryAt t q w = if q = p ∧ w = v then e else entryAt s q w

theorem Books.if_table {q : Fin NPROC} {e e' : Nat} (h : Books s g) (hp : (s.proc p).state ≠ .unused)
    (hq : (s.proc q).state ≠ .unused) : (if (s.proc q).pagetable = (s.proc p).pagetable ∧ w = v then e else e') =
      if q = p ∧ w = v then e else e' := by
  have hiff : (s.proc q).pagetable = (s.proc p).pagetable ↔ q = p :=
    ⟨fun heq => h.table_inj hq hp heq, fun heq => by rw [heq]⟩
  simp only [hiff]

/-- The call has changed no region, no size and no entry. -/
structure Untouched (s t : State L) : Prop where
  shmtable : t.shmtable = s.shmtable
  proc : t.proc = s.proc
  entries : SameEntries s t

theorem Untouched.refl (s : State L) : Untouched s s := ⟨rfl, rfl, fun _ _ _ _ => rfl⟩

/-- What `shmget` accepts. -/
def GetArgs (key size : Int) : Prop := 0 < key ∧ 0 < size ∧ size ≤ PGSIZE

def attachPerm : Nat := PTE_R ||| PTE_W ||| PTE_U

def freeSlot (s : State L) : Option (Fin NSHMEM) := (List.finRange NSHMEM).find? fun i => (s.shmtable i).key = 0

theorem freeSlot_vacant (h : freeSlot s = some i) : (s.shmtable i).key = 0 := by
  have hfound := List.find?_some h
  simpa only [decide_eq_true_eq] using hfound

def Shmregion.release (r : Shmregion) : Shmregion :=
  if r.refcount - 1 ≤ 0 then ⟨0, 0, 0⟩ else { r with refcount := r.refcount - 1 }

/-- There is no region of that key, and there is no slot or no page for a new one. -/
def GetRefused (s : State L) (key size : Int) : Prop :=
  ¬ GetArgs key size ∨ (∀ i, (s.shmtable i).key ≠ key) ∧ ((∀ i, (s.shmtable i).key ≠ 0) ∨ s.kmem.freelist = [])

/-- There is no such region, or there may be no page for the page table. -/
def AtRefused (s : State L) (id : Int) : Prop :=
  (∀ i : Fin NSHMEM, id = i.val → (s.shmtable i).key = 0) ∨ s.kmem.freelist.length < 2

/-- Every way a shared-memory call of process `p` can end. -/
inductive ShmDoes (s : State L) (p : Fin NPROC) : Call → Int → State L → Prop
  | getRefused {key size : Int} {t : State L}
      (why : GetRefused s key size) (same : Untouched s t) :
      ShmDoes s p (.shmget key size) (-1) t
  | getFound {key size : Int} {i : Fin NSHMEM} (args : GetArgs key size)
      (key_eq : (s.shmtable i).key = key) : ShmDoes s p (.shmget key size) i.val s
  | getCreated {key size : Int} {i : Fin NSHMEM} {page : Nat} {t : State L} (args : GetArgs key size)
      (none : ∀ j, (s.shmtable j).key ≠ key) (slot : freeSlot s = some i)
      (zeroed : ∀ a, page ≤ a → a < page + PGSIZE → t.kmem.mem a = 0)
      (shmtable : t.shmtable = (s.setShm i ⟨key, 0, page⟩).shmtable) (proc : t.proc = s.proc)
      (entries : SameEntries s t) : ShmDoes s p (.shmget key size) i.val t
  | atRefused {id : Int} {t : State L} (why : AtRefused s id) (same : Untouched s t) :
      ShmDoes s p (.shmat id) 0 t
  | atDone {i : Fin NSHMEM} {t : State L} (live : (s.shmtable i).key ≠ 0)
      (below : PGROUNDUP (s.proc p).sz + PGSIZE ≤ TRAPFRAME)
      (empty : ¬ Valid (entryAt s p (PGROUNDUP (s.proc p).sz / PGSIZE)))
      (shmtable : t.shmtable = (s.setShm i { s.shmtable i with refcount := (s.shmtable i).refcount + 1 }).shmtable)
      (proc : t.proc = (s.setProc p { s.proc p with sz := PGROUNDUP (s.proc p).sz + PGSIZE }).proc)
      (entries : SetsEntry s t p (PGROUNDUP (s.proc p).sz / PGSIZE) (mapping (s.shmtable i).kpage attachPerm)) :
      ShmDoes s p (.shmat i.val) (PGROUNDUP (s.proc p).sz : Nat) t
  | dtRefused {uva : Nat}
      (why : uva = 0 ∨ uva % PGSIZE ≠ 0 ∨ (s.proc p).sz ≤ uva ∨
        entryAt s p (uva / PGSIZE) &&& PTE_U = 0 ∨ ∀ i, (s.shmtable i).key ≠ 0 →
          ¬ Hits (entryAt s p (uva / PGSIZE)) (s.shmtable i).kpage) :
      ShmDoes s p (.shmdt uva) (-1) s
  | dtDone {uva : Nat} {i : Fin NSHMEM} {t : State L} (nonzero : uva ≠ 0)
      (aligned : uva % PGSIZE = 0) (below : uva < (s.proc p).sz) (live : (s.shmtable i).key ≠ 0)
      (hit : Hits (entryAt s p (uva / PGSIZE)) (s.shmtable i).kpage)
      (shmtable : t.shmtable = (s.setShm i (s.shmtable i).release).shmtable) (proc : t.proc = s.proc)
      (entries : SetsEntry s t p (uva / PGSIZE) 0) : ShmDoes s p (.shmdt uva) 0 t

theorem find?_none_key {f : Fin NSHMEM → Bool}
    (h : (List.finRange NSHMEM).find? f = none) (i : Fin NSHMEM) : f i = false := by
  have hnot := List.find?_eq_none.mp h i (List.mem_finRange i)
  exact Bool.eq_false_iff.mpr hnot

/-! ## The calls -/

theorem Books.setShm {q : Shmregion} (h : Books s g) (hk : Holds g' k) (hpaged : g'.Paged L)
    (hacc : Accounts L (s.view.setRegion i q.entry) g') (hvacant : q.key = 0 → q.kpage = 0)
    (hrefs : q.key ≠ 0 → q.refcount = g'.count q.kpage)
    (hcount : ∀ j ≠ i, ∀ x, s.view.region j = some x → g'.count x = g.count x)
    (hroom : ∀ p, (s.proc p).state ≠ .unused → ∀ v,
      (g'.room (s.proc p).pagetable v ↔ g.room (s.proc p).pagetable v)) : Books ((s.setKmem k).setShm i q) g' := by
  refine ⟨hk, hpaged, ?_, h.sz, h.unused, fun j hj => ?_, fun j hj => ?_,
    fun p hp v => (hroom p hp v).trans (h.room p hp v)⟩
  · rw [view_setShm]
    exact hacc
  · by_cases heq : j = i
    · rw [heq, setShm_self] at hj ⊢
      exact hvacant hj
    · rw [setShm_of_ne _ _ heq] at hj ⊢
      exact h.vacant j hj
  by_cases heq : j = i
  · rw [heq, setShm_self] at hj ⊢
    exact hrefs hj
  rw [setShm_of_ne _ _ heq] at hj ⊢
  have hkept := hcount j heq (s.shmtable j).kpage (view_region hj)
  have hold := h.refs j hj
  rw [← hkept] at hold
  exact hold

theorem setRegion_same {w : View} {o : Option Nat} (h : w.region i = o) : w.setRegion i o = w := by
  unfold View.setRegion
  cases w with
  | mk =>
    simp only [View.mk.injEq, true_and]
    funext j
    by_cases hj : j = i
    · rw [if_pos hj, hj]
      exact h.symm
    · rw [if_neg hj]

theorem shmemGet_rule {key size : Int} (p : Fin NPROC) (h : Books s g) : Triple (fun t => t = s) (shmemGet key size)
      (fun ret t => ShmDoes s p (.shmget key size) ret t ∧ ∃ g', Books t g') E := by
  unfold shmemGet
  refine .ite (fun hbad => pure_at ⟨.getRefused (.inl fun hargs => ?_) (.refl _), _, h⟩) fun hok => get_at ?_
  · obtain ⟨hkey, hsize, hfits⟩ := hargs
    omega
  have hargs : GetArgs key size := by
    unfold GetArgs
    omega
  have hkey : key ≠ 0 := by omega
  cases hexists : (List.finRange NSHMEM).find? fun i => (s.shmtable i).key = key with
  | some =>
    have hfound := List.find?_some hexists
    simp only [decide_eq_true_eq] at hfound
    exact pure_at ⟨.getFound hargs hfound, _, h⟩
  | none =>
    have hnone : ∀ j, (s.shmtable j).key ≠ key := fun j => of_decide_eq_false (find?_none_key hexists j)
    dsimp only
    cases hfind : (List.finRange NSHMEM).find? fun i => (s.shmtable i).key = 0 with
    | none =>
      have hfull : ∀ j, (s.shmtable j).key ≠ 0 := fun j => of_decide_eq_false (find?_none_key hfind j)
      exact pure_at ⟨.getRefused (.inr ⟨hnone, .inl hfull⟩) (.refl _), _, h⟩
    | some i =>
      refine lift_at kalloc_rule h.holds fun c k halloc hpost => ?_
      have hfirst : ∀ q, (s.proc q).state ≠ .unused → ∀ w,
          leaf k.mem 2 (s.proc q).pagetable w = entryAt s q w :=
        fun q hq w => h.holds.leaf_kalloc (h.top hq).mem halloc
      rcases hpost with ⟨hnull, hk⟩ | ⟨hc, hk⟩
      · rw [if_pos hnull]
        rw [hnull] at halloc
        exact pure_at ⟨.getRefused (.inr ⟨hnone, .inr (kalloc_null halloc)⟩)
          ⟨rfl, rfl, fun q hq w _ => hfirst q hq w⟩, _, h.setKmem hk⟩
      rw [if_neg hc.ne_zero]
      refine lift_at (memset_shared hc.isPage (g.shared_hold c)) hk fun _ k₁ hset hk₁ => modify_at (pure_at ⟨?_, ?_⟩)
      · have hzeroed : k₁ = k.write (fill k.mem c PGSIZE 0) := memset_ok hset
        refine .getCreated hargs hnone hfind (fun a hlo hhi => ?_) rfl rfl fun q hq w _ => ?_
        · show k₁.mem a = 0
          rw [hzeroed]
          exact if_pos ⟨hlo, hhi⟩
        have hmem : (s.proc q).pagetable ∈ (g.hold c).tables := (h.top hq).mem
        show leaf k₁.mem 2 (s.proc q).pagetable w = entryAt s q w
        rw [hzeroed, ← hfirst q hq w]
        exact hk.leaf_fill hmem hc.isPage (g.shared_hold c)
      have hvacant : s.view.region i = none := if_pos (freeSlot_vacant hfind)
      refine ⟨_, h.setShm hk₁ h.paged ?_ (fun hzero => absurd hzero hkey) (fun _ => ?_) (fun j _ x hj => ?_)
        fun _ _ _ => Iff.rfl⟩
      · rw [Shmregion.entry_live hkey]
        exact h.accounts.addRegion hvacant hc
      · -- Nobody maps the new page.
        show (0 : Int) = ((g.hold c).count c : Nat)
        rw [count_hold_self]
        rfl
      · have hne : x ≠ c := fun heq => hc.not_shared (heq ▸ h.accounts.shared_region hj)
        exact count_hold_of_ne hne

theorem le_PGROUNDUP {sz : Nat} (h : sz ≤ TRAPFRAME) : sz ≤ PGROUNDUP sz := by
  rw [PGROUNDUP_eq (Nat.le_trans h (by decide))]
  unfold PGSIZE
  omega

section

variable (h : Books s g) (hp : (s.proc p).state ≠ .unused)

include h hp

theorem attached_le {sz : Nat} (hsz : sz ≤ TRAPFRAME) (hun : Unseen g (s.proc p).pagetable (PGROUNDUP sz / PGSIZE)) :
    PGROUNDUP sz + PGSIZE ≤ TRAPFRAME := by
  have hne : PGROUNDUP sz / PGSIZE ≠ trapframeNo := by
    intro heq
    rw [heq] at hun
    exact hun _ (h.frames hp).trapframe (h.top hp).trapframe
  rw [PGROUNDUP_eq (Nat.le_trans hsz (by decide))] at *
  unfold trapframeNo TRAPFRAME TRAMPOLINE MAXVA PGSIZE at *
  omega

/-- `mappages` in `shmat` panics only when the page that it is to map is the trapframe's. -/
theorem Books.attach_error {e : Panic} {pa perm : Nat}
    (hrun : mappages (s.proc p).pagetable (PGROUNDUP (s.proc p).sz) PGSIZE pa perm s.kmem = .error e) :
    TRAPFRAME < (s.proc p).sz + PGSIZE := by
  have hmem := (h.top hp).mem
  have hsz := h.sz p
  have hmax : (s.proc p).sz ≤ MAXVA := Nat.le_trans hsz (by decide)
  have hround := PGROUNDUP_eq hmax
  rcases mappages_error (h.holds.apart hmem) hrun with halign | hout | hvalid
  · exact absurd (PGROUNDUP_aligned _) halign
  · unfold TRAPFRAME TRAMPOLINE MAXVA PGSIZE at *
    omega
  -- The entry is one of the trapframe and the trampoline, since the page is not the process's.
  have hlt : PGROUNDUP (s.proc p).sz / PGSIZE < NENTRIES := by
    rw [hround]
    unfold TRAPFRAME TRAMPOLINE MAXVA PGSIZE NENTRIES at *
    omega
  have hroom := (h.room p hp _).mp (h.holds.room _ hmem _ hlt hvalid)
  unfold UserRoom at hroom
  rw [← pagesOf_eq hmax, hround] at hroom
  unfold trampolineNo trapframeNo TRAPFRAME TRAMPOLINE MAXVA PGSIZE at *
  omega

theorem Books.mapped (hkey : (s.shmtable i).key ≠ 0)
    (hle : PGROUNDUP (s.proc p).sz + PGSIZE ≤ TRAPFRAME) (hv : PGROUNDUP (s.proc p).sz / PGSIZE < NENTRIES)
    (hun : Unseen g (s.proc p).pagetable (PGROUNDUP (s.proc p).sz / PGSIZE))
    (hk : Holds (g.see (s.proc p).pagetable (PGROUNDUP (s.proc p).sz / PGSIZE) (s.shmtable i).kpage) k) :
    Books (((s.setKmem k).setProc p { s.proc p with sz := PGROUNDUP (s.proc p).sz + PGSIZE }).setShm i
      { s.shmtable i with refcount := (s.shmtable i).refcount + 1 })
      ((g.sized (s.proc p).pagetable (PGROUNDUP (s.proc p).sz + PGSIZE)).see (s.proc p).pagetable
        (PGROUNDUP (s.proc p).sz / PGSIZE) (s.shmtable i).kpage) := by
  have hmem := (h.top hp).mem
  have hi := view_region hkey
  have hgrows : (s.proc p).sz ≤ PGROUNDUP (s.proc p).sz + PGSIZE :=
    Nat.le_trans (le_PGROUNDUP (h.sz p)) (Nat.le_add_right _ _)
  have hlast : UserRoom (PGROUNDUP (s.proc p).sz + PGSIZE) (PGROUNDUP (s.proc p).sz / PGSIZE) :=
    .inl (div_lt_pagesOf (Nat.lt_add_of_pos_right (by decide)))
  -- The memory grows first, and then the page is mapped in the new part.
  have hgrown := h.grow hp hgrows hle
  have hk' : Holds ((g.sized (s.proc p).pagetable (PGROUNDUP (s.proc p).sz + PGSIZE)).see
      (s.proc p).pagetable (PGROUNDUP (s.proc p).sz / PGSIZE) (s.shmtable i).kpage) k :=
    hk.congr rfl rfl (fun _ => Iff.rfl) (fun _ _ _ _ _ => Iff.rfl) fun _ _ _ hroom =>
      hroom.imp_right fun hroom => h.room_grows hp hgrows hroom
  refine hgrown.setShm hk' h.paged ?_ (fun hzero => absurd hzero hkey) (fun _ => ?_)
    (fun j hj x hx => count_see_of_ne fun heq => hj (h.accounts.region_inj hx (heq ▸ hi)))
    fun p' hp' v => ⟨fun hroom => hroom.elim (fun heq => ?_) fun hroom => hroom, .inr⟩
  · rw [Shmregion.entry_live, setRegion_same]
    · exact hgrown.accounts.see (i := i) hi _ _
    · exact hi
    · exact hkey
  · show (s.shmtable i).refcount + 1 =
      ((g.see (s.proc p).pagetable (PGROUNDUP (s.proc p).sz / PGSIZE)
        (s.shmtable i).kpage).count (s.shmtable i).kpage : Nat)
    rw [count_see hmem hv (hun _ (h.accounts.shared_region hi)), h.refs i hkey]
    rfl
  · rw [heq.1, heq.2, sized_self]
    exact hlast

theorem shmemAt_rule {id : Int} :
    Triple (fun t => t = s) (shmemAt p id) (fun ret t => ShmDoes s p (.shmat id) ret t ∧ ∃ g', Books t g')
      fun _ => TRAPFRAME < (s.proc p).sz + PGSIZE := by
  unfold shmemAt
  split
  case isFalse hid =>
    refine pure_at ⟨.atRefused (.inl fun i heq => ?_) (.refl _), _, h⟩
    have hi := i.isLt
    omega
  next hid =>
  have hval : id = (⟨id.toNat, by omega⟩ : Fin NSHMEM).val := by
    show id = id.toNat
    omega
  generalize (⟨id.toNat, by omega⟩ : Fin NSHMEM) = i at hval
  refine get_at (.ite (fun hdead => pure_at ⟨.atRefused (.inl fun j heq => ?_) (.refl _), _, h⟩) fun hlive => ?_)
  · obtain rfl : j = i := Fin.ext (by omega)
    by_contra hkey
    exact hdead.elim hkey (h.accounts.region_page (view_region hkey)).ne_zero
  have hkey : (s.shmtable i).key ≠ 0 := fun hzero => hlive (.inl hzero)
  have hi := view_region hkey
  have hpage := h.accounts.region_page hi
  have hmem := (h.top hp).mem
  have hmap : Triple (fun k => k = s.kmem) (mappages (L := L) (s.proc p).pagetable (PGROUNDUP (s.proc p).sz) PGSIZE
      (s.shmtable i).kpage attachPerm) (fun _ _ => True) fun _ => TRAPFRAME < (s.proc p).sz + PGSIZE :=
    ⟨fun _ _ => trivial, fun hk hrun => h.attach_error hp (hk ▸ hrun)⟩
  refine lift_at hmap rfl fun m k hrun _ => ?_
  obtain ⟨-, hmax, hcases⟩ := mappages_page (h.holds.apart hmem) hpage.1 hpage.lt (by decide) hrun
  rcases hcases with ⟨rfl, hgrown, hshort⟩ | ⟨rfl, hempty, hchange⟩
  · exact pure_at ⟨.atRefused (.inr hshort) ⟨rfl, rfl, fun q hq w _ => h.holds.leaf_grown hmem (h.top hq).mem hgrown⟩, _,
      h.setKmem (h.holds.grown hmem hgrown)⟩
  have hv := div_lt_NENTRIES hmax
  have hun : Unseen g (s.proc p).pagetable (PGROUNDUP (s.proc p).sz / PGSIZE) :=
    fun y hy hsee => hempty ((h.holds.sees _ hmem _ hv y hy).mpr hsee).1
  have hle := attached_le h hp (h.sz p) hun
  have hsz : (PGROUNDUP (s.proc p).sz + PGSIZE) % 2 ^ 64 = PGROUNDUP (s.proc p).sz + PGSIZE :=
    Nat.mod_eq_of_lt (Nat.lt_of_le_of_lt hle (by decide))
  refine modify_at (pure_at ?_)
  rw [hval, hsz]
  refine ⟨.atDone hkey hle hempty rfl rfl fun q hq w hw => ?_, ?_⟩
  · have hchanged := h.holds.leaf_change hmem (h.top hq).mem hv hw hchange
    rw [h.if_table hp hq] at hchanged
    have htable : (((s.setKmem k).setProc p { s.proc p with
        sz := PGROUNDUP (s.proc p).sz + PGSIZE }).proc q).pagetable = (s.proc q).pagetable := by
      by_cases heq : q = p
      · rw [heq, setProc_self]
      · rw [setProc_of_ne _ _ heq]
        rfl
    show leaf k.mem 2 (((s.setKmem k).setProc p { s.proc p with
        sz := PGROUNDUP (s.proc p).sz + PGSIZE }).proc q).pagetable w = _
    rw [htable]
    exact hchanged
  have hperm : attachPerm < 2 ^ 10 := by decide
  have hspec := mapping_spec hpage.1 hpage.lt hperm
  have hk := h.holds.mapShared hmem hv (h.accounts.shared_region hi) ⟨hspec.1, hspec.2.1⟩ hempty hchange
  exact ⟨_, h.mapped hp hkey hle hv hun hk⟩

end

theorem Books.count_unsee_other {j : Fin NSHMEM} {root y : Nat} (h : Books s g)
    (hr : root ∈ g.tables) (hv : v < NENTRIES) (hi : s.view.region i = some x)
    (hsee : g.sees root v x) (hj : j ≠ i) (hy : s.view.region j = some y) : (g.unsee root v).count y = g.count y := by
  apply count_unsee_of_not
  intro hother
  have hhit := (h.holds.sees root hr v hv x (h.accounts.shared_region hi)).mpr hsee
  have hhit' := (h.holds.sees root hr v hv y (h.accounts.shared_region hy)).mpr hother
  have heq : y = x := hhit'.2.symm.trans hhit.2
  exact hj (h.accounts.region_inj hy (heq ▸ hi))

section Detach

variable (h : Books s g) (hp : (s.proc p).state ≠ .unused) (hkey : (s.shmtable i).key ≠ 0) (hv : v < trapframeNo)
  (hsee : g.sees (s.proc p).pagetable v (s.shmtable i).kpage) (hk : Holds (g.unsee (s.proc p).pagetable v) k)

include h hp hkey hv hsee hk

theorem Books.detached_last (hlast : (s.shmtable i).refcount - 1 ≤ 0)
    (hrun : kfree (s.shmtable i).kpage k = .ok ((), k')) : ∃ g', Books ((s.setKmem k').setShm i ⟨0, 0, 0⟩) g' := by
  have hi := view_region hkey
  have hv' : v < NENTRIES := Nat.lt_trans hv (by decide)
  have hpage := h.accounts.region_page hi
  have hshared := h.accounts.shared_region hi
  -- The address stays part of the process's memory.
  have hroom : Holds { g.unsee (s.proc p).pagetable v with room := g.room } k := hk.widen fun _ _ _ hroom => hroom.2
  obtain ⟨-, hlist, hfill⟩ := kfree_ok hrun
  have hcount := count_unsee (h.top hp).mem hv' hsee
  have hrefs := h.refs i hkey
  have hunseen : (g.unsee (s.proc p).pagetable v).count (s.shmtable i).kpage = 0 := by
    omega
  have hk' := hroom.release hshared (fun r hr v hv => not_sees_of_count hunseen hr hv)
    (fun x => free_of_freelist hlist) (fun r hr => by
      rw [hfill]
      exact hroom.sameTable_fill hpage (hroom.shared _ hshared).2 hr)
  refine ⟨_, h.setShm hk' (Paged.release h.paged hpage)
    (((h.accounts.unsee (s.proc p).pagetable hv).withRoom g.room).dropRegion hi) (fun _ => rfl)
    (fun hne => absurd rfl hne) (fun j hj x hx => ?_) fun _ _ _ => Iff.rfl⟩
  rw [count_release]
  exact h.count_unsee_other (h.top hp).mem hv' hi hsee hj hx

theorem Books.detached_one : ∃ g', Books ((s.setKmem k).setShm i
    { s.shmtable i with refcount := (s.shmtable i).refcount - 1 }) g' := by
  have hi := view_region hkey
  have hv' : v < NENTRIES := Nat.lt_trans hv (by decide)
  have hroom : Holds { g.unsee (s.proc p).pagetable v with room := g.room } k := hk.widen fun _ _ _ hroom => hroom.2
  refine ⟨_, h.setShm hroom h.paged ?_ (fun hz => absurd hz hkey) (fun _ => ?_)
    (fun j hj x hx => h.count_unsee_other (h.top hp).mem hv' hi hsee hj hx) fun _ _ _ => Iff.rfl⟩
  · rw [Shmregion.entry_live, setRegion_same hi]
    · exact (h.accounts.unsee (s.proc p).pagetable hv).withRoom g.room
    · exact hkey
  have hcount := count_unsee (h.top hp).mem hv' hsee
  have hrefs := h.refs i hkey
  show (s.shmtable i).refcount - 1 = ((g.unsee (s.proc p).pagetable v).count (s.shmtable i).kpage : Nat)
  omega

end Detach

theorem shmemDt_rule {uva : Nat} (h : Books s g) (hp : (s.proc p).state ≠ .unused) :
    Triple (fun t => t = s) (shmemDt p uva) (fun ret t => ShmDoes s p (.shmdt uva) ret t ∧ ∃ g', Books t g') E := by
  have hmem := (h.top hp).mem
  have hwf := h.holds.wf _ hmem
  unfold shmemDt
  refine get_at (.ite (fun hbad => pure_at ⟨.dtRefused (hbad.imp_right fun h => h.imp_right .inl), _, h⟩) fun hargs => ?_)
  rw [not_or, not_or, not_not, Nat.not_le] at hargs
  obtain ⟨hzero, halign, hlt⟩ := hargs
  have hmax : uva < MAXVA := Nat.lt_of_lt_of_le hlt (Nat.le_trans (h.sz p) (by decide))
  have hv := div_lt_NENTRIES hmax
  -- A region that exists has its page above 0.
  have hpos : ∀ j, (s.shmtable j).key ≠ 0 → (s.shmtable j).kpage ≠ 0 :=
    fun j hj => (h.accounts.region_page (view_region hj)).ne_zero
  have hwalk : Triple (fun k => k = s.kmem) (walkaddr (s.proc p).pagetable uva)
      (fun pa k => pa = (lookup s.kmem (s.proc p).pagetable).translate uva ∧ k = s.kmem) E :=
    .of_returns fun k hk => ⟨_, k, by rw [hk]; exact walkaddr_eq hwf, rfl, hk⟩
  refine lift_at hwalk rfl fun pa k _ hpost => ?_
  have hcases := translate_cases hwf hmax
  rw [← hpost.1] at hcases
  obtain ⟨-, rfl⟩ := hpost
  rcases hcases with ⟨rfl, hnone⟩ | ⟨hpa, hentry⟩
  · rw [if_pos rfl]
    refine pure_at ⟨.dtRefused (.inr (.inr (.inr ?_))), _, h⟩
    refine hnone.imp_right fun hnot j hj hhit => hnot _ (hpos j hj) hhit
  rw [if_neg hpa]
  cases hfind : (List.finRange NSHMEM).find? fun i => (s.shmtable i).kpage = pa with
  | none =>
    refine pure_at ⟨.dtRefused (.inr (.inr (.inr (.inr fun j _ hj => ?_)))), _, h⟩
    exact of_decide_eq_false (find?_none_key hfind j) (hj.2.symm.trans hentry.2)
  | some i =>
    have hkpage := List.find?_some hfind
    simp only [decide_eq_true_eq] at hkpage
    rw [← hkpage] at hentry
    have hkey : (s.shmtable i).key ≠ 0 := fun hz => hpa (hkpage.symm.trans (h.vacant i hz))
    have hi := view_region hkey
    have hshared := h.accounts.shared_region hi
    have hsee := (h.holds.sees _ hmem _ hv _ hshared).mp hentry
    have hbelow : uva / PGSIZE < trapframeNo := by
      have hsz := h.sz p
      unfold trapframeNo TRAPFRAME TRAMPOLINE MAXVA PGSIZE at *
      omega
    refine lift_at (uvmunmap_keep halign hmax hmem hshared hsee) h.holds fun _ k₁ hunmap hk₁ => ?_
    have hunmapped : ∀ q, (s.proc q).state ≠ .unused → ∀ w < NENTRIES,
        leaf k₁.mem 2 (s.proc q).pagetable w = if q = p ∧ w = uva / PGSIZE then 0 else entryAt s q w := by
      intro q hq w hw
      have hchanged := h.holds.leaf_uvmunmap hmem (h.top hq).mem halign hmax hw hentry.1 hunmap
      rw [h.if_table hp hq] at hchanged
      exact hchanged
    refine .ite (fun hlast => ?_) fun hlast => modify_at (pure_at ⟨?_, h.detached_one hp hkey hbelow hsee hk₁⟩)
    · have hpage := h.accounts.region_page hi
      have hfree : Triple (fun k => k = k₁) (kfree (L := L) (s.shmtable i).kpage) (fun _ _ => True) E :=
        ⟨fun _ _ => trivial, fun _ hrun => absurd hpage (kfree_error hrun).1⟩
      refine lift_at hfree rfl fun _ k₂ hrun _ =>
        modify_at (pure_at ⟨?_, h.detached_last hp hkey hbelow hsee hk₁ hlast hrun⟩)
      obtain ⟨-, -, hfill⟩ := kfree_ok hrun
      refine .dtDone hzero halign hlt hkey hentry ?_ rfl fun q hq w hw => ?_
      · rw [Shmregion.release, if_pos hlast]
        rfl
      -- The freed page is no page of a table.
      have hmemq : (s.proc q).pagetable ∈ (g.unsee (s.proc p).pagetable (uva / PGSIZE)).tables := (h.top hq).mem
      show leaf k₂.mem 2 (s.proc q).pagetable w = _
      rw [hfill, ← hunmapped q hq w hw]
      exact hk₁.leaf_fill hmemq hpage hshared
    · refine .dtDone hzero halign hlt hkey hentry ?_ rfl hunmapped
      rw [Shmregion.release, if_neg hlast]
      rfl

end Xv6.Vm
