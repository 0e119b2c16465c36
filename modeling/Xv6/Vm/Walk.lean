import Xv6.Vm.Table

/-!
# What the page-table functions do to a table

One lemma for each function of `kernel/vm.c` that works on the entries of a table: how the entries change, which pages
move between the free list and the table, and which pages of memory stay as they are.
-/

namespace Xv6.Vm

open Finset Hoare Memory

variable {L : Layout} {k k' k'' : Kmem L} {m m' : Mem} {n page i v x c : Nat}

/-! ## A page-table page without valid entries -/

def Blank (m : Mem) (page : Nat) : Prop := ∀ i < 512, entry m page i = 0

theorem blank_fill : Blank (fill m page PGSIZE 0) page := by
  intro i hi
  exact load_fill_zero (by omega) (by unfold PGSIZE; omega)

theorem Blank.congr (h : Blank m page) (hsame : Agree m m' page PGSIZE) : Blank m' page := by
  intro i hi
  rw [entry_congr hsame hi]
  exact h i hi

theorem Blank.not_valid (h : Blank m page) (hi : i < 512) : ¬ Valid (entry m page i) := by
  rw [h i hi]
  exact not_valid_zero

theorem Blank.leaf (h : Blank m page) : leaf m n page v = 0 := by
  cases n with
  | zero => exact h _ (index_lt 0 v)
  | succ n => simp only [Vm.leaf, if_neg (h.not_valid (index_lt (n + 1) v))]

theorem Blank.pages (h : Blank m page) : pages m n page x = if x = page then 1 else 0 := by
  cases n with
  | zero => rfl
  | succ n =>
    have hnone : ∀ i ∈ range 512,
        (if Valid (entry m page i) then Vm.pages m n (PTE2PA (entry m page i)) x else 0) = 0 :=
      fun i hi => if_neg (h.not_valid (mem_range.mp hi))
    simp only [Vm.pages, sum_eq_zero hnone, Nat.add_zero]

theorem Blank.wellFormed (h : Blank m page) (hpage : L.IsPage page) : WellFormed L m n page := by
  cases n with
  | zero => exact hpage
  | succ => exact ⟨hpage, fun i hi hv => absurd hv (h.not_valid hi)⟩

/-! ## Putting a blank page into an empty entry -/

theorem Layout.IsPage.lt {pa : Nat} (h : L.IsPage pa) : pa < 2 ^ 56 := Nat.lt_trans h.2.2 (by decide)

theorem pointer_spec (hc : L.IsPage c) : Valid (PA2PTE c ||| PTE_V) ∧ PTE2PA (PA2PTE c ||| PTE_V) = c ∧
      (PA2PTE c ||| PTE_V) &&& (PTE_R ||| PTE_W ||| PTE_X) = 0 := by
  have hflag : PTE_V < 2 ^ 10 := by decide
  refine ⟨valid_or _, PTE2PA_PA2PTE hc.1 hc.lt hflag, ?_⟩
  -- The flags tested are among the low four bits, of which only `PTE_V` is set.
  have hflags : (PTE_R ||| PTE_W ||| PTE_X) = (2 ^ 4 - 1) &&& (PTE_R ||| PTE_W ||| PTE_X) := by
    decide
  have hword : (PA2PTE c ||| PTE_V) % 2 ^ 4 = PTE_V := by
    unfold PA2PTE
    rw [← Nat.shiftLeft_add_eq_or_of_lt hflag, Nat.shiftLeft_eq, Nat.shiftRight_eq_div_pow]
    unfold PTE_V
    omega
  rw [hflags, ← Nat.and_assoc, Nat.and_two_pow_sub_one_eq_mod, hword]
  decide

def link (m : Mem) (page i c : Nat) : Mem := put m (page + 8 * i) 8 (PA2PTE c ||| PTE_V)

theorem entry_link_self (hc : L.IsPage c) : entry (link m page i c) page i = PA2PTE c ||| PTE_V :=
  load_put (PA2PTE_or_lt hc.lt (by decide))

theorem entry_link_of_ne {j : Nat} (hne : j ≠ i) : entry (link m page i c) page j = entry m page j :=
  load_congr (agree_put (by omega))

theorem agree_link {y : Nat} (hpage : L.IsPage page) (hi : i < 512) (hy : y % PGSIZE = 0)
    (hne : y ≠ page) : Agree m (link m page i c) y PGSIZE :=
  agree_put_page hpage.1 hy hne hi

section Link

variable (hwf : WellFormed L m (n + 1) page) (hone : pages m (n + 1) page page ≤ 1)
  (hi : i < 512)

include hwf hone hi

theorem sameTable_link {j : Nat} (hj : j < 512) (hv : Valid (entry m page j)) :
    SameTable m (link m page i c) n (PTE2PA (entry m page j)) := by
  intro y hy
  have hypage := (hwf.2 j hj hv).2.isPage_of_pages hy
  apply agree_link hwf.1 hi hypage.1
  intro heq
  have hle := pages_child_le (x := page) (n := n) hj hv
  rw [heq] at hy
  rw [if_pos rfl] at hle
  omega

variable (hc : L.IsPage c) (hblank : Blank (link m page i c) c)

include hc hblank

theorem wellFormed_link : WellFormed L (link m page i c) (n + 1) page := by
  refine ⟨hwf.1, fun j hj hv => ?_⟩
  by_cases hji : j = i
  · rw [hji, entry_link_self hc]
    refine ⟨(pointer_spec hc).2.2, ?_⟩
    rw [(pointer_spec hc).2.1]
    exact hblank.wellFormed hc
  · rw [entry_link_of_ne hji] at hv ⊢
    have hchild := hwf.2 j hj hv
    exact ⟨hchild.1, hchild.2.congr (sameTable_link hwf hone hi hj hv)⟩

variable (hempty : ¬ Valid (entry m page i))

include hempty

theorem leaf_link : leaf (link m page i c) (n + 1) page v = leaf m (n + 1) page v := by
  simp only [leaf]
  by_cases hidx : index (n + 1) v = i
  · rw [hidx, entry_link_self hc, if_pos (pointer_spec hc).1, if_neg hempty, (pointer_spec hc).2.1]
    exact hblank.leaf
  rw [entry_link_of_ne hidx]
  split
  · rename_i hv
    exact leaf_congr (sameTable_link hwf hone hi (index_lt _ _) hv)
  · rfl

theorem pages_link : pages (link m page i c) (n + 1) page x = pages m (n + 1) page x + if x = c then 1 else 0 := by
  have hsum := Sums.sum_change
    (f := fun j => if Valid (entry (link m page i c) page j) then
      pages (link m page i c) n (PTE2PA (entry (link m page i c) page j)) x else 0)
    (g := fun j => if Valid (entry m page j) then pages m n (PTE2PA (entry m page j)) x else 0)
    (mem_range.mpr hi) (fun j hj hne => by
      simp only [entry_link_of_ne hne]
      split
      · rename_i hv
        exact pages_congr (sameTable_link hwf hone hi (mem_range.mp hj) hv)
      · rfl)
  simp only [entry_link_self hc, if_pos (pointer_spec hc).1, if_neg hempty,
    (pointer_spec hc).2.1, hblank.pages, Nat.add_zero] at hsum
  simp only [pages]
  omega

end Link

/-! ## Growing a table -/

/-- The table is well formed and none of its pages serves twice or is free. -/
structure Apart (k : Kmem L) (n page : Nat) : Prop where
  wf : WellFormed L k.mem n page
  once : ∀ x, k.free x + pages k.mem n page x ≤ 1

/-- The table may have got new pages from the free list; all its entries are as they were. -/
structure Grown (k k' : Kmem L) (n page : Nat) : Prop where
  wf : WellFormed L k'.mem n page
  leaf : ∀ v, leaf k'.mem n page v = leaf k.mem n page v
  count : ∀ x, k'.free x + pages k'.mem n page x = k.free x + pages k.mem n page x
  frame : ∀ y, y % PGSIZE = 0 → k.free y = 0 → pages k.mem n page y = 0 → Agree k.mem k'.mem y PGSIZE

theorem Grown.refl (h : Apart k n page) : Grown k k n page :=
  ⟨h.wf, fun _ => rfl, fun _ => rfl, fun _ _ _ _ => .refl _ _ _⟩

theorem Grown.apart (hg : Grown k k' n page) (h : Apart k n page) : Apart k' n page := by
  refine ⟨hg.wf, fun x => ?_⟩
  rw [hg.count x]
  exact h.once x

theorem Grown.trans (h : Grown k k' n page) (h' : Grown k' k'' n page) : Grown k k'' n page := by
  refine ⟨h'.wf, fun v => ?_, fun x => ?_, fun y hy hfree hpages => ?_⟩
  · rw [h'.leaf, h.leaf]
  · rw [h'.count, h.count]
  · have hcount := h.count y
    exact (h.frame y hy hfree hpages).trans (h'.frame y hy (by omega) (by omega))

section

variable (h : Apart k (n + 1) page) (hi : i < 512) (hv : Valid (entry k.mem page i))

include h hi hv

theorem Apart.child : Apart k n (PTE2PA (entry k.mem page i)) := by
  refine ⟨(h.wf.2 i hi hv).2, fun x => ?_⟩
  have hle := pages_child_le (x := x) (n := n) hi hv
  have honce := h.once x
  omega

theorem Grown.onlyBelow (hg : Grown k k' n (PTE2PA (entry k.mem page i))) : OnlyBelow k.mem k'.mem n page i := by
  refine ⟨?_, fun j hj hne hvj y hy => ?_⟩
  · have hle := pages_child_le (x := page) (n := n) hi hv
    have honce := h.once page
    rw [if_pos rfl] at hle
    exact hg.frame page h.wf.1.1 (by omega) (by omega)
  have htwo := pages_two_children_le (x := y) (n := n) hj hi hne hvj hv
  have honce := h.once y
  have hypage := (h.wf.2 j hj hvj).2.isPage_of_pages hy
  exact hg.frame y hypage.1 (by omega) (by omega)

theorem Grown.lift (hg : Grown k k' n (PTE2PA (entry k.mem page i))) : Grown k k' (n + 1) page := by
  have honly := hg.onlyBelow h hi hv
  refine ⟨h.wf.onlyBelow honly hg.wf, fun v => ?_, fun x => ?_, fun y hy hfree hpages => ?_⟩
  · rw [honly.leaf hv]
    split
    · rename_i hidx
      rw [hg.leaf]
      simp only [Vm.leaf, hidx, if_pos hv]
    · rfl
  · have hpages := honly.pages (x := x) hi hv
    have hcount := hg.count x
    omega
  · have hle := pages_child_le (x := y) (n := n) hi hv
    exact hg.frame y hy hfree (by omega)

end

theorem Grown.of_link (h : Apart k (n + 1) page) (hi : i < 512)
    (hempty : ¬ Valid (entry k.mem page i)) (hc : L.IsPage c) (hlist : k.freelist = c :: k'.freelist)
    (hmem : k'.mem = link (fill (fill k.mem c PGSIZE 5) c PGSIZE 0) page i c) : Grown k k' (n + 1) page := by
  have hfree := free_of_freelist (x := c) hlist
  rw [if_pos rfl] at hfree
  have honce := h.once c
  have hne : c ≠ page := by
    intro heq
    have hself := pages_self_pos k.mem (n + 1) page
    rw [heq] at hfree honce
    omega
  -- Only page `c` has been written so far, and it is no page of the table.
  have hother : ∀ y, y % PGSIZE = 0 → y ≠ c →
      Agree k.mem (fill (fill k.mem c PGSIZE 5) c PGSIZE 0) y PGSIZE := by
    intro y hy hyc
    have hdisj := page_disjoint hy hc.1 hyc
    exact (agree_fill hdisj).trans (agree_fill hdisj)
  have hsame : SameTable k.mem (fill (fill k.mem c PGSIZE 5) c PGSIZE 0) (n + 1) page := by
    intro y hy
    apply hother y (h.wf.isPage_of_pages hy).1
    intro heq
    rw [heq] at hy
    omega
  have hwf := h.wf.congr hsame
  have hone : pages (fill (fill k.mem c PGSIZE 5) c PGSIZE 0) (n + 1) page page ≤ 1 := by
    have hpage := h.once page
    rw [pages_congr hsame]
    omega
  have hentry := entry_congr hsame.self hi
  have hblank : Blank (link (fill (fill k.mem c PGSIZE 5) c PGSIZE 0) page i c) c :=
    blank_fill.congr (agree_link h.wf.1 hi hc.1 hne)
  rw [← hentry] at hempty
  refine ⟨?_, fun v => ?_, fun x => ?_, fun y hy hyfree hypages => ?_⟩
  · rw [hmem]
    exact wellFormed_link hwf hone hi hc hblank
  · rw [hmem, leaf_link hwf hone hi hc hblank hempty, leaf_congr hsame]
  · rw [hmem, pages_link hwf hone hi hc hblank hempty, pages_congr hsame, free_of_freelist (x := x) hlist]
    omega
  rw [hmem]
  have hyc : y ≠ c := by
    intro heq
    rw [heq] at hyfree
    omega
  have hyp : y ≠ page := by
    intro heq
    have hself := pages_self_pos k.mem (n + 1) page
    rw [heq] at hypages
    omega
  exact (hother y hy hyc).trans (agree_link h.wf.1 hi hy hyp)

/-! ## `walk` -/

theorem loadEntry_bind {α : Type} {f : Nat → Kernel L α} {r : Except Panic (α × Kmem L)}
    (h : (loadWord (page + 8 * i) >>= f) k = r) : f (entry k.mem page i) k = r := h

variable {va r : Nat} {e : Panic}

/-- One level of `walk` with `alloc`: it ends for want of a page, or the level below is there and it goes on. -/
theorem walkLevel_below (h : Apart k (n + 1) page)
    (hrun : walkLevel va true (n + 1) page k = .ok (r, k')) : r = 0 ∧ k' = k ∧ k.freelist = [] ∨
      ∃ k₁, Grown k k₁ (n + 1) page ∧ k.freelist.length ≤ k₁.freelist.length + 1 ∧
        Valid (entry k₁.mem page (index (n + 1) (va / PGSIZE))) ∧
        walkLevel va true n (PTE2PA (entry k₁.mem page (index (n + 1) (va / PGSIZE)))) k₁ = .ok (r, k') := by
  have hPX : PX (n + 1) va = index (n + 1) (va / PGSIZE) := PX_eq (n + 1) va
  simp only [walkLevel, hPX, if_true] at hrun
  replace hrun := loadEntry_bind hrun
  have hi := index_lt (n + 1) (va / PGSIZE)
  split at hrun
  · -- The level below is there already.
    rename_i hv
    exact .inr ⟨k, .refl h, Nat.le_succ _, hv, hrun⟩
  rename_i hempty
  obtain ⟨c, k₂, halloc, hrun⟩ := bind_ok hrun
  split at hrun
  · -- No page for it.
    rename_i hnull
    obtain ⟨rfl, rfl⟩ := pure_ok hrun
    rw [hnull] at halloc
    refine .inl ⟨rfl, ?_, kalloc_null halloc⟩
    cases kalloc_ok halloc with
    | inl hnone => exact hnone.2
    | inr hsome => exact absurd rfl hsome.1.ne_zero
  rename_i hnull
  cases kalloc_ok halloc with
  | inl hnone => exact absurd hnone.1 hnull
  | inr hsome =>
    obtain ⟨hc, hlist, hmem⟩ := hsome
    obtain ⟨_, k₃, hset, hrun⟩ := bind_ok hrun
    obtain ⟨_, k₄, hstore, hrun⟩ := bind_ok hrun
    have hk₃ := memset_ok hset
    have hk₄ := storeWord_ok hstore
    have hmem₄ : k₄.mem = link (fill (fill k.mem c PGSIZE 5) c PGSIZE 0) page
        (index (n + 1) (va / PGSIZE)) c := by
      rw [hk₄, hk₃, Kmem.write_mem, Kmem.write_mem, hmem]
      rfl
    have hlist₄ : k.freelist = c :: k₄.freelist := by
      rw [hk₄, hk₃, Kmem.write_freelist, Kmem.write_freelist]
      exact hlist
    have hentry : entry k₄.mem page (index (n + 1) (va / PGSIZE)) = PA2PTE c ||| PTE_V := by
      rw [hmem₄]
      exact entry_link_self hc
    refine .inr ⟨k₄, Grown.of_link h hi hempty hc hlist₄ hmem₄, ?_, ?_, ?_⟩
    · rw [hlist₄]
      exact Nat.le_refl _
    · rw [hentry]
      exact (pointer_spec hc).1
    · rw [hentry, (pointer_spec hc).2.1]
      exact hrun

theorem walkLevel_alloc (h : Apart k n page) (hrun : walkLevel va true n page k = .ok (r, k')) :
    Grown k k' n page ∧ (r = 0 ∨ slot k'.mem n page (va / PGSIZE) = some r) := by
  induction n generalizing page k with
  | zero =>
    obtain ⟨rfl, rfl⟩ := pure_ok hrun
    refine ⟨.refl h, .inr ?_⟩
    simp only [slot, PX_eq, index]
  | succ n ih =>
    have hi := index_lt (n + 1) (va / PGSIZE)
    rcases walkLevel_below h hrun with ⟨rfl, rfl, -⟩ | ⟨k₁, hgrown, -, hv, hrest⟩
    · exact ⟨.refl h, .inl rfl⟩
    have h₁ := hgrown.apart h
    have hbelow := ih (h₁.child hi hv) hrest
    have honly := hbelow.1.onlyBelow h₁ hi hv
    refine ⟨hgrown.trans (hbelow.1.lift h₁ hi hv), ?_⟩
    rw [honly.slot hv rfl]
    exact hbelow.2

/-- With a free page for every level that may be missing, `walk` finds or makes them all. -/
theorem walkLevel_enough (h : Apart k n page) (hlen : n ≤ k.freelist.length)
    (hrun : walkLevel va true n page k = .ok (r, k')) : r ≠ 0 ∧ k.freelist.length ≤ k'.freelist.length + n := by
  induction n generalizing page k with
  | zero =>
    obtain ⟨rfl, rfl⟩ := pure_ok hrun
    have hpos := h.wf.isPage.ne_zero
    exact ⟨by omega, Nat.le_refl _⟩
  | succ n ih =>
    rcases walkLevel_below h hrun with ⟨-, -, hnone⟩ | ⟨k₁, hgrown, hle, hv, hrest⟩
    · rw [hnone] at hlen
      exact absurd hlen (Nat.not_succ_le_zero n)
    · obtain ⟨hr, hle'⟩ := ih ((hgrown.apart h).child (index_lt _ _) hv) (by omega) hrest
      exact ⟨hr, by omega⟩

theorem walkLevel_look (hrun : walkLevel va false n page k = .ok (r, k')) :
    k' = k ∧ r = (slot k.mem n page (va / PGSIZE)).getD 0 := by
  induction n generalizing page k with
  | zero =>
    obtain ⟨rfl, rfl⟩ := pure_ok hrun
    simp [slot, PX_eq, index]
  | succ n ih =>
    have hPX : PX (n + 1) va = index (n + 1) (va / PGSIZE) := PX_eq (n + 1) va
    simp only [walkLevel, hPX] at hrun
    replace hrun := loadEntry_bind hrun
    simp only [slot]
    split at hrun
    · rename_i hv
      have hbelow := ih hrun
      rw [if_pos hv]
      exact hbelow
    rename_i hv
    obtain ⟨rfl, rfl⟩ := pure_ok hrun
    rw [if_neg hv]
    exact ⟨rfl, rfl⟩

theorem slot_ne_zero {a : Nat} (hwf : WellFormed L m n page) (h : slot m n page v = some a) : a ≠ 0 := by
  obtain ⟨y, hy, ha⟩ := slot_mem_pages h
  have hpos := (hwf.isPage_of_pages hy).ne_zero
  omega

theorem walk_look {root va r : Nat} (hwf : WellFormed L k.mem 2 root) (hrun : walk root va false k = .ok (r, k')) :
    k' = k ∧ va < MAXVA ∧
      ((r = 0 ∧ leaf k.mem 2 root (va / PGSIZE) = 0) ∨ (r ≠ 0 ∧ slot k.mem 2 root (va / PGSIZE) = some r)) := by
  unfold walk at hrun
  split at hrun
  · cases hrun
  rename_i hva
  have hlook := walkLevel_look hrun
  refine ⟨hlook.1, Nat.lt_of_not_le hva, ?_⟩
  cases hslot : slot k.mem 2 root (va / PGSIZE) with
  | none =>
    rw [hslot] at hlook
    exact .inl ⟨hlook.2, leaf_of_slot_none hslot⟩
  | some a =>
    rw [hslot] at hlook
    have ha : r = a := hlook.2
    rw [ha]
    exact .inr ⟨slot_ne_zero hwf hslot, rfl⟩

theorem walkLevel_no_panic {va : Nat} {alloc : Bool} : walkLevel va alloc n page k ≠ .error e := by
  intro hrun
  induction n generalizing page k with
  | zero => cases hrun
  | succ n ih =>
    unfold walkLevel at hrun
    replace hrun := loadEntry_bind hrun
    split at hrun
    · exact ih hrun
    split at hrun
    · rcases bind_error hrun with halloc | ⟨c, k₁, -, hrest⟩
      · exact kalloc_no_panic halloc
      · split at hrest
        · cases hrest
        · exact ih hrest
    · cases hrun

theorem walk_error {root va : Nat} {alloc : Bool} (hrun : walk root va alloc k = .error e) : MAXVA ≤ va := by
  unfold walk at hrun
  split at hrun
  · assumption
  · exact absurd hrun walkLevel_no_panic

/-! ## Changing the entries of a whole table -/

/-- Page numbers are counted modulo the size of the table. -/
def NENTRIES : Nat := 512 ^ 3

/-- The entries of table `root` are now `new`; the table gave back what `freed` counts, and apart
from that only moved pages between itself and the free list. -/
structure Changes (k k' : Kmem L) (root : Nat) (new freed : Nat → Nat) : Prop where
  wf : WellFormed L k'.mem 2 root
  leaf : ∀ v, leaf k'.mem 2 root v = new v
  count : ∀ x, k'.free x + pages k'.mem 2 root x = k.free x + pages k.mem 2 root x + freed x
  frame : ∀ y, y % PGSIZE = 0 → k.free y = 0 → pages k.mem 2 root y = 0 → freed y = 0 → Agree k.mem k'.mem y PGSIZE

def setLeaf (old : Nat → Nat) (v e : Nat) : Nat → Nat := fun w => if w % NENTRIES = v % NENTRIES then e else old w

theorem Grown.changes {root : Nat} (h : Grown k k' 2 root) : Changes k k' root (Vm.leaf k.mem 2 root) (fun _ => 0) :=
  ⟨h.wf, h.leaf, fun x => by rw [h.count x, Nat.add_zero], fun y hy hfree hpages _ => h.frame y hy hfree hpages⟩

theorem changes_store {root a e : Nat} (hwf : WellFormed L k.mem 2 root)
    (hone : ∀ x, pages k.mem 2 root x ≤ 1) (hslot : slot k.mem 2 root v = some a) (he : e < 256 ^ 8) :
    Changes k (k.write (put k.mem a 8 e)) root (setLeaf (leaf k.mem 2 root) v e) (fun _ => 0) := by
  refine ⟨hwf.put hone hslot, fun w => leaf_put hwf hone hslot he, fun x => ?_, fun y hy _ hpages _ => ?_⟩
  · rw [free_write, Kmem.write_mem, pages_put hwf hone hslot, Nat.add_zero]
  obtain ⟨z, hz, ha⟩ := slot_mem_pages hslot
  rw [Kmem.write_mem, ha]
  apply agree_put_page (hwf.isPage_of_pages hz).1 hy _ (index_lt 0 v)
  intro heq
  rw [heq] at hpages
  omega

theorem Grown.store {root a e : Nat} (h : Apart k 2 root) (hg : Grown k k' 2 root)
    (hslot : slot k'.mem 2 root v = some a) (he : e < 256 ^ 8) :
    Changes k (k'.write (put k'.mem a 8 e)) root (setLeaf (Vm.leaf k.mem 2 root) v e) (fun _ => 0) := by
  have hone : ∀ x, pages k'.mem 2 root x ≤ 1 := by
    intro x
    have honce := (hg.apart h).once x
    omega
  have hset := changes_store hg.wf hone hslot he
  refine ⟨hset.wf, fun w => ?_, fun x => ?_, fun y hy hfree hpages _ => ?_⟩
  · rw [hset.leaf]
    unfold setLeaf
    rw [hg.leaf]
  · have hcount := hset.count x
    have hgrown := hg.count x
    omega
  · have hgrown := hg.count y
    exact (hg.frame y hy hfree hpages).trans (hset.frame y hy (by omega) (by omega) rfl)

/-! ## `mappages` of one page -/

def mapping (pa perm : Nat) : Nat := PA2PTE pa ||| perm ||| PTE_V

theorem mapping_spec {pa perm : Nat} (hpa : pa % PGSIZE = 0) (hlt : pa < 2 ^ 56) (hperm : perm < 2 ^ 10) :
    Valid (mapping pa perm) ∧ PTE2PA (mapping pa perm) = pa ∧ mapping pa perm < 256 ^ 8 := by
  have hflags : perm ||| PTE_V < 2 ^ 10 := Nat.or_lt_two_pow hperm (by decide)
  have hassoc : mapping pa perm = PA2PTE pa ||| (perm ||| PTE_V) := Nat.or_assoc _ _ _
  refine ⟨valid_or _, ?_, ?_⟩
  · rw [hassoc]
    exact PTE2PA_PA2PTE hpa hlt hflags
  · rw [hassoc]
    exact PA2PTE_or_lt hlt hflags

theorem mappages_page {root va pa perm : Nat} {r : Int} (h : Apart k 2 root)
    (hpa : pa % PGSIZE = 0) (hlt : pa < 2 ^ 56) (hperm : perm < 2 ^ 10)
    (hrun : mappages root va PGSIZE pa perm k = .ok (r, k')) : va % PGSIZE = 0 ∧ va < MAXVA ∧
      ((r = -1 ∧ Grown k k' 2 root ∧ k.freelist.length < 2) ∨
        (r = 0 ∧ ¬ Valid (leaf k.mem 2 root (va / PGSIZE)) ∧
          Changes k k' root (setLeaf (leaf k.mem 2 root) (va / PGSIZE) (mapping pa perm)) (fun _ => 0))) := by
  have hsize : PGSIZE / PGSIZE = 1 := by decide
  simp only [mappages, Nat.mod_self, ne_eq, not_true, if_false, hsize, mappagesLoop] at hrun
  split at hrun
  · cases hrun
  rename_i hva
  refine ⟨Decidable.not_not.mp hva, ?_⟩
  have hpos : ¬ PGSIZE = 0 := by decide
  rw [if_neg hpos] at hrun
  obtain ⟨a, k₁, hwalk, hrun⟩ := bind_ok hrun
  unfold walk at hwalk
  split at hwalk
  · cases hwalk
  rename_i hmax
  refine ⟨Nat.lt_of_not_le hmax, ?_⟩
  have hgrown := walkLevel_alloc h hwalk
  split at hrun
  · next hnull =>
    obtain ⟨rfl, rfl⟩ := pure_ok hrun
    refine .inl ⟨rfl, hgrown.1, ?_⟩
    by_contra hlen
    exact (walkLevel_enough h (Nat.le_of_not_lt hlen) hwalk).1 hnull
  rename_i hnull
  have hslot := hgrown.2.resolve_left hnull
  replace hrun := loadWord_bind hrun
  rw [load_slot hslot, hgrown.1.leaf] at hrun
  split at hrun
  · cases hrun
  rename_i hempty
  obtain ⟨_, k₃, hstore, hrun⟩ := bind_ok hrun
  obtain ⟨rfl, rfl⟩ := pure_ok hrun
  rw [storeWord_ok hstore]
  exact .inr ⟨rfl, hempty, hgrown.1.store h hslot (mapping_spec hpa hlt hperm).2.2⟩

theorem mappages_error {root va pa perm : Nat} (h : Apart k 2 root)
    (hrun : mappages root va PGSIZE pa perm k = .error e) :
    va % PGSIZE ≠ 0 ∨ MAXVA ≤ va ∨ Valid (leaf k.mem 2 root (va / PGSIZE)) := by
  have hsize : PGSIZE / PGSIZE = 1 := by decide
  have hpos : ¬ PGSIZE = 0 := by decide
  simp only [mappages, Nat.mod_self, ne_eq, not_true, if_false, hsize, hpos, mappagesLoop] at hrun
  split at hrun
  · next halign => exact .inl halign
  right
  rcases bind_error hrun with hwalk | ⟨a, k₁, hwalk, hrest⟩
  · exact .inl (walk_error hwalk)
  unfold walk at hwalk
  split at hwalk
  · cases hwalk
  have hgrown := walkLevel_alloc h hwalk
  split at hrest
  · cases hrest
  next hnull =>
  replace hrest := loadWord_bind hrest
  rw [load_slot (hgrown.2.resolve_left hnull), hgrown.1.leaf] at hrest
  split at hrest
  · next hvalid => exact .inr hvalid
  · cases hrest

/-! ## `uvmunmap` of one page -/

theorem changes_kfree {root pa : Nat} (hwf : WellFormed L k.mem 2 root)
    (hout : pages k.mem 2 root pa = 0) (hrun : kfree pa k = .ok ((), k')) :
    Changes k k' root (leaf k.mem 2 root) (fun x => if x = pa then 1 else 0) ∧ SameTable k.mem k'.mem 2 root := by
  obtain ⟨hpage, hlist, hmem⟩ := kfree_ok hrun
  have hother : ∀ y, y % PGSIZE = 0 → y ≠ pa → Agree k.mem k'.mem y PGSIZE := by
    intro y hy hne
    rw [hmem]
    exact agree_fill (page_disjoint hy hpage.1 hne)
  have hsame : SameTable k.mem k'.mem 2 root := by
    intro y hy
    apply hother y (hwf.isPage_of_pages hy).1
    intro heq
    rw [heq] at hy
    omega
  refine ⟨⟨hwf.congr hsame, fun v => leaf_congr hsame, fun x => ?_, fun y hy _ _ hfreed => ?_⟩, hsame⟩
  · rw [pages_congr hsame, free_of_freelist hlist]
    omega
  apply hother y hy
  intro heq
  rw [if_pos heq] at hfreed
  omega

theorem unmapPage_ok {root a : Nat} {doFree : Bool} {u : Unit} (hwf : WellFormed L k.mem 2 root)
    (hone : ∀ x, pages k.mem 2 root x ≤ 1)
    (hout : doFree = true → a < MAXVA → Valid (leaf k.mem 2 root (a / PGSIZE)) →
      pages k.mem 2 root (PTE2PA (leaf k.mem 2 root (a / PGSIZE))) = 0)
    (hrun : unmapPage root doFree a k = .ok (u, k')) : a < MAXVA ∧
      ((¬ Valid (leaf k.mem 2 root (a / PGSIZE)) ∧ k' = k) ∨
        (Valid (leaf k.mem 2 root (a / PGSIZE)) ∧
          Changes k k' root (setLeaf (leaf k.mem 2 root) (a / PGSIZE) 0) (fun x =>
            if doFree = true ∧ x = PTE2PA (leaf k.mem 2 root (a / PGSIZE)) then 1 else 0) ∧
          ∀ x, pages k'.mem 2 root x = pages k.mem 2 root x)) := by
  unfold unmapPage at hrun
  obtain ⟨pte, k₁, hwalk, hbody⟩ := bind_ok hrun
  obtain ⟨rfl, hmax, hlook⟩ := walk_look hwf hwalk
  refine ⟨hmax, ?_⟩
  cases hlook with
  | inl hnull =>
    rw [if_pos hnull.1] at hbody
    rw [(pure_ok hbody).2, hnull.2]
    exact .inl ⟨not_valid_zero, rfl⟩
  | inr hslot =>
    rw [if_neg hslot.1] at hbody
    have hclear := loadWord_bind hbody
    rw [load_slot hslot.2] at hclear
    split at hclear
    · rename_i hv
      refine .inr ⟨hv, ?_⟩
      cases doFree with
      | false =>
        rw [storeWord_ok hclear]
        refine ⟨?_, fun x => pages_put hwf hone hslot.2⟩
        simpa using changes_store (e := 0) hwf hone hslot.2 (by decide)
      | true =>
        obtain ⟨_, k₃, hfree, hstore⟩ := bind_ok hclear
        have hfreed := changes_kfree hwf (hout rfl hmax hv) hfree
        have hone' : ∀ x, pages k₃.mem 2 root x ≤ 1 := by
          intro x
          rw [pages_congr hfreed.2]
          exact hone x
        have hslot' : slot k₃.mem 2 root (a / PGSIZE) = some pte := by
          rw [slot_congr hfreed.2]
          exact hslot.2
        have hset := changes_store (e := 0) hfreed.1.wf hone' hslot' (by decide)
        rw [storeWord_ok hstore]
        refine ⟨⟨hset.wf, fun w => ?_, fun x => ?_, fun y hy hfree hpages hkept => ?_⟩, fun x => ?_⟩
        · rw [hset.leaf]
          unfold setLeaf
          rw [hfreed.1.leaf]
        · have hcount := hset.count x
          have hcount' := hfreed.1.count x
          simp only [true_and]
          omega
        · simp only [true_and] at hkept
          have hcount := hfreed.1.count y
          exact (hfreed.1.frame y hy hfree hpages hkept).trans (hset.frame y hy (by omega) (by omega) rfl)
        · rw [Kmem.write_mem, pages_put hfreed.1.wf hone' hslot', pages_congr hfreed.2]
    · rename_i hv
      rw [(pure_ok hclear).2]
      exact .inl ⟨hv, rfl⟩

theorem unmapPage_error {root a : Nat} {doFree : Bool}
    (hrun : unmapPage root doFree a k = .error e) : MAXVA ≤ a ∨ doFree = true ∧ ¬ Alarm e := by
  unfold unmapPage at hrun
  rcases bind_error hrun with hwalk | ⟨pte, k₁, -, hrest⟩
  · exact .inl (walk_error hwalk)
  split at hrest
  · cases hrest
  replace hrest := loadWord_bind hrest
  split at hrest
  · split at hrest
    · next hdo =>
      rcases bind_error hrest with hfree | ⟨_, k₂, -, hstore⟩
      · exact .inr ⟨hdo, (kfree_error hfree).2⟩
      · cases hstore
    · cases hrest
  · cases hrest

/-! ## `freewalk` -/

/-- The table had no valid entry, and all its pages are free now. -/
structure Freed (k k' : Kmem L) (n page : Nat) : Prop where
  empty : ∀ v, ¬ Valid (leaf k.mem n page v)
  free : ∀ x, k'.free x = k.free x + pages k.mem n page x
  frame : ∀ y, y % PGSIZE = 0 → pages k.mem n page y = 0 → Agree k.mem k'.mem y PGSIZE

/-- What entry `j` of a page contributes to the pages of the table. -/
def childPages (m : Mem) (n page x j : Nat) : Nat :=
  if Valid (entry m page j) then pages m n (PTE2PA (entry m page j)) x else 0

theorem pages_succ (m : Mem) (n page x : Nat) : pages m (n + 1) page x =
      (if x = page then 1 else 0) + ∑ j ∈ range 512, childPages m n page x j := rfl

/-- The loop of `freewalk` has passed `i` entries: what was below them is free, and what is below
the others is as it was. -/
structure Freeing (k s : Kmem L) (n page i : Nat) : Prop where
  entries : ∀ j < 512, i ≤ j → entry s.mem page j = entry k.mem page j
  below : ∀ j < 512, i ≤ j → Valid (entry k.mem page j) → SameTable k.mem s.mem n (PTE2PA (entry k.mem page j))
  empty : ∀ v, index (n + 1) v < i → ¬ Valid (leaf k.mem (n + 1) page v)
  free : ∀ x, s.free x = k.free x + ∑ j ∈ range i, childPages k.mem n page x j
  frame : ∀ y, y % PGSIZE = 0 → pages k.mem (n + 1) page y = 0 → Agree k.mem s.mem y PGSIZE

theorem Freeing.skip {s : Kmem L} (h : Freeing k s n page i)
    (hempty : ¬ Valid (entry k.mem page i)) : Freeing k s n page (i + 1) where
  entries j hj hij := h.entries j hj (by omega)
  below j hj hij := h.below j hj (by omega)
  empty v hv := by
    by_cases hlt : index (n + 1) v < i
    · exact h.empty v hlt
    · have hidx : index (n + 1) v = i := by omega
      simp only [leaf, hidx, if_neg hempty]
      exact not_valid_zero
  free x := by
    rw [h.free x, sum_range_succ, childPages, if_neg hempty, Nat.add_zero]
  frame := h.frame

section Descend

variable {s s' : Kmem L} (hwf : WellFormed L k.mem (n + 1) page)
  (hone : ∀ x, pages k.mem (n + 1) page x ≤ 1) (hi : i < 512) (hv : Valid (entry k.mem page i))

include hwf hone hi hv

-- Entry `i` is cleared after the table below it has been freed.
theorem Freeing.descend (h : Freeing k s n page i) (hfreed : Freed s s' n (PTE2PA (entry k.mem page i))) :
    Freeing k (s'.write (put s'.mem (page + 8 * i) 8 0)) n page (i + 1) := by
  have hbelow := h.below i hi (Nat.le_refl i) hv
  have hself : Agree s.mem s'.mem page PGSIZE := by
    apply hfreed.frame page hwf.1.1
    have hle := pages_child_le (x := page) (n := n) hi hv
    have hpage := hone page
    rw [if_pos rfl] at hle
    rw [pages_congr hbelow]
    omega
  refine ⟨fun j hj hij => ?_, fun j hj hij hvj y hy => ?_, fun v hidx => ?_, fun x => ?_, fun y hy hpages => ?_⟩
  · have hput : entry (put s'.mem (page + 8 * i) 8 0) page j = entry s'.mem page j :=
      load_congr (agree_put (by omega))
    rw [Kmem.write_mem, hput, entry_congr hself hj]
    exact h.entries j hj (by omega)
  · have hypage := (hwf.2 j hj hvj).2.isPage_of_pages hy
    have htwo := pages_two_children_le (x := y) (n := n) hj hi (by omega) hvj hv
    have hle := pages_child_le (x := y) (n := n) hj hvj
    have honey := hone y
    have hchild : Agree s.mem s'.mem y PGSIZE := by
      apply hfreed.frame y hypage.1
      rw [pages_congr hbelow]
      omega
    have hne : y ≠ page := by
      intro heq
      rw [if_pos heq] at hle
      omega
    exact ((h.below j hj (by omega) hvj y hy).trans hchild).trans (agree_put_page hwf.1.1 hypage.1 hne hi)
  · by_cases hlt : index (n + 1) v < i
    · exact h.empty v hlt
    have heq : index (n + 1) v = i := by omega
    simp only [leaf, heq, if_pos hv]
    rw [← leaf_congr hbelow]
    exact hfreed.empty v
  · rw [free_write, hfreed.free, h.free, pages_congr hbelow, sum_range_succ]
    simp only [childPages, if_pos hv]
    omega
  have hle := pages_child_le (x := y) (n := n) hi hv
  have hchild : Agree s.mem s'.mem y PGSIZE := by
    apply hfreed.frame y hy
    rw [pages_congr hbelow]
    omega
  have hne : y ≠ page := by
    intro heq
    have hpos := pages_self_pos k.mem (n + 1) page
    rw [heq] at hpages
    omega
  exact ((h.frame y hy hpages).trans hchild).trans (agree_put_page hwf.1.1 hy hne hi)

end Descend

theorem freed_kfree {s : Kmem L} {u : Unit} (hempty : ∀ v, ¬ Valid (leaf k.mem n page v))
    (hfree : ∀ x, s.free x + (if x = page then 1 else 0) = k.free x + pages k.mem n page x)
    (hframe : ∀ y, y % PGSIZE = 0 → pages k.mem n page y = 0 → Agree k.mem s.mem y PGSIZE)
    (hrun : kfree page s = .ok (u, k')) : Freed k k' n page := by
  obtain ⟨hpage, hlist, hmem⟩ := kfree_ok hrun
  refine ⟨hempty, fun x => ?_, fun y hy hpages => ?_⟩
  · rw [free_of_freelist hlist]
    exact hfree x
  have hne : y ≠ page := by
    intro heq
    have hpos := pages_self_pos k.mem n page
    rw [heq] at hpages
    omega
  rw [hmem]
  exact (hframe y hy hpages).trans (agree_fill (page_disjoint hy hpage.1 hne))

theorem leaf_zero (m : Mem) (page : Nat) (hi : i < 512) : leaf m 0 page i = entry m page i := by
  have hidx : index 0 i = i := by
    unfold index
    rw [pow_zero, Nat.div_one]
    exact Nat.mod_eq_of_lt hi
  simp only [leaf, hidx]

theorem leaf_child (hi : i < 512) (hvalid : Valid (entry m page i)) (v : Nat) :
    ∃ w, leaf m (n + 1) page w = leaf m n (PTE2PA (entry m page i)) v := by
  have hpos : 0 < 512 ^ (n + 1) := Nat.pow_pos (by decide)
  refine ⟨v % 512 ^ (n + 1) + 512 ^ (n + 1) * i, ?_⟩
  have hidx : index (n + 1) (v % 512 ^ (n + 1) + 512 ^ (n + 1) * i) = i := by
    unfold index
    rw [Nat.add_mul_div_left _ _ hpos, Nat.div_eq_of_lt (Nat.mod_lt _ hpos), Nat.zero_add]
    exact Nat.mod_eq_of_lt hi
  simp only [leaf, hidx, if_pos hvalid]
  apply leaf_mod
  rw [Nat.add_mul_mod_self_left, Nat.mod_mod]

/-- `freewalk` gives all pages of the table back.  It panics on valid entries of the last level. -/
theorem freewalk_spec {E : Panic → Prop} (hwf : WellFormed L k.mem n page) (hone : ∀ x, pages k.mem n page x ≤ 1)
    (hE : (∀ e, E e) ∨ ∀ v, ¬ Valid (leaf k.mem n page v)) :
    Triple (fun s => s = k) (freewalk (n + 1) page) (fun _ k' => Freed k k' n page) E := by
  induction n generalizing page k with
  | zero =>
    rw [freewalk]
    -- At the last level a valid entry is a panic, so the loop changes nothing.
    refine .pre (P := fun s => s = k ∧ ∀ j < 0, ¬ Valid (entry k.mem page j)) ?_
      fun s hs => ⟨hs, fun j hj => absurd hj (Nat.not_lt_zero j)⟩
    refine (Triple.forM_range (I := fun i s => s = k ∧ ∀ j < i, ¬ Valid (entry k.mem page j))
      fun i hi => ⟨?_, ?_⟩).bind fun _ => ⟨?_, fun _ hrun => absurd hwf.isPage (kfree_error hrun).1⟩
    · intro t _ t' ht hround
      replace hround := loadEntry_bind hround
      rw [ht.1] at hround
      split at hround
      · obtain ⟨_, _, ⟨⟩, -⟩ := bind_ok hround
      split at hround
      · cases hround
      rename_i hempty
      refine ⟨(pure_ok hround).2, fun j hj => ?_⟩
      by_cases hji : j < i
      · exact ht.2 j hji
      · have heq : j = i := by omega
        rw [heq]
        exact hempty
    · intro t e ht hround
      replace hround := loadEntry_bind hround
      rw [ht.1] at hround
      have hvalid : Valid (entry k.mem page i) := by
        by_contra hempty
        simp only [hempty, false_and, if_false] at hround
        cases hround
      rcases hE with hany | hnone
      · exact hany e
      · have hleaf := hnone i
        rw [leaf_zero k.mem page hi] at hleaf
        exact absurd hvalid hleaf
    intro s _ k' hs hlast
    obtain ⟨hsame, hentries⟩ := hs
    have hempty : ∀ v, ¬ Valid (leaf k.mem 0 page v) := by
      intro v
      show ¬ Valid (entry k.mem page (index 0 v))
      exact hentries (index 0 v) (index_lt 0 v)
    refine freed_kfree hempty (fun x => ?_) (fun y _ _ => ?_) hlast
    · rw [hsame]
      rfl
    · rw [hsame]
      exact .refl _ _ _
  | succ n ih =>
    have hstart : Freeing k k n page 0 :=
      ⟨fun _ _ _ => rfl, fun _ _ _ _ _ _ => .refl _ _ _, fun _ h => absurd h (Nat.not_lt_zero _),
        fun _ => rfl, fun _ _ _ => .refl _ _ _⟩
    -- The table below entry `i`, when the loop comes to it.
    have hchild : ∀ {i t}, i < 512 → Freeing k t n page i → Valid (entry k.mem page i) →
        Triple (fun s => s = t) (freewalk (n + 1) (PTE2PA (entry k.mem page i)))
          (fun _ t' => Freed t t' n (PTE2PA (entry k.mem page i))) E := by
      intro i t hi ht hv
      have hbelow := ht.below i hi (Nat.le_refl i) hv
      refine ih ((hwf.2 i hi hv).2.congr hbelow) (fun x => ?_) (hE.imp_right fun hnone v => ?_)
      · rw [pages_congr hbelow]
        exact child_once hone hi hv x
      · obtain ⟨w, hw⟩ := leaf_child (n := n) hi hv v
        rw [leaf_congr hbelow, ← hw]
        exact hnone w
    rw [freewalk]
    refine .pre (P := fun s => Freeing k s n page 0) ?_ fun s hs => hs ▸ hstart
    refine (Triple.forM_range (I := fun i s => Freeing k s n page i)
      fun i hi => ⟨?_, ?_⟩).bind fun _ => ⟨?_, fun _ hrun => absurd hwf.isPage (kfree_error hrun).1⟩
    · intro t _ t' ht hround
      replace hround := loadEntry_bind hround
      rw [ht.entries i hi (Nat.le_refl i)] at hround
      split at hround
      · rename_i hv
        obtain ⟨_, t₁, hdeep, hstore⟩ := bind_ok hround
        rw [storeWord_ok hstore]
        exact ht.descend hwf hone hi hv.1 ((hchild hi ht hv.1).ok rfl hdeep)
      split at hround
      · cases hround
      · rename_i hempty
        rw [(pure_ok hround).2]
        exact ht.skip hempty
    · intro t e ht hround
      replace hround := loadEntry_bind hround
      rw [ht.entries i hi (Nat.le_refl i)] at hround
      split at hround
      · rename_i hv
        rcases bind_error hround with hdeep | ⟨_, t₁, -, hstore⟩
        · exact (hchild hi ht hv.1).error rfl hdeep
        · cases hstore
      rename_i hleaf
      split at hround
      · rename_i hv
        exact absurd ⟨hv, (hwf.2 i hi hv).1⟩ hleaf
      · cases hround
    intro s _ k' hdone hlast
    apply freed_kfree (fun v => hdone.empty v (index_lt (n + 1) v)) (fun x => ?_) hdone.frame hlast
    rw [hdone.free, pages_succ]
    omega

end Xv6.Vm
