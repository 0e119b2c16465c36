import Xv6.Vm.PageMap
import Xv6.Vm.Uvm

/-!
# What one page table owns

Seen from one page table, a physical page is free, a page of the table, a user page that the table maps below
the trapframe, or somebody else's.  The functions of `kernel/vm.c` move pages between the first three, whether they
succeed or run out of memory halfway, and leave the memory of the others alone.
-/

namespace Xv6.Vm

open Finset Function Hoare Memory PageMap

variable {L : Layout} {k k' k'' : Kmem L} {root v w x c pa f : Nat} {m : Map}

/-- The page numbers of the two pages at the top of every user address space. -/
def trampolineNo : Nat := TRAMPOLINE / PGSIZE
def trapframeNo : Nat := TRAPFRAME / PGSIZE

theorem trapframeNo_ne : trapframeNo ≠ trampolineNo := by decide

theorem trapframeNo_lt : trapframeNo < NPAGES := by decide

theorem pagesOf_le_trapframeNo {sz : Nat} (h : sz ≤ TRAPFRAME) : pagesOf sz ≤ trapframeNo := by
  unfold pagesOf trapframeNo TRAPFRAME TRAMPOLINE MAXVA PGSIZE at *
  omega

/-! ## Counting user pages -/

def PointsTo (e : Option (Nat × Nat)) (x : Nat) : Prop := e.map Prod.fst = some x

instance (e : Option (Nat × Nat)) (x : Nat) : Decidable (PointsTo e x) := inferInstanceAs (Decidable (_ = _))

theorem not_pointsTo_none (x : Nat) : ¬ PointsTo none x := fun h => by cases h

theorem pointsTo_some : PointsTo (some (pa, f)) x ↔ x = pa := by
  unfold PointsTo
  rw [Option.map_some, Option.some_inj]
  exact eq_comm

theorem PointsTo.eq {e : Option (Nat × Nat)} (h : PointsTo e x) : ∃ f, e = some (x, f) := by
  cases e with
  | none => exact absurd h (not_pointsTo_none x)
  | some e => exact ⟨e.2, by rw [pointsTo_some.mp h]⟩

theorem pointsTo_lookup (hwf : WellFormed L k.mem 2 root) (hv : v < NPAGES) :
    PointsTo (lookup k root v) x ↔ Hits (leaf k.mem 2 root v) x := by
  rw [lookup_eq hwf hv, decode]
  unfold Hits
  by_cases hvalid : Valid (leaf k.mem 2 root v)
  · rw [if_pos hvalid, pointsTo_some]
    exact ⟨fun h => ⟨hvalid, h.symm⟩, fun h => h.2.symm⟩
  · rw [if_neg hvalid]
    exact ⟨fun h => absurd h (not_pointsTo_none x), fun h => absurd h.1 hvalid⟩

def users (m : Map) (x : Nat) : Nat := ∑ v ∈ range trapframeNo, if PointsTo (m v) x then 1 else 0

theorem users_update (m : Map) (e : Option (Nat × Nat)) (x : Nat) (hv : v < trapframeNo) :
    users (update m v e) x + (if PointsTo (m v) x then 1 else 0) = users m x + if PointsTo e x then 1 else 0 := by
  have hsum := Sums.sum_change (f := fun w => if PointsTo (update m v e w) x then 1 else 0)
    (g := fun w => if PointsTo (m w) x then 1 else 0) (mem_range.mpr hv)
    fun w _ hne => by simp only [update_of_ne hne]
  simp only [update_self] at hsum
  exact hsum

theorem users_congr {m' : Map} (h : ∀ v < trapframeNo, m' v = m v) : users m' x = users m x := by
  apply sum_congr rfl
  intro v hv
  rw [h v (mem_range.mp hv)]

theorem users_pos (hv : v < trapframeNo) (h : m v = some (x, f)) : 0 < users m x := by
  have hterm := Sums.term_le_sum (f := fun w => if PointsTo (m w) x then 1 else 0) (mem_range.mpr hv)
  simp only [h, if_pos (pointsTo_some.mpr rfl)] at hterm
  exact hterm

theorem users_eq_zero (h : ∀ v < trapframeNo, ¬ PointsTo (m v) x) : users m x = 0 :=
  sum_eq_zero fun v hv => if_neg (h v (mem_range.mp hv))

theorem exists_of_users_ne_zero (h : users m x ≠ 0) : ∃ v f, v < trapframeNo ∧ m v = some (x, f) := by
  by_contra hnone
  apply h
  apply users_eq_zero
  intro v hv hpoints
  obtain ⟨f, hf⟩ := hpoints.eq
  exact hnone ⟨v, f, hv, hf⟩

theorem eq_of_users_le {f' : Nat} (h : users m x ≤ 1) (hv : v < trapframeNo) (hw : w < trapframeNo)
    (hmv : m v = some (x, f)) (hmw : m w = some (x, f')) : v = w := by
  by_contra hne
  have hterms := Sums.two_terms_le_sum (f := fun w => if PointsTo (m w) x then 1 else 0) (mem_range.mpr hv)
    (mem_range.mpr hw) hne
  simp only [hmv, hmw, if_pos (pointsTo_some.mpr rfl)] at hterms
  unfold users at h
  omega

theorem users_le_one
    (h : ∀ {v w f f'}, v < trapframeNo → w < trapframeNo → m v = some (x, f) → m w = some (x, f') → v = w) :
    users m x ≤ 1 := by
  unfold users
  rw [← card_filter, card_le_one]
  intro v hv w hw
  obtain ⟨hv, hmv⟩ := mem_filter.mp hv
  obtain ⟨hw, hmw⟩ := mem_filter.mp hw
  obtain ⟨_, hmv⟩ := hmv.eq
  obtain ⟨_, hmw⟩ := hmw.eq
  exact h (mem_range.mp hv) (mem_range.mp hw) hmv hmw

/-! ## The pages of a table -/

/-- How often page `x` is free, a page of the table, or one of its user pages. -/
def estate (k : Kmem L) (root x : Nat) : Nat := k.free x + pages k.mem 2 root x + users (lookup k root) x

/-- No page serves two purposes, and the user pages are pages of the allocator. -/
structure Owns (k : Kmem L) (root : Nat) : Prop where
  wf : WellFormed L k.mem 2 root
  once : ∀ x, estate k root x ≤ 1
  page : ∀ {v pa f}, v < trapframeNo → lookup k root v = some (pa, f) → L.IsPage pa

theorem Owns.apart (h : Owns k root) : Apart k 2 root := by
  refine ⟨h.wf, fun x => ?_⟩
  have honce := h.once x
  unfold estate at honce
  omega

theorem Owns.user (h : Owns k root) (hv : v < trapframeNo) (hlook : lookup k root v = some (pa, f)) :
    k.free pa + pages k.mem 2 root pa = 0 := by
  have hpos := users_pos hv hlook
  have honce := h.once pa
  unfold estate at honce
  omega

theorem Owns.inj {f' : Nat} (h : Owns k root) (hv : v < trapframeNo) (hw : w < trapframeNo)
    (hlook : lookup k root v = some (pa, f)) (hlook' : lookup k root w = some (pa, f')) : v = w := by
  refine eq_of_users_le ?_ hv hw hlook hlook'
  have honce := h.once pa
  unfold estate at honce
  omega

/-- Pages have changed hands between the free list, the table and its users, and the memory of other pages is as it
was. -/
structure Conserves (k k' : Kmem L) (root : Nat) : Prop where
  count : ∀ x, estate k' root x = estate k root x
  frame : ∀ y, y % PGSIZE = 0 → estate k root y = 0 → Agree k.mem k'.mem y PGSIZE
  beyond : ∀ v < NENTRIES, NPAGES ≤ v → leaf k'.mem 2 root v = leaf k.mem 2 root v

theorem Conserves.refl (k : Kmem L) (root : Nat) : Conserves k k root :=
  ⟨fun _ => rfl, fun _ _ _ => .refl _ _ _, fun _ _ _ => rfl⟩

theorem Conserves.trans (h : Conserves k k' root) (h' : Conserves k' k'' root) : Conserves k k'' root := by
  refine ⟨fun x => ?_, fun y hy hzero => ?_, fun v hv hhigh => ?_⟩
  · rw [h'.count, h.count]
  · have hzero' : estate k' root y = 0 := by
      rw [h.count]
      exact hzero
    exact (h.frame y hy hzero).trans (h'.frame y hy hzero')
  · rw [h'.beyond v hv hhigh, h.beyond v hv hhigh]

theorem Owns.of_conserves (h : Owns k root) (hk : Conserves k k' root) (hwf : WellFormed L k'.mem 2 root)
    (hpage : ∀ {v pa f}, v < trapframeNo → lookup k' root v = some (pa, f) → L.IsPage pa) : Owns k' root := by
  refine ⟨hwf, fun x => ?_, hpage⟩
  rw [hk.count]
  exact h.once x

/-! ## Mapping a page -/

/-- A page has been taken from the free list, and only it has been written. -/
structure Taken (k k' : Kmem L) (c : Nat) : Prop where
  isPage : L.IsPage c
  freelist : k.freelist = c :: k'.freelist
  others : ∀ y, y % PGSIZE = 0 → y ≠ c → Agree k.mem k'.mem y PGSIZE

theorem Taken.free (ht : Taken k k' c) (x : Nat) : k.free x = k'.free x + if x = c then 1 else 0 :=
  free_of_freelist ht.freelist

theorem Taken.write {m' : Mem} (ht : Taken k k' c) (h : ∀ y, y % PGSIZE = 0 → y ≠ c → Agree k'.mem m' y PGSIZE) :
    Taken k (k'.write m') c :=
  ⟨ht.isPage, ht.freelist, fun y hy hne => (ht.others y hy hne).trans (h y hy hne)⟩

theorem Taken.sameTable (ht : Taken k k' c) (h : Apart k 2 root) : SameTable k.mem k'.mem 2 root := by
  intro y hy
  apply ht.others y (h.wf.isPage_of_pages hy).1
  intro heq
  have hfree := ht.free c
  have honce := h.once c
  rw [if_pos rfl] at hfree
  rw [heq] at hy
  omega

theorem Taken.apart (ht : Taken k k' c) (h : Apart k 2 root) : Apart k' 2 root := by
  refine ⟨h.wf.congr (ht.sameTable h), fun x => ?_⟩
  have hfree := ht.free x
  have honce := h.once x
  rw [pages_congr (ht.sameTable h)]
  omega

theorem lookup_congr (hwf : WellFormed L k.mem 2 root) (h : SameTable k.mem k'.mem 2 root) :
    lookup k' root = lookup k root := by
  funext v
  by_cases hv : v < NPAGES
  · rw [lookup_eq (hwf.congr h) hv, lookup_eq hwf hv, leaf_congr h]
  · rw [lookup_of_ge (Nat.le_of_not_lt hv), lookup_of_ge (Nat.le_of_not_lt hv)]

theorem lt_of_lookup (hlook : lookup k root v = some (pa, f)) : v < NPAGES := by
  by_contra hge
  rw [lookup_of_ge (Nat.le_of_not_lt hge)] at hlook
  cases hlook

variable {va : Nat}

theorem lt_MAXVA_of_lookup (hlook : lookup k root (va / PGSIZE) = some (pa, f)) : va < MAXVA := by
  have hlt := lt_of_lookup hlook
  unfold NPAGES at hlt
  unfold MAXVA PGSIZE at *
  omega

theorem translate_of_lookup (hlook : lookup k root (va / PGSIZE) = some (pa, f)) (hu : f &&& PTE_U ≠ 0) :
    (lookup k root).translate va = pa := by
  unfold Map.translate
  rw [if_neg (Nat.not_le_of_lt (lt_MAXVA_of_lookup hlook)), hlook]
  exact if_neg hu

theorem translate_of_none (hlook : lookup k root (va / PGSIZE) = none) : (lookup k root).translate va = 0 := by
  unfold Map.translate
  rw [hlook]
  exact ite_self 0

theorem translate_of_kernel (hlook : lookup k root (va / PGSIZE) = some (pa, f)) (hu : f &&& PTE_U = 0) :
    (lookup k root).translate va = 0 := by
  unfold Map.translate
  rw [hlook]
  dsimp only
  rw [if_pos hu, ite_self]

section Taken

variable {k₂ k₃ : Kmem L} {perm : Nat} (h : Apart k 2 root) (ht : Taken k k₂ c)

include h ht

theorem Taken.taken : 0 < k.free c ∧ k₂.free c + pages k₂.mem 2 root c = 0 := by
  have hfree := ht.free c
  have honce := h.once c
  rw [if_pos rfl] at hfree
  rw [pages_congr (ht.sameTable h)]
  omega

theorem Taken.elsewhere {y : Nat} (hy : k.free y + pages k.mem 2 root y = 0) :
    y ≠ c ∧ k₂.free y + pages k₂.mem 2 root y = 0 := by
  have hfree := ht.free y
  have hne : y ≠ c := by
    rintro rfl
    have hpos := (ht.taken h).1
    omega
  rw [if_neg hne] at hfree
  rw [pages_congr (ht.sameTable h)]
  exact ⟨hne, by omega⟩

end Taken

/-- The table maps page `v` to the page that was taken, with the contents that it had. -/
structure Placed (k k₂ k' : Kmem L) (root v c perm : Nat) : Prop where
  wf : WellFormed L k'.mem 2 root
  entries : lookup k' root = update (lookup k root) v (some (c, perm ||| PTE_V))
  count : ∀ x, k'.free x + pages k'.mem 2 root x + (if x = c then 1 else 0) = k.free x + pages k.mem 2 root x
  frame : ∀ y, y % PGSIZE = 0 → k.free y + pages k.mem 2 root y = 0 → Agree k.mem k'.mem y PGSIZE
  content : Agree k₂.mem k'.mem c PGSIZE
  beyond : ∀ w < NENTRIES, NPAGES ≤ w → leaf k'.mem 2 root w = leaf k.mem 2 root w

/-- The table maps what it mapped before, although it may have new pages of its own. -/
structure Undone (k k' : Kmem L) (root : Nat) : Prop where
  wf : WellFormed L k'.mem 2 root
  entries : lookup k' root = lookup k root
  count : ∀ x, k'.free x + pages k'.mem 2 root x = k.free x + pages k.mem 2 root x
  frame : ∀ y, y % PGSIZE = 0 → k.free y + pages k.mem 2 root y = 0 → Agree k.mem k'.mem y PGSIZE
  beyond : ∀ w < NENTRIES, NPAGES ≤ w → leaf k'.mem 2 root w = leaf k.mem 2 root w

section Map

variable {k₂ k₃ : Kmem L} {perm : Nat} (h : Apart k 2 root) (ht : Taken k k₂ c)

include h ht

theorem Taken.placed (hv : v < NPAGES) (hperm : perm < 2 ^ 10)
    (hc : Changes k₂ k₃ root (setLeaf (leaf k₂.mem 2 root) v (mapping c perm)) fun _ => 0) :
    Placed k k₂ k₃ root v c perm := by
  have hsame := ht.sameTable h
  refine ⟨hc.wf, ?_, fun x => ?_, fun y hy hzero => ?_, ?_, fun w hw hhigh => ?_⟩
  · rw [lookup_of_mapped (ht.apart h).wf hv hc ht.isPage.1 ht.isPage.lt hperm, lookup_congr h.wf hsame]
  · have hcount := hc.count x
    have hfree := ht.free x
    rw [pages_congr hsame] at hcount
    omega
  · obtain ⟨hne, hzero⟩ := ht.elsewhere h hzero
    exact (ht.others y hy hne).trans (hc.frame y hy (by omega) (by omega) rfl)
  · have hzero := (ht.taken h).2
    exact hc.frame c ht.isPage.1 (by omega) (by omega) rfl
  · rw [hc.leaf, setLeaf_of_ne (lt_NENTRIES hv) hw (by omega), leaf_congr hsame]

theorem Taken.undone (hg : Grown k₂ k₃ 2 root) : ∃ k', kfree c k₃ = .ok ((), k') ∧ Undone k k' root := by
  have hsame := ht.sameTable h
  obtain ⟨k', hrun, -⟩ := kfree_page k₃ ht.isPage
  have htaken := (ht.taken h).2
  have hout : pages k₃.mem 2 root c = 0 := by
    have hcount := hg.count c
    omega
  obtain ⟨hc, hsame'⟩ := changes_kfree hg.wf hout hrun
  refine ⟨k', hrun, hc.wf, ?_, fun x => ?_, fun y hy hzero => ?_, fun w _ _ => ?_⟩
  · rw [lookup_congr hg.wf hsame', lookup_of_grown hg (ht.apart h), lookup_congr h.wf hsame]
  · have hafter := hc.count x
    have hgrown := hg.count x
    have hfree := ht.free x
    rw [pages_congr hsame] at hgrown
    omega
  · obtain ⟨hne, hzero⟩ := ht.elsewhere h hzero
    have hgrown := hg.count y
    exact ((ht.others y hy hne).trans (hg.frame y hy (by omega) (by omega))).trans
      (hc.frame y hy (by omega) (by omega) (if_neg hne))
  · rw [hc.leaf, hg.leaf, leaf_congr hsame]

theorem Taken.tryMap (hv : v < NPAGES) (hnone : lookup k root v = none) (hperm : perm < 2 ^ 10) :
    ∃ r k₃, mappages root (v * PGSIZE) PGSIZE c perm k₂ = .ok (r, k₃) ∧
      (r = 0 ∧ Placed k k₂ k₃ root v c perm ∨ r ≠ 0 ∧ ∃ k', kfree c k₃ = .ok ((), k') ∧ Undone k k' root) := by
  have hdiv := mul_PGSIZE_div v
  have hapart := ht.apart h
  cases hrun : mappages root (v * PGSIZE) PGSIZE c perm k₂ with
  | error =>
    rcases mappages_error hapart hrun with halign | hmax | hvalid
    · exact absurd (Nat.mul_mod_left v PGSIZE) halign
    · exact absurd hmax (Nat.not_le_of_lt (mul_lt_MAXVA hv))
    · rw [hdiv] at hvalid
      rw [← lookup_congr h.wf (ht.sameTable h), lookup_eq hapart.wf hv, decode_eq_none] at hnone
      exact absurd hvalid hnone
  | ok r =>
    refine ⟨r.1, r.2, rfl, ?_⟩
    obtain ⟨-, -, ⟨hr, hg, -⟩ | ⟨hr, -, hc⟩⟩ := mappages_page hapart ht.isPage.1 ht.isPage.lt hperm hrun
    · right
      rw [hr]
      exact ⟨by decide, ht.undone h hg⟩
    · rw [hdiv] at hc
      exact .inl ⟨hr, ht.placed h hv hperm hc⟩

end Map

/-- Page `v` has been mapped to a page that was taken, with the contents that it had. -/
structure Mapped (k k₂ k' : Kmem L) (root v c perm : Nat) : Prop where
  owns : Owns k' root
  entries : lookup k' root = update (lookup k root) v (some (c, perm ||| PTE_V))
  content : Agree k₂.mem k'.mem c PGSIZE
  spares : ∀ {w pa f}, w < trapframeNo → lookup k root w = some (pa, f) → Agree k.mem k'.mem pa PGSIZE
  conserves : Conserves k k' root

theorem Placed.mapped {k₂ k₃ : Kmem L} {perm : Nat} (hp : Placed k k₂ k₃ root v c perm) (h : Owns k root)
    (hv : v < trapframeNo) (hnone : lookup k root v = none) (hc : L.IsPage c) : Mapped k k₂ k₃ root v c perm := by
  have hcons : Conserves k k₃ root := by
    refine ⟨fun x => ?_, fun y hy hzero => ?_, hp.beyond⟩
    · have hcount := hp.count x
      have husers := users_update (lookup k root) (some (c, perm ||| PTE_V)) x hv
      rw [hnone, if_neg (not_pointsTo_none x)] at husers
      simp only [pointsTo_some] at husers
      unfold estate
      rw [hp.entries]
      omega
    · unfold estate at hzero
      exact hp.frame y hy (by omega)
  refine ⟨h.of_conserves hcons hp.wf fun {w pa f} hw hlook => ?_, hp.entries, hp.content, fun hw hlook =>
    hp.frame _ (h.page hw hlook).1 (h.user hw hlook), hcons⟩
  rw [hp.entries] at hlook
  by_cases heq : w = v
  · rw [heq, update_self] at hlook
    cases hlook
    exact hc
  · rw [update_of_ne heq] at hlook
    exact h.page hw hlook

/-- The table maps what it mapped before, to the same contents. -/
structure Restored (k k' : Kmem L) (root : Nat) : Prop where
  owns : Owns k' root
  entries : lookup k' root = lookup k root
  spares : ∀ {w pa f}, w < trapframeNo → lookup k root w = some (pa, f) → Agree k.mem k'.mem pa PGSIZE
  conserves : Conserves k k' root

theorem Restored.refl (h : Owns k root) : Restored k k root := ⟨h, rfl, fun _ _ => .refl _ _ _, .refl k root⟩

theorem Undone.restored (hu : Undone k k' root) (h : Owns k root) : Restored k k' root := by
  have hcons : Conserves k k' root := by
    refine ⟨fun x => ?_, fun y hy hzero => ?_, hu.beyond⟩
    · unfold estate
      rw [hu.entries, hu.count]
    · unfold estate at hzero
      exact hu.frame y hy (by omega)
  refine ⟨h.of_conserves hcons hu.wf fun {w pa f} hw hlook => ?_, hu.entries, fun hw hlook =>
    hu.frame _ (h.page hw hlook).1 (h.user hw hlook), hcons⟩
  rw [hu.entries] at hlook
  exact h.page hw hlook

theorem Owns.tryMap {k₂ : Kmem L} {perm : Nat} (h : Owns k root) (hv : v < trapframeNo)
    (hnone : lookup k root v = none) (ht : Taken k k₂ c) (hperm : perm < 2 ^ 10) :
    ∃ r k₃, mappages root (v * PGSIZE) PGSIZE c perm k₂ = .ok (r, k₃) ∧
      (r = 0 ∧ Mapped k k₂ k₃ root v c perm ∨ r ≠ 0 ∧ ∃ k', kfree c k₃ = .ok ((), k') ∧ Restored k k' root) := by
  obtain ⟨r, k₃, hrun, ⟨hr, hp⟩ | ⟨hr, k', hfree, hu⟩⟩ := ht.tryMap h.apart (Nat.lt_trans hv trapframeNo_lt) hnone hperm
  · exact ⟨r, k₃, hrun, .inl ⟨hr, hp.mapped h hv hnone ht.isPage⟩⟩
  · exact ⟨r, k₃, hrun, .inr ⟨hr, k', hfree, hu.restored h⟩⟩

/-! ## Writing to a page -/

/-- Only page `pa` has been written, and the table is as it was. -/
structure Patched (k k' : Kmem L) (root pa : Nat) : Prop where
  owns : Owns k' root
  entries : lookup k' root = lookup k root
  others : ∀ y, y % PGSIZE = 0 → y ≠ pa → Agree k.mem k'.mem y PGSIZE

theorem sameTable_of_others {m' : Mem} (hwf : WellFormed L k.mem 2 root)
    (hout : k.free pa + pages k.mem 2 root pa = 0) (hothers : ∀ y, y % PGSIZE = 0 → y ≠ pa → Agree k.mem m' y PGSIZE) :
    SameTable k.mem m' 2 root := by
  intro y hy
  apply hothers y (hwf.isPage_of_pages hy).1
  rintro rfl
  omega

theorem Owns.patched {m' : Mem} (h : Owns k root) (hv : v < trapframeNo) (hlook : lookup k root v = some (pa, f))
    (hothers : ∀ y, y % PGSIZE = 0 → y ≠ pa → Agree k.mem m' y PGSIZE) : Patched k (k.write m') root pa := by
  have hsame := sameTable_of_others h.wf (h.user hv hlook) hothers
  have hentries : lookup (k.write m') root = lookup k root := lookup_congr h.wf hsame
  have hcons : Conserves k (k.write m') root := by
    refine ⟨fun x => ?_, fun y hy hnone => ?_, fun w _ _ => leaf_congr hsame⟩
    · unfold estate
      rw [hentries, free_write, Kmem.write_mem, pages_congr hsame]
    apply hothers y hy
    rintro rfl
    have hpos := users_pos hv hlook
    unfold estate at hnone
    omega
  refine ⟨h.of_conserves hcons (h.wf.congr hsame) fun {w pa f} hw hl => ?_, hentries, hothers⟩
  rw [hentries] at hl
  exact h.page hw hl

theorem Owns.store {l : List UInt8} {off : Nat} (h : Owns k root) (hv : v < trapframeNo)
    (hlook : lookup k root v = some (pa, f)) (hoff : off + l.length ≤ PGSIZE) :
    Patched k (k.write (store k.mem (pa + off) l)) root pa := by
  apply h.patched hv hlook
  intro y hy hne
  have hdisj := page_disjoint hy (h.page hv hlook).1 hne
  exact agree_store (by omega)

/-! ## Unmapping -/

/-- The user pages are pages of the allocator and none of the table's own.  They may be free, and mapped twice. -/
structure Tidy (k : Kmem L) (root : Nat) : Prop where
  wf : WellFormed L k.mem 2 root
  once : ∀ x, pages k.mem 2 root x ≤ 1
  target : ∀ {v pa f}, v < trapframeNo → lookup k root v = some (pa, f) → L.IsPage pa ∧ pages k.mem 2 root pa = 0

theorem Owns.tidy (h : Owns k root) : Tidy k root := by
  refine ⟨h.wf, pages_le_one h.apart, fun {v pa f} hv hlook => ⟨h.page hv hlook, ?_⟩⟩
  have hzero := h.user hv hlook
  omega

/-- Pages `lo` to `hi` are not mapped any more, and the user pages among them have been freed. -/
structure Unmapped (k k' : Kmem L) (root lo hi : Nat) : Prop where
  tidy : Tidy k' root
  entries : ∀ w, lookup k' root w = if lo ≤ w ∧ w < hi then none else lookup k root w
  tables : ∀ x, pages k'.mem 2 root x = pages k.mem 2 root x
  count : ∀ x, estate k' root x = estate k root x
  frame : ∀ y, y % PGSIZE = 0 → k.free y = 0 → pages k.mem 2 root y = 0 →
    (∀ w < trapframeNo, lo ≤ w → w < hi → ¬ PointsTo (lookup k root w) y) →
    k'.free y = 0 ∧ Agree k.mem k'.mem y PGSIZE
  beyond : ∀ v < NENTRIES, NPAGES ≤ v → leaf k'.mem 2 root v = leaf k.mem 2 root v

theorem Unmapped.refl (h : Tidy k root) (lo : Nat) : Unmapped k k root lo lo :=
  ⟨h, fun w => (if_neg (by omega)).symm, fun _ => rfl, fun _ => rfl, fun _ _ hfree _ _ => ⟨hfree, .refl _ _ _⟩,
    fun _ _ _ => rfl⟩

theorem Unmapped.trans {lo mid hi : Nat} (h : Unmapped k k' root lo mid) (h' : Unmapped k' k'' root mid hi)
    (hlo : lo ≤ mid) (hhi : mid ≤ hi) : Unmapped k k'' root lo hi := by
  refine ⟨h'.tidy, fun w => ?_, fun x => ?_, fun x => ?_, fun y hy hfree hpages hout => ?_, fun v hv hhigh => ?_⟩
  · rw [h'.entries, h.entries]
    by_cases hin : lo ≤ w ∧ w < hi
    · rw [if_pos hin]
      by_cases hmid : mid ≤ w
      · rw [if_pos ⟨hmid, hin.2⟩]
      · rw [if_neg (by omega), if_pos (by omega)]
    · rw [if_neg hin, if_neg (by omega), if_neg (by omega)]
  · rw [h'.tables, h.tables]
  · rw [h'.count, h.count]
  · obtain ⟨hfree', hagree⟩ := h.frame y hy hfree hpages fun w hw hge hlt => hout w hw hge (by omega)
    have hpages' : pages k'.mem 2 root y = 0 := by
      rw [h.tables]
      exact hpages
    obtain ⟨hfree'', hagree'⟩ := h'.frame y hy hfree' hpages' fun w hw hge hlt => by
      rw [h.entries, if_neg (by omega)]
      exact hout w hw (by omega) hlt
    exact ⟨hfree'', hagree.trans hagree'⟩
  · rw [h'.beyond v hv hhigh, h.beyond v hv hhigh]

theorem Unmapped.conserves {lo hi : Nat} (h : Unmapped k k' root lo hi) : Conserves k k' root := by
  refine ⟨h.count, fun y hy hzero => ?_, h.beyond⟩
  unfold estate at hzero
  refine (h.frame y hy (by omega) (by omega) fun w hw _ _ hpoints => ?_).2
  obtain ⟨f, hlook⟩ := hpoints.eq
  have hpos := users_pos hw hlook
  omega

theorem users_clear (m : Map) (v x : Nat) :
    users (update m v none) x + (if v < trapframeNo ∧ PointsTo (m v) x then 1 else 0) = users m x := by
  by_cases hv : v < trapframeNo
  · have husers := users_update m none x hv
    rw [if_neg (not_pointsTo_none x), Nat.add_zero] at husers
    simp only [hv, true_and]
    exact husers
  rw [if_neg fun h => hv h.1, Nat.add_zero]
  apply users_congr
  intro w hw
  exact update_of_ne (by omega) _ _

theorem Valid.lookup {e : Nat} (hwf : WellFormed L k.mem 2 root) (hv : v < NPAGES) (he : leaf k.mem 2 root v = e)
    (hvalid : Valid e) : lookup k root v = some (PTE2PA e, PTE_FLAGS e) := by
  rw [lookup_eq hwf hv, he, decode, if_pos hvalid]

theorem Tidy.unmapPage (doFree : Bool) (h : Tidy k root) (hv : v < NPAGES) (hdo : doFree = true ↔ v < trapframeNo) :
    ∃ k', unmapPage root doFree (v * PGSIZE) k = .ok ((), k') ∧ Unmapped k k' root v (v + 1) := by
  have hdiv := mul_PGSIZE_div v
  obtain ⟨k', hrun⟩ : ∃ k', Vm.unmapPage root doFree (v * PGSIZE) k = .ok ((), k') := by
    apply unmapPage_returns h.wf (mul_lt_MAXVA hv)
    intro hfree hvalid
    rw [hdiv] at hvalid ⊢
    exact (h.target (hdo.mp hfree) (hvalid.lookup h.wf hv rfl)).1
  refine ⟨k', hrun, ?_⟩
  obtain ⟨-, hcases⟩ := unmapPage_ok h.wf h.once (fun hfree _ hvalid => by
    rw [hdiv] at hvalid ⊢
    exact (h.target (hdo.mp hfree) (hvalid.lookup h.wf hv rfl)).2) hrun
  rw [hdiv] at hcases
  -- What the entries are it is enough to know for the one that is cleared.
  have hrange : ∀ {m : Map}, m = update (lookup k root) v none →
      ∀ w, m w = if v ≤ w ∧ w < v + 1 then none else lookup k root w := by
    rintro m rfl w
    by_cases heq : w = v
    · rw [heq, update_self, if_pos (by omega)]
    · rw [update_of_ne heq, if_neg (by omega)]
  rcases hcases with ⟨hinvalid, rfl⟩ | ⟨hvalid, hc, htables⟩
  · refine ⟨h, hrange ?_, fun _ => rfl, fun _ => rfl, fun _ _ hfree _ _ => ⟨hfree, .refl _ _ _⟩, fun _ _ _ => rfl⟩
    rw [eq_update_self_iff, lookup_eq h.wf hv]
    exact decode_of_not_valid hinvalid
  have hlook := hvalid.lookup h.wf hv rfl
  have hentries : lookup k' root = update (lookup k root) v none := by
    funext w
    by_cases hw : w < NPAGES
    · rw [lookup_eq hc.wf hw, hc.leaf]
      by_cases heq : w = v
      · rw [heq, setLeaf_self, update_self]
        exact decode_of_not_valid not_valid_zero
      · rw [setLeaf_of_ne (lt_NENTRIES hv) (lt_NENTRIES hw) heq, update_of_ne heq, lookup_eq h.wf hw]
    · rw [lookup_of_ge (Nat.le_of_not_lt hw), update_of_ne (by omega), lookup_of_ge (Nat.le_of_not_lt hw)]
  refine ⟨⟨hc.wf, fun x => ?_, fun {w pa f} hw hl => ?_⟩, hrange hentries, htables, fun x => ?_,
    fun y hy hfree hpages hout => ?_, fun w hw hhigh => ?_⟩
  · rw [htables]
    exact h.once x
  · rw [hrange hentries] at hl
    split at hl
    · cases hl
    · rw [htables]
      exact h.target hw hl
  · have hcount := hc.count x
    have husers := users_clear (lookup k root) v x
    simp only [hlook, pointsTo_some, ← hdo] at husers
    unfold estate
    rw [hentries]
    omega
  · have hkept : (if doFree = true ∧ y = PTE2PA (leaf k.mem 2 root v) then 1 else 0) = 0 := by
      apply if_neg
      rintro ⟨hdoes, rfl⟩
      apply hout v (hdo.mp hdoes) (Nat.le_refl v) (Nat.lt_succ_self v)
      rw [hlook]
      exact pointsTo_some.mpr rfl
    have hcount := hc.count y
    exact ⟨by omega, hc.frame y hy hfree hpages hkept⟩
  · rw [hc.leaf, setLeaf_of_ne (lt_NENTRIES hv) hw (by omega)]

theorem Tidy.unmapLoop {n : Nat} (h : Tidy k root) (hv : v + n ≤ trapframeNo) :
    ∃ k', uvmunmapLoop root true n (v * PGSIZE) k = .ok ((), k') ∧ Unmapped k k' root v (v + n) := by
  induction n generalizing v k with
  | zero => exact ⟨k, rfl, .refl h v⟩
  | succ n ih =>
    have hlt : v < trapframeNo := by omega
    obtain ⟨k₁, hone, h₁⟩ := h.unmapPage true (Nat.lt_trans hlt trapframeNo_lt) (iff_of_true rfl hlt)
    obtain ⟨k', hrest, h'⟩ := ih (v := v + 1) h₁.tidy (by omega)
    refine ⟨k', ?_, ?_⟩
    · rw [Nat.succ_mul] at hrest
      rw [uvmunmapLoop, bind_of_ok hone]
      exact hrest
    · rw [Nat.add_right_comm] at h'
      exact h₁.trans h' (by omega) (by omega)

theorem unmap_rounds_pages {n : Nat} (h : v + n ≤ NPAGES) :
    ((v * PGSIZE + n * PGSIZE) % 2 ^ 64 - v * PGSIZE) / PGSIZE = n := by
  apply unmap_rounds
  unfold NPAGES at h
  unfold PGSIZE MAXVA
  omega

theorem Tidy.uvmunmap {n : Nat} (h : Tidy k root) (hv : v + n ≤ trapframeNo) :
    ∃ k', uvmunmap root (v * PGSIZE) n true k = .ok ((), k') ∧ Unmapped k k' root v (v + n) := by
  unfold Vm.uvmunmap
  rw [if_neg (not_not.mpr (Nat.mul_mod_left v PGSIZE)), unmap_rounds_pages (Nat.le_trans hv (Nat.le_of_lt trapframeNo_lt))]
  exact h.unmapLoop hv

theorem Tidy.uvmunmap_top (h : Tidy k root) (hlo : trapframeNo ≤ v) (hhi : v < NPAGES) :
    ∃ k', Vm.uvmunmap root (v * PGSIZE) 1 false k = .ok ((), k') ∧ Unmapped k k' root v (v + 1) := by
  unfold Vm.uvmunmap
  rw [if_neg (not_not.mpr (Nat.mul_mod_left v PGSIZE)), unmap_rounds_pages (by omega)]
  obtain ⟨k', hrun, h'⟩ := h.unmapPage false hhi (iff_of_false Bool.false_ne_true (Nat.not_lt_of_le hlo))
  refine ⟨k', ?_, h'⟩
  rw [uvmunmapLoop, bind_of_ok hrun]
  rfl

/-- The same for a table that has its pages to itself: the other user pages keep their contents. -/
structure Cleared (k k' : Kmem L) (root lo hi : Nat) : Prop where
  owns : Owns k' root
  entries : ∀ w, lookup k' root w = if lo ≤ w ∧ w < hi then none else lookup k root w
  spares : ∀ {w pa f}, w < trapframeNo → ¬ (lo ≤ w ∧ w < hi) → lookup k root w = some (pa, f) →
    Agree k.mem k'.mem pa PGSIZE
  tables : ∀ x, pages k'.mem 2 root x = pages k.mem 2 root x
  conserves : Conserves k k' root

theorem Unmapped.cleared {lo hi : Nat} (hu : Unmapped k k' root lo hi) (h : Owns k root) : Cleared k k' root lo hi := by
  refine ⟨h.of_conserves hu.conserves hu.tidy.wf fun {w pa f} hw hl => (hu.tidy.target hw hl).1, hu.entries,
    fun {w pa f} hw hout hlook => ?_, hu.tables, hu.conserves⟩
  have hzero := h.user hw hlook
  refine (hu.frame pa (h.page hw hlook).1 (by omega) (by omega) fun w' hw' hge hlt hpoints => ?_).2
  obtain ⟨f', hlook'⟩ := hpoints.eq
  have heq := h.inj hw hw' hlook hlook'
  omega

theorem Cleared.refl (h : Owns k root) (lo : Nat) : Cleared k k root lo lo := (Unmapped.refl h.tidy lo).cleared h

theorem Owns.uvmunmap {n : Nat} (h : Owns k root) (hv : v + n ≤ trapframeNo) :
    ∃ k', Vm.uvmunmap root (v * PGSIZE) n true k = .ok ((), k') ∧ Cleared k k' root v (v + n) := by
  obtain ⟨k', hrun, hu⟩ := h.tidy.uvmunmap hv
  exact ⟨k', hrun, hu.cleared h⟩

theorem Owns.uvmunmap_top (h : Owns k root) (hlo : trapframeNo ≤ v) (hhi : v < NPAGES) :
    ∃ k', Vm.uvmunmap root (v * PGSIZE) 1 false k = .ok ((), k') ∧ Cleared k k' root v (v + 1) := by
  obtain ⟨k', hrun, hu⟩ := h.tidy.uvmunmap_top hlo hhi
  exact ⟨k', hrun, hu.cleared h⟩

theorem Owns.uvmdealloc {oldsz newsz : Nat} (h : Owns k root) (hold : oldsz ≤ TRAPFRAME) (hlt : newsz < oldsz) :
    ∃ k', uvmdealloc root oldsz newsz k = .ok (newsz, k') ∧ Cleared k k' root (pagesOf newsz) (pagesOf oldsz) := by
  have hmax : oldsz ≤ MAXVA := Nat.le_trans hold (by decide)
  have hmax' : newsz ≤ MAXVA := Nat.le_trans (Nat.le_of_lt hlt) hmax
  have hup : PGROUNDUP oldsz = pagesOf oldsz * PGSIZE := PGROUNDUP_eq hmax
  have hup' : PGROUNDUP newsz = pagesOf newsz * PGSIZE := PGROUNDUP_eq hmax'
  have hmono : pagesOf newsz ≤ pagesOf oldsz := pagesOf_mono (Nat.le_of_lt hlt)
  unfold Vm.uvmdealloc
  rw [if_neg (Nat.not_le_of_lt hlt)]
  by_cases hless : PGROUNDUP newsz < PGROUNDUP oldsz
  · have hsum : pagesOf newsz + (pagesOf oldsz - pagesOf newsz) = pagesOf oldsz := Nat.add_sub_of_le hmono
    have htop : pagesOf oldsz ≤ trapframeNo := by
      unfold pagesOf trapframeNo TRAPFRAME TRAMPOLINE MAXVA PGSIZE at *
      omega
    obtain ⟨k', hrun, h'⟩ := h.uvmunmap (v := pagesOf newsz) (n := pagesOf oldsz - pagesOf newsz)
      (by rw [hsum]; exact htop)
    rw [hsum] at h'
    refine ⟨k', ?_, h'⟩
    rw [if_pos hless]
    simp only [dealloc_npages hmax hmax']
    rw [← hup'] at hrun
    rw [bind_of_ok hrun]
    rfl
  have hsame : pagesOf oldsz = pagesOf newsz := by
    rw [hup, hup'] at hless
    exact Nat.le_antisymm (Nat.le_of_mul_le_mul_right (Nat.le_of_not_lt hless) (by decide)) hmono
  rw [if_neg hless, hsame]
  exact ⟨k, rfl, .refl h _⟩

/-! ## Growing -/

/-- Pages `lo` to `hi`, which were not mapped, have been mapped to pages full of zeros. -/
structure Grows (k k' : Kmem L) (root lo hi flags : Nat) : Prop where
  owns : Owns k' root
  missing : ∀ w, lo ≤ w → w < hi → lookup k root w = none
  entries : ∀ w, ¬ (lo ≤ w ∧ w < hi) → lookup k' root w = lookup k root w
  fresh : ∀ w, lo ≤ w → w < hi → ∃ c, lookup k' root w = some (c, flags) ∧ ∀ off < PGSIZE, k'.mem (c + off) = 0
  spares : ∀ {w pa f}, w < trapframeNo → lookup k root w = some (pa, f) → Agree k.mem k'.mem pa PGSIZE
  conserves : Conserves k k' root

theorem Grows.refl (h : Owns k root) (lo flags : Nat) : Grows k k root lo lo flags :=
  ⟨h, fun _ hlo hhi => absurd hhi (Nat.not_lt_of_le hlo), fun _ _ => rfl,
    fun _ hlo hhi => absurd hhi (Nat.not_lt_of_le hlo), fun _ _ => .refl _ _ _, .refl k root⟩

theorem Grows.lookup_of_some {lo hi flags : Nat} (h : Grows k k' root lo hi flags) (hlook : lookup k root w = some (pa, f)) :
    lookup k' root w = some (pa, f) := by
  rw [h.entries w]
  · exact hlook
  · intro hin
    rw [h.missing w hin.1 hin.2] at hlook
    cases hlook

theorem Grows.snoc {k₂ k₃ : Kmem L} {lo perm : Nat} (h : Grows k k' root lo v (perm ||| PTE_V))
    (hv : v < trapframeNo) (hlo : lo ≤ v) (hnone : lookup k root v = none)
    (hzero : ∀ off < PGSIZE, k₂.mem (c + off) = 0) (hm : Mapped k' k₂ k₃ root v c perm) :
    Grows k k₃ root lo (v + 1) (perm ||| PTE_V) := by
  refine ⟨hm.owns, fun w hw hw' => ?_, fun w hw => ?_, fun w hw hw' => ?_, fun {w pa f} hw hlook => ?_,
    h.conserves.trans hm.conserves⟩
  · by_cases heq : w = v
    · rw [heq]
      exact hnone
    · exact h.missing w hw (by omega)
  · rw [hm.entries, update_of_ne (by omega)]
    exact h.entries w (by omega)
  · rw [hm.entries]
    by_cases heq : w = v
    · rw [heq, update_self]
      refine ⟨c, rfl, fun off hoff => ?_⟩
      rw [hm.content (c + off) (Nat.le_add_right _ _) (by omega)]
      exact hzero off hoff
    obtain ⟨c', hlook, hbytes⟩ := h.fresh w hw (by omega)
    rw [update_of_ne heq]
    refine ⟨c', hlook, fun off hoff => ?_⟩
    rw [hm.spares (by omega) hlook (c' + off) (Nat.le_add_right _ _) (by omega)]
    exact hbytes off hoff
  · exact (h.spares hw hlook).trans (hm.spares hw (h.lookup_of_some hlook))

theorem pagesOf_mul (n : Nat) : pagesOf (n * PGSIZE) = n := by
  unfold pagesOf PGSIZE
  omega

theorem Grows.undo {k₁ : Kmem L} {lo flags : Nat} (h : Grows k k' root lo v flags) (hk : Restored k' k₁ root)
    (hlo : lo ≤ v) (hv : v < trapframeNo) :
    ∃ r k'', uvmdealloc root (v * PGSIZE) (lo * PGSIZE) k₁ = .ok (r, k'') ∧ Restored k k'' root := by
  rcases Nat.eq_or_lt_of_le hlo with heq | hlt
  · have hrun : Vm.uvmdealloc root (v * PGSIZE) (lo * PGSIZE) k₁ = .ok (v * PGSIZE, k₁) := by
      unfold Vm.uvmdealloc
      rw [heq, if_pos (Nat.le_refl _)]
      rfl
    refine ⟨_, k₁, hrun, hk.owns, ?_, fun {w pa f} hw hlook => ?_, h.conserves.trans hk.conserves⟩
    · rw [hk.entries]
      funext w
      exact h.entries w (by omega)
    · exact (h.spares hw hlook).trans (hk.spares hw (h.lookup_of_some hlook))
  have htop : v * PGSIZE ≤ TRAPFRAME := by
    unfold trapframeNo TRAPFRAME TRAMPOLINE MAXVA PGSIZE at *
    omega
  obtain ⟨k'', hrun, h'⟩ := hk.owns.uvmdealloc htop (Nat.mul_lt_mul_of_pos_right hlt (by decide))
  rw [pagesOf_mul, pagesOf_mul] at h'
  refine ⟨_, k'', hrun, h'.owns, ?_, fun {w pa f} hw hlook => ?_, (h.conserves.trans hk.conserves).trans h'.conserves⟩
  · funext w
    rw [h'.entries, hk.entries]
    by_cases hin : lo ≤ w ∧ w < v
    · rw [if_pos hin, h.missing w hin.1 hin.2]
    · rw [if_neg hin]
      exact h.entries w hin
  have hout : ¬ (lo ≤ w ∧ w < v) := by
    intro hin
    rw [h.missing w hin.1 hin.2] at hlook
    cases hlook
  have hlook' := h.lookup_of_some hlook
  have hlook₁ : lookup k₁ root w = some (pa, f) := by
    rw [hk.entries]
    exact hlook'
  exact ((h.spares hw hlook).trans (hk.spares hw hlook')).trans (h'.spares hw hout hlook₁)

theorem kalloc_taken (k : Kmem L) : kalloc k = .ok (0, k) ∨ ∃ c k₁, kalloc k = .ok (c, k₁) ∧ c ≠ 0 ∧ Taken k k₁ c := by
  cases hrun : kalloc k with
  | error => exact absurd hrun kalloc_no_panic
  | ok r =>
    rcases kalloc_ok hrun with ⟨hnull, hsame⟩ | ⟨hpage, hlist, hmem⟩
    · left
      rw [← hnull, ← hsame]
    right
    refine ⟨r.1, r.2, rfl, hpage.ne_zero, hpage, hlist, fun y hy hne => ?_⟩
    rw [hmem]
    exact agree_fill (page_disjoint hy hpage.1 hne)

theorem kalloc_clear (k : Kmem L) : kalloc k = .ok (0, k) ∨
    ∃ c k₁ k₂, kalloc k = .ok (c, k₁) ∧ c ≠ 0 ∧ memset c 0 PGSIZE k₁ = .ok ((), k₂) ∧ Taken k k₂ c ∧
      ∀ off < PGSIZE, k₂.mem (c + off) = 0 := by
  rcases kalloc_taken k with hnull | ⟨c, k₁, halloc, hc, ht⟩
  · exact .inl hnull
  · refine .inr ⟨c, k₁, _, halloc, hc, rfl, ht.write fun y hy hne => ?_, fun off hoff => ?_⟩
    · exact agree_fill (page_disjoint hy ht.isPage.1 hne)
    · exact if_pos ⟨Nat.le_add_right _ _, by omega⟩

/-- There is room for pages up to `hi`, as far as the loop gets. -/
def Room (k : Kmem L) (root lo hi flags : Nat) : Prop :=
  ∀ k' w, Grows k k' root lo w flags → lo ≤ w → w < hi → w < trapframeNo ∧ lookup k root w = none

/-- The flags of the pages that `uvmalloc` maps. -/
def allocFlags (xperm : Nat) : Nat := PTE_R ||| PTE_U ||| xperm ||| PTE_V

theorem uvmallocLoop_grows {k₀ : Kmem L} {lo xperm n : Nat} (newsz : Nat) (hperm : xperm < 2 ^ 10)
    (hroom : Room k₀ root lo (v + n) (allocFlags xperm)) (hlo : lo ≤ v) (h : Grows k₀ k root lo v (allocFlags xperm)) :
    ∃ ret k', uvmallocLoop root (lo * PGSIZE) newsz xperm n (v * PGSIZE) k = .ok (ret, k') ∧
      (ret = newsz ∧ Grows k₀ k' root lo (v + n) (allocFlags xperm) ∨ ret = 0 ∧ Restored k₀ k' root) := by
  induction n generalizing v k with
  | zero => exact ⟨newsz, k, rfl, .inl ⟨rfl, h⟩⟩
  | succ n ih =>
    obtain ⟨hv, hnone⟩ := hroom k v h hlo (by omega)
    have hflags : PTE_R ||| PTE_U ||| xperm < 2 ^ 10 := Nat.or_lt_two_pow (by decide) hperm
    have hnone' : lookup k root v = none := by
      rw [h.entries v (by omega)]
      exact hnone
    unfold uvmallocLoop
    rcases kalloc_clear k with hnull | ⟨c, k₁, k₂, halloc, hc, hset, ht, hzero⟩
    · obtain ⟨r, k', hundo, h'⟩ := h.undo (.refl h.owns) hlo hv
      refine ⟨0, k', ?_, .inr ⟨rfl, h'⟩⟩
      rw [bind_of_ok hnull, if_pos rfl, bind_of_ok hundo]
      rfl
    obtain ⟨r, k₃, hmap, ⟨hr, hm⟩ | ⟨hr, k₄, hfree, hback⟩⟩ := h.owns.tryMap hv hnone' ht hflags
    · have hnext : v + 1 + n = v + (n + 1) := by omega
      obtain ⟨ret, k', hrest, hcases⟩ := ih (v := v + 1) (by rw [hnext]; exact hroom) (by omega)
        (h.snoc hv hlo hnone hzero hm)
      rw [hnext] at hcases
      rw [Nat.succ_mul] at hrest
      refine ⟨ret, k', ?_, hcases⟩
      rw [bind_of_ok halloc, if_neg hc, bind_of_ok hset, bind_of_ok hmap, if_neg (not_not.mpr hr)]
      exact hrest
    obtain ⟨_, k', hundo, h'⟩ := h.undo hback hlo hv
    refine ⟨0, k', ?_, .inr ⟨rfl, h'⟩⟩
    rw [bind_of_ok halloc, if_neg hc, bind_of_ok hset, bind_of_ok hmap, if_pos hr, bind_of_ok hfree, bind_of_ok hundo]
    rfl

theorem Owns.uvmalloc {oldsz newsz xperm : Nat} (h : Owns k root) (hperm : xperm < 2 ^ 10) (hold : oldsz ≤ TRAPFRAME)
    (hle : oldsz ≤ newsz) (hroom : Room k root (pagesOf oldsz) (pagesOf newsz) (allocFlags xperm)) :
    ∃ ret k', uvmalloc root oldsz newsz xperm k = .ok (ret, k') ∧
      (ret = newsz ∧ Grows k k' root (pagesOf oldsz) (pagesOf newsz) (allocFlags xperm) ∨
        ret = 0 ∧ Restored k k' root) := by
  have hup : PGROUNDUP oldsz = pagesOf oldsz * PGSIZE := PGROUNDUP_eq (Nat.le_trans hold (by decide))
  have hmono := pagesOf_mono hle
  have hrounds : (newsz - PGROUNDUP oldsz + PGSIZE - 1) / PGSIZE = pagesOf newsz - pagesOf oldsz := by
    rw [hup]
    unfold pagesOf PGSIZE
    omega
  have hsum : pagesOf oldsz + (pagesOf newsz - pagesOf oldsz) = pagesOf newsz := Nat.add_sub_of_le hmono
  unfold Vm.uvmalloc
  rw [if_neg (Nat.not_lt_of_le hle), hrounds, hup]
  have hloop := uvmallocLoop_grows newsz (n := pagesOf newsz - pagesOf oldsz) hperm
    (by rw [hsum]; exact hroom) (Nat.le_refl _) (Grows.refl h (pagesOf oldsz) (allocFlags xperm))
  rw [hsum] at hloop
  exact hloop

end Xv6.Vm
