import Xv6.Vm.Estate
import Xv6.Vm.Exec

/-!
# Making and giving up an address space

`proc_pagetable` takes the pages of a new table from the free list, and `proc_freepagetable` puts back everything that
the table has got since then: the free pages are the same again, and no other page has been written.
-/

namespace Xv6.Vm

open Finset Function Hoare Memory PageMap

attribute [local irreducible] freewalk

variable {L : Layout} {k k' k₀ : Kmem L} {root v w x pa f tf : Nat}

theorem TRAMPOLINE_eq : TRAMPOLINE = trampolineNo * PGSIZE := by decide

theorem TRAPFRAME_eq : TRAPFRAME = trapframeNo * PGSIZE := by decide

theorem trampolineNo_lt : trampolineNo < NPAGES := by decide

theorem trapframeNo_lt_trampolineNo : trapframeNo < trampolineNo := by decide

theorem Layout.trampoline_page (L : Layout) : L.trampoline % PGSIZE = 0 ∧ L.trampoline < 2 ^ 56 := by
  refine ⟨L.aligned, ?_⟩
  have hlt := L.trampoline_lt
  have hle := L.kend_le
  have htop : PHYSTOP < 2 ^ 56 := by decide
  omega

theorem top_cases (hlo : trapframeNo ≤ v) (hhi : v < NPAGES) : v = trapframeNo ∨ v = trampolineNo := by
  unfold trapframeNo trampolineNo TRAPFRAME TRAMPOLINE MAXVA PGSIZE NPAGES at *
  omega

/-! ## The pages at the top -/

theorem Owns.grown (h : Owns k root) (hg : Grown k k' 2 root) : Restored k k' root := by
  have hentries := lookup_of_grown hg h.apart
  have hcons : Conserves k k' root := by
    refine ⟨fun x => ?_, fun y hy hzero => ?_, fun w _ _ => hg.leaf w⟩
    · unfold estate
      rw [hentries, hg.count]
    · unfold estate at hzero
      exact hg.frame y hy (by omega) (by omega)
  refine ⟨h.of_conserves hcons hg.wf fun {w pa f} hw hlook => ?_, hentries, fun {w pa f} hw hlook => ?_, hcons⟩
  · rw [hentries] at hlook
    exact h.page hw hlook
  · have hzero := h.user hw hlook
    exact hg.frame pa (h.page hw hlook).1 (by omega) (by omega)

/-- A page that is not the table's has been mapped at the top. -/
structure MappedTop (k k' : Kmem L) (root v pa perm : Nat) : Prop where
  owns : Owns k' root
  entries : lookup k' root = update (lookup k root) v (some (pa, perm ||| PTE_V))
  conserves : Conserves k k' root

theorem Owns.mapTop (perm : Nat) (h : Owns k root) (hlo : trapframeNo ≤ v) (hhi : v < NPAGES)
    (hnone : lookup k root v = none) (hpa : pa % PGSIZE = 0) (hlt : pa < 2 ^ 56) (hperm : perm < 2 ^ 10) :
    ∃ r k', mappages root (v * PGSIZE) PGSIZE pa perm k = .ok (r, k') ∧
      (r = 0 ∧ MappedTop k k' root v pa perm ∨ r < 0 ∧ Restored k k' root) := by
  have hdiv := mul_PGSIZE_div v
  cases hrun : mappages root (v * PGSIZE) PGSIZE pa perm k with
  | error =>
    rcases mappages_error h.apart hrun with halign | hmax | hvalid
    · exact absurd (Nat.mul_mod_left v PGSIZE) halign
    · exact absurd hmax (Nat.not_le_of_lt (mul_lt_MAXVA hhi))
    · rw [hdiv] at hvalid
      rw [lookup_eq h.wf hhi, decode_eq_none] at hnone
      exact absurd hvalid hnone
  | ok r =>
    refine ⟨r.1, r.2, rfl, ?_⟩
    obtain ⟨-, -, ⟨hr, hg, -⟩ | ⟨hr, hempty, hc⟩⟩ := mappages_page h.apart hpa hlt hperm hrun
    · right
      rw [hr]
      exact ⟨by decide, h.grown hg⟩
    left
    rw [hdiv] at hc
    have hentries := lookup_of_mapped h.wf hhi hc hpa hlt hperm
    -- No user page has changed.
    have hlow : ∀ w < trapframeNo, lookup r.2 root w = lookup k root w := by
      intro w hw
      rw [hentries, update_of_ne (by omega)]
    have hcons : Conserves k r.2 root := by
      refine ⟨fun x => ?_, fun y hy hzero => ?_, fun w hw hhigh => ?_⟩
      · have hcount := hc.count x
        unfold estate
        rw [users_congr hlow]
        omega
      · unfold estate at hzero
        exact hc.frame y hy (by omega) (by omega) rfl
      · rw [hc.leaf, setLeaf_of_ne (lt_NENTRIES hhi) hw (by omega)]
    refine ⟨hr, h.of_conserves hcons hc.wf fun {w pa f} hw hlook => ?_, hentries, hcons⟩
    rw [hlow w hw] at hlook
    exact h.page hw hlook

/-! ## An empty table -/

/-- The free pages are those that were free before, and no other page has been written. -/
structure NoTrace (k₀ k : Kmem L) : Prop where
  free : ∀ x, k.free x = k₀.free x
  frame : ∀ y, y % PGSIZE = 0 → k₀.free y = 0 → Agree k₀.mem k.mem y PGSIZE

theorem NoTrace.refl (k : Kmem L) : NoTrace k k := ⟨fun _ => rfl, fun _ _ _ => .refl _ _ _⟩

/-- Everything that the table has came from the pages that were free in `k₀`. -/
structure Grew (k₀ k : Kmem L) (root : Nat) : Prop where
  owns : Owns k root
  count : ∀ x, estate k root x = k₀.free x
  frame : ∀ y, y % PGSIZE = 0 → k₀.free y = 0 → Agree k₀.mem k.mem y PGSIZE
  beyond : ∀ v < NENTRIES, NPAGES ≤ v → ¬ Valid (leaf k.mem 2 root v)

theorem Grew.step (h : Grew k₀ k root) (howns : Owns k' root) (hc : Conserves k k' root) : Grew k₀ k' root := by
  refine ⟨howns, fun x => ?_, fun y hy hfree => ?_, fun v hv hhigh => ?_⟩
  · rw [hc.count, h.count]
  · have hzero : estate k root y = 0 := by
      rw [h.count]
      exact hfree
    exact (h.frame y hy hfree).trans (hc.frame y hy hzero)
  · rw [hc.beyond v hv hhigh]
    exact h.beyond v hv hhigh

theorem uvmcreate_grew (hfree : ∀ x, k₀.free x ≤ 1) : ∃ root k, uvmcreate k₀ = .ok (root, k) ∧
      (root = 0 ∧ k = k₀ ∨ root ≠ 0 ∧ Grew k₀ k root ∧ ∀ v, lookup k root v = none) := by
  unfold uvmcreate
  rcases kalloc_clear k₀ with hnull | ⟨c, k₁, k₂, halloc, hc, hset, ht, hzero⟩
  · rw [bind_of_ok hnull, if_pos rfl]
    exact ⟨0, k₀, rfl, .inl ⟨rfl, rfl⟩⟩
  rw [bind_of_ok halloc, if_neg hc, bind_of_ok hset]
  refine ⟨c, k₂, rfl, .inr ⟨hc, ?_⟩⟩
  have hblank : Blank k₂.mem c := by
    rw [memset_ok hset]
    exact blank_fill
  have hwf : WellFormed L k₂.mem 2 c := hblank.wellFormed ht.isPage
  have hnone : ∀ v, lookup k₂ c v = none := by
    intro v
    by_cases hv : v < NPAGES
    · rw [lookup_eq hwf hv, hblank.leaf]
      exact decode_of_not_valid not_valid_zero
    · exact lookup_of_ge (Nat.le_of_not_lt hv)
  have hcount : ∀ x, estate k₂ c x = k₀.free x := by
    intro x
    have husers : users (lookup k₂ c) x = 0 := by
      apply users_eq_zero
      intro v _
      rw [hnone v]
      exact not_pointsTo_none x
    unfold estate
    rw [husers, hblank.pages, ht.free x]
    rfl
  refine ⟨⟨⟨hwf, fun x => ?_, fun {v pa f} _ hlook => ?_⟩, hcount, fun y hy hfree => ?_, fun v _ _ => ?_⟩, hnone⟩
  · rw [hcount]
    exact hfree x
  · rw [hnone v] at hlook
    cases hlook
  · apply ht.others y hy
    rintro rfl
    have htaken := ht.free y
    rw [if_pos rfl] at htaken
    omega
  · rw [hblank.leaf]
    exact not_valid_zero

/-- The table is gone, and everything that it had is free. -/
structure GivenUp (k k' : Kmem L) (root : Nat) : Prop where
  free : ∀ x, k'.free x = estate k root x
  frame : ∀ y, y % PGSIZE = 0 → estate k root y = 0 → Agree k.mem k'.mem y PGSIZE

theorem Conserves.givenUp {k'' : Kmem L} (hc : Conserves k k' root) (h : GivenUp k' k'' root) : GivenUp k k'' root := by
  refine ⟨fun x => ?_, fun y hy hzero => ?_⟩
  · rw [h.free, hc.count]
  have hzero' : estate k' root y = 0 := by
    rw [hc.count]
    exact hzero
  exact (hc.frame y hy hzero).trans (h.frame y hy hzero')

theorem Tidy.freewalk (h : Tidy k root) (hbeyond : ∀ v < NENTRIES, NPAGES ≤ v → ¬ Valid (leaf k.mem 2 root v))
    (hnone : ∀ v, lookup k root v = none) : ∃ k', freewalk 3 root k = .ok ((), k') ∧ GivenUp k k' root := by
  have hempty : ∀ v, ¬ Valid (leaf k.mem 2 root v) := by
    intro v
    have hlt : v % NENTRIES < NENTRIES := Nat.mod_lt v (by decide)
    have hmod : leaf k.mem 2 root v = leaf k.mem 2 root (v % NENTRIES) := leaf_mod (Nat.mod_mod v _).symm
    rw [hmod]
    by_cases hv : v % NENTRIES < NPAGES
    · have hlook := hnone (v % NENTRIES)
      rw [lookup_eq h.wf hv, decode_eq_none] at hlook
      exact hlook
    · exact hbeyond _ hlt (Nat.le_of_not_lt hv)
  have hspec : Triple (fun s => s = k) (Vm.freewalk 3 root) (fun _ k' => Freed k k' 2 root) fun _ => False :=
    freewalk_spec (n := 2) h.wf h.once (.inr hempty)
  obtain ⟨_, k', hrun, hfreed⟩ := hspec.returns rfl
  have husers : ∀ x, users (lookup k root) x = 0 := by
    intro x
    apply users_eq_zero
    intro v _
    rw [hnone v]
    exact not_pointsTo_none x
  refine ⟨k', hrun, fun x => ?_, fun y hy hzero => ?_⟩
  · rw [hfreed.free, estate, husers, Nat.add_zero]
  · unfold estate at hzero
    exact hfreed.frame y hy (by omega)

theorem Grew.givenUp (h : Grew k₀ k root) (hg : GivenUp k k' root) : NoTrace k₀ k' := by
  refine ⟨fun x => ?_, fun y hy hfree => ?_⟩
  · rw [hg.free, h.count]
  have hzero : estate k root y = 0 := by
    rw [h.count]
    exact hfree
  exact (h.frame y hy hfree).trans (hg.frame y hy hzero)

theorem Grew.freewalk (h : Grew k₀ k root) (hnone : ∀ v, lookup k root v = none) :
    ∃ k', Vm.freewalk 3 root k = .ok ((), k') ∧ NoTrace k₀ k' := by
  obtain ⟨k', hrun, hg⟩ := h.owns.tidy.freewalk h.beyond hnone
  exact ⟨k', hrun, h.givenUp hg⟩

/-! ## `proc_pagetable` and `proc_freepagetable` -/

/-- A table of a process with trapframe `tf`, made when the memory was `k₀`. -/
structure Made (k₀ k : Kmem L) (root tf : Nat) : Prop extends Grew k₀ k root where
  trampoline : lookup k root trampolineNo = some (L.trampoline, PTE_R ||| PTE_X ||| PTE_V)
  trapframe : lookup k root trapframeNo = some (tf, PTE_R ||| PTE_W ||| PTE_V)

theorem Made.step (h : Made k₀ k root tf) (howns : Owns k' root) (hc : Conserves k k' root)
    (htop : ∀ v, trapframeNo ≤ v → lookup k' root v = lookup k root v) : Made k₀ k' root tf := by
  refine ⟨h.toGrew.step howns hc, ?_, ?_⟩
  · rw [htop trampolineNo (Nat.le_of_lt trapframeNo_lt_trampolineNo)]
    exact h.trampoline
  · rw [htop trapframeNo (Nat.le_refl _)]
    exact h.trapframe

theorem procPagetable_made (hfree : ∀ x, k₀.free x ≤ 1) (htf : tf % PGSIZE = 0) (hlt : tf < 2 ^ 56) :
    ∃ root k, procPagetable tf k₀ = .ok (root, k) ∧
      (root = 0 ∧ NoTrace k₀ k ∨ root ≠ 0 ∧ Made k₀ k root tf ∧ ∀ v < trapframeNo, lookup k root v = none) := by
  have hle : trapframeNo ≤ trampolineNo := Nat.le_of_lt trapframeNo_lt_trampolineNo
  obtain ⟨root, k₁, hcreate, ⟨rfl, rfl⟩ | ⟨hroot, h₁, hnone₁⟩⟩ := uvmcreate_grew hfree
  · unfold procPagetable
    rw [bind_of_ok hcreate, if_pos rfl]
    exact ⟨0, k₁, rfl, .inl ⟨rfl, .refl k₁⟩⟩
  unfold procPagetable
  rw [bind_of_ok hcreate, if_neg hroot, TRAMPOLINE_eq, TRAPFRAME_eq]
  obtain ⟨hpage, hpagelt⟩ := L.trampoline_page
  obtain ⟨r, k₂, hmap, ⟨rfl, h₂⟩ | ⟨hr, h₂⟩⟩ := h₁.owns.mapTop (PTE_R ||| PTE_X) hle trampolineNo_lt
    (hnone₁ _) hpage hpagelt (by decide)
  · rw [bind_of_ok hmap, if_neg (by decide)]
    have hnone₂ : ∀ v, v ≠ trampolineNo → lookup k₂ root v = none := by
      intro v hv
      rw [h₂.entries, update_of_ne hv]
      exact hnone₁ v
    obtain ⟨r, k₃, hmap', ⟨rfl, h₃⟩ | ⟨hr, h₃⟩⟩ := h₂.owns.mapTop (PTE_R ||| PTE_W) (Nat.le_refl _)
      trapframeNo_lt (hnone₂ _ trapframeNo_ne) htf hlt (by decide)
    · rw [bind_of_ok hmap', if_neg (by decide)]
      refine ⟨root, k₃, rfl, .inr ⟨hroot, ⟨(h₁.step h₂.owns h₂.conserves).step h₃.owns h₃.conserves, ?_, ?_⟩, ?_⟩⟩
      · rw [h₃.entries, update_of_ne trapframeNo_ne.symm, h₂.entries, update_self]
      · rw [h₃.entries, update_self]
      · intro v hv
        rw [h₃.entries, update_of_ne (by omega)]
        exact hnone₂ v (by omega)
    -- The trampoline is unmapped before the empty table is freed.
    rw [bind_of_ok hmap', if_pos hr]
    obtain ⟨k₄, hunmap, h₄⟩ := h₃.owns.uvmunmap_top hle trampolineNo_lt
    have hgrew := ((h₁.step h₂.owns h₂.conserves).step h₃.owns h₃.conserves).step h₄.owns h₄.conserves
    obtain ⟨k₅, hwalk, h₅⟩ := hgrew.freewalk fun v => by
      rw [h₄.entries]
      split
      · rfl
      · next hout =>
        rw [h₃.entries]
        exact hnone₂ v (by omega)
    refine ⟨0, k₅, ?_, .inl ⟨rfl, h₅⟩⟩
    rw [bind_of_ok hunmap]
    unfold uvmfree
    rw [if_neg (Nat.lt_irrefl 0), bind_of_ok hwalk]
    rfl
  rw [bind_of_ok hmap, if_pos hr]
  obtain ⟨k₃, hwalk, h₃⟩ := (h₁.step h₂.owns h₂.conserves).freewalk fun v => by
    rw [h₂.entries]
    exact hnone₁ v
  refine ⟨0, k₃, ?_, .inl ⟨rfl, h₃⟩⟩
  unfold uvmfree
  rw [if_neg (Nat.lt_irrefl 0), bind_of_ok hwalk]
  rfl

/-- What `proc_freepagetable` counts on: the table maps memory below `sz` and the two pages at the top, and nothing else. -/
structure Disposable (k : Kmem L) (root sz : Nat) : Prop where
  tidy : Tidy k root
  le : sz ≤ TRAPFRAME
  above : ∀ v, pagesOf sz ≤ v → v < trapframeNo → lookup k root v = none
  beyond : ∀ v < NENTRIES, NPAGES ≤ v → ¬ Valid (leaf k.mem 2 root v)

theorem Disposable.congr {sz : Nat} (h : Disposable k root sz) (hsame : SameTable k.mem k'.mem 2 root) :
    Disposable k' root sz := by
  have hlook := lookup_congr h.tidy.wf hsame
  refine ⟨⟨h.tidy.wf.congr hsame, fun x => ?_, fun {v pa f} hv hl => ?_⟩, h.le, fun v hlo hhi => ?_, fun v hv hhigh => ?_⟩
  · rw [pages_congr hsame]
    exact h.tidy.once x
  · rw [hlook] at hl
    rw [pages_congr hsame]
    exact h.tidy.target hv hl
  · rw [hlook]
    exact h.above v hlo hhi
  · rw [leaf_congr hsame]
    exact h.beyond v hv hhigh

theorem Disposable.procFreepagetable {sz : Nat} (h : Disposable k root sz) :
    ∃ k', procFreepagetable root sz k = .ok ((), k') ∧ GivenUp k k' root := by
  have hle : trapframeNo ≤ trampolineNo := Nat.le_of_lt trapframeNo_lt_trampolineNo
  obtain ⟨k₁, hunmap₁, h₁⟩ := h.tidy.uvmunmap_top hle trampolineNo_lt
  obtain ⟨k₂, hunmap₂, h₂⟩ := h₁.tidy.uvmunmap_top (Nat.le_refl _) trapframeNo_lt
  have hc := h₁.conserves.trans h₂.conserves
  have hnone₂ : ∀ v, pagesOf sz ≤ v → lookup k₂ root v = none := by
    intro v hv
    rw [h₂.entries, h₁.entries]
    by_cases hlow : v < trapframeNo
    · rw [if_neg (by omega), if_neg (by omega)]
      exact h.above v hv hlow
    by_cases hhigh : v < NPAGES
    · rcases top_cases (Nat.le_of_not_lt hlow) hhigh with heq | heq
      · rw [if_pos (by omega)]
      · rw [if_pos (show trampolineNo ≤ v ∧ v < trampolineNo + 1 by omega), ite_self]
    · rw [lookup_of_ge (Nat.le_of_not_lt hhigh), ite_self, ite_self]
  have hbeyond₂ : ∀ v < NENTRIES, NPAGES ≤ v → ¬ Valid (leaf k₂.mem 2 root v) := by
    intro v hv hhigh
    rw [hc.beyond v hv hhigh]
    exact h.beyond v hv hhigh
  unfold Vm.procFreepagetable uvmfree
  rw [TRAMPOLINE_eq, TRAPFRAME_eq, bind_of_ok hunmap₁, bind_of_ok hunmap₂]
  by_cases hpos : 0 < sz
  · rw [if_pos hpos, pagesOf_eq (Nat.le_trans h.le (by decide))]
    have htop : 0 + pagesOf sz ≤ trapframeNo := by
      rw [Nat.zero_add]
      exact pagesOf_le_trapframeNo h.le
    obtain ⟨k₃, hunmap₃, h₃⟩ := h₂.tidy.uvmunmap htop
    rw [Nat.zero_mul] at hunmap₃
    obtain ⟨k', hwalk, h'⟩ := h₃.tidy.freewalk
      (fun v hv hhigh => by
        rw [h₃.beyond v hv hhigh]
        exact hbeyond₂ v hv hhigh)
      fun v => by
        rw [h₃.entries]
        split
        · rfl
        · next hout => exact hnone₂ v (by omega)
    exact ⟨k', by rw [bind_of_ok hunmap₃]; exact hwalk, (hc.trans h₃.conserves).givenUp h'⟩
  rw [if_neg hpos]
  have hzero : pagesOf sz = 0 := by
    have hsz : sz = 0 := by omega
    rw [hsz]
    rfl
  obtain ⟨k', hwalk, h'⟩ := h₂.tidy.freewalk hbeyond₂ fun v => hnone₂ v (by omega)
  exact ⟨k', hwalk, hc.givenUp h'⟩

theorem Made.disposable {sz : Nat} (h : Made k₀ k root tf) (hsz : sz ≤ TRAPFRAME)
    (habove : ∀ v, pagesOf sz ≤ v → v < trapframeNo → lookup k root v = none) : Disposable k root sz :=
  ⟨h.owns.tidy, hsz, habove, h.beyond⟩

theorem Made.hits_top (h : Made k₀ k root tf) (hv : v < NENTRIES) (hge : trapframeNo ≤ v) :
    Hits (leaf k.mem 2 root v) x ↔ (v = trampolineNo ∧ x = L.trampoline) ∨ (v = trapframeNo ∧ x = tf) := by
  by_cases hlt : v < NPAGES
  · rw [← pointsTo_lookup h.owns.wf hlt]
    rcases top_cases hge hlt with rfl | rfl
    · rw [h.trapframe, pointsTo_some]
      simp [trapframeNo_ne]
    · rw [h.trampoline, pointsTo_some]
      simp [trapframeNo_ne.symm]
  · have hbelow := trapframeNo_lt
    have hbelow' := trampolineNo_lt
    exact ⟨fun hhit => absurd hhit.1 (h.beyond v hv (Nat.le_of_not_lt hlt)), fun htop => by omega⟩

end Xv6.Vm
