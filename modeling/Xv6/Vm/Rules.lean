import Xv6.Vm.Ledger

/-!
# Rules for the memory code

How each function of `kernel/vm.c` and `kernel/kalloc.c` changes the ledger, and when it panics.  A page that has been
taken from the free list and is not yet in use counts as shared.  Where a function panics unless it is called as it
should be, its rule can be had with every panic allowed or with that condition.
-/

namespace Xv6.Vm

open Finset Hoare Memory

-- `freewalk_spec` says all that is needed of it.
attribute [local irreducible] freewalk

variable {L : Layout} {g : Ledger} {k k' : Kmem L} {r v x c : Nat} {E : Panic → Prop}

def Any : Panic → Prop := fun _ => True

theorem any (e : Panic) : Any e := trivial

namespace Ledger

def hold (g : Ledger) (c : Nat) : Ledger :=
  { g with
    shared := fun x => g.shared x ∨ x = c
    sees := fun r v x => x ≠ c ∧ g.sees r v x }

def release (g : Ledger) (c : Nat) : Ledger :=
  { g with
    shared := fun x => g.shared x ∧ x ≠ c
    total := fun x => if x = c then 1 else g.total x
    total_le := fun x => by
      split
      · exact Nat.le_refl 1
      · exact g.total_le x }

def see (g : Ledger) (r v x : Nat) : Ledger :=
  { g with
    sees := fun r' v' x' => (r' = r ∧ v' = v ∧ x' = x) ∨ g.sees r' v' x'
    room := fun r' v' => (r' = r ∧ v' = v) ∨ g.room r' v' }

def unsee (g : Ledger) (r v : Nat) : Ledger :=
  { g with
    sees := fun r' v' x' => ¬ (r' = r ∧ v' = v) ∧ g.sees r' v' x'
    room := fun r' v' => ¬ (r' = r ∧ v' = v) ∧ g.room r' v' }

/-- Table `r` may have entries from page number `lo` up to `hi`, too. -/
def grant (g : Ledger) (r lo hi : Nat) : Ledger :=
  { g with room := fun r' v => g.room r' v ∨ (r' = r ∧ lo ≤ v ∧ v < hi) }

/-- Table `r` has no entries from page number `lo` up to `hi`. -/
def clear (g : Ledger) (r lo hi : Nat) : Ledger :=
  { g with room := fun r' v => g.room r' v ∧ ¬ (r' = r ∧ lo ≤ v ∧ v < hi) }

def drop (g : Ledger) (r : Nat) : Ledger := { g with tables := g.tables.erase r }

/-- A page that the ledger counts as somebody's and that is not shared. -/
structure Fresh (L : Layout) (g : Ledger) (c : Nat) : Prop where
  isPage : L.IsPage c
  not_shared : ¬ g.shared c
  total : g.total c = 1

def Unseen (g : Ledger) (r v : Nat) : Prop := ∀ x, g.shared x → ¬ g.sees r v x

end Ledger

open Ledger

section

variable (h : Holds g k)

include h

theorem Holds.congr {g' : Ledger} (htables : g'.tables = g.tables)
    (htotal : g'.total = g.total) (hshared : ∀ x, g'.shared x ↔ g.shared x)
    (hsees : ∀ r ∈ g.tables, ∀ v x, g.shared x → (g'.sees r v x ↔ g.sees r v x))
    (hroom : ∀ r ∈ g.tables, ∀ v, g.room r v → g'.room r v) : Holds g' k := by
  refine ⟨?_, fun x hx => ?_, fun x hx => ?_, fun r hr v hv x hx => ?_, fun r hr v hv hvalid => ?_⟩
  · rw [htables]
    exact h.wf
  · rw [htables, htotal]
    exact h.balance x fun hs => hx ((hshared x).mpr hs)
  · rw [htables]
    exact h.shared x ((hshared x).mp hx)
  · rw [htables] at hr
    have hx' := (hshared x).mp hx
    rw [hsees r hr v x hx']
    exact h.sees r hr v hv x hx'
  · rw [htables] at hr
    exact hroom r hr v (h.room r hr v hv hvalid)

theorem Holds.widen {room : Nat → Nat → Prop}
    (hroom : ∀ r ∈ g.tables, ∀ v, g.room r v → room r v) : Holds { g with room := room } k :=
  h.congr rfl rfl (fun _ => Iff.rfl) (fun _ _ _ _ _ => Iff.rfl) hroom

theorem Holds.narrow {lo hi : Nat}
    (hnone : ∀ v < NENTRIES, lo ≤ v → v < hi → ¬ Valid (leaf k.mem 2 r v)) : Holds (g.clear r lo hi) k := by
  refine ⟨h.wf, h.balance, h.shared, h.sees, fun r' hr' v hv hvalid => ?_⟩
  refine ⟨h.room r' hr' v hv hvalid, fun hin => hnone v hv hin.2.1 hin.2.2 ?_⟩
  rw [← hin.1]
  exact hvalid

/-! ## Pages in the hands of the running code -/

theorem Holds.sameTable {m : Mem} (hout : ∀ r ∈ g.tables, pages k.mem 2 r c = 0)
    (hm : ∀ y, y % PGSIZE = 0 → y ≠ c → Agree k.mem m y PGSIZE) (hr : r ∈ g.tables) : SameTable k.mem m 2 r := by
  intro y hy
  apply hm y ((h.wf r hr).isPage_of_pages hy).1
  intro heq
  have hzero := hout r hr
  rw [heq] at hy
  omega

theorem Holds.sameTable_fill {b : UInt8} (hc : L.IsPage c)
    (hout : ∀ r ∈ g.tables, pages k.mem 2 r c = 0) (hr : r ∈ g.tables) :
    SameTable k.mem (fill k.mem c PGSIZE b) 2 r :=
  h.sameTable hout (fun _ hy hne => agree_fill (page_disjoint hy hc.1 hne)) hr

theorem Holds.take (hlist : k.freelist = c :: k'.freelist) (hc : L.IsPage c)
    (hothers : ∀ y, y % PGSIZE = 0 → y ≠ c → Agree k.mem k'.mem y PGSIZE) : Fresh L g c ∧ Holds (g.hold c) k' := by
  have hfree := free_of_freelist (x := c) hlist
  rw [if_pos rfl] at hfree
  have hns : ¬ g.shared c := by
    intro hshared
    have hzero := (h.shared c hshared).1
    omega
  have hbal := h.balance c hns
  have htotal := g.total_le c
  have huses : ∀ r ∈ g.tables, uses k.mem r c = 0 := by
    intro r hr
    have hle := h.uses_le hr hns
    omega
  have hsame : ∀ r ∈ g.tables, SameTable k.mem k'.mem 2 r :=
    fun r hr => h.sameTable (fun r hr => (Nat.add_eq_zero_iff.mp (huses r hr)).1) hothers hr
  refine ⟨⟨hc, hns, by omega⟩, fun r hr => (h.wf r hr).congr (hsame r hr), fun x hx => ?_,
    fun x hx => ?_, fun r hr v hv x hx => ?_, fun r hr v hv => ?_⟩
  · have hne : x ≠ c := fun heq => hx (.inr heq)
    have hx' : ¬ g.shared x := fun hs => hx (.inl hs)
    have hsum : ∑ r ∈ g.tables, uses k'.mem r x = ∑ r ∈ g.tables, uses k.mem r x :=
      sum_congr rfl fun r hr => uses_congr (hsame r hr)
    have hfree' := free_of_freelist (x := x) hlist
    rw [if_neg hne] at hfree'
    have hbal' := h.balance x hx'
    show k'.free x + ∑ r ∈ g.tables, uses k'.mem r x = g.total x
    omega
  · cases hx with
    | inl hs =>
      have hfree' := free_of_freelist (x := x) hlist
      have hzero := (h.shared x hs).1
      refine ⟨by omega, fun r hr => ?_⟩
      rw [pages_congr (hsame r hr)]
      exact (h.shared x hs).2 r hr
    | inr heq =>
      rw [heq]
      refine ⟨by omega, fun r hr => ?_⟩
      rw [pages_congr (hsame r hr)]
      exact (Nat.add_eq_zero_iff.mp (huses r hr)).1
  · show Hits (leaf k'.mem 2 r v) x ↔ x ≠ c ∧ g.sees r v x
    rw [leaf_congr (hsame r hr)]
    by_cases heq : x = c
    · have hnone : ¬ Hits (leaf k.mem 2 r v) x := by
        intro hhit
        have hpos := mapsTo_pos hv hhit
        have hzero := huses r hr
        unfold uses at hzero
        rw [heq] at hpos
        omega
      exact ⟨fun hhit => absurd hhit hnone, fun hs => absurd heq hs.1⟩
    · have hs : g.shared x := hx.resolve_right heq
      rw [h.sees r hr v hv x hs]
      exact ⟨fun hsees => ⟨heq, hsees⟩, fun hsees => hsees.2⟩
  · rw [leaf_congr (hsame r hr)]
    exact h.room r hr v hv

theorem Holds.release (hc : g.shared c) (hunseen : ∀ r ∈ g.tables, ∀ v < NENTRIES, ¬ g.sees r v c)
    (hfree : ∀ x, k'.free x = k.free x + if x = c then 1 else 0)
    (hsame : ∀ r ∈ g.tables, SameTable k.mem k'.mem 2 r) : Holds (g.release c) k' := by
  have hsum : ∀ x, ∑ r ∈ g.tables, uses k'.mem r x = ∑ r ∈ g.tables, uses k.mem r x :=
    fun x => sum_congr rfl fun r hr => uses_congr (hsame r hr)
  refine ⟨fun r hr => (h.wf r hr).congr (hsame r hr), fun x hx => ?_, fun x hx => ?_,
    fun r hr v hv x hx => ?_, fun r hr v hv => ?_⟩
  · show k'.free x + ∑ r ∈ g.tables, uses k'.mem r x = if x = c then 1 else g.total x
    rw [hsum, hfree]
    by_cases heq : x = c
    · have hnone : ∀ r ∈ g.tables, uses k.mem r c = 0 := by
        intro r hr
        unfold uses
        rw [(h.shared c hc).2 r hr, mapsTo_eq_zero fun v hv hhit =>
          hunseen r hr v hv ((h.sees r hr v hv c hc).mp hhit)]
      rw [if_pos heq, if_pos heq, heq, (h.shared c hc).1, sum_eq_zero hnone, Nat.zero_add, Nat.add_zero]
    · rw [if_neg heq, if_neg heq]
      exact h.balance x fun hs => hx ⟨hs, heq⟩
  · refine ⟨?_, fun r hr => ?_⟩
    · rw [hfree, if_neg hx.2]
      exact (h.shared x hx.1).1
    · rw [pages_congr (hsame r hr)]
      exact (h.shared x hx.1).2 r hr
  · rw [leaf_congr (hsame r hr)]
    exact h.sees r hr v hv x hx.1
  · rw [leaf_congr (hsame r hr)]
    exact h.room r hr v hv

end

theorem Holds.giveBack (h : Holds (g.hold c) k) (hc : Fresh L g c)
    (hlist : k'.freelist = c :: k.freelist) (hmem : k'.mem = fill k.mem c PGSIZE 1) : Holds g k' := by
  have hback : Holds ((g.hold c).release c) k' := by
    apply h.release (.inr rfl) (fun r _ v _ hs => hs.1 rfl) fun x => free_of_freelist hlist
    intro r hr
    rw [hmem]
    exact h.sameTable_fill hc.isPage (h.shared c (.inr rfl)).2 hr
  refine hback.congr rfl (funext fun x => ?_) (fun x => ?_) (fun r _ v x hx => ?_) fun _ _ _ hroom => hroom
  · show g.total x = if x = c then 1 else g.total x
    by_cases heq : x = c
    · rw [if_pos heq, heq, hc.total]
    · rw [if_neg heq]
  · exact ⟨fun hs => ⟨.inl hs, fun heq => hc.not_shared (heq ▸ hs)⟩, fun hs => hs.1.resolve_right hs.2⟩
  · exact ⟨fun hs => ⟨hx.2, hs⟩, fun hs => hs.2⟩

theorem Holds.adopt (h : Holds ((g.hold c).see r v c) k) (hc : Fresh L g c) (hr : r ∈ g.tables)
    (hv : v < NENTRIES) : Holds (g.grant r v (v + 1)) k := by
  have hzero := h.shared c (.inr rfl)
  have hhits : ∀ r' ∈ g.tables, ∀ w < NENTRIES,
      (Hits (leaf k.mem 2 r' w) c ↔ r' = r ∧ w = v) := by
    intro r' hr' w hw
    rw [h.sees r' hr' w hw c (.inr rfl)]
    exact ⟨fun hs => hs.elim (fun hsee => ⟨hsee.1, hsee.2.1⟩) (fun hold => absurd rfl hold.1),
      fun heq => .inl ⟨heq.1, heq.2, rfl⟩⟩
  refine ⟨h.wf, fun x hx => ?_, fun x hx => h.shared x (.inl hx), fun r' hr' w hw x hx => ?_,
    fun r' hr' w hw hvalid => ?_⟩
  · by_cases heq : x = c
    · have hone : uses k.mem r c = 1 := by
        have hmaps : mapsTo (leaf k.mem 2 r) c = ∑ w ∈ range NENTRIES, if w = v then 1 else 0 := by
          apply sum_congr rfl
          intro w hw
          have hiff := hhits r hr w (mem_range.mp hw)
          simp only [hiff, true_and]
        unfold uses
        rw [hzero.2 r hr, hmaps, sum_ite_eq' (range NENTRIES) v, if_pos (mem_range.mpr hv)]
      have hothers : ∀ r' ∈ g.tables, r' ≠ r → uses k.mem r' c = 0 := by
        intro r' hr' hne
        unfold uses
        rw [hzero.2 r' hr', mapsTo_eq_zero fun w hw hhit => hne ((hhits r' hr' w hw).mp hhit).1]
      show k.free x + ∑ r ∈ g.tables, uses k.mem r x = g.total x
      rw [heq, hzero.1, sum_eq_single_of_mem r hr hothers, hone, hc.total]
    · exact h.balance x (fun hs => hs.elim hx heq)
  · have hne : x ≠ c := fun heq => hc.not_shared (heq ▸ hx)
    rw [h.sees r' hr' w hw x (.inl hx)]
    exact ⟨fun hs => hs.elim (fun hsee => absurd hsee.2.2 hne) (fun hold => hold.2), fun hs => .inr ⟨hne, hs⟩⟩
  · cases h.room r' hr' w hw hvalid with
    | inl heq => exact .inr ⟨heq.1, Nat.le_of_eq heq.2.symm, by omega⟩
    | inr hold => exact .inl hold

theorem Holds.table_ne_zero (h : Holds g k) (hr : r ∈ g.tables) : r ≠ 0 :=
  ((h.wf r hr).isPage_of_pages (pages_self_pos k.mem 2 r)).ne_zero

/-! ## The allocator and plain writes -/

theorem Holds.kalloc (h : Holds g k) (hrun : kalloc k = .ok (c, k')) :
    (c = 0 ∧ Holds g k') ∨ (Fresh L g c ∧ Holds (g.hold c) k') := by
  cases kalloc_ok hrun with
  | inl hnone =>
    rw [hnone.2]
    exact .inl ⟨hnone.1, h⟩
  | inr hsome =>
    obtain ⟨hc, hlist, hmem⟩ := hsome
    refine .inr (h.take hlist hc fun y hy hne => ?_)
    rw [hmem]
    exact agree_fill (page_disjoint hy hc.1 hne)

theorem kalloc_rule : Triple (Holds (L := L) g) kalloc
    (fun c k => (c = 0 ∧ Holds g k) ∨ (Fresh L g c ∧ Holds (g.hold c) k)) E :=
  ⟨fun h hrun => h.kalloc hrun, fun _ hrun => absurd hrun kalloc_no_panic⟩

theorem kalloc_then {α : Type} {f : Nat → Kernel L α} {Q : α → Kmem L → Prop} (hnull : Triple (Holds g) (f 0) Q E)
    (hpage : ∀ c, Fresh L g c → Triple (Holds (g.hold c)) (f c) Q E) : Triple (Holds g) (kalloc >>= f) Q E :=
  kalloc_rule.bind fun c => .or (.assume fun hzero => hzero ▸ hnull) (.assume fun hc => hpage c hc)

theorem Ledger.Fresh.ne_zero (hc : Fresh L g c) : c ≠ 0 := hc.isPage.ne_zero

theorem kfree_held (hc : Fresh L g c) : Triple (Holds (L := L) (g.hold c)) (kfree c) (fun _ => Holds g) E where
  ok h hrun := by
    obtain ⟨-, hlist, hmem⟩ := kfree_ok hrun
    exact h.giveBack hc hlist hmem
  error _ hrun := absurd hc.isPage (kfree_error hrun).1

theorem Ledger.shared_hold (g : Ledger) (c : Nat) : (g.hold c).shared c := .inr rfl

theorem memset_shared {b : UInt8} (hc : L.IsPage c) (hs : g.shared c) :
    Triple (Holds (L := L) g) (memset c b PGSIZE) (fun _ => Holds g) E :=
  .modify fun _ h => h.write fun _ hr => h.sameTable_fill hc (h.shared c hs).2 hr

/-! ## `mappages` of one page -/

theorem div_lt_NENTRIES {va : Nat} (h : va < MAXVA) : va / PGSIZE < NENTRIES := by
  unfold MAXVA at h
  unfold PGSIZE NENTRIES
  omega

theorem Holds.grown (h : Holds g k) (hr : r ∈ g.tables) (hg : Grown k k' 2 r) : Holds g k' := by
  refine h.change g.sees g.room hr hg.changes (fun x hx => absurd rfl hx) (fun _ _ => rfl)
    (fun x _ => ?_) (fun v hv x hx => h.sees r hr v hv x hx) (fun _ _ _ _ _ _ _ => Iff.rfl)
    (fun v hv => h.room r hr v hv) (fun _ _ _ _ hroom => hroom)
  rw [Nat.zero_add]

theorem Holds.mapShared {e : Nat} (h : Holds g k) (hr : r ∈ g.tables) (hv : v < NENTRIES)
    (hx : g.shared x) (he : Valid e ∧ PTE2PA e = x) (hempty : ¬ Valid (leaf k.mem 2 r v))
    (hc : Changes k k' r (setLeaf (leaf k.mem 2 r) v e) (fun _ => 0)) : Holds (g.see r v x) k' := by
  have hnone : ∀ y, ¬ Hits (leaf k.mem 2 r v) y := fun y hhit => hempty hhit.1
  refine h.change _ _ hr hc (fun y hy => absurd rfl hy) (fun _ _ => rfl) (fun y hy => ?_)
    (fun w hw y hy => ?_) (fun r' hr' hne w hw y hy => ?_) (fun w hw hvalid => ?_)
    (fun _ _ _ _ hroom => .inr hroom)
  · have hmiss : ¬ Hits e y := by
      intro hhit
      have heq : y = x := hhit.2.symm.trans he.2
      exact hy (heq ▸ hx)
    have hcount := mapsTo_setLeaf (f := leaf k.mem 2 r) (e := e) hv y
    rw [if_neg (hnone y), if_neg hmiss] at hcount
    omega
  · by_cases hw' : w = v
    · rw [hw', setLeaf_self]
      have hold := h.sees r hr v hv y hy
      exact ⟨fun hhit => .inl ⟨rfl, rfl, hhit.2.symm.trans he.2⟩,
        fun hs => hs.elim (fun hsee => ⟨he.1, he.2.trans hsee.2.2.symm⟩) (fun hsee => absurd (hold.mpr hsee) (hnone y))⟩
    · rw [setLeaf_of_ne hv hw hw', h.sees r hr w hw y hy]
      exact ⟨.inr, fun hs => hs.elim (fun hsee => absurd hsee.2.1 hw') id⟩
  · exact ⟨fun hs => hs.elim (fun hsee => absurd hsee.1 hne) id, .inr⟩
  by_cases hw' : w = v
  · exact .inl ⟨rfl, hw'⟩
  · rw [setLeaf_of_ne hv hw hw'] at hvalid
    exact .inr (h.room r hr w hw hvalid)

/-- What holds after `mappages` of page `x`: nothing has changed, or `g'` describes the new mapping,
at an address that had none. -/
def MapPost (g g₀ g' : Ledger) (r va x : Nat) (ret : Int) (k : Kmem L) : Prop :=
  (ret = -1 ∧ Holds g k) ∨
    (ret = 0 ∧ va < MAXVA ∧ Unseen g₀ r (va / PGSIZE) ∧ Hits (leaf k.mem 2 r (va / PGSIZE)) x ∧ Holds g' k)

/-- The address is one that `mappages` can map. -/
def Mappable (g : Ledger) (r va : Nat) : Prop := va % PGSIZE = 0 ∧ va < MAXVA ∧ ¬ g.room r (va / PGSIZE)

theorem mappages_shared {va perm : Nat} (hr : r ∈ g.tables) (hx : g.shared x)
    (hpage : x % PGSIZE = 0 ∧ x < 2 ^ 56) (hperm : perm < 2 ^ 10) (hE : Allows E (Mappable g r va)) :
    Triple (Holds (L := L) g) (mappages r va PGSIZE x perm) (MapPost g g (g.see r (va / PGSIZE) x) r va x) E := by
  constructor
  · intro k ret k' h hrun
    obtain ⟨-, hmax, hcases⟩ := mappages_page (h.apart hr) hpage.1 hpage.2 hperm hrun
    have hv := div_lt_NENTRIES hmax
    cases hcases with
    | inl hfail => exact .inl ⟨hfail.1, h.grown hr hfail.2.1⟩
    | inr hmapped =>
      have hspec := mapping_spec hpage.1 hpage.2 hperm
      refine .inr ⟨hmapped.1, hmax, fun y hy hsee => ?_, ?_, ?_⟩
      · exact hmapped.2.1 ((h.sees r hr _ hv y hy).mpr hsee).1
      · rw [hmapped.2.2.leaf, setLeaf_self]
        exact ⟨hspec.1, hspec.2.1⟩
      · exact h.mapShared hr hv hx ⟨hspec.1, hspec.2.1⟩ hmapped.2.1 hmapped.2.2
  intro k e h hrun
  refine hE.absurd fun hok => ?_
  rcases mappages_error (h.apart hr) hrun with halign | hmax | hvalid
  · exact halign hok.1
  · exact Nat.not_le_of_lt hok.2.1 hmax
  · exact hok.2.2 (h.room r hr _ (div_lt_NENTRIES hok.2.1) hvalid)

theorem mappages_held {va perm : Nat} (hr : r ∈ g.tables) (hc : Fresh L g c)
    (hperm : perm < 2 ^ 10) (hE : Allows E (Mappable g r va)) :
    Triple (Holds (L := L) (g.hold c)) (mappages r va PGSIZE c perm)
      (MapPost (g.hold c) g (g.grant r (va / PGSIZE) (va / PGSIZE + 1)) r va c) E := by
  have hshared : (g.hold c).shared c := .inr rfl
  have hrule : Triple (Holds (L := L) (g.hold c)) (mappages r va PGSIZE c perm)
      (MapPost (g.hold c) (g.hold c) ((g.hold c).see r (va / PGSIZE) c) r va c) E :=
    mappages_shared hr hshared ⟨hc.isPage.1, hc.isPage.lt⟩ hperm hE
  refine hrule.post fun ret k hpost => ?_
  cases hpost with
  | inl hfail => exact .inl hfail
  | inr hdone =>
    obtain ⟨hret, hmax, hunseen, hhit, hholds⟩ := hdone
    refine .inr ⟨hret, hmax, fun y hy hsee => ?_, hhit, hholds.adopt hc hr (div_lt_NENTRIES hmax)⟩
    have hne : y ≠ c := fun heq => hc.not_shared (heq ▸ hy)
    exact hunseen y (.inl hy) ⟨hne, hsee⟩

/-! ## `uvmunmap` -/

theorem Holds.unmap {freed : Nat → Nat} (h : Holds g k) (hr : r ∈ g.tables) (hv : v < NENTRIES)
    (hc : Changes k k' r (setLeaf (leaf k.mem 2 r) v 0) freed) (hout : ∀ x, freed x ≠ 0 → Hits (leaf k.mem 2 r v) x)
    (hkept : ∀ x, g.shared x → freed x = 0)
    (hbalance : ∀ x, ¬ g.shared x → freed x = if Hits (leaf k.mem 2 r v) x then 1 else 0) :
    Holds (g.unsee r v) k' := by
  refine h.change _ _ hr hc (fun x hx r' hr' => h.target_not_page hr hr' hv (hout x hx)) hkept
    (fun x hx => ?_) (fun w hw x hx => ?_) (fun r' hr' hne w hw x hx => ?_) (fun w hw hvalid => ?_)
    (fun r' hr' hne w hroom => ⟨fun heq => hne heq.1, hroom⟩)
  · have hcount := mapsTo_setLeaf (f := leaf k.mem 2 r) (e := 0) hv x
    rw [if_neg (not_hits_zero x)] at hcount
    rw [hbalance x hx]
    omega
  · by_cases hw' : w = v
    · rw [hw', setLeaf_self]
      exact ⟨fun hhit => absurd hhit (not_hits_zero x), fun hs => absurd ⟨rfl, rfl⟩ hs.1⟩
    · rw [setLeaf_of_ne hv hw hw', h.sees r hr w hw x hx]
      exact ⟨fun hs => ⟨fun heq => hw' heq.2, hs⟩, fun hs => hs.2⟩
  · exact ⟨fun hs => hs.2, fun hs => ⟨fun heq => hne heq.1, hs⟩⟩
  by_cases hw' : w = v
  · rw [hw', setLeaf_self] at hvalid
    exact absurd hvalid not_valid_zero
  · rw [setLeaf_of_ne hv hw hw'] at hvalid
    exact ⟨fun heq => hw' heq.2, h.room r hr w hw hvalid⟩

theorem Holds.of_unsee (h : Holds (g.unsee r v) k) (hun : Unseen g r v) : Holds (g.clear r v (v + 1)) k := by
  refine ⟨h.wf, h.balance, h.shared, fun r' hr' w hw x hx => ?_, fun r' hr' w hw hvalid => ?_⟩
  · rw [h.sees r' hr' w hw x hx]
    refine ⟨fun hs => hs.2, fun hs => ⟨fun heq => ?_, hs⟩⟩
    rw [heq.1, heq.2] at hs
    exact hun x hx hs
  · have hroom := h.room r' hr' w hw hvalid
    exact ⟨hroom.2, fun hin => hroom.1 ⟨hin.1, by omega⟩⟩

theorem unmapPage_free {a : Nat} (hr : r ∈ g.tables) (hun : Unseen g r (a / PGSIZE))
    (hmax : a < MAXVA) (hE : Allows E True) : Triple (Holds (L := L) g) (unmapPage r true a)
      (fun _ => Holds (g.clear r (a / PGSIZE) (a / PGSIZE + 1))) E := by
  have hv := div_lt_NENTRIES hmax
  constructor
  · intro k _ k' h hrun
    obtain ⟨-, hcases⟩ := unmapPage_ok (h.wf r hr) (h.once hr)
      (fun _ _ hvalid => h.target_not_page hr hr hv ⟨hvalid, rfl⟩) hrun
    cases hcases with
    | inl hnone =>
      rw [hnone.2]
      refine h.narrow fun w _ hlo hhi => ?_
      have heq : w = a / PGSIZE := by omega
      rw [heq]
      exact hnone.1
    | inr hsome =>
      simp only [true_and] at hsome
      refine (h.unmap hr hv hsome.2.1 (fun x hx => ?_) (fun x hx => ?_) (fun x _ => ?_)).of_unsee hun
      · have heq : x = PTE2PA (leaf k.mem 2 r (a / PGSIZE)) := by
          by_contra hne
          exact hx (if_neg hne)
        exact ⟨hsome.1, heq.symm⟩
      · apply if_neg
        intro heq
        exact hun x hx ((h.sees r hr _ hv x hx).mp ⟨hsome.1, heq.symm⟩)
      · simp only [Hits, hsome.1, true_and, eq_comm]
  · intro k e _ hrun
    exact hE.calm ((unmapPage_error hrun).resolve_left (Nat.not_le_of_lt hmax)).2

theorem unmapPage_keep {a : Nat} (hr : r ∈ g.tables) (hx : g.shared x)
    (hsee : g.sees r (a / PGSIZE) x) (hmax : a < MAXVA) :
    Triple (Holds (L := L) g) (unmapPage r false a) (fun _ => Holds (g.unsee r (a / PGSIZE)))
      E := by
  have hv := div_lt_NENTRIES hmax
  constructor
  · intro k _ k' h hrun
    obtain ⟨-, hcases⟩ := unmapPage_ok (h.wf r hr) (h.once hr) (fun hfree => by cases hfree) hrun
    have hhit := (h.sees r hr _ hv x hx).mpr hsee
    cases hcases with
    | inl hnone => exact absurd hhit.1 hnone.1
    | inr hsome =>
      simp only [Bool.false_eq_true, false_and, if_false] at hsome
      refine h.unmap hr hv hsome.2.1 (fun y hy => absurd rfl hy) (fun _ _ => rfl) (fun y hy => ?_)
      rw [if_neg]
      intro hother
      have heq : y = x := hother.2.symm.trans hhit.2
      exact hy (heq ▸ hx)
  · intro k e _ hrun
    cases ((unmapPage_error hrun).resolve_left (Nat.not_le_of_lt hmax)).1

theorem uvmunmapLoop_free {n a : Nat} (hr : r ∈ g.tables)
    (hun : ∀ i < n, Unseen g r (a / PGSIZE + i)) (hmax : a + n * PGSIZE ≤ MAXVA) (hE : Allows E True) :
    Triple (Holds (L := L) g) (uvmunmapLoop r true n a)
      (fun _ => Holds (g.clear r (a / PGSIZE) (a / PGSIZE + n))) E := by
  induction n generalizing a g with
  | zero => exact .pure fun _ h => h.narrow fun v _ hlo hhi => absurd hhi (Nat.not_lt_of_le hlo)
  | succ n ih =>
    have hhead : Unseen g r (a / PGSIZE) := hun 0 (Nat.succ_pos n)
    have hnext := add_PGSIZE_div a
    rw [Nat.succ_mul] at hmax
    have hlt : a < MAXVA := by
      unfold PGSIZE at hmax
      omega
    have hrest := ih (a := a + PGSIZE) (g := g.clear r (a / PGSIZE) (a / PGSIZE + 1)) hr
      (fun i hi => by
        have htail := hun (i + 1) (by omega)
        rw [hnext, Nat.add_assoc, Nat.add_comm 1 i]
        exact htail) (by omega)
    refine (unmapPage_free hr hhead hlt hE).bind fun _ => hrest.post fun _ k h => ?_
    rw [hnext] at h
    exact h.widen fun r' _ v hroom =>
      ⟨hroom.1.1, fun hin => (Nat.lt_or_ge v (a / PGSIZE + 1)).elim
        (fun hlt => hroom.1.2 ⟨hin.1, hin.2.1, hlt⟩) (fun hge => hroom.2 ⟨hin.1, hge, by omega⟩)⟩

theorem uvmunmap_free {va n : Nat} (hr : r ∈ g.tables) (halign : va % PGSIZE = 0)
    (hmax : va + n * PGSIZE ≤ MAXVA) (hun : ∀ i < n, Unseen g r (va / PGSIZE + i)) (hE : Allows E True) :
    Triple (Holds (L := L) g) (uvmunmap r va n true)
      (fun _ => Holds (g.clear r (va / PGSIZE) (va / PGSIZE + n))) E := by
  unfold uvmunmap
  rw [if_neg (not_not.mpr halign), unmap_rounds hmax]
  exact uvmunmapLoop_free hr hun hmax hE

theorem uvmunmap_one {va : Nat} (halign : va % PGSIZE = 0) (hmax : va < MAXVA) (doFree : Bool) :
    uvmunmap (L := L) r va 1 doFree = (do unmapPage r doFree va; pure ()) := by
  have hfits : va + 1 * PGSIZE ≤ MAXVA := by
    unfold MAXVA PGSIZE at *
    omega
  unfold uvmunmap
  rw [if_neg (not_not.mpr halign), unmap_rounds hfits]
  rfl

theorem uvmunmap_keep {va : Nat} (halign : va % PGSIZE = 0) (hmax : va < MAXVA) (hr : r ∈ g.tables)
    (hx : g.shared x) (hsee : g.sees r (va / PGSIZE) x) :
    Triple (Holds (L := L) g) (uvmunmap r va 1 false) (fun _ => Holds (g.unsee r (va / PGSIZE)))
      E := by
  rw [uvmunmap_one halign hmax]
  exact (unmapPage_keep hr hx hsee hmax).bind fun _ => .pure fun _ h => h

end Xv6.Vm
