import Xv6.Vm.Walk

/-!
# Who owns the pages

A ledger says, of a family of page tables, which physical pages belong to somebody else than the tables and the free
list (`shared`), where the tables map those (`sees`), where they have entries at all (`room`), and how many owners
every other page has in all (`total`, at most one).  `Holds g k` is the invariant that all of `kernel/vm.c` keeps: no
page-table page is written by mistake, so a change of one table leaves the others alone.
-/

namespace Xv6.Vm

open Finset Hoare Memory

/-! ## Counting the entries that map a page -/

def Hits (e x : Nat) : Prop := Valid e ∧ PTE2PA e = x

instance (e x : Nat) : Decidable (Hits e x) := inferInstanceAs (Decidable (_ ∧ _))

def mapsTo (entries : Nat → Nat) (x : Nat) : Nat := ∑ v ∈ range NENTRIES, if Hits (entries v) x then 1 else 0

theorem not_hits_zero (x : Nat) : ¬ Hits 0 x := fun h => not_valid_zero h.1

theorem setLeaf_self (f : Nat → Nat) (v e : Nat) : setLeaf f v e v = e := if_pos rfl

variable {f : Nat → Nat}

theorem setLeaf_of_ne {v e w : Nat} (hv : v < NENTRIES) (hw : w < NENTRIES) (hne : w ≠ v) : setLeaf f v e w = f w := by
  unfold setLeaf
  rw [Nat.mod_eq_of_lt hv, Nat.mod_eq_of_lt hw, if_neg hne]

theorem mapsTo_setLeaf {v e : Nat} (hv : v < NENTRIES) (x : Nat) :
    mapsTo (setLeaf f v e) x + (if Hits (f v) x then 1 else 0) = mapsTo f x + if Hits e x then 1 else 0 := by
  have hsum := Sums.sum_change
    (f := fun w => if Hits (setLeaf f v e w) x then 1 else 0)
    (g := fun w => if Hits (f w) x then 1 else 0)
    (mem_range.mpr hv) (fun w hw hne => by
      simp only [setLeaf_of_ne hv (mem_range.mp hw) hne])
  simp only [setLeaf_self] at hsum
  exact hsum

theorem mapsTo_pos {v x : Nat} (hv : v < NENTRIES) (h : Hits (f v) x) : 0 < mapsTo f x := by
  have hterm := Sums.term_le_sum (f := fun w => if Hits (f w) x then 1 else 0) (mem_range.mpr hv)
  simp only [if_pos h] at hterm
  exact hterm

theorem mapsTo_eq_zero {x : Nat} (h : ∀ v < NENTRIES, ¬ Hits (f v) x) : mapsTo f x = 0 :=
  sum_eq_zero fun v hv => if_neg (h v (mem_range.mp hv))

theorem mapsTo_congr {f g : Nat → Nat} {x : Nat}
    (h : ∀ v < NENTRIES, Hits (f v) x ↔ Hits (g v) x) : mapsTo f x = mapsTo g x := by
  apply sum_congr rfl
  intro v hv
  simp only [h v (mem_range.mp hv)]

/-! ## The ledger -/

structure Ledger where
  shared : Nat → Prop
  tables : Finset Nat
  /-- `sees r v x`: table `r` maps the shared page `x` at page number `v`. -/
  sees : Nat → Nat → Nat → Prop
  /-- `room r v`: table `r` may have a valid entry for page number `v`. -/
  room : Nat → Nat → Prop
  total : Nat → Nat
  total_le : ∀ x, total x ≤ 1

variable {L : Layout}

/-- How often table `r` uses page `x`, as one of its own pages or as the target of an entry. -/
def uses (m : Mem) (r x : Nat) : Nat := pages m 2 r x + mapsTo (leaf m 2 r) x

theorem uses_congr {m m' : Mem} {r x : Nat} (h : SameTable m m' 2 r) : uses m' r x = uses m r x := by
  have hleaves : mapsTo (leaf m' 2 r) x = mapsTo (leaf m 2 r) x := by
    apply mapsTo_congr
    intro v hv
    rw [leaf_congr h]
  unfold uses
  rw [pages_congr h, hleaves]

structure Holds (g : Ledger) (k : Kmem L) : Prop where
  wf : ∀ r ∈ g.tables, WellFormed L k.mem 2 r
  balance : ∀ x, ¬ g.shared x → k.free x + ∑ r ∈ g.tables, uses k.mem r x = g.total x
  shared : ∀ x, g.shared x → k.free x = 0 ∧ ∀ r ∈ g.tables, pages k.mem 2 r x = 0
  sees : ∀ r ∈ g.tables, ∀ v < NENTRIES, ∀ x, g.shared x → (Hits (leaf k.mem 2 r v) x ↔ g.sees r v x)
  room : ∀ r ∈ g.tables, ∀ v < NENTRIES, Valid (leaf k.mem 2 r v) → g.room r v

variable {g : Ledger} {k k' : Kmem L} {r r' v x c : Nat}

section

variable (h : Holds g k) (hr : r ∈ g.tables)

include h hr

theorem Holds.uses_le (hx : ¬ g.shared x) : k.free x + uses k.mem r x ≤ 1 := by
  have hterm := Sums.term_le_sum (f := fun r => uses k.mem r x) hr
  have hbalance := h.balance x hx
  have htotal := g.total_le x
  omega

theorem Holds.uses_two_le (hr' : r' ∈ g.tables)
    (hne : r ≠ r') (hx : ¬ g.shared x) : k.free x + (uses k.mem r x + uses k.mem r' x) ≤ 1 := by
  have hterms := Sums.two_terms_le_sum (f := fun r => uses k.mem r x) hr hr' hne
  have hbalance := h.balance x hx
  have htotal := g.total_le x
  omega

theorem Holds.not_shared_of_page (hx : 0 < pages k.mem 2 r x) : ¬ g.shared x := by
  intro hshared
  have hzero := (h.shared x hshared).2 r hr
  omega

theorem Holds.apart : Apart k 2 r := by
  refine ⟨h.wf r hr, fun x => ?_⟩
  by_cases hx : g.shared x
  · have hzero := h.shared x hx
    have hpages := hzero.2 r hr
    omega
  · have hle := h.uses_le hr hx
    unfold uses at hle
    omega

theorem Holds.once (x : Nat) : pages k.mem 2 r x ≤ 1 := by
  have honce := (h.apart hr).once x
  omega

theorem Holds.target_not_page (hr' : r' ∈ g.tables)
    (hv : v < NENTRIES) (hx : Hits (leaf k.mem 2 r v) x) : pages k.mem 2 r' x = 0 := by
  by_cases hshared : g.shared x
  · exact (h.shared x hshared).2 r' hr'
  have hpos := mapsTo_pos hv hx
  by_cases hne : r = r'
  · have hle := h.uses_le hr hshared
    rw [← hne]
    unfold uses at hle
    omega
  · have hle := h.uses_two_le hr hr' hne hshared
    unfold uses at hle
    omega

end

theorem Holds.same (h : Holds g k) (hfree : ∀ x, k'.free x = k.free x)
    (hsame : ∀ r ∈ g.tables, SameTable k.mem k'.mem 2 r) : Holds g k' := by
  refine ⟨fun r hr => (h.wf r hr).congr (hsame r hr), fun x hx => ?_, fun x hx => ?_,
    fun r hr v hv x hx => ?_, fun r hr v hv => ?_⟩
  · have hsum : ∑ r ∈ g.tables, uses k'.mem r x = ∑ r ∈ g.tables, uses k.mem r x :=
      sum_congr rfl fun r hr => uses_congr (hsame r hr)
    rw [hfree, hsum]
    exact h.balance x hx
  · refine ⟨(hfree x).trans (h.shared x hx).1, fun r hr => ?_⟩
    rw [pages_congr (hsame r hr)]
    exact (h.shared x hx).2 r hr
  · rw [leaf_congr (hsame r hr)]
    exact h.sees r hr v hv x hx
  · rw [leaf_congr (hsame r hr)]
    exact h.room r hr v hv

theorem Holds.write {m : Mem} (h : Holds g k) (hsame : ∀ r ∈ g.tables, SameTable k.mem m 2 r) :
    Holds g (k.write m) := h.same (fun _ => rfl) hsame

theorem Holds.sameTable_of_changes {new freed : Nat → Nat} (h : Holds g k) (hr : r ∈ g.tables)
    (hc : Changes k k' r new freed)
    (hfreed : ∀ x, freed x ≠ 0 → ∀ r' ∈ g.tables, pages k.mem 2 r' x = 0) (hr' : r' ∈ g.tables)
    (hne : r' ≠ r) : SameTable k.mem k'.mem 2 r' := by
  intro y hy
  have hy' := h.not_shared_of_page hr' hy
  have hle := h.uses_two_le hr' hr hne hy'
  have hzero : freed y = 0 := by
    by_contra hpos
    have := hfreed y hpos r' hr'
    omega
  unfold uses at hle
  exact hc.frame y ((h.wf r' hr').isPage_of_pages hy).1 (by omega) (by omega) hzero

theorem Holds.change {new freed : Nat → Nat} (h : Holds g k)
    (sees : Nat → Nat → Nat → Prop) (room : Nat → Nat → Prop) (hr : r ∈ g.tables) (hc : Changes k k' r new freed)
    (hfreed : ∀ x, freed x ≠ 0 → ∀ r' ∈ g.tables, pages k.mem 2 r' x = 0) (hkept : ∀ x, g.shared x → freed x = 0)
    (hbalance : ∀ x, ¬ g.shared x → freed x + mapsTo new x = mapsTo (leaf k.mem 2 r) x)
    (hsees : ∀ v < NENTRIES, ∀ x, g.shared x → (Hits (new v) x ↔ sees r v x))
    (hothers : ∀ r' ∈ g.tables, r' ≠ r → ∀ v < NENTRIES, ∀ x, g.shared x →
      (sees r' v x ↔ g.sees r' v x)) (hroom : ∀ v < NENTRIES, Valid (new v) → room r v)
    (hrooms : ∀ r' ∈ g.tables, r' ≠ r → ∀ v, g.room r' v → room r' v) :
    Holds { g with sees := sees, room := room } k' := by
  have hsame : ∀ r' ∈ g.tables, r' ≠ r → SameTable k.mem k'.mem 2 r' :=
    fun r' hr' hne => h.sameTable_of_changes hr hc hfreed hr' hne
  refine ⟨fun r' hr' => ?_, fun x hx => ?_, fun x hx => ?_, fun r' hr' v hv x hx => ?_, fun r' hr' v hv hvalid => ?_⟩
  · by_cases hne : r' = r
    · rw [hne]
      exact hc.wf
    · exact (h.wf r' hr').congr (hsame r' hr' hne)
  · have hsum := Sums.sum_change (f := fun r' => uses k'.mem r' x)
      (g := fun r' => uses k.mem r' x) hr (fun r' hr' hne =>
        uses_congr (hsame r' hr' hne))
    have hnew : mapsTo (leaf k'.mem 2 r) x = mapsTo new x := by
      apply mapsTo_congr
      intro v hv
      rw [hc.leaf]
    have hbal := hbalance x hx
    have hcount := hc.count x
    have hbefore := h.balance x hx
    have hafter : uses k'.mem r x = pages k'.mem 2 r x + mapsTo new x := by rw [uses, hnew]
    have hold : uses k.mem r x = pages k.mem 2 r x + mapsTo (leaf k.mem 2 r) x := rfl
    show k'.free x + ∑ r' ∈ g.tables, uses k'.mem r' x = g.total x
    omega
  · have hzero := h.shared x hx
    have hcount := hc.count x
    have hkeep := hkept x hx
    have hpages := hzero.2 r hr
    refine ⟨by omega, fun r' hr' => ?_⟩
    by_cases hne : r' = r
    · rw [hne]
      omega
    · rw [pages_congr (hsame r' hr' hne)]
      exact hzero.2 r' hr'
  · by_cases hne : r' = r
    · rw [hne, hc.leaf]
      exact hsees v hv x hx
    · rw [leaf_congr (hsame r' hr' hne), h.sees r' hr' v hv x hx]
      exact (hothers r' hr' hne v hv x hx).symm
  by_cases hne : r' = r
  · rw [hne] at hvalid ⊢
    rw [hc.leaf] at hvalid
    exact hroom v hv hvalid
  · rw [leaf_congr (hsame r' hr' hne)] at hvalid
    exact hrooms r' hr' hne v (h.room r' hr' v hv hvalid)

end Xv6.Vm
