import Xv6.Lib.Sums
import Xv6.Vm.PageTable

/-!
# What a page table in memory denotes

`leaf` is the entry that a table of `n + 1` levels holds for each virtual page number, a missing level counting as an
invalid entry; `pages` is how often a physical page serves as one of its page-table pages.  Both depend on the bytes
of the table's own pages only.
-/

namespace Xv6.Vm

open Finset Memory

/-! ## Entries as words -/

theorem mul_PGSIZE_div (v : Nat) : v * PGSIZE / PGSIZE = v := Nat.mul_div_cancel v (by decide)

theorem add_PGSIZE_div (a : Nat) : (a + PGSIZE) / PGSIZE = a / PGSIZE + 1 := Nat.add_div_right a (by decide)

theorem unmap_rounds {va n : Nat} (hmax : va + n * PGSIZE ≤ MAXVA) :
    ((va + n * PGSIZE) % 2 ^ 64 - va) / PGSIZE = n := by
  rw [Nat.mod_eq_of_lt (Nat.lt_of_le_of_lt hmax (by decide)), Nat.add_sub_cancel_left, mul_PGSIZE_div]

theorem PTE2PA_aligned (e : Nat) : PTE2PA e % PGSIZE = 0 := by
  unfold PTE2PA PGSIZE
  rw [Nat.shiftLeft_eq]
  omega

theorem PTE2PA_PA2PTE {pa f : Nat} (hpa : pa % PGSIZE = 0) (hlt : pa < 2 ^ 56) (hf : f < 2 ^ 10) :
    PTE2PA (PA2PTE pa ||| f) = pa := by
  unfold PTE2PA PA2PTE PGSIZE at *
  rw [← Nat.shiftLeft_add_eq_or_of_lt hf]
  simp only [Nat.shiftLeft_eq, Nat.shiftRight_eq_div_pow]
  omega

theorem PA2PTE_or_lt {pa f : Nat} (hlt : pa < 2 ^ 56) (hf : f < 2 ^ 10) : PA2PTE pa ||| f < 256 ^ 8 := by
  unfold PA2PTE
  rw [← Nat.shiftLeft_add_eq_or_of_lt hf]
  simp only [Nat.shiftLeft_eq, Nat.shiftRight_eq_div_pow]
  omega

theorem valid_iff {e : Nat} : Valid e ↔ e % 2 = 1 := by
  unfold Valid PTE_V
  rw [pow_zero, Nat.and_one_is_mod]
  omega

theorem not_valid_zero : ¬ Valid 0 := by decide

theorem valid_or (e : Nat) : Valid (e ||| PTE_V) := by
  rw [valid_iff, Nat.or_mod_two_eq_one]
  exact .inr (by decide)

theorem PX_eq (level va : Nat) : PX level va = va / PGSIZE / 512 ^ level % 512 := by
  have hmask : (0x1FF : Nat) = 2 ^ 9 - 1 := by decide
  have hsize : 2 ^ (12 + 9 * level) = PGSIZE * 512 ^ level := by
    rw [pow_add, pow_mul]
    rfl
  unfold PX
  rw [hmask, Nat.and_two_pow_sub_one_eq_mod, Nat.shiftRight_eq_div_pow, hsize, Nat.div_div_eq_div_mul]

/-! ## Tables -/

def entry (m : Mem) (page i : Nat) : Nat := load m (page + 8 * i) 8

/-- The index of page number `v` in the page-table page of a level. -/
def index (level v : Nat) : Nat := v / 512 ^ level % 512

theorem index_lt (level v : Nat) : index level v < 512 := Nat.mod_lt _ (by decide)

def leaf (m : Mem) : Nat → Nat → Nat → Nat
  | 0, page, v => entry m page (index 0 v)
  | n + 1, page, v =>
    if Valid (entry m page (index (n + 1) v)) then
      leaf m n (PTE2PA (entry m page (index (n + 1) v))) v
    else 0

/-- Where the entry of page number `v` is, if every level above it is there. -/
def slot (m : Mem) : Nat → Nat → Nat → Option Nat
  | 0, page, v => some (page + 8 * index 0 v)
  | n + 1, page, v =>
    if Valid (entry m page (index (n + 1) v)) then
      slot m n (PTE2PA (entry m page (index (n + 1) v))) v
    else none

def pages (m : Mem) : Nat → Nat → Nat → Nat
  | 0, page, x => if x = page then 1 else 0
  | n + 1, page, x =>
    (if x = page then 1 else 0) +
      ∑ i ∈ range 512,
        if Valid (entry m page i) then pages m n (PTE2PA (entry m page i)) x else 0

/-- Every entry above the last level that is valid points to a page-table page. -/
def WellFormed (L : Layout) (m : Mem) : Nat → Nat → Prop
  | 0, page => L.IsPage page
  | n + 1, page =>
    L.IsPage page ∧ ∀ i < 512, Valid (entry m page i) →
      entry m page i &&& (PTE_R ||| PTE_W ||| PTE_X) = 0 ∧ WellFormed L m n (PTE2PA (entry m page i))

variable {L : Layout} {m m' : Mem} {n page i j v x : Nat}

theorem WellFormed.isPage (h : WellFormed L m n page) : L.IsPage page := by
  cases n with
  | zero => exact h
  | succ => exact h.1

theorem entry_congr (h : Agree m m' page PGSIZE) (hi : i < 512) : entry m' page i = entry m page i :=
  load_congr (h.sub (by omega) (by unfold PGSIZE; omega))

theorem pages_self_pos (m : Mem) (n page : Nat) : 0 < pages m n page page := by
  cases n <;> simp [pages]

theorem pages_child_le (hi : i < 512) (hv : Valid (entry m page i)) :
    (if x = page then 1 else 0) + pages m n (PTE2PA (entry m page i)) x ≤ pages m (n + 1) page x := by
  have hterm := Sums.term_le_sum
    (f := fun i => if Valid (entry m page i) then pages m n (PTE2PA (entry m page i)) x else 0)
    (mem_range.mpr hi)
  simp only [if_pos hv] at hterm
  simp only [pages]
  omega

theorem pages_two_children_le (hi : i < 512) (hj : j < 512) (hne : i ≠ j)
    (hvi : Valid (entry m page i)) (hvj : Valid (entry m page j)) :
    pages m n (PTE2PA (entry m page i)) x + pages m n (PTE2PA (entry m page j)) x ≤ pages m (n + 1) page x := by
  have hterms := Sums.two_terms_le_sum
    (f := fun i => if Valid (entry m page i) then pages m n (PTE2PA (entry m page i)) x else 0)
    (mem_range.mpr hi) (mem_range.mpr hj) hne
  simp only [if_pos hvi, if_pos hvj] at hterms
  simp only [pages]
  omega

theorem child_once (hone : ∀ x, pages m (n + 1) page x ≤ 1) (hi : i < 512)
    (hv : Valid (entry m page i)) (x : Nat) : pages m n (PTE2PA (entry m page i)) x ≤ 1 := by
  have hle := pages_child_le (x := x) (n := n) hi hv
  have hx := hone x
  omega

theorem WellFormed.isPage_of_pages (h : WellFormed L m n page) (hx : 0 < pages m n page x) : L.IsPage x := by
  induction n generalizing page with
  | zero =>
    have hself : x = page := by
      by_contra hne
      simp [pages, hne] at hx
    rw [hself]
    exact h
  | succ n ih =>
    by_cases hself : x = page
    · rw [hself]
      exact h.1
    simp only [pages, if_neg hself, Nat.zero_add] at hx
    have hsome := exists_ne_zero_of_sum_ne_zero (Nat.ne_of_gt hx)
    obtain ⟨i, hi, hterm⟩ := hsome
    by_cases hv : Valid (entry m page i)
    · rw [if_pos hv] at hterm
      exact ih (h.2 i (mem_range.mp hi) hv).2 (Nat.pos_of_ne_zero hterm)
    · rw [if_neg hv] at hterm
      exact absurd rfl hterm

/-! ## Writes outside the table -/

/-- The two memories agree on every page of the table. -/
def SameTable (m m' : Mem) (n page : Nat) : Prop := ∀ y, 0 < pages m n page y → Agree m m' y PGSIZE

theorem SameTable.self (h : SameTable m m' n page) : Agree m m' page PGSIZE := h page (pages_self_pos m n page)

theorem SameTable.child (h : SameTable m m' (n + 1) page) (hi : i < 512)
    (hv : Valid (entry m page i)) : SameTable m m' n (PTE2PA (entry m page i)) := by
  intro y hy
  have hle := pages_child_le (x := y) (n := n) hi hv
  exact h y (by omega)

theorem leaf_congr (h : SameTable m m' n page) : leaf m' n page v = leaf m n page v := by
  induction n generalizing page with
  | zero => exact entry_congr h.self (index_lt 0 v)
  | succ n ih =>
    have hentry := entry_congr h.self (index_lt (n + 1) v)
    simp only [leaf, hentry]
    split
    · rename_i hv
      exact ih (h.child (index_lt _ _) hv)
    · rfl

theorem slot_congr (h : SameTable m m' n page) : slot m' n page v = slot m n page v := by
  induction n generalizing page with
  | zero => rfl
  | succ n ih =>
    have hentry := entry_congr h.self (index_lt (n + 1) v)
    simp only [slot, hentry]
    split
    · rename_i hv
      exact ih (h.child (index_lt _ _) hv)
    · rfl

theorem pages_congr (h : SameTable m m' n page) : pages m' n page x = pages m n page x := by
  induction n generalizing page with
  | zero => rfl
  | succ n ih =>
    have hterm : ∀ i ∈ range 512,
        (if Valid (entry m' page i) then pages m' n (PTE2PA (entry m' page i)) x else 0) =
          if Valid (entry m page i) then pages m n (PTE2PA (entry m page i)) x else 0 := by
      intro i hi
      rw [entry_congr h.self (mem_range.mp hi)]
      split
      · rename_i hv
        exact ih (h.child (mem_range.mp hi) hv)
      · rfl
    simp only [pages, sum_congr rfl hterm]

theorem WellFormed.congr (hwf : WellFormed L m n page) (h : SameTable m m' n page) : WellFormed L m' n page := by
  induction n generalizing page with
  | zero => exact hwf
  | succ n ih =>
    refine ⟨hwf.1, fun i hi hv => ?_⟩
    rw [entry_congr h.self hi] at hv ⊢
    have hchild := hwf.2 i hi hv
    exact ⟨hchild.1, ih hchild.2 (h.child hi hv)⟩

/-! ## Writes below one entry -/

/-- The two memories agree on the page and on all tables below it but the one at entry `i`. -/
structure OnlyBelow (m m' : Mem) (n page i : Nat) : Prop where
  self : Agree m m' page PGSIZE
  others : ∀ j < 512, j ≠ i → Valid (entry m page j) → SameTable m m' n (PTE2PA (entry m page j))

theorem OnlyBelow.leaf (h : OnlyBelow m m' n page i) (hv : Valid (entry m page i)) : leaf m' (n + 1) page v =
      if index (n + 1) v = i then leaf m' n (PTE2PA (entry m page i)) v
      else leaf m (n + 1) page v := by
  have hentry := entry_congr h.self (index_lt (n + 1) v)
  by_cases hi : index (n + 1) v = i
  · rw [hi] at hentry
    simp only [Vm.leaf, hi, hentry, if_pos hv, if_true]
  simp only [Vm.leaf, hentry, if_neg hi]
  split
  · rename_i hother
    exact leaf_congr (h.others _ (index_lt _ _) hi hother)
  · rfl

theorem OnlyBelow.slot (h : OnlyBelow m m' n page i) (hv : Valid (entry m page i)) (hi : index (n + 1) v = i) :
    slot m' (n + 1) page v = slot m' n (PTE2PA (entry m page i)) v := by
  have hentry := entry_congr h.self (index_lt (n + 1) v)
  rw [hi] at hentry
  simp only [Vm.slot, hi, hentry, if_pos hv]

theorem OnlyBelow.pages (h : OnlyBelow m m' n page i) (hi : i < 512) (hv : Valid (entry m page i)) :
    pages m' (n + 1) page x + pages m n (PTE2PA (entry m page i)) x =
      pages m (n + 1) page x + pages m' n (PTE2PA (entry m page i)) x := by
  have hsum := Sums.sum_change
    (f := fun j => if Valid (entry m' page j) then Vm.pages m' n (PTE2PA (entry m' page j)) x else 0)
    (g := fun j => if Valid (entry m page j) then Vm.pages m n (PTE2PA (entry m page j)) x else 0)
    (mem_range.mpr hi) (fun j hj hne => by
      simp only [entry_congr h.self (mem_range.mp hj)]
      split
      · rename_i hother
        exact pages_congr (h.others j (mem_range.mp hj) hne hother)
      · rfl)
  simp only [entry_congr h.self hi, if_pos hv] at hsum
  simp only [Vm.pages]
  omega

theorem WellFormed.onlyBelow (hwf : WellFormed L m (n + 1) page) (h : OnlyBelow m m' n page i)
    (hchild : WellFormed L m' n (PTE2PA (entry m page i))) : WellFormed L m' (n + 1) page := by
  refine ⟨hwf.1, fun j hj hv => ?_⟩
  rw [entry_congr h.self hj] at hv ⊢
  refine ⟨(hwf.2 j hj hv).1, ?_⟩
  by_cases hne : j = i
  · rw [hne]
    exact hchild
  · exact (hwf.2 j hj hv).2.congr (h.others j hj hne hv)

/-! ## Setting the entry of a page number -/

theorem slot_succ {a : Nat} : slot m (n + 1) page v = some a ↔ Valid (entry m page (index (n + 1) v)) ∧
    slot m n (PTE2PA (entry m page (index (n + 1) v))) v = some a := by
  rw [slot, Option.ite_none_right_eq_some]

theorem slot_mem_pages {a : Nat} (h : slot m n page v = some a) :
    ∃ y, 0 < pages m n page y ∧ a = y + 8 * index 0 v := by
  induction n generalizing page with
  | zero =>
    simp only [slot, Option.some.injEq] at h
    exact ⟨page, pages_self_pos m 0 page, h.symm⟩
  | succ n ih =>
    obtain ⟨hv, hslot⟩ := slot_succ.mp h
    obtain ⟨y, hy, ha⟩ := ih hslot
    have hle := pages_child_le (x := y) (n := n) (index_lt (n + 1) v) hv
    exact ⟨y, by omega, ha⟩

theorem load_slot {a : Nat} (h : slot m n page v = some a) : load m a 8 = leaf m n page v := by
  induction n generalizing page with
  | zero =>
    simp only [slot, Option.some.injEq] at h
    rw [← h]
    rfl
  | succ n ih =>
    obtain ⟨hv, hslot⟩ := slot_succ.mp h
    simp only [leaf, if_pos hv]
    exact ih hslot

theorem leaf_of_slot_none (h : slot m n page v = none) : leaf m n page v = 0 := by
  induction n generalizing page with
  | zero => simp [slot] at h
  | succ n ih =>
    simp only [slot] at h
    simp only [leaf]
    split at h
    · rename_i hv
      rw [if_pos hv]
      exact ih h
    · rename_i hv
      rw [if_neg hv]

theorem agree_put_page {y z e : Nat} (hy : y % PGSIZE = 0) (hz : z % PGSIZE = 0) (hne : z ≠ y)
    (hi : i < 512) : Agree m (put m (y + 8 * i) 8 e) z PGSIZE := by
  apply agree_put
  have hdisj := page_disjoint hz hy hne
  unfold PGSIZE at *
  omega

-- The entry lies below entry `index (n + 1) v`, in a page that no other part of the table uses.
theorem onlyBelow_put {a e : Nat} (hwf : WellFormed L m (n + 1) page)
    (hone : ∀ x, pages m (n + 1) page x ≤ 1) (hslot : slot m (n + 1) page v = some a) :
    OnlyBelow m (put m a 8 e) n page (index (n + 1) v) := by
  obtain ⟨hv, h⟩ := slot_succ.mp hslot
  obtain ⟨y, hy, ha⟩ := slot_mem_pages h
  have hyle := pages_child_le (x := y) (n := n) (index_lt (n + 1) v) hv
  have hypage := (hwf.2 _ (index_lt _ _) hv).2.isPage_of_pages hy
  have honey := hone y
  rw [ha]
  refine ⟨?_, ?_⟩
  · apply agree_put_page hypage.1 hwf.1.1 _ (index_lt _ _)
    intro heq
    rw [if_pos heq.symm] at hyle
    omega
  intro j hj hne hvj z hz
  have hzpage := (hwf.2 j hj hvj).2.isPage_of_pages hz
  have htwo := pages_two_children_le (x := y) (n := n) hj (index_lt (n + 1) v) hne hvj hv
  apply agree_put_page hypage.1 hzpage.1 _ (index_lt _ _)
  intro heq
  rw [heq] at hz
  omega

theorem mod_pow_succ (v n : Nat) : v % 512 ^ (n + 1) = v % 512 ^ n + 512 ^ n * index n v := by
  rw [pow_succ, Nat.mod_mul, index]

theorem same_path_iff {v w n : Nat} : w % 512 ^ (n + 1) = v % 512 ^ (n + 1) ↔
      index n w = index n v ∧ w % 512 ^ n = v % 512 ^ n := by
  have hpos : 0 < 512 ^ n := Nat.pow_pos (by decide)
  have hw := Nat.mod_lt w hpos
  have hv := Nat.mod_lt v hpos
  rw [mod_pow_succ, mod_pow_succ]
  refine ⟨fun h => ?_, fun h => by rw [h.1, h.2]⟩
  have hlow : w % 512 ^ n = v % 512 ^ n := by
    have hmod := congrArg (· % 512 ^ n) h
    simpa [Nat.add_mul_mod_self_left, Nat.mod_eq_of_lt hw, Nat.mod_eq_of_lt hv] using hmod
  rw [hlow] at h
  exact ⟨Nat.eq_of_mul_eq_mul_left hpos (Nat.add_left_cancel h), hlow⟩

theorem leaf_mod {w : Nat} (h : w % 512 ^ (n + 1) = v % 512 ^ (n + 1)) : leaf m n page w = leaf m n page v := by
  induction n generalizing page with
  | zero =>
    have hidx : index 0 w = index 0 v := (same_path_iff.mp h).1
    simp only [leaf, hidx]
  | succ n ih =>
    obtain ⟨hidx, hlow⟩ := same_path_iff.mp h
    simp only [leaf, hidx, ih hlow]

section

variable (hwf : WellFormed L m n page) (hone : ∀ x, pages m n page x ≤ 1)

include hwf hone

theorem leaf_put {a e w : Nat} (h : slot m n page v = some a) (he : e < 256 ^ 8) : leaf (put m a 8 e) n page w =
      if w % 512 ^ (n + 1) = v % 512 ^ (n + 1) then e else leaf m n page w := by
  induction n generalizing page with
  | zero =>
    simp only [slot, Option.some.injEq] at h
    rw [← h]
    have hv := index_lt 0 v
    have hw := index_lt 0 w
    simp only [same_path_iff, pow_zero, Nat.mod_one, and_true]
    split
    · rename_i heq
      show load _ (page + 8 * index 0 w) 8 = e
      rw [heq]
      exact load_put he
    · rename_i hne
      exact load_congr (agree_put (by omega))
  | succ n ih =>
    obtain ⟨hvalid, hslot⟩ := slot_succ.mp h
    have honly := onlyBelow_put (e := e) hwf hone h
    have hbelow := ih (hwf.2 _ (index_lt _ _) hvalid).2 (child_once hone (index_lt (n + 1) v) hvalid) hslot
    rw [honly.leaf hvalid, hbelow]
    simp only [same_path_iff (n := n + 1)]
    by_cases hidx : index (n + 1) w = index (n + 1) v
    · simp only [hidx, if_true, true_and]
      split
      · rfl
      · simp only [leaf, hidx, if_pos hvalid]
    · simp only [hidx, if_false, false_and]

theorem pages_put {a e : Nat} (h : slot m n page v = some a) : pages (put m a 8 e) n page x = pages m n page x := by
  induction n generalizing page with
  | zero => rfl
  | succ n ih =>
    obtain ⟨hvalid, hslot⟩ := slot_succ.mp h
    have honly := onlyBelow_put (e := e) hwf hone h
    have hbelow := ih (hwf.2 _ (index_lt _ _) hvalid).2 (child_once hone (index_lt (n + 1) v) hvalid) hslot
    have hsum := honly.pages (x := x) (index_lt _ _) hvalid
    rw [hbelow] at hsum
    omega

theorem WellFormed.put {a e : Nat} (h : slot m n page v = some a) : WellFormed L (put m a 8 e) n page := by
  induction n generalizing page with
  | zero => exact hwf
  | succ n ih =>
    obtain ⟨hvalid, hslot⟩ := slot_succ.mp h
    have honly := onlyBelow_put (e := e) hwf hone h
    have hbelow := ih (hwf.2 _ (index_lt _ _) hvalid).2 (child_once hone (index_lt (n + 1) v) hvalid) hslot
    exact hwf.onlyBelow honly hbelow

end

end Xv6.Vm
