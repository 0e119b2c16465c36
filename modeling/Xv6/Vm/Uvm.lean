import Xv6.Vm.PageMap
import Xv6.Vm.Rules

/-!
# Rules for user memory

The functions that grow, shrink, copy and access user memory keep the ledger.  Those that free user
pages keep it as long as the pages they free are not shared; `uvmalloc` and `uvmcopy` free only what
they have mapped themselves, at addresses that had no mapping before.
-/

namespace Xv6.Vm

open Finset Hoare Memory Ledger PageMap

attribute [local irreducible] freewalk

variable {L : Layout} {g : Ledger} {k k' : Kmem L} {r v x c : Nat} {E : Panic → Prop}

/-! ## Rounding -/

variable {p : Space} {va sz : Nat}

theorem PGROUNDUP_eq (h : sz ≤ MAXVA) : PGROUNDUP sz = (sz + PGSIZE - 1) / PGSIZE * PGSIZE := by
  unfold PGROUNDUP
  rw [Nat.mod_eq_of_lt]
  unfold MAXVA at h
  unfold PGSIZE
  omega

theorem PGROUNDUP_div (h : sz ≤ MAXVA) : PGROUNDUP sz / PGSIZE = (sz + PGSIZE - 1) / PGSIZE := by
  rw [PGROUNDUP_eq h, mul_PGSIZE_div]

theorem PGROUNDUP_of_aligned (h : sz ≤ MAXVA) (ha : sz % PGSIZE = 0) : PGROUNDUP sz = sz := by
  rw [PGROUNDUP_eq h]
  unfold PGSIZE at *
  omega

theorem PGROUNDUP_aligned (sz : Nat) : PGROUNDUP sz % PGSIZE = 0 := Nat.mul_mod_left _ _

theorem PGROUNDUP_le_MAXVA (h : sz ≤ MAXVA) : PGROUNDUP sz ≤ MAXVA := by
  rw [PGROUNDUP_eq h]
  unfold MAXVA PGSIZE at *
  omega

def pagesOf (sz : Nat) : Nat := (sz + PGSIZE - 1) / PGSIZE

theorem pagesOf_eq (h : sz ≤ MAXVA) : PGROUNDUP sz / PGSIZE = pagesOf sz := PGROUNDUP_div h

theorem pagesOf_mono {sz sz' : Nat} (h : sz ≤ sz') : pagesOf sz ≤ pagesOf sz' := by
  unfold pagesOf PGSIZE
  omega

theorem div_lt_pagesOf {va sz : Nat} (h : va < sz) : va / PGSIZE < pagesOf sz := by
  unfold pagesOf PGSIZE
  omega

/-! ## Shrinking -/

theorem dealloc_npages {oldsz newsz : Nat} (hold : oldsz ≤ MAXVA) (hnew : newsz ≤ MAXVA) :
    uint64 (int32 ((PGROUNDUP oldsz - PGROUNDUP newsz) / PGSIZE : Nat)) = pagesOf oldsz - pagesOf newsz := by
  have hcount : (PGROUNDUP oldsz - PGROUNDUP newsz) / PGSIZE = pagesOf oldsz - pagesOf newsz := by
    rw [PGROUNDUP_eq hold, PGROUNDUP_eq hnew, ← Nat.sub_mul, mul_PGSIZE_div]
    rfl
  have hsmall : pagesOf oldsz - pagesOf newsz < 2 ^ 31 := by
    unfold MAXVA at hold
    unfold pagesOf PGSIZE
    omega
  rw [hcount]
  generalize pagesOf oldsz - pagesOf newsz = n at hsmall
  rw [int32_eq_self (by omega) (by omega)]
  unfold uint64
  omega

theorem uvmdealloc_rule {oldsz newsz : Nat} (hr : r ∈ g.tables) (hold : oldsz ≤ MAXVA)
    (hun : ∀ v, PGROUNDUP newsz / PGSIZE ≤ v → v < PGROUNDUP oldsz / PGSIZE → Unseen g r v) (hE : Allows E True) :
    Triple (Holds (L := L) g) (uvmdealloc r oldsz newsz)
      (fun ret k => (oldsz ≤ newsz ∧ ret = oldsz ∧ Holds g k) ∨
        (newsz < oldsz ∧ ret = newsz ∧ Holds (g.clear r (pagesOf newsz) (pagesOf oldsz)) k)) E := by
  unfold uvmdealloc
  refine .ite (fun hle => .pure fun _ h => .inl ⟨hle, rfl, h⟩) fun hlt => ?_
  have hlt : newsz < oldsz := Nat.lt_of_not_le hlt
  have hnew : newsz ≤ MAXVA := by omega
  rw [pagesOf_eq hold, pagesOf_eq hnew] at hun
  refine .ite (fun hless => ?_) fun hsame => .pure fun _ h => .inr ⟨hlt, rfl, ?_⟩
  · have hfits := dealloc_npages hold hnew
    have hless' : pagesOf newsz < pagesOf oldsz := by
      rw [PGROUNDUP_eq hold, PGROUNDUP_eq hnew] at hless
      exact Nat.lt_of_mul_lt_mul_right hless
    have hmax : PGROUNDUP newsz + (pagesOf oldsz - pagesOf newsz) * PGSIZE ≤ MAXVA := by
      have hall := PGROUNDUP_le_MAXVA hold
      rw [PGROUNDUP_eq hold] at hall
      rw [PGROUNDUP_eq hnew]
      unfold pagesOf at *
      rw [← Nat.add_mul, Nat.add_sub_of_le (Nat.le_of_lt hless')]
      exact hall
    simp only [hfits]
    have hrule := uvmunmap_free (L := L) hr (PGROUNDUP_aligned newsz) hmax
      (fun i hi => by
        rw [pagesOf_eq hnew]
        exact hun _ (Nat.le_add_right _ _) (by omega)) hE
    refine hrule.bind fun _ => .pure fun _ h => .inr ⟨hlt, rfl, ?_⟩
    rw [pagesOf_eq hnew, Nat.add_sub_of_le (Nat.le_of_lt hless')] at h
    exact h
  -- The last page is still in use.
  refine h.narrow fun v _ hlo hhi => ?_
  rw [PGROUNDUP_eq hold, PGROUNDUP_eq hnew] at hsame
  have hle : pagesOf oldsz ≤ pagesOf newsz := Nat.le_of_mul_le_mul_right (Nat.le_of_not_lt hsame) (by decide)
  omega

/-! ## Growing -/

/-- The pages from `lo` up to the address `hi` have no shared page in table `r`. -/
def UnseenTo (g : Ledger) (r lo hi : Nat) : Prop := ∀ v, lo / PGSIZE ≤ v → v * PGSIZE < hi → Unseen g r v

/-- What `uvmalloc` did: it failed, or it had nothing to do, or all pages up to `newsz` are new. -/
def UvmallocPost (g : Ledger) (r oldsz newsz ret : Nat) (k : Kmem L) : Prop :=
  ((ret = 0 ∨ (newsz < oldsz ∧ ret = oldsz)) ∧ Holds g k) ∨
    ((ret = newsz ∧ oldsz ≤ newsz ∧ UnseenTo g r (PGROUNDUP oldsz) newsz) ∧
      Holds (g.grant r (pagesOf oldsz) (pagesOf newsz)) k)

theorem uvmalloc_undo {oldsz a : Nat} (hr : r ∈ g.tables) (hold : oldsz % PGSIZE = 0)
    (ha : a % PGSIZE = 0) (hle : oldsz ≤ a) (hmax : a = oldsz ∨ a ≤ MAXVA)
    (hdone : UnseenTo g r oldsz a) (hE : Allows E True) :
    Triple (Holds (L := L) (g.grant r (oldsz / PGSIZE) (a / PGSIZE))) (uvmdealloc r a oldsz) (fun _ => Holds g) E := by
  cases hmax with
  | inl heq =>
    unfold uvmdealloc
    rw [if_pos (Nat.le_of_eq heq)]
    refine .pure fun _ h => h.widen fun r' _ v hroom => hroom.elim id fun hin => ?_
    rw [heq] at hin
    omega
  | inr hmax =>
    have hpages : ∀ {b : Nat}, b % PGSIZE = 0 → pagesOf b = b / PGSIZE := by
      intro b hb
      unfold pagesOf PGSIZE at *
      omega
    have hr' : r ∈ (g.grant r (oldsz / PGSIZE) (a / PGSIZE)).tables := hr
    refine (uvmdealloc_rule hr' hmax (fun v hlo hhi => hdone v ?_ ?_) hE).post fun _ _ h => ?_
    · rw [PGROUNDUP_of_aligned (Nat.le_trans hle hmax) hold] at hlo
      exact hlo
    · rw [PGROUNDUP_of_aligned hmax ha] at hhi
      unfold PGSIZE at *
      omega
    rcases h with ⟨hsame, -, h⟩ | ⟨-, -, h⟩
    · have heq : a = oldsz := Nat.le_antisymm hsame hle
      refine h.widen fun r' _ v hroom => hroom.elim id fun hin => ?_
      rw [heq] at hin
      omega
    · rw [hpages ha, hpages hold] at h
      exact h.widen fun r' _ v hroom => hroom.1.elim id fun hin => absurd hin hroom.2

theorem UnseenTo.next {lo a : Nat} (h : UnseenTo g r lo a) (ha : a % PGSIZE = 0)
    (hun : Unseen g r (a / PGSIZE)) : UnseenTo g r lo (a + PGSIZE) := by
  intro v hlo hhi
  by_cases hv : v * PGSIZE < a
  · exact h v hlo hv
  have heq : v = a / PGSIZE := by
    unfold PGSIZE at *
    omega
  rw [heq]
  exact hun

theorem Holds.grant_next {lo i : Nat} (h : Holds ((g.grant r lo i).grant r i (i + 1)) k)
    (hle : lo ≤ i) : Holds (g.grant r lo (i + 1)) k := by
  refine h.widen fun r' _ v hroom => ?_
  rcases hroom with (hroom | hin) | hin
  · exact .inl hroom
  · exact .inr ⟨hin.1, hin.2.1, by omega⟩
  · exact .inr ⟨hin.1, by omega, hin.2.2⟩

-- The invariant of the loop: the pages from `oldsz` up to `a` are the ones that are mapped so far, and
-- had no mapping before.
theorem uvmallocLoop_rule {oldsz newsz xperm n a : Nat} (hr : r ∈ g.tables)
    (hperm : xperm < 2 ^ 10) (hold : oldsz % PGSIZE = 0) (ha : a % PGSIZE = 0) (hle : oldsz ≤ a)
    (hmax : a = oldsz ∨ a ≤ MAXVA) (hdone : UnseenTo g r oldsz a) (hrounds : newsz ≤ a + PGSIZE * n)
    (hE : Allows E (a + PGSIZE * n ≤ MAXVA ∧ ∀ v, oldsz / PGSIZE ≤ v → v < a / PGSIZE + n → ¬ g.room r v)) :
    Triple (Holds (L := L) (g.grant r (oldsz / PGSIZE) (a / PGSIZE)))
      (uvmallocLoop r oldsz newsz xperm n a)
      (fun ret k => (ret = 0 ∧ Holds g k) ∨ ((ret = newsz ∧ UnseenTo g r oldsz newsz) ∧
        Holds (g.grant r (oldsz / PGSIZE) (a / PGSIZE + n)) k)) E := by
  induction n generalizing a with
  | zero =>
    refine .pure fun _ h => .inr ⟨⟨rfl, fun v hlo hhi => hdone v hlo ?_⟩, h⟩
    omega
  | succ n ih =>
    have hnext := add_PGSIZE_div a
    have hdiv : oldsz / PGSIZE ≤ a / PGSIZE := Nat.div_le_div_right hle
    have hundo := uvmalloc_undo (L := L) hr hold ha hle hmax hdone (hE.mono fun _ => trivial)
    have hflags : PTE_R ||| PTE_U ||| xperm < 2 ^ 10 := Nat.or_lt_two_pow (by decide) hperm
    rw [Nat.mul_succ] at hrounds hE
    have hmap : Allows E (Mappable (g.grant r (oldsz / PGSIZE) (a / PGSIZE)) r a) := by
      refine hE.mono fun hok => ⟨ha, ?_, fun hroom => ?_⟩
      · unfold PGSIZE at hok
        omega
      · rcases hroom with hroom | hin
        · exact hok.2 _ hdiv (by omega) hroom
        · omega
    have hr' : r ∈ (g.grant r (oldsz / PGSIZE) (a / PGSIZE)).tables := hr
    unfold uvmallocLoop
    apply kalloc_then
    · rw [if_pos rfl]
      exact hundo.bind fun _ => .pure fun _ h => .inl ⟨rfl, h⟩
    intro c hc
    rw [if_neg hc.ne_zero]
    refine (memset_shared hc.isPage (shared_hold _ c)).bind fun _ => ?_
    refine (mappages_held hr' hc hflags hmap).bind fun ret => .or (.assume fun hret => ?_)
      (.assume fun hret => .assume fun hva => .assume fun hunseen => ?_)
    · rw [hret, if_pos (by decide)]
      refine (kfree_held hc).bind fun _ => ?_
      exact hundo.bind fun _ => .pure fun _ h => .inl ⟨rfl, h⟩
    rw [hret, if_neg (by decide)]
    have hmax' : a + PGSIZE ≤ MAXVA := by
      unfold MAXVA PGSIZE at *
      omega
    have hrest := ih (a := a + PGSIZE) (by unfold PGSIZE at *; omega) (by omega) (.inr hmax')
      (hdone.next ha hunseen) (by omega) (hE.mono fun hok => ⟨by omega, fun v hlo hhi => ?_⟩)
    · rw [hnext, Nat.add_assoc, Nat.add_comm 1 n] at hrest
      exact .pre hrest fun _ h => h.2.grant_next hdiv
    · rw [hnext] at hhi
      exact hok.2 v hlo (by omega)

theorem uvmalloc_rule {oldsz newsz xperm : Nat} (hr : r ∈ g.tables) (hperm : xperm < 2 ^ 10) (hold : oldsz ≤ MAXVA)
    (hE : Allows E (newsz ≤ MAXVA ∧ ∀ v, pagesOf oldsz ≤ v → v < pagesOf newsz → ¬ g.room r v)) :
    Triple (Holds (L := L) g) (uvmalloc r oldsz newsz xperm) (UvmallocPost g r oldsz newsz)
      E := by
  unfold uvmalloc
  refine .ite (fun hlt => .pure fun _ h => .inl ⟨.inr ⟨hlt, rfl⟩, h⟩) fun hge => ?_
  have hge : oldsz ≤ newsz := Nat.le_of_not_lt hge
  have hlo := pagesOf_eq hold
  have hup := PGROUNDUP_eq hold
  -- The loop goes on to the last page of `newsz`, unless that page is there already.
  have hend : PGROUNDUP oldsz / PGSIZE + (newsz - PGROUNDUP oldsz + PGSIZE - 1) / PGSIZE =
      pagesOf newsz := by
    rw [hlo, hup]
    unfold pagesOf PGSIZE
    omega
  refine .pre (P := Holds (g.grant r (PGROUNDUP oldsz / PGSIZE) (PGROUNDUP oldsz / PGSIZE))) ?_
    fun _ h => h.widen fun _ _ _ hroom => .inl hroom
  refine (uvmallocLoop_rule hr hperm (PGROUNDUP_aligned oldsz) (PGROUNDUP_aligned oldsz)
    (Nat.le_refl _) (.inl rfl) (fun v hlo hhi => ?_) ?_ (hE.mono fun hok => ⟨?_, ?_⟩)).post
    fun ret k hpost => ?_
  · have haligned := PGROUNDUP_aligned oldsz
    unfold PGSIZE at *
    omega
  · unfold PGSIZE
    omega
  · have hmax := hok.1
    rw [hup]
    unfold MAXVA PGSIZE at *
    omega
  · rw [hend, hlo]
    exact hok.2
  rw [hend, hlo] at hpost
  cases hpost with
  | inl hfail => exact .inl ⟨.inl hfail.1, hfail.2⟩
  | inr hdone => exact .inr ⟨⟨hdone.1.1, hge, hdone.1.2⟩, hdone.2⟩

/-! ## The stack guard page -/

theorem clear_spec {e : Nat} (he : e < 256 ^ 8) (x : Nat) : Hits (e &&& (2 ^ 64 - 1 - PTE_U)) x ↔ Hits e x := by
  have hvalid : Valid (e &&& (2 ^ 64 - 1 - PTE_U)) ↔ Valid e := by
    have hlow := Nat.and_mod_two_pow (a := e) (b := 2 ^ 64 - 1 - PTE_U) (n := 1)
    have hmask : (2 ^ 64 - 1 - PTE_U) % 2 ^ 1 = 2 ^ 1 - 1 := by decide
    rw [hmask, Nat.and_two_pow_sub_one_eq_mod, Nat.mod_mod, pow_one] at hlow
    rw [valid_iff, valid_iff, hlow]
  have haddr : (e &&& (2 ^ 64 - 1 - PTE_U)) >>> 10 = e >>> 10 := by
    have hmask : (2 ^ 64 - 1 - PTE_U) >>> 10 = 2 ^ 54 - 1 := by decide
    rw [Nat.shiftRight_and_distrib, hmask, Nat.and_two_pow_sub_one_eq_mod, Nat.shiftRight_eq_div_pow]
    omega
  unfold Hits PTE2PA
  rw [hvalid, haddr]

theorem clear_valid {e : Nat} (he : e < 256 ^ 8) : Valid (e &&& (2 ^ 64 - 1 - PTE_U)) → Valid e :=
  fun hvalid => ((clear_spec he _).mp ⟨hvalid, rfl⟩).1

theorem uvmclear_rule (hr : r ∈ g.tables) : Triple (Holds (L := L) g) (uvmclear r va) (fun _ => Holds g) Any := by
  apply Triple.of_ok any
  intro k _ k' h hrun
  unfold uvmclear at hrun
  obtain ⟨a, k₁, hwalk, hrest⟩ := bind_ok hrun
  obtain ⟨rfl, hmax, hlook⟩ := walk_look (h.wf r hr) hwalk
  cases hlook with
  | inl hmissing =>
    rw [if_pos hmissing.1] at hrest
    cases hrest
  | inr hslot =>
    rw [if_neg hslot.1] at hrest
    replace hrest := loadWord_bind hrest
    rw [load_slot hslot.2] at hrest
    have hlt : leaf k₁.mem 2 r (va / PGSIZE) < 256 ^ 8 := by
      rw [← load_slot hslot.2]
      exact load_lt _ _ _
    have hlt' : leaf k₁.mem 2 r (va / PGSIZE) &&& (2 ^ 64 - 1 - PTE_U) < 256 ^ 8 :=
      Nat.lt_of_le_of_lt Nat.and_le_left hlt
    have hv := div_lt_NENTRIES hmax
    rw [storeWord_ok hrest]
    have hset := changes_store (h.wf r hr) (h.once hr) hslot.2 hlt'
    refine h.change g.sees g.room hr hset (fun x hx => absurd rfl hx) (fun _ _ => rfl)
      (fun x _ => ?_) (fun w hw x hx => ?_) (fun _ _ _ _ _ _ _ => Iff.rfl) (fun w hw hvalid => ?_)
      (fun _ _ _ _ hroom => hroom)
    · have hcount := mapsTo_setLeaf (f := leaf k₁.mem 2 r)
        (e := leaf k₁.mem 2 r (va / PGSIZE) &&& (2 ^ 64 - 1 - PTE_U)) hv x
      simp only [clear_spec hlt x] at hcount
      omega
    · rw [← h.sees r hr w hw x hx]
      by_cases hw' : w = va / PGSIZE
      · rw [hw', setLeaf_self]
        exact clear_spec hlt x
      · rw [setLeaf_of_ne hv hw hw']
    apply h.room r hr w hw
    by_cases hw' : w = va / PGSIZE
    · rw [hw', setLeaf_self] at hvalid
      rw [hw']
      exact clear_valid hlt hvalid
    · rw [setLeaf_of_ne hv hw hw'] at hvalid
      exact hvalid

/-! ## Copying an address space -/

theorem PTE_FLAGS_lt (e : Nat) : PTE_FLAGS e < 2 ^ 10 := Nat.lt_of_le_of_lt Nat.and_le_right (by decide)

theorem walk_look_rule (hr : r ∈ g.tables) (hE : Allows E (va < MAXVA)) :
    Triple (Holds (L := L) g) (walk r va false) (fun _ => Holds g) E where
  ok h hrun := by
    rw [(walk_look (h.wf r hr) hrun).1]
    exact h
  error _ hrun := hE.absurd fun hlt => Nat.not_le_of_lt hlt (walk_error hrun)

theorem loadWord_rule {a : Nat} : Triple (Holds (L := L) g) (loadWord a) (fun _ => Holds g) E :=
  (Triple.get fun _ h => h).bind fun _ => .pure fun _ h => h

/-! ## Access to user memory -/

/-- A page that the tables may map but are not built from. -/
structure Data (g : Ledger) (k : Kmem L) (pa : Nat) : Prop where
  aligned : pa % PGSIZE = 0
  not_page : ∀ r ∈ g.tables, pages k.mem 2 r pa = 0

theorem Holds.data (h : Holds g k) (hr : r ∈ g.tables) (hv : v < NENTRIES)
    (hhit : Hits (leaf k.mem 2 r v) x) : Data g k x :=
  ⟨hhit.2 ▸ PTE2PA_aligned _, fun _ hr' => h.target_not_page hr hr' hv hhit⟩

/-- The result of a function that returns a user page or null. -/
def PagePost (g : Ledger) (pa : Nat) (k : Kmem L) : Prop := (pa ≠ 0 → Data g k pa) ∧ Holds g k

theorem walkaddr_rule (hr : r ∈ g.tables) : Triple (Holds (L := L) g) (walkaddr r va) (PagePost g) E :=
  .of_returns fun k h => ⟨_, k, walkaddr_eq (h.wf r hr), fun hpa => by
    have hva : va < MAXVA := by
      by_contra hmax
      exact hpa (if_pos (Nat.le_of_not_lt hmax))
    rcases translate_cases (h.wf r hr) hva with hnull | hhit
    · exact absurd hnull.1 hpa
    · exact h.data hr (div_lt_NENTRIES hva) hhit.2, h⟩

theorem ismapped_rule (hr : r ∈ g.tables) (hE : Allows E (va < MAXVA)) : Triple (Holds (L := L) g) (ismapped r va)
      (fun mapped k => (mapped = true ∧ Holds g k) ∨
        (mapped = false ∧ Holds (g.clear r (va / PGSIZE) (va / PGSIZE + 1)) k)) E := by
  have hclear : ∀ {k : Kmem L}, Holds g k → ¬ Valid (leaf k.mem 2 r (va / PGSIZE)) →
      Holds (g.clear r (va / PGSIZE) (va / PGSIZE + 1)) k := by
    intro k h hnone
    refine h.narrow fun v _ hlo hhi => ?_
    have heq : v = va / PGSIZE := by omega
    rw [heq]
    exact hnone
  constructor
  · intro k mapped k' h hrun
    have hwf := h.wf r hr
    have hva : va < MAXVA := by
      obtain ⟨_, _, hwalk, -⟩ := bind_ok hrun
      exact (walk_look hwf hwalk).2.1
    rw [ismapped_eq hwf hva, lookup_eq hwf (div_lt_NPAGES hva), decode] at hrun
    by_cases hvalid : Valid (leaf k.mem 2 r (va / PGSIZE))
    · rw [if_pos hvalid] at hrun
      cases hrun
      exact .inl ⟨rfl, h⟩
    · rw [if_neg hvalid] at hrun
      cases hrun
      exact .inr ⟨rfl, hclear h hvalid⟩
  intro k e h hrun
  refine hE.absurd fun hva => ?_
  rw [ismapped_eq (h.wf r hr) hva] at hrun
  cases hrun

def HasRoom (g : Ledger) (p : Space) : Prop := ∀ v < pagesOf p.sz, g.room p.pagetable v

theorem vmfault_rule (hp : p.pagetable ∈ g.tables) (hr : r ∈ g.tables)
    (hroom : HasRoom g p) (hE : Allows E (p.pagetable = r ∧ p.sz ≤ MAXVA)) :
    Triple (Holds (L := L) g) (vmfault p r va) (PagePost g) E := by
  have hnull : ∀ k, Holds (L := L) g k → PagePost g 0 k := fun k h => ⟨fun h0 => absurd rfl h0, h⟩
  have hpage : PGROUNDDOWN va / PGSIZE = va / PGSIZE := mul_PGSIZE_div _
  have hdown : PGROUNDDOWN va ≤ va := Nat.div_mul_le_self va PGSIZE
  unfold vmfault
  refine .ite (fun _ => .pure hnull) fun hva => ?_
  have hva : va < p.sz := Nat.lt_of_not_le hva
  refine (ismapped_rule hr (hE.mono fun hok => ?_)).bind fun mapped => .or (.assume fun hm => ?_) (.assume fun hm => ?_)
  · have hmax := hok.2
    omega
  · rw [hm, if_pos rfl]
    exact .pure hnull
  rw [hm, if_neg (by decide), hpage]
  -- With the entry out of the way, the ledger has no room where `mappages` puts one.
  have hback : ∀ {k : Kmem L}, Holds (g.clear r (va / PGSIZE) (va / PGSIZE + 1)) k → Holds g k :=
    fun h => h.widen fun _ _ _ hroom => hroom.1
  apply kalloc_then
  · rw [if_pos rfl]
    exact .pure fun k h => hnull k (hback h)
  intro c hc
  rw [if_neg hc.ne_zero]
  refine (memset_shared hc.isPage (shared_hold _ c)).bind fun _ => ?_
  have hp' : p.pagetable ∈ (g.clear r (va / PGSIZE) (va / PGSIZE + 1)).tables := hp
  refine (mappages_held hp' hc (by decide) (hE.mono fun hok => ⟨?_, ?_, fun hin => ?_⟩)).bind
    fun ret => .or (.assume fun hret => ?_) (.assume fun hret => .assume fun hmax => .assume fun _ => ?_)
  · exact Nat.mul_mod_left _ _
  · have hmax := hok.2
    omega
  · rw [hpage] at hin
    exact hin.2 ⟨hok.1, Nat.le_refl _, Nat.lt_succ_self _⟩
  · rw [hret, if_pos (by decide)]
    exact (kfree_held hc).bind fun _ => .pure fun k h => hnull k (hback h)
  rw [hret, if_neg (by decide)]
  refine .pure fun k h => ?_
  rw [hpage] at h
  have hk : Holds g k := h.2.widen fun r' _ v hin => hin.elim (fun hin => hin.1) fun hin => by
    have heq : v = va / PGSIZE := by omega
    rw [hin.1, heq]
    exact hroom _ (div_lt_pagesOf hva)
  have hlt := div_lt_NENTRIES hmax
  rw [hpage] at hlt
  exact ⟨fun _ => hk.data hp hlt h.1, hk⟩

theorem userPage_rule (hp : p.pagetable ∈ g.tables) (hr : r ∈ g.tables) (hroom : HasRoom g p) :
    Triple (Holds (L := L) g) (userPage p r va) (PagePost g) Any := by
  unfold userPage
  refine (walkaddr_rule hr).bind fun pa => .ite (fun _ => ?_) fun _ => .pure fun _ h => h
  exact (vmfault_rule hp hr hroom (.inl any)).pre fun _ h => h.2

theorem Holds.store {pa : Nat} {l : List UInt8} (h : Holds g k) (hd : Data g k pa) (off : Nat)
    (hoff : off + l.length ≤ PGSIZE) : Holds g (k.write (store k.mem (pa + off) l)) := by
  refine h.write fun r hr => h.sameTable hd.not_page (fun y hy hne => ?_) hr
  have hdisj := page_disjoint hy hd.aligned hne
  exact agree_store (by omega)

theorem sub_PGROUNDDOWN_lt (a : Nat) : a - PGROUNDDOWN a < PGSIZE := by
  unfold PGROUNDDOWN PGSIZE
  omega

theorem copyoutLoop_rule {fuel dstva : Nat} {src : List UInt8}
    (hp : p.pagetable ∈ g.tables) (hr : r ∈ g.tables) (hroom : HasRoom g p) :
    Triple (Holds (L := L) g) (copyoutLoop p r fuel dstva src) (fun _ => Holds g) Any := by
  induction fuel generalizing dstva src with
  | zero => exact .pure fun _ h => h
  | succ fuel ih =>
    unfold copyoutLoop
    refine .ite (fun _ => .pure fun _ h => h) fun _ => .ite (fun _ => .pure fun _ h => h) fun _ => ?_
    refine (userPage_rule hp hr hroom).bind fun pa => .ite (fun _ => .pure fun _ h => h.2) fun hpa => ?_
    apply Triple.of_ok any
    intro k ret k' h hrun
    -- The second `walk` only looks, so the page is still a data page at the write.
    obtain ⟨pte, k₁, hwalk, hrest⟩ := bind_ok hrun
    obtain ⟨rfl, -, -⟩ := walk_look (h.2.wf r hr) hwalk
    split at hrest
    · cases hrest
    replace hrest := loadWord_bind hrest
    split at hrest
    · rw [(pure_ok hrest).2]
      exact h.2
    have hfits : dstva - PGROUNDDOWN dstva +
        (src.take (min (PGSIZE - (dstva - PGROUNDDOWN dstva)) src.length)).length ≤ PGSIZE := by
      have hlt := sub_PGROUNDDOWN_lt dstva
      rw [List.length_take]
      omega
    obtain ⟨_, k₂, hput, hloop⟩ := bind_ok hrest
    have hk₂ : k₂ = k₁.write (store k₁.mem (pa + (dstva - PGROUNDDOWN dstva))
        (src.take (min (PGSIZE - (dstva - PGROUNDDOWN dstva)) src.length))) := by
      cases hput
      rfl
    rw [hk₂] at hloop
    exact ih.ok (h.2.store (h.1 hpa) _ hfits) hloop

theorem copyout_rule {dstva : Nat} {src : List UInt8}
    (hp : p.pagetable ∈ g.tables) (hr : r ∈ g.tables) (hroom : HasRoom g p) :
    Triple (Holds (L := L) g) (copyout p r dstva src) (fun _ => Holds g) Any :=
  copyoutLoop_rule hp hr hroom

theorem copyinLoop_rule {fuel srcva len : Nat}
    (hp : p.pagetable ∈ g.tables) (hr : r ∈ g.tables) (hroom : HasRoom g p) :
    Triple (Holds (L := L) g) (copyinLoop p r fuel srcva len) (fun _ => Holds g) Any := by
  induction fuel generalizing srcva len with
  | zero => exact .pure fun _ h => h
  | succ fuel ih =>
    unfold copyinLoop
    refine .ite (fun _ => .pure fun _ h => h) fun _ => ?_
    refine (userPage_rule hp hr hroom).bind fun pa => .ite (fun _ => .pure fun _ h => h.2) fun hpa => ?_
    refine (Triple.get fun _ h => h.2).bind fun k => ?_
    exact ih.bind fun rest => .pure fun _ h => h

theorem copyin_rule {srcva len : Nat}
    (hp : p.pagetable ∈ g.tables) (hr : r ∈ g.tables) (hroom : HasRoom g p) :
    Triple (Holds (L := L) g) (copyin p r srcva len) (fun _ => Holds g) Any :=
  copyinLoop_rule hp hr hroom

theorem length_takeWhile_lt {l : List UInt8} (h : 0 ∈ l) : (l.takeWhile (· ≠ 0)).length < l.length := by
  induction l with
  | nil => cases h
  | cons b l ih =>
    by_cases hb : b = 0
    · simp [hb]
    have hmem : 0 ∈ l := (List.mem_cons.mp h).resolve_left (Ne.symm hb)
    have htail := ih hmem
    simp only [ne_eq, decide_not] at htail
    simp [hb, htail]

/-- What `copyinstr` found is shorter than `max`. -/
def StringPost (g : Ledger) (max : Nat) (s : Option (List UInt8)) (k : Kmem L) : Prop :=
  (∀ l, s = some l → l.length < max) ∧ Holds g k

theorem copyinstrLoop_rule {fuel srcva max : Nat} (hr : r ∈ g.tables) :
    Triple (Holds (L := L) g) (copyinstrLoop r fuel srcva max) (StringPost g max) Any := by
  have hnone : ∀ k, Holds (L := L) g k → StringPost g max none k := fun k h => ⟨nofun, h⟩
  induction fuel generalizing srcva max with
  | zero => exact .pure hnone
  | succ fuel ih =>
    unfold copyinstrLoop
    refine .ite (fun _ => .pure hnone) fun hmax => ?_
    refine (walkaddr_rule hr).bind fun pa => .ite (fun _ => .pure fun k h => hnone k h.2) fun _ => ?_
    refine (Triple.get fun _ h => h.2).bind fun k => ?_
    have hlen : (bytes k.mem (pa + (srcva - PGROUNDDOWN srcva))
        (min (PGSIZE - (srcva - PGROUNDDOWN srcva)) max)).length ≤ max := by
      simp [bytes]
    refine .ite (fun hzero => .pure fun _ h => ⟨fun l hl => ?_, h⟩) fun _ => ?_
    · cases hl
      exact Nat.lt_of_lt_of_le (length_takeWhile_lt hzero) hlen
    refine (ih fun k h => ⟨nofun, h⟩).bind fun rest => .pure fun _ h => ⟨fun l hl => ?_, h.2⟩
    cases rest with
    | none => cases hl
    | some rest =>
      have hrest := h.1 rest rfl
      cases hl
      rw [List.length_append]
      simp only [bytes, List.length_map, List.length_range]
      omega

theorem copyinstr_rule {srcva max : Nat} (hr : r ∈ g.tables) :
    Triple (Holds (L := L) g) (copyinstr r srcva max) (StringPost g max) Any :=
  copyinstrLoop_rule hr

end Xv6.Vm
