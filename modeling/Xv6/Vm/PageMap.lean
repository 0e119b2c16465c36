import Xv6.Lib.Runs
import Xv6.Vm.Ledger

/-!
# A page table is a finite map

Seen through `walk` and `walkaddr`, a table that `uvmcreate` has made and that `mappages`, `uvmunmap` and
`walk` have worked on is a map from page numbers to physical pages and flags.  The steps of the map are
written down first; every run of the calls on memory is then a run of the map.
-/

namespace Xv6.PageMap

open Function Hoare Memory Runs Vm

variable {L : Layout} {k k' : Kmem L} {root v w va : Nat}

/-- The page numbers below `MAXVA`. -/
def NPAGES : Nat := 2 ^ 26

theorem div_lt_NPAGES (h : va < MAXVA) : va / PGSIZE < NPAGES := by
  unfold MAXVA at h
  unfold PGSIZE NPAGES
  omega

theorem mul_lt_MAXVA (h : v < NPAGES) : v * PGSIZE < MAXVA := by
  unfold NPAGES at h
  unfold PGSIZE MAXVA
  omega

/-! ## The map -/

/-- Physical page and flags of the pages that are mapped. -/
abbrev Map := Nat → Option (Nat × Nat)

/-- The calls that work on a table. -/
inductive Call where
  /-- `mappages` of a single page. -/
  | mappages (va pa perm : Nat)
  | uvmunmap (va npages : Nat) (doFree : Bool)
  | walk (va : Nat) (alloc : Bool)
  | walkaddr (va : Nat)

inductive Ret where
  | done
  | status (r : Int)
  | address (a : Nat)
  deriving DecidableEq

abbrev Event := Call × Ret

/-- The pages of `uvmunmap(va, npages)`, up to an address that is computed in 64 bits. -/
def InRange (va npages v : Nat) : Prop := va ≤ v * PGSIZE ∧ v * PGSIZE < (va + npages * PGSIZE) % 2 ^ 64

instance (va npages v : Nat) : Decidable (InRange va npages v) := inferInstanceAs (Decidable (_ ∧ _))

def Map.translate (m : Map) (va : Nat) : Nat :=
  if MAXVA ≤ va then 0
  else
    match m (va / PGSIZE) with
    | some (pa, flags) => if flags &&& PTE_U = 0 then 0 else pa
    | none => 0

inductive MapStep (m : Map) : Event → Map → Prop
  | mapped {va pa perm : Nat} : va % PGSIZE = 0 → va < MAXVA → m (va / PGSIZE) = none →
      MapStep m (.mappages va pa perm, .status 0) (update m (va / PGSIZE) (some (pa, perm ||| PTE_V)))
  | noMemory {va pa perm : Nat} : MapStep m (.mappages va pa perm, .status (-1)) m
  | unmapped {va npages : Nat} {doFree : Bool} : va % PGSIZE = 0 →
      MapStep m (.uvmunmap va npages doFree, .done) (fun v => if InRange va npages v then none else m v)
  | walked {va a : Nat} {alloc : Bool} : va < MAXVA → (m (va / PGSIZE) ≠ none → a ≠ 0) →
      MapStep m (.walk va alloc, .address a) m
  | translated {va : Nat} : MapStep m (.walkaddr va, .address (m.translate va)) m

/-! ## The table -/

def decode (e : Nat) : Option (Nat × Nat) := if Valid e then some (PTE2PA e, PTE_FLAGS e) else none

def lookup (k : Kmem L) (root : Nat) : Map := fun v =>
  match walk root (v * PGSIZE) false k with
  | .ok (pte, _) => if pte = 0 then none else decode (load k.mem pte 8)
  | .error _ => none

def returned {α : Type} (ret : α → Ret) : Except Vm.Panic (α × Kmem L) → Option (Kmem L × Ret)
  | .ok (a, k) => some (k, ret a)
  | .error _ => none

/-- The calls on table `root`; a panic has no next state. -/
def exec (root : Nat) (k : Kmem L) : Call → Option (Kmem L × Ret)
  | .mappages va pa perm => returned .status (mappages root va PGSIZE pa perm k)
  | .uvmunmap va npages doFree => returned (fun _ => .done) (uvmunmap root va npages doFree k)
  | .walk va alloc => returned .address (walk root va alloc k)
  | .walkaddr va => returned .address (walkaddr root va k)

/-- The pages of a set that are mapped can be freed: each is mapped once, not free yet, and no page of the
table. -/
structure Freeable (k : Kmem L) (root : Nat) (S : Nat → Prop) : Prop where
  out : ∀ v, S v → v < NPAGES → Valid (leaf k.mem 2 root v) →
    k.free (PTE2PA (leaf k.mem 2 root v)) + pages k.mem 2 root (PTE2PA (leaf k.mem 2 root v)) = 0
  once : ∀ v w, S v → S w → v < NPAGES → w < NPAGES → Valid (leaf k.mem 2 root v) →
    Valid (leaf k.mem 2 root w) → PTE2PA (leaf k.mem 2 root v) = PTE2PA (leaf k.mem 2 root w) → v = w

/-- The arguments are addresses of pages and flags, and `kalloc` goes on to return only fresh pages:
nothing is freed that is free or in use. -/
def Proper (root : Nat) (k : Kmem L) : Event → Prop
  | (.mappages _ pa perm, _) => pa % PGSIZE = 0 ∧ pa < 2 ^ 56 ∧ perm < 2 ^ 10
  | (.uvmunmap va npages true, _) => Freeable k root (InRange va npages)
  | _ => True

theorem exec_some {α : Type} {ret : α → Ret} {r : Except Vm.Panic (α × Kmem L)} {x : Ret}
    (h : returned ret r = some (k', x)) : ∃ a, r = .ok (a, k') ∧ x = ret a := by
  unfold returned at h
  split at h
  · cases h
    exact ⟨_, rfl, rfl⟩
  · cases h

/-! ## Lookups -/

theorem decode_of_not_valid {e : Nat} (h : ¬ Valid e) : decode e = none := if_neg h

theorem decode_eq_none {e : Nat} : decode e = none ↔ ¬ Valid e := by
  unfold decode
  split
  · next hvalid => simp [hvalid]
  · next hinvalid => simp [hinvalid]

variable {doFree : Bool} {pa perm : Nat} {u : Unit}

theorem decode_mapping (hpa : pa % PGSIZE = 0) (hlt : pa < 2 ^ 56) (hperm : perm < 2 ^ 10) :
    decode (mapping pa perm) = some (pa, perm ||| PTE_V) := by
  obtain ⟨hvalid, haddr, -⟩ := mapping_spec hpa hlt hperm
  have hflags : perm ||| PTE_V < 2 ^ 10 := Nat.or_lt_two_pow hperm (by decide)
  have hlow : PTE_FLAGS (mapping pa perm) = perm ||| PTE_V := by
    have hmask : (0x3FF : Nat) = 2 ^ 10 - 1 := by decide
    unfold PTE_FLAGS mapping PA2PTE
    rw [hmask, Nat.and_two_pow_sub_one_eq_mod, Nat.or_assoc, ← Nat.shiftLeft_add_eq_or_of_lt hflags, Nat.shiftLeft_eq]
    omega
  rw [decode, if_pos hvalid, haddr, hlow]

theorem walk_returns (hva : va < MAXVA) (alloc : Bool) : ∃ r k', walk root va alloc k = .ok (r, k') := by
  cases hrun : walk root va alloc k with
  | ok r => exact ⟨r.1, r.2, rfl⟩
  | error => exact absurd hva (Nat.not_lt_of_le (walk_error hrun))

theorem walk_look_eq (hva : va < MAXVA) : walk root va false k = .ok ((slot k.mem 2 root (va / PGSIZE)).getD 0, k) := by
  obtain ⟨r, k', hrun⟩ : ∃ r k', walk root va false k = .ok (r, k') := walk_returns hva false
  have hlevel : walkLevel va false 2 root k = .ok (r, k') := by
    rw [walk, if_neg (Nat.not_le_of_lt hva)] at hrun
    exact hrun
  obtain ⟨rfl, rfl⟩ := walkLevel_look hlevel
  exact hrun

theorem lookup_eq (hwf : WellFormed L k.mem 2 root) (hv : v < NPAGES) :
    lookup k root v = decode (leaf k.mem 2 root v) := by
  unfold lookup
  rw [walk_look_eq (mul_lt_MAXVA hv), mul_PGSIZE_div]
  dsimp only
  cases hslot : slot k.mem 2 root v with
  | none =>
    rw [leaf_of_slot_none hslot]
    rfl
  | some =>
    rw [← load_slot hslot]
    exact if_neg (slot_ne_zero hwf hslot)

theorem lookup_of_ge (hv : NPAGES ≤ v) : lookup k root v = none := by
  have hmax : MAXVA ≤ v * PGSIZE := by
    unfold NPAGES at hv
    unfold MAXVA PGSIZE
    omega
  unfold lookup walk
  rw [if_pos hmax]
  rfl

theorem PTE_FLAGS_and {f : Nat} (e : Nat) (h : 0x3FF &&& f = f) : PTE_FLAGS e &&& f = e &&& f := by
  unfold PTE_FLAGS
  rw [Nat.and_assoc, h]

theorem walkaddr_eq (hwf : WellFormed L k.mem 2 root) : walkaddr root va k = .ok ((lookup k root).translate va, k) := by
  unfold walkaddr Map.translate
  by_cases hmax : MAXVA ≤ va
  · rw [if_pos hmax, if_pos hmax]
    rfl
  have hva := Nat.lt_of_not_le hmax
  rw [if_neg hmax, if_neg hmax, lookup_eq hwf (div_lt_NPAGES hva), bind_of_ok (walk_look_eq hva)]
  cases hslot : slot k.mem 2 root (va / PGSIZE) with
  | none =>
    rw [leaf_of_slot_none hslot]
    rfl
  | some a =>
    rw [Option.getD_some, if_neg (slot_ne_zero hwf hslot), ← load_slot hslot, decode]
    show (if ¬ Valid (load k.mem a 8) then pure 0
      else if load k.mem a 8 &&& PTE_U = 0 then pure 0 else pure (PTE2PA (load k.mem a 8)) : Kernel L Nat) k = _
    by_cases hvalid : Valid (load k.mem a 8)
    · rw [if_neg (not_not.mpr hvalid), if_pos hvalid]
      show (if load k.mem a 8 &&& PTE_U = 0 then pure 0 else pure (PTE2PA (load k.mem a 8)) : Kernel L Nat) k =
        .ok (if PTE_FLAGS (load k.mem a 8) &&& PTE_U = 0 then 0 else PTE2PA (load k.mem a 8), k)
      rw [PTE_FLAGS_and _ (by decide)]
      split <;> rfl
    · rw [if_pos hvalid, if_neg hvalid]
      rfl

theorem translate_cases (hwf : WellFormed L k.mem 2 root) (hva : va < MAXVA) :
    ((lookup k root).translate va = 0 ∧ (leaf k.mem 2 root (va / PGSIZE) &&& PTE_U = 0 ∨
        ∀ x, x ≠ 0 → ¬ Hits (leaf k.mem 2 root (va / PGSIZE)) x)) ∨
      ((lookup k root).translate va ≠ 0 ∧ Hits (leaf k.mem 2 root (va / PGSIZE)) ((lookup k root).translate va)) := by
  unfold Map.translate
  rw [if_neg (Nat.not_le_of_lt hva), lookup_eq hwf (div_lt_NPAGES hva), decode]
  by_cases hvalid : Valid (leaf k.mem 2 root (va / PGSIZE))
  · rw [if_pos hvalid]
    dsimp only
    rw [PTE_FLAGS_and _ (by decide)]
    split
    · next hkernel => exact .inl ⟨rfl, .inl hkernel⟩
    · by_cases hnull : PTE2PA (leaf k.mem 2 root (va / PGSIZE)) = 0
      · exact .inl ⟨hnull, .inr fun x hx hhit => hx (hhit.2.symm.trans hnull)⟩
      · exact .inr ⟨hnull, hvalid, rfl⟩
  · rw [if_neg hvalid]
    exact .inl ⟨rfl, .inr fun x _ hhit => hvalid hhit.1⟩

theorem ismapped_eq (hwf : WellFormed L k.mem 2 root) (hva : va < MAXVA) :
    ismapped root va k = .ok ((lookup k root (va / PGSIZE)).isSome, k) := by
  unfold ismapped
  rw [bind_of_ok (walk_look_eq hva), lookup_eq hwf (div_lt_NPAGES hva)]
  cases hslot : slot k.mem 2 root (va / PGSIZE) with
  | none =>
    rw [leaf_of_slot_none hslot]
    rfl
  | some a =>
    rw [Option.getD_some, if_neg (slot_ne_zero hwf hslot), ← load_slot hslot, decode]
    show (pure (decide (Valid (load k.mem a 8))) : Kernel L Bool) k = _
    by_cases hvalid : Valid (load k.mem a 8)
    · rw [decide_eq_true hvalid, if_pos hvalid]
      rfl
    · rw [decide_eq_false hvalid, if_neg hvalid]
      rfl

/-! ## No two pages share an entry -/

theorem slot_inj {m : Mem} {n page a : Nat} (hwf : WellFormed L m n page)
    (hone : ∀ x, pages m n page x ≤ 1) (hv : slot m n page v = some a) (hw : slot m n page w = some a) :
    v % 512 ^ (n + 1) = w % 512 ^ (n + 1) := by
  induction n generalizing page with
  | zero =>
    simp only [slot, Option.some.injEq] at hv hw
    have hidx : index 0 v = index 0 w := by omega
    exact same_path_iff.mpr ⟨hidx, by simp [Nat.mod_one]⟩
  | succ n ih =>
    simp only [slot] at hv hw
    split at hv
    case isFalse => cases hv
    rename_i hvalid
    split at hw
    case isFalse => cases hw
    rename_i hvalid'
    have hchild := hwf.2 _ (index_lt (n + 1) v) hvalid
    by_cases hidx : index (n + 1) v = index (n + 1) w
    · rw [← hidx] at hw
      exact same_path_iff.mpr ⟨hidx, ih hchild.2 (child_once hone (index_lt _ _) hvalid) hv hw⟩
    -- The entry would be in a page that serves below both.
    obtain ⟨y, hy, ha⟩ := slot_mem_pages hv
    obtain ⟨z, hz, ha'⟩ := slot_mem_pages hw
    have hchild' := hwf.2 _ (index_lt (n + 1) w) hvalid'
    have hyalign := (hchild.2.isPage_of_pages hy).1
    have hzalign := (hchild'.2.isPage_of_pages hz).1
    have hlt := index_lt 0 v
    have hlt' := index_lt 0 w
    have hsame : y = z := by
      unfold PGSIZE at hyalign hzalign
      omega
    have htwo := pages_two_children_le (x := y) (n := n) (index_lt (n + 1) v) (index_lt (n + 1) w) hidx hvalid hvalid'
    have hle := hone y
    rw [← hsame] at hz
    omega

theorem pages_le_one {n page : Nat} (h : Apart k n page) (x : Nat) : pages k.mem n page x ≤ 1 := by
  have honce := h.once x
  omega

theorem lt_NENTRIES (h : v < NPAGES) : v < NENTRIES := Nat.lt_of_lt_of_le h (by decide)

theorem eq_of_mod_NENTRIES (hv : v < NPAGES) (hw : w < NPAGES) (h : v % NENTRIES = w % NENTRIES) : v = w := by
  rwa [Nat.mod_eq_of_lt (lt_NENTRIES hv), Nat.mod_eq_of_lt (lt_NENTRIES hw)] at h

/-! ## The calls -/

theorem apart_of_changes {new : Nat → Nat} (hc : Changes k k' root new (fun _ => 0)) (h : Apart k 2 root) :
    Apart k' 2 root := by
  refine ⟨hc.wf, fun x => ?_⟩
  have hcount := hc.count x
  have honce := h.once x
  omega

theorem lookup_of_grown (hg : Grown k k' 2 root) (h : Apart k 2 root) : lookup k' root = lookup k root := by
  funext v
  by_cases hv : v < NPAGES
  · rw [lookup_eq hg.wf hv, lookup_eq h.wf hv, hg.leaf]
  · rw [lookup_of_ge (Nat.le_of_not_lt hv), lookup_of_ge (Nat.le_of_not_lt hv)]

theorem lookup_of_mapped {freed : Nat → Nat} (hwf : WellFormed L k.mem 2 root) (hv : v < NPAGES)
    (hc : Changes k k' root (setLeaf (leaf k.mem 2 root) v (mapping pa perm)) freed)
    (hpa : pa % PGSIZE = 0) (hlt : pa < 2 ^ 56) (hperm : perm < 2 ^ 10) :
    lookup k' root = update (lookup k root) v (some (pa, perm ||| PTE_V)) := by
  funext w
  by_cases hw : w < NPAGES
  · rw [lookup_eq hc.wf hw, hc.leaf]
    by_cases hwv : w = v
    · rw [hwv, setLeaf_self, update_self, decode_mapping hpa hlt hperm]
    · rw [setLeaf_of_ne (lt_NENTRIES hv) (lt_NENTRIES hw) hwv, update_of_ne hwv, lookup_eq hwf hw]
  · have hwv : w ≠ v := by omega
    rw [lookup_of_ge (Nat.le_of_not_lt hw), update_of_ne hwv, lookup_of_ge (Nat.le_of_not_lt hw)]

theorem mappages_step {r : Int} (h : Apart k 2 root) (hpa : pa % PGSIZE = 0)
    (hlt : pa < 2 ^ 56) (hperm : perm < 2 ^ 10) (hrun : mappages root va PGSIZE pa perm k = .ok (r, k')) :
    Apart k' 2 root ∧ MapStep (lookup k root) (.mappages va pa perm, .status r) (lookup k' root) := by
  obtain ⟨halign, hva, hcases⟩ := mappages_page h hpa hlt hperm hrun
  have hv := div_lt_NPAGES hva
  rcases hcases with ⟨rfl, hg, -⟩ | ⟨rfl, hempty, hc⟩
  · rw [lookup_of_grown hg h]
    exact ⟨hg.apart h, .noMemory⟩
  rw [lookup_of_mapped h.wf hv hc hpa hlt hperm]
  refine ⟨apart_of_changes hc h, .mapped halign hva ?_⟩
  rw [lookup_eq h.wf hv, decode_eq_none]
  exact hempty

theorem unmapPage_step (h : Apart k 2 root) (hfree : doFree = true → Freeable k root (fun v => v = va / PGSIZE))
    (hrun : unmapPage root doFree va k = .ok (u, k')) : Apart k' 2 root ∧ va < MAXVA ∧
      (∀ v < NPAGES, v ≠ va / PGSIZE → leaf k'.mem 2 root v = leaf k.mem 2 root v) ∧
      ¬ Valid (leaf k'.mem 2 root (va / PGSIZE)) ∧
      ∀ x, (doFree = true → Valid (leaf k.mem 2 root (va / PGSIZE)) →
          x ≠ PTE2PA (leaf k.mem 2 root (va / PGSIZE))) →
        k'.free x + pages k'.mem 2 root x = k.free x + pages k.mem 2 root x ∧
        (x % PGSIZE = 0 → k.free x + pages k.mem 2 root x = 0 → Agree k.mem k'.mem x PGSIZE) := by
  have hout : doFree = true → va < MAXVA → Valid (leaf k.mem 2 root (va / PGSIZE)) →
      k.free (PTE2PA (leaf k.mem 2 root (va / PGSIZE))) = 0 ∧
        pages k.mem 2 root (PTE2PA (leaf k.mem 2 root (va / PGSIZE))) = 0 := by
    intro hdo hva hvalid
    have hzero := (hfree hdo).out _ rfl (div_lt_NPAGES hva) hvalid
    omega
  obtain ⟨hva, hcases⟩ := unmapPage_ok h.wf (pages_le_one h) (fun hdo hva hvalid => (hout hdo hva hvalid).2) hrun
  have hv := div_lt_NPAGES hva
  rcases hcases with ⟨hinvalid, rfl⟩ | ⟨hvalid, hc, -⟩
  · exact ⟨h, hva, fun _ _ _ => rfl, hinvalid, fun _ _ => ⟨rfl, fun _ _ => .refl _ _ _⟩⟩
  refine ⟨⟨hc.wf, fun x => ?_⟩, hva, fun v hlt hne => ?_, ?_, fun x hx => ?_⟩
  · have hcount := hc.count x
    have honce := h.once x
    split at hcount
    · next hpage =>
      obtain ⟨hnotfree, hnotable⟩ := hout hpage.1 hva hvalid
      rw [← hpage.2] at hnotfree hnotable
      omega
    · omega
  · rw [hc.leaf, setLeaf_of_ne (lt_NENTRIES hv) (lt_NENTRIES hlt) hne]
  · rw [hc.leaf, setLeaf_self]
    exact not_valid_zero
  have hkept : (if doFree = true ∧ x = PTE2PA (leaf k.mem 2 root (va / PGSIZE)) then 1 else 0) = 0 :=
    if_neg fun hpage => hx hpage.1 hvalid hpage.2
  have hcount := hc.count x
  rw [hkept, Nat.add_zero] at hcount
  exact ⟨hcount, fun halign hzero => hc.frame x halign (by omega) (by omega) hkept⟩

theorem Freeable.mono {S T : Nat → Prop} (h : Freeable k root S) (hsub : ∀ v, T v → S v) : Freeable k root T :=
  ⟨fun v hv => h.out v (hsub v hv), fun v w hv hw => h.once v w (hsub v hv) (hsub w hw)⟩

theorem unmapPage_rest {n a : Nat} (h : Apart k 2 root)
    (hfree : doFree = true → Freeable k root (fun v => a / PGSIZE ≤ v ∧ v < a / PGSIZE + (n + 1)))
    (hrun : unmapPage root doFree a k = .ok (u, k')) : Apart k' 2 root ∧
      (doFree = true → Freeable k' root (fun v => a / PGSIZE + 1 ≤ v ∧ v < a / PGSIZE + 1 + n)) ∧
      ∀ v < NPAGES, a / PGSIZE + 1 ≤ v → leaf k'.mem 2 root v = leaf k.mem 2 root v := by
  obtain ⟨hapart, hva, hkeep, hinvalid, hcount⟩ := unmapPage_step h
    (fun hdo => (hfree hdo).mono fun v hv => ⟨Nat.le_of_eq hv.symm, by omega⟩) hrun
  refine ⟨hapart, fun hdo => ⟨fun v hv hlt hvalid => ?_, fun v w hv hw hlt hlt' hvalid hvalid' heq => ?_⟩,
    fun v hv hlo => hkeep v hv (by omega)⟩
  · rw [hkeep v hlt (by omega)] at hvalid ⊢
    rw [(hcount _ ?_).1]
    · exact (hfree hdo).out v ⟨by omega, by omega⟩ hlt hvalid
    intro _ hvalid' heq
    have hsame := (hfree hdo).once v (a / PGSIZE) ⟨by omega, by omega⟩ ⟨by omega, by omega⟩ hlt
      (div_lt_NPAGES hva) hvalid hvalid' heq
    omega
  · rw [hkeep v hlt (by omega)] at hvalid heq
    rw [hkeep w hlt' (by omega)] at hvalid' heq
    exact (hfree hdo).once v w ⟨by omega, by omega⟩ ⟨by omega, by omega⟩ hlt hlt' hvalid hvalid' heq

theorem uvmunmapLoop_step {n a : Nat} (h : Apart k 2 root) (ha : a % PGSIZE = 0)
    (hfree : doFree = true → Freeable k root (fun v => a / PGSIZE ≤ v ∧ v < a / PGSIZE + n))
    (hrun : uvmunmapLoop root doFree n a k = .ok (u, k')) :
    Apart k' 2 root ∧ ∀ v < NPAGES, decode (leaf k'.mem 2 root v) =
      if a / PGSIZE ≤ v ∧ v < a / PGSIZE + n then none else decode (leaf k.mem 2 root v) := by
  induction n generalizing a k with
  | zero =>
    obtain ⟨-, rfl⟩ := pure_ok hrun
    exact ⟨h, fun v _ => (if_neg (by omega)).symm⟩
  | succ n ih =>
    have hnext := add_PGSIZE_div a
    obtain ⟨_, k₁, hone, hrest⟩ := bind_ok hrun
    obtain ⟨-, -, hkeep, hinvalid, -⟩ := unmapPage_step h
      (fun hdo => (hfree hdo).mono fun v hv => ⟨Nat.le_of_eq hv.symm, by omega⟩) hone
    obtain ⟨hapart, hfree₁, -⟩ := unmapPage_rest h hfree hone
    rw [← hnext] at hfree₁
    obtain ⟨hapart', hleaf⟩ := ih hapart (by rw [Nat.add_mod_right]; exact ha) hfree₁ hrest
    refine ⟨hapart', fun v hv => ?_⟩
    rw [hleaf v hv, hnext]
    by_cases hfirst : v = a / PGSIZE
    · rw [if_neg (by omega), if_pos (by omega), hfirst]
      exact decode_of_not_valid hinvalid
    rw [hkeep v hv hfirst]
    by_cases hin : a / PGSIZE ≤ v ∧ v < a / PGSIZE + (n + 1)
    · rw [if_pos hin, if_pos (by omega)]
    · rw [if_neg hin, if_neg (by omega)]

theorem inRange_iff {npages : Nat} (ha : va % PGSIZE = 0) : InRange va npages v ↔
    va / PGSIZE ≤ v ∧ v < va / PGSIZE + ((va + npages * PGSIZE) % 2 ^ 64 - va) / PGSIZE := by
  have hend : (va + npages * PGSIZE) % 2 ^ 64 % PGSIZE = 0 := by
    unfold PGSIZE at *
    omega
  unfold InRange
  generalize (va + npages * PGSIZE) % 2 ^ 64 = limit at hend
  unfold PGSIZE at *
  omega

theorem uvmunmap_step {npages : Nat} (h : Apart k 2 root) (hfree : doFree = true → Freeable k root (InRange va npages))
    (hrun : uvmunmap root va npages doFree k = .ok (u, k')) :
    Apart k' 2 root ∧ MapStep (lookup k root) (.uvmunmap va npages doFree, .done) (lookup k' root) := by
  unfold uvmunmap at hrun
  split at hrun
  · cases hrun
  rename_i halign
  have halign := not_not.mp halign
  obtain ⟨hapart, hleaf⟩ := uvmunmapLoop_step h halign
    (fun hdo => (hfree hdo).mono fun v hv => (inRange_iff halign).mpr hv) hrun
  refine ⟨hapart, ?_⟩
  have hmap : lookup k' root = fun v => if InRange va npages v then none else lookup k root v := by
    funext v
    by_cases hv : v < NPAGES
    · rw [lookup_eq hapart.wf hv, hleaf v hv, lookup_eq h.wf hv]
      simp only [inRange_iff halign]
    · rw [lookup_of_ge (Nat.le_of_not_lt hv), lookup_of_ge (Nat.le_of_not_lt hv), ite_self]
  rw [hmap]
  exact .unmapped halign

theorem unmapPage_returns (hwf : WellFormed L k.mem 2 root) (hva : va < MAXVA)
    (hpage : doFree = true → Valid (leaf k.mem 2 root (va / PGSIZE)) →
      L.IsPage (PTE2PA (leaf k.mem 2 root (va / PGSIZE)))) : ∃ k', unmapPage root doFree va k = .ok ((), k') := by
  cases hrun : unmapPage root doFree va k with
  | ok r => exact ⟨r.2, rfl⟩
  | error =>
    unfold unmapPage at hrun
    rw [bind_of_ok (walk_look_eq hva)] at hrun
    cases hslot : slot k.mem 2 root (va / PGSIZE) with
    | none =>
      rw [hslot] at hrun
      cases hrun
    | some =>
      rw [hslot, Option.getD_some, if_neg (slot_ne_zero hwf hslot)] at hrun
      replace hrun := loadWord_bind hrun
      rw [load_slot hslot] at hrun
      split at hrun
      · next hvalid =>
        split at hrun
        · next hdo =>
          rcases bind_error hrun with hkfree | ⟨_, _, -, hstore⟩
          · exact absurd (hpage hdo hvalid) (kfree_error hkfree).1
          · cases hstore
        · cases hrun
      · cases hrun

theorem uvmunmapLoop_returns {n a : Nat} (h : Apart k 2 root) (ha : a % PGSIZE = 0) (hmax : a + n * PGSIZE ≤ MAXVA)
    (hfree : doFree = true → Freeable k root (fun v => a / PGSIZE ≤ v ∧ v < a / PGSIZE + n))
    (hpages : doFree = true → ∀ v, a / PGSIZE ≤ v → v < a / PGSIZE + n → Valid (leaf k.mem 2 root v) →
      L.IsPage (PTE2PA (leaf k.mem 2 root v))) : ∃ k', uvmunmapLoop root doFree n a k = .ok ((), k') := by
  induction n generalizing a k with
  | zero => exact ⟨k, rfl⟩
  | succ n ih =>
    have hnext := add_PGSIZE_div a
    have hva : a < MAXVA := by
      unfold PGSIZE at hmax
      omega
    obtain ⟨k₁, hone⟩ := unmapPage_returns h.wf hva fun hdo => hpages hdo _ (Nat.le_refl _) (by omega)
    obtain ⟨hapart, hfree₁, hkeep⟩ := unmapPage_rest h hfree hone
    rw [← hnext] at hfree₁ hkeep
    obtain ⟨k', hrest⟩ := ih hapart (by rw [Nat.add_mod_right]; exact ha)
      (by unfold PGSIZE at *; omega) hfree₁
      fun hdo v hlo hhi hvalid => by
        have hv : v < NPAGES := by
          rw [hnext] at hhi
          unfold MAXVA PGSIZE at *
          unfold NPAGES
          omega
        rw [hkeep v hv (by omega)] at hvalid ⊢
        exact hpages hdo v (by omega) (by omega) hvalid
    exact ⟨k', by rw [uvmunmapLoop, bind_of_ok hone]; exact hrest⟩

theorem uvmunmap_returns {npages : Nat} (h : Apart k 2 root) (ha : va % PGSIZE = 0)
    (hmax : va + npages * PGSIZE ≤ MAXVA) (hfree : doFree = true → Freeable k root (InRange va npages) ∧
      ∀ v pa flags, InRange va npages v → lookup k root v = some (pa, flags) → L.IsPage pa) :
    ∃ k', uvmunmap root va npages doFree k = .ok ((), k') := by
  have hrounds := unmap_rounds hmax
  have hrange : ∀ {v}, InRange va npages v ↔ va / PGSIZE ≤ v ∧ v < va / PGSIZE + npages := by
    intro v
    rw [inRange_iff ha, hrounds]
  unfold uvmunmap
  rw [if_neg (not_not.mpr ha), hrounds]
  refine uvmunmapLoop_returns h ha hmax (fun hdo => (hfree hdo).1.mono fun v hv => hrange.mpr hv)
    fun hdo v hlo hhi hvalid => ?_
  have hv : v < NPAGES := by
    unfold MAXVA PGSIZE at *
    unfold NPAGES
    omega
  have hlook : lookup k root v = some (PTE2PA (leaf k.mem 2 root v), PTE_FLAGS (leaf k.mem 2 root v)) := by
    rw [lookup_eq h.wf hv, decode, if_pos hvalid]
  exact (hfree hdo).2 v _ _ (hrange.mpr ⟨hlo, hhi⟩) hlook

theorem walkLevel_of_slot {alloc : Bool} {n page a : Nat} (h : slot k.mem n page (va / PGSIZE) = some a) :
    walkLevel va alloc n page k = .ok (a, k) := by
  induction n generalizing page with
  | zero =>
    simp only [slot, Option.some.injEq] at h
    rw [← h, walkLevel, PX_eq]
    rfl
  | succ n ih =>
    obtain ⟨hvalid, hslot⟩ := slot_succ.mp h
    have hPX : PX (n + 1) va = index (n + 1) (va / PGSIZE) := PX_eq (n + 1) va
    rw [walkLevel, hPX]
    show (if Valid (entry k.mem page (index (n + 1) (va / PGSIZE))) then
      walkLevel va alloc n (PTE2PA (entry k.mem page (index (n + 1) (va / PGSIZE)))) else _ : Kernel L Nat) k = _
    rw [if_pos hvalid]
    exact ih hslot

theorem walk_step {alloc : Bool} {a : Nat} (h : Apart k 2 root) (hrun : walk root va alloc k = .ok (a, k')) :
    Apart k' 2 root ∧ MapStep (lookup k root) (.walk va alloc, .address a) (lookup k' root) := by
  have hva : va < MAXVA := by
    by_contra hmax
    rw [walk, if_pos (Nat.le_of_not_lt hmax)] at hrun
    cases hrun
  have hv := div_lt_NPAGES hva
  -- `walk` returns null only where it has met no entry.
  have hfound : Grown k k' 2 root ∧ (lookup k root (va / PGSIZE) ≠ none → a ≠ 0) := by
    cases alloc with
    | false =>
      rw [walk_look_eq hva] at hrun
      cases hrun
      refine ⟨.refl h, fun hsome => ?_⟩
      cases hslot : slot k.mem 2 root (va / PGSIZE) with
      | none =>
        rw [lookup_eq h.wf hv, leaf_of_slot_none hslot] at hsome
        exact absurd rfl hsome
      | some => exact slot_ne_zero h.wf hslot
    | true =>
      have hlevel : walkLevel va true 2 root k = .ok (a, k') := by
        rw [walk, if_neg (Nat.not_le_of_lt hva)] at hrun
        exact hrun
      refine ⟨(walkLevel_alloc h hlevel).1, fun hsome => ?_⟩
      cases hslot : slot k.mem 2 root (va / PGSIZE) with
      | none =>
        rw [lookup_eq h.wf hv, leaf_of_slot_none hslot] at hsome
        exact absurd rfl hsome
      | some =>
        rw [walkLevel_of_slot hslot] at hlevel
        cases hlevel
        exact slot_ne_zero h.wf hslot
  rw [lookup_of_grown hfound.1 h]
  exact ⟨hfound.1.apart h, .walked hva hfound.2⟩

/-! ## The table refines the map -/

theorem exec_step {ev : Event} (h : Apart k 2 root) (hstep : restrict (Proper root) (Exec (exec root)) k ev k') :
    Apart k' 2 root ∧ MapStep (lookup k root) ev (lookup k' root) := by
  obtain ⟨hproper, hexec⟩ := hstep
  obtain ⟨call, ret⟩ := ev
  cases call with
  | mappages =>
    obtain ⟨r, hrun, rfl⟩ := exec_some hexec
    exact mappages_step h hproper.1 hproper.2.1 hproper.2.2 hrun
  | uvmunmap =>
    obtain ⟨u, hrun, rfl⟩ := exec_some hexec
    refine uvmunmap_step h (fun hdo => ?_) hrun
    subst hdo
    exact hproper
  | walk =>
    obtain ⟨a, hrun, rfl⟩ := exec_some hexec
    exact walk_step h hrun
  | walkaddr =>
    obtain ⟨a, hrun, rfl⟩ := exec_some hexec
    rw [walkaddr_eq h.wf] at hrun
    cases hrun
    exact ⟨h, .translated⟩

theorem uvmcreate_apart (hfresh : ∀ x, k.free x ≤ 1) (hrun : uvmcreate k = .ok (root, k')) (hroot : root ≠ 0) :
    Apart k' 2 root ∧ lookup k' root = fun _ => none := by
  unfold uvmcreate at hrun
  obtain ⟨page, k₁, halloc, hrest⟩ := bind_ok hrun
  rcases kalloc_ok halloc with ⟨rfl, rfl⟩ | ⟨hpage, hlist, -⟩
  · rw [if_pos rfl] at hrest
    exact absurd (pure_ok hrest).1 hroot
  rw [if_neg hpage.ne_zero] at hrest
  obtain ⟨_, k₂, hset, hrest⟩ := bind_ok hrest
  obtain ⟨rfl, rfl⟩ := pure_ok hrest
  rw [memset_ok hset]
  have hblank : Blank (k₁.write (fill k₁.mem root PGSIZE 0)).mem root := blank_fill
  have hwf : WellFormed L (k₁.write (fill k₁.mem root PGSIZE 0)).mem 2 root := hblank.wellFormed hpage
  refine ⟨⟨hwf, fun x => ?_⟩, ?_⟩
  · rw [hblank.pages, free_write]
    have hcount := free_of_freelist (x := x) hlist
    have hle := hfresh x
    omega
  funext v
  by_cases hv : v < NPAGES
  · rw [lookup_eq hwf hv, hblank.leaf]
    rfl
  · exact lookup_of_ge (Nat.le_of_not_lt hv)

/-- A page table is a finite map: the calls do to the lookups what the steps of the map say, no two pages
share an entry, and the calls that the map allows do not panic. -/
theorem table_is_map (k₀ k₁ k : Kmem L) (root : Nat) (tr : List Event) (hfresh : ∀ x, k₀.free x ≤ 1)
    (hcreate : uvmcreate k₀ = .ok (root, k₁)) (hroot : root ≠ 0)
    (hrun : Run (restrict (Proper root) (Exec (exec root))) k₁ tr k) :
    Run MapStep (fun _ => none) tr (lookup k root) ∧
    (∀ va va' a, walk root va false k = .ok (a, k) → walk root va' false k = .ok (a, k) → a ≠ 0 →
      va / PGSIZE = va' / PGSIZE) ∧ (∀ va pa perm, va % PGSIZE = 0 → va < MAXVA → lookup k root (va / PGSIZE) = none →
      ∃ r k', mappages root va PGSIZE pa perm k = .ok (r, k')) ∧
    (∀ va npages doFree, va % PGSIZE = 0 → va + npages * PGSIZE ≤ MAXVA →
      (doFree = true → Freeable k root (InRange va npages) ∧
        ∀ v pa flags, InRange va npages v → lookup k root v = some (pa, flags) → L.IsPage pa) →
      ∃ k', uvmunmap root va npages doFree k = .ok ((), k')) := by
  obtain ⟨hapart₁, hempty⟩ := uvmcreate_apart hfresh hcreate hroot
  obtain ⟨m, hmap, hapart, rfl⟩ := Run.simulate (R := fun k m => Apart k 2 root ∧ m = lookup k root)
    (by
      rintro k m ev k' ⟨h, rfl⟩ hstep
      obtain ⟨h', hnext⟩ := exec_step h hstep
      exact ⟨_, hnext, h', rfl⟩) hrun ⟨hapart₁, rfl⟩
  rw [hempty] at hmap
  refine ⟨hmap, fun va va' a hwalk hwalk' ha => ?_, fun va pa perm halign hva hnone => ?_,
    fun va npages doFree halign hmax hfree => uvmunmap_returns hapart halign hmax hfree⟩
  · obtain ⟨-, hva, hslot⟩ := walk_look hapart.wf hwalk
    obtain ⟨-, hva', hslot'⟩ := walk_look hapart.wf hwalk'
    have hmod := slot_inj hapart.wf (pages_le_one hapart) (hslot.resolve_left fun h => ha h.1).2
      (hslot'.resolve_left fun h => ha h.1).2
    exact eq_of_mod_NENTRIES (div_lt_NPAGES hva) (div_lt_NPAGES hva') hmod
  cases hmappages : mappages root va PGSIZE pa perm k with
  | ok r => exact ⟨r.1, r.2, rfl⟩
  | error =>
    rw [lookup_eq hapart.wf (div_lt_NPAGES hva), decode_eq_none] at hnone
    rcases mappages_error hapart hmappages with hbad | hbad | hbad
    · exact absurd halign hbad
    · exact absurd hva (Nat.not_lt_of_le hbad)
    · exact absurd hbad hnone

/-- In a table on a machine with eight free pages, one page is mapped. -/
theorem one_page_is_map : ∃ root k₁ k, uvmcreate eightPages = .ok (root, k₁) ∧
    Run (restrict (Proper root) (Exec (exec root))) k₁ [(.mappages 0 KERNBASE PTE_R, .status 0)] k ∧
    Run MapStep (fun _ => none) [(.mappages 0 KERNBASE PTE_R, .status 0)] (lookup k root) := by
  have hrun : (match uvmcreate eightPages with
      | .ok (root, k) => decide (root ≠ 0) &&
          (exec root k (.mappages 0 KERNBASE PTE_R)).any (fun r => r.2 = .status 0)
      | .error _ => false) = true := by
    decide +kernel
  split at hrun
  case h_2 => cases hrun
  rename_i root k₁ hcreate
  rw [Bool.and_eq_true, decide_eq_true_eq] at hrun
  obtain ⟨hroot, hmap⟩ := hrun
  obtain ⟨k, ret, hstep, hcheck⟩ := Exec.of_any hmap
  have hret : ret = .status 0 := of_decide_eq_true hcheck
  rw [hret] at hstep
  have hone : Run (restrict (Proper root) (Exec (exec root))) k₁ [(.mappages 0 KERNBASE PTE_R, .status 0)] k :=
    Run.single ⟨⟨by decide, by decide, by decide⟩, hstep⟩
  have hfresh : ∀ x, eightPages.free x ≤ 1 := by
    intro x
    exact List.nodup_iff_count_le_one.mp (by decide) x
  exact ⟨root, k₁, k, hcreate, hone, (table_is_map eightPages k₁ k root _ hfresh hcreate hroot hone).1⟩

end Xv6.PageMap
