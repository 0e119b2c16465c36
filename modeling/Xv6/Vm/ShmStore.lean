import Mathlib.Data.Set.Card
import Xv6.Lib.KeyedStore
import Xv6.Vm.Shm

/-!
# The region table is a keyed store

Seen from outside, `kernel/shmem.c` keeps a store: the slots are the entries of `shmtable`, a place is
a page of a process.  A run of `shmget`, `shmat` and `shmdt` is a run of that store, the reference
counts are the numbers of attachments, and no call fails half way.
-/

namespace Xv6.Vm

open Finset Function Hoare Ledger Memory Runs
open KeyedStore (Store Event)

variable {L : Layout} {s t : State L} {g : Ledger} {p : Fin NPROC} {i : Fin NSHMEM} {ret : Int}
  {v x : Nat}

/-! ## The store of a state -/

abbrev Place := Fin NPROC × Nat

abbrev ShmStore := Store (Fin NSHMEM) Int Place

def HasAt (s : State L) (i : Fin NSHMEM) (x : Place) : Prop :=
  ((s.proc x.1).state ≠ .unused ∧ x.2 < NENTRIES) ∧
    (s.shmtable i).key ≠ 0 ∧ Hits (entryAt s x.1 x.2) (s.shmtable i).kpage

instance (s : State L) (i : Fin NSHMEM) (x : Place) : Decidable (HasAt s i x) :=
  inferInstanceAs (Decidable ((_ ∧ _) ∧ _ ∧ _))

def State.store (s : State L) : ShmStore where
  key i := if (s.shmtable i).key = 0 then none else some (s.shmtable i).key
  attached x := (List.finRange NSHMEM).find? fun i => HasAt s i x

theorem store_key_eq_none : s.store.key i = none ↔ (s.shmtable i).key = 0 := by
  show (if _ then _ else _) = none ↔ _
  split
  · next hzero => exact ⟨fun _ => hzero, fun _ => rfl⟩
  · next hkey => exact ⟨fun h => absurd h (Option.some_ne_none _), fun h => absurd h hkey⟩

theorem store_key_eq_some {key : Int} :
    s.store.key i = some key ↔ (s.shmtable i).key ≠ 0 ∧ (s.shmtable i).key = key := by
  show (if _ then _ else _) = some key ↔ _
  split
  · next hzero => exact ⟨fun h => absurd h.symm (Option.some_ne_none _), fun h => absurd hzero h.1⟩
  · next hkey => exact ⟨fun h => ⟨hkey, Option.some.inj h⟩, fun h => congrArg some h.2⟩

theorem Books.slot_inj {j : Fin NSHMEM} (h : Books s g) (hi : (s.shmtable i).key ≠ 0)
    (hj : (s.shmtable j).key ≠ 0) (heq : (s.shmtable i).kpage = (s.shmtable j).kpage) : i = j := by
  have hregion := view_region hj
  rw [← heq] at hregion
  exact h.accounts.region_inj (view_region hi) hregion

variable {y : Place} {ev : Act × Int}

theorem hasAt_of_attached (h : s.store.attached y = some i) : HasAt s i y :=
  of_decide_eq_true (List.find?_some (p := fun i => HasAt s i y) h)

theorem Books.attached_iff (h : Books s g) : s.store.attached y = some i ↔ HasAt s i y := by
  constructor
  · intro hfind
    exact hasAt_of_attached hfind
  intro hhas
  cases hfind : s.store.attached y with
  | none =>
    exact absurd hhas (of_decide_eq_false (find?_none_key (f := fun i => HasAt s i y) hfind i))
  | some =>
    -- An entry maps one page, and that is the page of one slot.
    have hj := hasAt_of_attached hfind
    rw [h.slot_inj hj.2.1 hhas.2.1 (hj.2.2.2.symm.trans hhas.2.2.2)]

theorem Books.attached_eq_none (h : Books s g) : s.store.attached y = none ↔ ∀ i, ¬ HasAt s i y := by
  rw [Option.eq_none_iff_forall_ne_some]
  exact forall_congr' fun i => not_congr h.attached_iff

def places (s : State L) (i : Fin NSHMEM) : Finset Place := (univ ×ˢ range NENTRIES).filter fun y => HasAt s i y

theorem Books.attachments_eq (h : Books s g) : s.store.attachments i = places s i := by
  ext y
  rw [places, coe_filter, Store.attachments]
  simp only [Set.mem_ofPred_eq, h.attached_iff, mem_product, mem_univ, true_and, mem_range]
  exact ⟨fun hy => ⟨hy.1.2, hy⟩, fun hy => hy.2⟩

theorem Books.attachments_ncard (h : Books s g) (hi : (s.shmtable i).key ≠ 0) :
    (s.store.attachments i).ncard = mappings s (s.shmtable i).kpage := by
  rw [h.attachments_eq, Set.ncard_coe_finset, places, card_filter, sum_product]
  unfold mappings mapsTo
  apply sum_congr rfl
  intro p _
  by_cases hun : (s.proc p).state = .unused
  · rw [if_pos hun]
    exact sum_eq_zero fun v _ => if_neg fun hhas => hhas.1.1 hun
  rw [if_neg hun]
  apply sum_congr rfl
  intro v hv
  have hiff : HasAt s i (p, v) ↔ Hits (leaf s.kmem.mem 2 (s.proc p).pagetable v) (s.shmtable i).kpage :=
    ⟨fun hhas => hhas.2.2, fun hhit => ⟨⟨hun, mem_range.mp hv⟩, hi, hhit⟩⟩
  simp only [hiff]

theorem Books.refcount_eq (h : Books s g) (hi : (s.shmtable i).key ≠ 0) :
    (s.shmtable i).refcount = (s.store.attachments i).ncard := by
  rw [h.attachments_ncard hi, h.refs i hi, h.count_eq_mappings (view_region hi)]

theorem Books.attachments_finite (h : Books s g) : (s.store.attachments i).Finite := by
  rw [h.attachments_eq]
  exact finite_toSet _

theorem Books.not_hasAt (h : Books s g) (hi : (s.shmtable i).key ≠ 0)
    (hzero : (s.shmtable i).refcount = 0) : ¬ HasAt s i y := by
  intro hhas
  have hcard := h.refcount_eq hi
  have hempty := (Set.ncard_eq_zero (h.attachments_finite (i := i))).mp (by omega)
  have hmem : y ∈ s.store.attachments i := h.attached_iff.mpr hhas
  rw [hempty] at hmem
  exact hmem

theorem Books.hasAt_below (h : Books s g) (hhas : HasAt s i y) : y.2 < pagesOf (s.proc y.1).sz := by
  obtain ⟨⟨hp, hv⟩, hi, hhit⟩ := hhas
  have hmem := (h.top hp).mem
  have hregion := view_region hi
  rcases (h.room _ hp _).mp (h.holds.room _ hmem _ hv hhit.1) with hbelow | htop | htop
  · exact hbelow
  · -- The entry for the trampoline maps the trampoline.
    have hsee := (h.top hp).trampoline
    rw [← htop] at hsee
    have htramp := (h.holds.sees _ hmem _ hv _ h.accounts.shared_trampoline).mpr hsee
    exact absurd (hhit.2.symm.trans htramp.2) (h.accounts.region_ne_trampoline hregion)
  have hsee := (h.top hp).trapframe
  rw [← htop] at hsee
  have hframe := (h.holds.sees _ hmem _ hv _ (h.frames hp).trapframe).mpr hsee
  have heq := hhit.2.symm.trans hframe.2
  exact absurd ⟨i, hregion.trans (congrArg some heq)⟩ (h.accounts.disjoint ⟨_, _, view_space hp⟩)

/-! ## One call -/

/-- How the store sees a call and its result. -/
inductive Means (σ : ShmStore) : Act × Int → Event (Fin NSHMEM) Int Place → Prop
  | getRefused {p : Fin NPROC} {key size : Int}
      (why : ¬ GetArgs key size ∨ ∀ i, σ.key i ≠ some key) :
      Means σ (⟨p, .shmget key size⟩, -1) .refused
  | getFound {p : Fin NPROC} {key size : Int} {i : Fin NSHMEM} :
      Means σ (⟨p, .shmget key size⟩, i.val) (.found key i)
  | getCreated {p : Fin NPROC} {key size : Int} {i : Fin NSHMEM} :
      Means σ (⟨p, .shmget key size⟩, i.val) (.created key i)
  | atRefused {p : Fin NPROC} {id : Int} : Means σ (⟨p, .shmat id⟩, 0) .refused
  | atDone {p : Fin NPROC} {i : Fin NSHMEM} {v : Nat} :
      Means σ (⟨p, .shmat i.val⟩, (v * PGSIZE : Nat)) (.attached i (p, v))
  | dtRefused {p : Fin NPROC} {uva : Nat}
      (why : uva = 0 ∨ uva % PGSIZE ≠ 0 ∨ σ.attached (p, uva / PGSIZE) = none) :
      Means σ (⟨p, .shmdt uva⟩, -1) .refused
  | dtDone {p : Fin NPROC} {uva : Nat} (nonzero : uva ≠ 0) (aligned : uva % PGSIZE = 0) :
      Means σ (⟨p, .shmdt uva⟩, 0) (.detached (p, uva / PGSIZE))

/-- The store's own account of a call. -/
def ShmSpec (σ : ShmStore) (ev : Act × Int) (τ : ShmStore) : Prop := ∃ e, Means σ ev e ∧ KeyedStore.Step σ e τ

theorem Books.store_eq {σ : ShmStore} (h : Books t g) (hkey : ∀ i, t.store.key i = σ.key i)
    (hat : ∀ i y, HasAt t i y ↔ σ.attached y = some i) : t.store = σ := by
  apply Store.ext
  · funext i
    exact hkey i
  funext y
  apply Option.ext
  intro i
  rw [h.attached_iff]
  exact hat i y

theorem hasAt_congr (hstate : (t.proc y.1).state = (s.proc y.1).state)
    (hkey : (t.shmtable i).key = (s.shmtable i).key) (hkpage : (t.shmtable i).kpage = (s.shmtable i).kpage)
    (hentry : (s.proc y.1).state ≠ .unused → y.2 < NENTRIES →
      entryAt t y.1 y.2 = entryAt s y.1 y.2) : HasAt t i y ↔ HasAt s i y := by
  unfold HasAt
  rw [hstate, hkey, hkpage]
  exact and_congr_right fun hlive => by rw [hentry hlive.1 hlive.2]

theorem key_congr (hkey : (t.shmtable i).key = (s.shmtable i).key) : t.store.key i = s.store.key i := by
  show (if _ then _ else _) = if _ then _ else _
  rw [hkey]

theorem Untouched.store (h : Books s g) {g' : Ledger} (h' : Books t g') (hsame : Untouched s t) :
    t.store = s.store := by
  refine h'.store_eq (fun i => key_congr (by rw [hsame.shmtable])) fun i y => ?_
  rw [h.attached_iff]
  exact hasAt_congr (by rw [hsame.proc]) (by rw [hsame.shmtable]) (by rw [hsame.shmtable]) (hsame.entries y.1 · y.2 ·)

/-- The pages of regions are mapped for the user. -/
def UserAttached (s : State L) : Prop := ∀ i y, HasAt s i y → entryAt s y.1 y.2 &&& PTE_U ≠ 0

theorem hits_mapping {y perm : Nat} (hx : x % PGSIZE = 0) (hlt : x < 2 ^ 56) (hperm : perm < 2 ^ 10) :
    Hits (mapping x perm) y ↔ x = y := by
  obtain ⟨hvalid, hpa, -⟩ := mapping_spec hx hlt hperm
  unfold Hits
  rw [hpa]
  exact and_iff_right hvalid

theorem mapping_user (x : Nat) : mapping x attachPerm &&& PTE_U ≠ 0 := by
  intro hzero
  have hbit : (mapping x attachPerm &&& PTE_U).testBit 4 = true := by
    unfold mapping attachPerm PTE_R PTE_W PTE_U PTE_V
    rw [Nat.testBit_and, Nat.testBit_or, Nat.testBit_or]
    rw [show Nat.testBit (2 ^ 1 ||| 2 ^ 2 ||| 2 ^ 4) 4 = true by decide]
    rw [show Nat.testBit (2 ^ 4) 4 = true by decide, Bool.or_true, Bool.true_or, Bool.true_and]
  rw [hzero, Nat.zero_testBit] at hbit
  cases hbit

section Call

variable {g' : Ledger} {key size : Int} {uva page : Nat}

theorem Books.created (h : Books s g) (h' : Books t g') (hkey : key ≠ 0)
    (hvacant : (s.shmtable i).key = 0) (htable : t.shmtable = (s.setShm i ⟨key, 0, page⟩).shmtable)
    (hproc : t.proc = s.proc) (hsame : SameEntries s t) : t.store = s.store.create i key := by
  have hself : t.shmtable i = ⟨key, 0, page⟩ := by rw [htable, setShm_self]
  have hother : ∀ j, j ≠ i → t.shmtable j = s.shmtable j := by
    intro j hj
    rw [htable, setShm_of_ne _ _ hj]
  refine h'.store_eq (fun j => ?_) fun j y => ?_
  · by_cases hj : j = i
    · rw [hj]
      show _ = update s.store.key i (some key) i
      rw [update_self, store_key_eq_some, hself]
      exact ⟨hkey, rfl⟩
    · show _ = update s.store.key i (some key) j
      rw [update_of_ne hj]
      exact key_congr (by rw [hother j hj])
  show _ ↔ s.store.attached y = some j
  rw [h.attached_iff]
  by_cases hj : j = i
  · -- Nobody has the new slot, and nobody had the vacant one.
    rw [hj]
    have hnew : ¬ HasAt t i y := h'.not_hasAt (by rw [hself]; exact hkey) (by rw [hself])
    exact ⟨fun hhas => absurd hhas hnew, fun hhas => absurd hvacant hhas.2.1⟩
  · exact hasAt_congr (by rw [hproc]) (by rw [hother j hj]) (by rw [hother j hj]) (hsame y.1 · y.2 ·)

theorem Books.attached {sz : Nat} (h : Books s g) (h' : Books t g') (hp : (s.proc p).state ≠ .unused)
    (hv : v < NENTRIES) (hi : (s.shmtable i).key ≠ 0) (htable : t.shmtable = (s.setShm i
      { s.shmtable i with refcount := (s.shmtable i).refcount + 1 }).shmtable)
    (hproc : t.proc = (s.setProc p { s.proc p with sz := sz }).proc)
    (hset : SetsEntry s t p v (mapping (s.shmtable i).kpage attachPerm)) :
    t.store = s.store.attach (p, v) i := by
  have hslot : ∀ j, (t.shmtable j).key = (s.shmtable j).key ∧
      (t.shmtable j).kpage = (s.shmtable j).kpage := by
    intro j
    rw [htable]
    by_cases hj : j = i
    · rw [hj, setShm_self]
      exact ⟨rfl, rfl⟩
    · rw [setShm_of_ne _ _ hj]
      exact ⟨rfl, rfl⟩
  have hstate : ∀ q, (t.proc q).state = (s.proc q).state := by
    intro q
    rw [hproc]
    by_cases hq : q = p
    · rw [hq, setProc_self]
    · rw [setProc_of_ne _ _ hq]
  refine h'.store_eq (fun j => key_congr (hslot j).1) fun j y => ?_
  show _ ↔ update s.store.attached (p, v) (some i) y = some j
  by_cases hy : y = (p, v)
  · rw [hy, update_self, Option.some_inj]
    have hpage := h.accounts.region_page (view_region hi)
    have hentry : entryAt t p v = mapping (s.shmtable i).kpage attachPerm := by
      rw [hset p hp v hv, if_pos ⟨rfl, rfl⟩]
    unfold HasAt
    dsimp only
    rw [hentry, hits_mapping hpage.1 hpage.lt (by decide), (hslot j).1, (hslot j).2, hstate p]
    constructor
    · intro hhas
      exact h.slot_inj hi hhas.2.1 hhas.2.2
    · intro heq
      rw [← heq]
      exact ⟨⟨hp, hv⟩, hi, rfl⟩
  · rw [update_of_ne hy, h.attached_iff]
    refine hasAt_congr (hstate y.1) (hslot j).1 (hslot j).2 fun hlive hlt => ?_
    rw [hset y.1 hlive y.2 hlt, if_neg fun heq => hy (Prod.ext heq.1 heq.2)]

theorem Books.detached_hasAt (h : Books s g) {j : Fin NSHMEM} (hkey : (t.shmtable j).key = (s.shmtable j).key)
    (hkpage : (t.shmtable j).kpage = (s.shmtable j).kpage) (hproc : t.proc = s.proc)
    (hset : SetsEntry s t p v 0) : HasAt t j y ↔ (s.store.detach (p, v)).attached y = some j := by
  show _ ↔ update s.store.attached (p, v) none y = some j
  by_cases hy : y = (p, v)
  · rw [hy, update_self]
    -- The entry is zero now.
    refine ⟨fun hhas => absurd hhas.2.2 ?_, fun hnone => absurd hnone.symm (Option.some_ne_none j)⟩
    have hlive := hhas.1
    rw [hproc] at hlive
    have hentry : entryAt t p v = 0 := by rw [hset p hlive.1 v hlive.2, if_pos ⟨rfl, rfl⟩]
    rw [hentry]
    exact not_hits_zero _
  · rw [update_of_ne hy, h.attached_iff]
    refine hasAt_congr (by rw [hproc]) hkey hkpage fun hlive hlt => ?_
    rw [hset y.1 hlive y.2 hlt, if_neg fun heq => hy (Prod.ext heq.1 heq.2)]

theorem Books.detached (h : Books s g) (h' : Books t g') (hp : (s.proc p).state ≠ .unused)
    (hv : v < NENTRIES) (hi : (s.shmtable i).key ≠ 0) (hhit : Hits (entryAt s p v) (s.shmtable i).kpage)
    (htable : t.shmtable = (s.setShm i (s.shmtable i).release).shmtable) (hproc : t.proc = s.proc)
    (hset : SetsEntry s t p v 0) : KeyedStore.Step s.store (.detached (p, v)) t.store := by
  have hat : s.store.attached (p, v) = some i := h.attached_iff.mpr ⟨⟨hp, hv⟩, hi, hhit⟩
  have hcard := h.refcount_eq hi
  have hfin := h.attachments_finite (i := i)
  have hself : t.shmtable i = (s.shmtable i).release := by rw [htable, setShm_self]
  have hother : ∀ j, j ≠ i → t.shmtable j = s.shmtable j := by
    intro j hj
    rw [htable, setShm_of_ne _ _ hj]
  by_cases hlast : (s.shmtable i).refcount - 1 ≤ 0
  · rw [Shmregion.release, if_pos hlast] at hself
    have hone : (s.store.attachments i).ncard ≤ 1 := by omega
    have honly : ∀ y, s.store.attached y = some i → y = (p, v) :=
      fun y hy => (Set.ncard_le_one hfin).mp hone y hy (p, v) hat
    have hstore : t.store = (s.store.detach (p, v)).destroy i := by
      refine h'.store_eq (fun j => ?_) fun j y => ?_
      · show _ = update s.store.key i none j
        by_cases hj : j = i
        · rw [hj, update_self, store_key_eq_none, hself]
        · rw [update_of_ne hj]
          exact key_congr (by rw [hother j hj])
      show _ ↔ (s.store.detach (p, v)).attached y = some j
      by_cases hj : j = i
      · rw [hj]
        refine ⟨fun hhas => absurd (by rw [hself]) hhas.2.1, fun hsome => ?_⟩
        -- The only place of the slot has been cleared.
        simp only [Store.detach, update_apply] at hsome
        split at hsome
        · cases hsome
        · next hne => exact absurd (honly y hsome) hne
      · exact h.detached_hasAt (by rw [hother j hj]) (by rw [hother j hj]) hproc hset
    rw [hstore]
    exact .destroyed hat honly
  rw [Shmregion.release, if_neg hlast] at hself
  have hmore : 1 < (s.store.attachments i).ncard := by omega
  obtain ⟨y, hy, hne⟩ := Set.exists_ne_of_one_lt_ncard hmore (p, v)
  have hslot : ∀ j, (t.shmtable j).key = (s.shmtable j).key ∧
      (t.shmtable j).kpage = (s.shmtable j).kpage := by
    intro j
    by_cases hj : j = i
    · rw [hj, hself]
      exact ⟨rfl, rfl⟩
    · rw [hother j hj]
      exact ⟨rfl, rfl⟩
  have hstore : t.store = s.store.detach (p, v) :=
    h'.store_eq (fun j => key_congr (hslot j).1) fun j y => h.detached_hasAt (hslot j).1 (hslot j).2 hproc hset
  rw [hstore]
  exact .detached hat hy hne

theorem attachNo_lt {sz : Nat} (h : PGROUNDUP sz + PGSIZE ≤ TRAPFRAME) : PGROUNDUP sz / PGSIZE < NENTRIES := by
  apply div_lt_NENTRIES
  unfold TRAPFRAME TRAMPOLINE PGSIZE at h
  omega

theorem div_ge_pagesOf {sz : Nat} (halign : uva % PGSIZE = 0) (h : sz ≤ uva) : pagesOf sz ≤ uva / PGSIZE := by
  unfold pagesOf PGSIZE at *
  omega

theorem Books.unattached (h : Books s g) (huser : UserAttached s)
    (hwhy : uva % PGSIZE ≠ 0 ∨ (s.proc p).sz ≤ uva ∨ entryAt s p (uva / PGSIZE) &&& PTE_U = 0 ∨
      ∀ i, (s.shmtable i).key ≠ 0 → ¬ Hits (entryAt s p (uva / PGSIZE)) (s.shmtable i).kpage) :
    uva % PGSIZE ≠ 0 ∨ s.store.attached (p, uva / PGSIZE) = none := by
  by_cases halign : uva % PGSIZE = 0
  · right
    rw [h.attached_eq_none]
    intro i hhas
    rcases hwhy with hodd | habove | hkernel | hnone
    · exact hodd halign
    · exact Nat.not_le_of_lt (h.hasAt_below hhas) (div_ge_pagesOf halign habove)
    · exact huser i _ hhas hkernel
    · exact hnone i hhas.2.1 hhas.2.2
  · exact .inl halign

theorem Shmregion.release_live {r : Shmregion} (h : r.release.key ≠ 0) :
    r.release.key = r.key ∧ r.release.kpage = r.kpage := by
  unfold Shmregion.release at *
  split
  · next hlast =>
    rw [if_pos hlast] at h
    exact absurd rfl h
  · exact ⟨rfl, rfl⟩

theorem UserAttached.keep (huser : UserAttached s) (hat : s.store.attached y = some i)
    (hentry : (s.proc y.1).state ≠ .unused → y.2 < NENTRIES →
      entryAt t y.1 y.2 = entryAt s y.1 y.2) : entryAt t y.1 y.2 &&& PTE_U ≠ 0 := by
  have hhas := hasAt_of_attached hat
  rw [hentry hhas.1.1 hhas.1.2]
  exact huser i y hhas

theorem Books.userAttached {call : Call} (h : Books s g) (h' : Books t g') (huser : UserAttached s)
    (hp : (s.proc p).state ≠ .unused) (hdoes : ShmDoes s p call ret t) : UserAttached t := by
  intro i y hhas
  have hat : t.store.attached y = some i := h'.attached_iff.mpr hhas
  cases hdoes with
  | getRefused _ hsame | atRefused _ hsame =>
    rw [hsame.store h h'] at hat
    exact huser.keep hat (hsame.entries y.1 · y.2 ·)
  | getFound => exact huser i y hhas
  | getCreated hargs _ hslot _ htable hproc hsame =>
    rw [h.created h' (Int.ne_of_gt hargs.1) (freeSlot_vacant hslot) htable hproc hsame] at hat
    exact huser.keep hat (hsame y.1 · y.2 ·)
  | atDone hkey hbelow hempty htable hproc hset =>
    have hv := attachNo_lt hbelow
    rw [h.attached h' hp hv hkey htable hproc hset] at hat
    by_cases hy : y = (p, PGROUNDUP (s.proc p).sz / PGSIZE)
    · rw [hy]
      dsimp only
      rw [hset p hp _ hv, if_pos ⟨rfl, rfl⟩]
      exact mapping_user _
    · simp only [Store.attach, update_of_ne hy] at hat
      refine huser.keep hat fun hlive hlt => ?_
      rw [hset y.1 hlive y.2 hlt, if_neg fun heq => hy (Prod.ext heq.1 heq.2)]
  | dtRefused => exact huser i y hhas
  | @dtDone _ j _ _ _ _ hkey hhit htable hproc hset =>
    -- A slot that lives on has its key and page still.
    have hslot : (t.shmtable i).key = (s.shmtable i).key ∧
        (t.shmtable i).kpage = (s.shmtable i).kpage := by
      have hlive := hhas.2.1
      rw [htable] at hlive ⊢
      by_cases hi : i = j
      · rw [hi, setShm_self] at hlive ⊢
        exact Shmregion.release_live hlive
      · rw [setShm_of_ne _ _ hi]
        exact ⟨rfl, rfl⟩
    have hdetached := (h.detached_hasAt hslot.1 hslot.2 hproc hset).mp hhas
    simp only [Store.detach, update_apply] at hdetached
    split at hdetached
    · cases hdetached
    · next hy =>
      refine huser.keep hdetached fun hlive hlt => ?_
      rw [hset y.1 hlive y.2 hlt, if_neg fun heq => hy (Prod.ext heq.1 heq.2)]

theorem Books.shmSpec {call : Call} (h : Books s g) (h' : Books t g') (huser : UserAttached s)
    (hp : (s.proc p).state ≠ .unused) (hdoes : ShmDoes s p call ret t) :
    ShmSpec s.store (⟨p, call⟩, ret) t.store := by
  cases hdoes with
  | getRefused hwhy hsame =>
    rw [hsame.store h h']
    refine ⟨_, .getRefused (hwhy.imp_right fun hnone i hkey => ?_), .refused⟩
    exact hnone.1 i (store_key_eq_some.mp hkey).2
  | getFound hargs hkey =>
    have hpos : 0 < (s.shmtable _).key := hkey ▸ hargs.1
    exact ⟨_, .getFound, .found (store_key_eq_some.mpr ⟨Int.ne_of_gt hpos, hkey⟩)⟩
  | getCreated hargs hnone hslot hzeroed htable hproc hsame =>
    have hvacant := freeSlot_vacant hslot
    rw [h.created h' (Int.ne_of_gt hargs.1) hvacant htable hproc hsame]
    refine ⟨_, .getCreated, .created (fun j hj => ?_) (store_key_eq_none.mpr hvacant)⟩
    exact hnone j (store_key_eq_some.mp hj).2
  | atRefused _ hsame =>
    rw [hsame.store h h']
    exact ⟨_, .atRefused, .refused⟩
  | atDone hlive hbelow hempty htable hproc hset =>
    have hround : PGROUNDUP (s.proc p).sz / PGSIZE * PGSIZE = PGROUNDUP (s.proc p).sz :=
      Nat.div_mul_cancel (Nat.dvd_of_mod_eq_zero (PGROUNDUP_aligned _))
    rw [h.attached h' hp (attachNo_lt hbelow) hlive htable hproc hset, ← hround, mul_PGSIZE_div]
    refine ⟨_, .atDone, .attached (fun hnone => hlive (store_key_eq_none.mp hnone)) ?_⟩
    exact h.attached_eq_none.mpr fun j hhas => hempty hhas.2.2.1
  | dtRefused hwhy =>
    exact ⟨_, .dtRefused (hwhy.imp_right (h.unattached huser)), .refused⟩
  | dtDone hzero halign hbelow hlive hhit htable hproc hset =>
    have hsz := h.sz p
    have hmax : _ < MAXVA := Nat.lt_of_lt_of_le hbelow (Nat.le_trans hsz (by decide))
    exact ⟨_, .dtDone hzero halign, h.detached h' hp (div_lt_NENTRIES hmax) hlive hhit htable hproc hset⟩

end Call

/-! ## Runs of shared-memory calls -/

def ShmCall : Call → Prop
  | .shmget _ _ | .shmat _ | .shmdt _ => True
  | _ => False

theorem Books.does (h : Books s g) (hcall : ShmCall ev.1.call) (hstep : Step s ev t) :
    (s.proc ev.1.proc).state ≠ .unused ∧ ShmDoes s ev.1.proc ev.1.call ev.2 t := by
  obtain ⟨hp, hrun⟩ := hstep.ran
  obtain ⟨⟨p, call⟩, ret⟩ := ev
  refine ⟨hp, ?_⟩
  cases call with
  | shmget => exact ((shmemGet_rule (E := Any) _ h).ok rfl hrun).1
  | shmat => exact ((shmemAt_rule h hp).ok rfl hrun).1
  | shmdt => exact ((shmemDt_rule (E := Any) h hp).ok rfl hrun).1
  | _ => exact hcall.elim

theorem sparesRegions_of_shmCall (h : ShmCall ev.1.call) : SparesRegions s ev := by
  unfold ShmCall at h
  unfold SparesRegions
  split at h
  · next hcall =>
    rw [hcall]
    trivial
  · next hcall =>
    rw [hcall]
    trivial
  · next hcall =>
    rw [hcall]
    trivial
  · exact h.elim

/-- Only shared-memory calls, and `shmat` only with a page left below the trapframe. -/
def ShmOnly (s : State L) (ev : Act × Int) : Prop :=
  ShmCall ev.1.call ∧ ∀ id, ev.1.call = .shmat id → (s.proc ev.1.proc).sz + PGSIZE ≤ TRAPFRAME

/-- Processes of any history, and no region yet. -/
structure NoRegions (s : State L) : Prop where
  reachable : Reachable Booted (restrict SparesRegions Step) s
  vacant : ∀ i, (s.shmtable i).key = 0

/-- What holds all along a run of shared-memory calls. -/
structure Keeps (s : State L) : Prop where
  books : ∃ g, Books s g
  user : UserAttached s
  distinct : s.store.Distinct

theorem NoRegions.keeps (h : NoRegions s) : Keeps s where
  books := books_of_reachable h.reachable
  user i _ hhas := absurd (h.vacant i) hhas.2.1
  distinct i _ _ hi _ := absurd (h.vacant i) (store_key_eq_some.mp hi).1

theorem Keeps.step (h : Keeps s) (hcall : ShmCall ev.1.call) (hstep : Step s ev t) :
    Keeps t ∧ ShmSpec s.store ev t.store := by
  obtain ⟨g, hg⟩ := h.books
  obtain ⟨g', hg'⟩ := hg.step (sparesRegions_of_shmCall hcall) hstep
  obtain ⟨hp, hdoes⟩ := hg.does hcall hstep
  have hspec := hg.shmSpec hg' h.user hp hdoes
  refine ⟨⟨⟨g', hg'⟩, hg.userAttached hg' h.user hp hdoes, ?_⟩, hspec⟩
  obtain ⟨e, -, he⟩ := hspec
  exact he.distinct h.distinct

theorem Keeps.run {tr : List (Act × Int)} (h : Keeps s)
    (hrun : Run (restrict ShmOnly Step) s tr t) : Keeps t ∧ Run ShmSpec s.store tr t.store := by
  refine hrun.invariant_trace (P := fun tr t => Keeps t ∧ Run ShmSpec s.store tr t.store)
    (fun tr s ev t ih hstep => ?_) ⟨h, .nil⟩
  obtain ⟨hkeeps, hspec⟩ := ih.1.step hstep.1.1 hstep.2
  exact ⟨hkeeps, ih.2.snoc hspec⟩

structure TableSound (s : State L) : Prop where
  keys : ∀ i j, (s.shmtable i).key ≠ 0 → (s.shmtable i).key = (s.shmtable j).key → i = j
  vacant : ∀ i, (s.shmtable i).key = 0 ↔ (s.shmtable i).kpage = 0
  pages : ∀ i j, (s.shmtable i).key ≠ 0 → (s.shmtable j).key ≠ 0 → (s.shmtable i).kpage = (s.shmtable j).kpage → i = j
  refcount : ∀ i, (s.shmtable i).key ≠ 0 → (s.shmtable i).refcount = (s.store.attachments i).ncard

theorem Keeps.tableSound (h : Keeps s) : TableSound s := by
  obtain ⟨g, hg⟩ := h.books
  refine ⟨fun i j hi heq => ?_, fun i => ⟨hg.vacant i, fun hnull => ?_⟩,
    fun i j hi hj heq => hg.slot_inj hi hj heq, fun i hi => hg.refcount_eq hi⟩
  · have hj : (s.shmtable j).key ≠ 0 := heq ▸ hi
    exact h.distinct i j _ (store_key_eq_some.mpr ⟨hi, rfl⟩) (store_key_eq_some.mpr ⟨hj, heq.symm⟩)
  · by_contra hkey
    exact (hg.accounts.region_page (view_region hkey)).ne_zero hnull

/-- The call says that it has failed.  A process that runs has memory, so that no page it attaches is
at address 0. -/
def Failed (s : State L) (ev : Act × Int) : Prop :=
  match ev.1.call with
  | .shmat _ => ev.2 = 0 ∧ (s.proc ev.1.proc).sz ≠ 0
  | _ => ev.2 = -1

/-- The region of that key is new, and its page is zeroed. -/
def CreatesZeroed (key : Int) (ret : Int) (t : State L) : Prop :=
  ∃ i : Fin NSHMEM, ret = i.val ∧ (t.shmtable i).key = key ∧
    ∀ a, (t.shmtable i).kpage ≤ a → a < (t.shmtable i).kpage + PGSIZE → t.kmem.mem a = 0

structure CallSound (s : State L) (ev : Act × Int) (t : State L) : Prop where
  zeroed : ∀ key size, ev.1.call = .shmget key size → ev.2 ≠ -1 →
    (∀ i, (s.shmtable i).key ≠ key) → CreatesZeroed key ev.2 t
  failed : Failed s ev → Untouched s t
  getRefused : ∀ key size, ev.1.call = .shmget key size → Failed s ev → GetRefused s key size
  atRefused : ∀ id, ev.1.call = .shmat id → Failed s ev → AtRefused s id

/-- Every run of shared-memory calls is a run of the keyed store; every call of it returns. -/
def RefinesKeyedStore (L : Layout) : Prop :=
  ∀ s : State L, NoRegions s → ∀ tr t, Run (restrict ShmOnly Step) s tr t →
    TableSound t ∧ Run ShmSpec s.store tr t.store ∧
      (∀ a, (t.proc a.proc).state = .runnable → (∀ ret, ShmOnly t (a, ret)) → ∃ ret u, Step t (a, ret) u) ∧
      ∀ ev u, restrict ShmOnly Step t ev u → CallSound t ev u

theorem ShmDoes.createsZeroed {key size : Int} (hdoes : ShmDoes s p (.shmget key size) ret t)
    (hret : ret ≠ -1) (hnone : ∀ i, (s.shmtable i).key ≠ key) : CreatesZeroed key ret t := by
  cases hdoes with
  | getRefused => exact absurd rfl hret
  | getFound _ hkey => exact absurd hkey (hnone _)
  | @getCreated _ _ i page _ _ _ _ hzeroed htable _ _ =>
    have hself : t.shmtable i = ⟨key, 0, page⟩ := by rw [htable, setShm_self]
    refine ⟨i, rfl, by rw [hself], ?_⟩
    rw [hself]
    exact hzeroed

theorem ShmDoes.untouched {call : Call} (hsz : (s.proc p).sz ≤ TRAPFRAME)
    (hdoes : ShmDoes s p call ret t) (hfailed : Failed s (⟨p, call⟩, ret)) : Untouched s t := by
  cases hdoes with
  | getRefused _ hsame => exact hsame
  | getFound => exact .refl s
  | @getCreated _ _ i _ _ _ _ _ _ _ _ _ =>
    have hret : (i.val : Int) = -1 := hfailed
    omega
  | atRefused _ hsame => exact hsame
  | atDone =>
    obtain ⟨hret, hne⟩ : (PGROUNDUP (s.proc p).sz : Int) = 0 ∧ (s.proc p).sz ≠ 0 := hfailed
    have hle := le_PGROUNDUP hsz
    omega
  | dtRefused => exact .refl s
  | dtDone =>
    have hret : (0 : Int) = -1 := hfailed
    omega

theorem ShmDoes.getRefused_of_failed {key size : Int} (hdoes : ShmDoes s p (.shmget key size) ret t)
    (hfailed : Failed s (⟨p, .shmget key size⟩, ret)) : GetRefused s key size := by
  have hret : ret = -1 := hfailed
  cases hdoes with
  | getRefused hwhy => exact hwhy
  | getFound | getCreated => omega

theorem ShmDoes.atRefused_of_failed {id : Int} (hsz : (s.proc p).sz ≤ TRAPFRAME)
    (hdoes : ShmDoes s p (.shmat id) ret t) (hfailed : Failed s (⟨p, .shmat id⟩, ret)) : AtRefused s id := by
  cases hdoes with
  | atRefused hwhy => exact hwhy
  | atDone =>
    obtain ⟨hret, hne⟩ : (PGROUNDUP (s.proc p).sz : Int) = 0 ∧ (s.proc p).sz ≠ 0 := hfailed
    have hle := le_PGROUNDUP hsz
    omega

theorem Keeps.callSound (h : Keeps s) (hcall : ShmCall ev.1.call) (hstep : Step s ev t) : CallSound s ev t := by
  obtain ⟨g, hg⟩ := h.books
  obtain ⟨-, hdoes⟩ := hg.does hcall hstep
  obtain ⟨⟨p, call⟩, ret⟩ := ev
  refine ⟨?_, fun hfailed => hdoes.untouched (hg.sz _) hfailed, ?_, ?_⟩
  · rintro key size rfl hret hnone
    exact hdoes.createsZeroed hret hnone
  · rintro key size rfl hfailed
    exact hdoes.getRefused_of_failed hfailed
  · rintro id rfl hfailed
    exact hdoes.atRefused_of_failed (hg.sz _) hfailed

theorem Keeps.returns {a : Act} (h : Keeps s) (hrunnable : (s.proc a.proc).state = .runnable)
    (hshm : ShmOnly s (a, ret)) : ∃ ret t, Step s (a, ret) t := by
  obtain ⟨g, hg⟩ := h.books
  have hp : (s.proc a.proc).state ≠ .unused := by
    rw [hrunnable]
    decide
  have hno : ∀ e, body a s ≠ .error e ∧ sleeps s a = false := by
    intro e
    obtain ⟨hcall, hbelow⟩ := hshm
    obtain ⟨p, call⟩ := a
    cases call with
    | shmget => exact ⟨(shmemGet_rule (E := fun _ => False) p hg).error rfl, rfl⟩
    | shmat id => exact ⟨fun herr => Nat.not_lt_of_le (hbelow id rfl) ((shmemAt_rule hg hp).error rfl herr), rfl⟩
    | shmdt => exact ⟨(shmemDt_rule (E := fun _ => False) hg hp).error rfl, rfl⟩
    | _ => exact hcall.elim
  cases hrun : body a s with
  | error e => exact absurd hrun (hno e).1
  | ok r =>
    refine ⟨r.1, r.2, ?_⟩
    unfold Step Exec exec
    dsimp only
    rw [if_pos ⟨hrunnable, (hno .initExiting).2⟩, hrun]

theorem refinesKeyedStore (L : Layout) : RefinesKeyedStore L := by
  intro s hs tr t hrun
  obtain ⟨hkeeps, hspec⟩ := hs.keeps.run hrun
  refine ⟨hkeeps.tableSound, hspec, fun a hrunnable hshm => hkeeps.returns hrunnable (hshm 0), ?_⟩
  intro ev u hstep
  exact hkeeps.callSound hstep.1.1 hstep.2

end Xv6.Vm
