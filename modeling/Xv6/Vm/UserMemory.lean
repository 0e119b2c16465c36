import Xv6.Vm.Estate

/-!
# User memory as an array of bytes

What a process is to see of its memory is a size, flags for each page and a byte for each address; pages that are not
there yet are full of zeros.  The functions of `kernel/vm.c` do to that array what they are for, and it does not
matter to them which of its pages are there.  `copyinstr` is the exception.
-/

namespace Xv6.Vm

open Function Hoare List Memory PageMap

def heapFlags : Nat := PTE_W ||| PTE_U ||| PTE_R ||| PTE_V

structure UserMem where
  sz : Nat
  flags : Nat → Nat
  byte : Nat → UInt8

namespace UserMem

/-- The kernel may look at the page of `va`. -/
def User (A : UserMem) (va : Nat) : Prop := va / PGSIZE < pagesOf A.sz ∧ A.flags (va / PGSIZE) &&& PTE_U ≠ 0

instance (A : UserMem) (va : Nat) : Decidable (A.User va) := inferInstanceAs (Decidable (_ ∧ _))

/-- The page of `va` has one of the flags as well. -/
def Allows (A : UserMem) (flag va : Nat) : Prop := A.User va ∧ A.flags (va / PGSIZE) &&& flag ≠ 0

instance (A : UserMem) (flag va : Nat) : Decidable (A.Allows flag va) := inferInstanceAs (Decidable (_ ∧ _))

def write (A : UserMem) (va : Nat) (b : UInt8) : UserMem := { A with byte := update A.byte va b }

/-- The bytes from `va` on, as far as all of them are there. -/
def fetch (A : UserMem) : Nat → Nat → Option (List UInt8)
  | _, 0 => some []
  | va, n + 1 => if A.User va then (A.fetch (va + 1) n).map (A.byte va :: ·) else none

/-- The bytes from `va` on before the first null byte, if there is one among the first `n`. -/
def string (A : UserMem) : Nat → Nat → Option (List UInt8)
  | _, 0 => none
  | va, n + 1 =>
    if A.User va then
      if A.byte va = 0 then some [] else (A.string (va + 1) n).map (A.byte va :: ·)
    else none

/-- The bytes that come before a page that cannot be written are stored all the same. -/
def deposit (A : UserMem) : Nat → List UInt8 → UserMem × Int
  | _, [] => (A, 0)
  | va, b :: l => if A.Allows PTE_W va then (A.write va b).deposit (va + 1) l else (A, -1)

def fresh (A : UserMem) (lo hi : Nat) : UserMem where
  sz := A.sz
  flags v := if lo ≤ v ∧ v < hi then heapFlags else A.flags v
  byte a := if lo ≤ a / PGSIZE ∧ a / PGSIZE < hi then 0 else A.byte a

/-- `sbrk`, which fails only where it would reach the trapframe. -/
def sbrk (A : UserMem) (n : Int) : UserMem × Int :=
  if 0 ≤ n then
    if TRAPFRAME < A.sz + n then (A, -1)
    else ({ A.fresh (pagesOf A.sz) (pagesOf (A.sz + n).toNat) with sz := (A.sz + n).toNat }, A.sz)
  else if 0 ≤ A.sz + n then ({ A with sz := (A.sz + n).toNat }, A.sz)
  else (A, A.sz)

end UserMem

variable {L : Layout} {k k' : Kmem L} {root n v w pa f va : Nat} {A : UserMem}

/-! ## What a table presents -/

/-- A table with at most `n` user pages, each of which it alone uses. -/
structure Sound (k : Kmem L) (root n : Nat) : Prop where
  apart : Apart k 2 root
  page : ∀ {v pa f}, v < trapframeNo → lookup k root v = some (pa, f) →
    L.IsPage pa ∧ k.free pa + pages k.mem 2 root pa = 0
  once : ∀ {v w pa f f'}, v < trapframeNo → w < trapframeNo → lookup k root v = some (pa, f) →
    lookup k root w = some (pa, f') → v = w
  above : ∀ {v}, n ≤ v → v < trapframeNo → lookup k root v = none
  top : ∀ {v pa f}, trapframeNo ≤ v → lookup k root v = some (pa, f) → f &&& PTE_U = 0
  le : n ≤ trapframeNo

/-- The first `n` pages are those of the array. -/
structure Shows (k : Kmem L) (root n : Nat) (A : UserMem) : Prop where
  there : ∀ {v pa f}, v < n → lookup k root v = some (pa, f) →
    A.flags v = f ∧ ∀ off < PGSIZE, k.mem (pa + off) = A.byte (v * PGSIZE + off)
  missing : ∀ {v}, v < n → lookup k root v = none →
    A.flags v = heapFlags ∧ ∀ off < PGSIZE, A.byte (v * PGSIZE + off) = 0

theorem Sound.mono {n' : Nat} (h : Sound k root n) (hle : n ≤ n') (hmax : n' ≤ trapframeNo) : Sound k root n' :=
  ⟨h.apart, h.page, h.once, fun hv => h.above (Nat.le_trans hle hv), h.top, hmax⟩

theorem Sound.owns (h : Sound k root n) : Owns k root := by
  refine ⟨h.apart.wf, fun x => ?_, fun hv hlook => (h.page hv hlook).1⟩
  have honce := h.apart.once x
  by_cases hnone : users (lookup k root) x = 0
  · unfold estate
    omega
  obtain ⟨v, f, hv, hlook⟩ := exists_of_users_ne_zero hnone
  have hzero := (h.page hv hlook).2
  have hle : users (lookup k root) x ≤ 1 := users_le_one h.once
  unfold estate
  omega

theorem Owns.sound (h : Owns k root) (habove : ∀ {v}, n ≤ v → v < trapframeNo → lookup k root v = none)
    (htop : ∀ {v pa f}, trapframeNo ≤ v → lookup k root v = some (pa, f) → f &&& PTE_U = 0)
    (hle : n ≤ trapframeNo) : Sound k root n :=
  ⟨h.apart, fun hv hlook => ⟨h.page hv hlook, h.user hv hlook⟩, h.inj, habove, htop, hle⟩

/-! ## A new page -/

theorem mappages_enough (pa perm : Nat) (h : Apart k 2 root) (hva : va < MAXVA) (halign : va % PGSIZE = 0)
    (hnone : lookup k root (va / PGSIZE) = none) (hlen : 2 ≤ k.freelist.length) :
    ∃ k', mappages root va PGSIZE pa perm k = .ok (0, k') ∧ k.freelist.length ≤ k'.freelist.length + 2 := by
  obtain ⟨a, k₁, hwalk⟩ : ∃ a k₁, walk root va true k = .ok (a, k₁) := walk_returns hva true
  have hlevel : walkLevel va true 2 root k = .ok (a, k₁) := by
    rw [walk, if_neg (Nat.not_le_of_lt hva)] at hwalk
    exact hwalk
  obtain ⟨ha, hle⟩ := walkLevel_enough h hlen hlevel
  obtain ⟨hgrown, hslot⟩ := walkLevel_alloc h hlevel
  have hempty : ¬ Valid (load k₁.mem a 8) := by
    rw [load_slot (hslot.resolve_left ha), hgrown.leaf, ← decode_eq_none, ← lookup_eq h.wf (div_lt_NPAGES hva)]
    exact hnone
  refine ⟨k₁.write (put k₁.mem a 8 (PA2PTE pa ||| perm ||| PTE_V)), ?_, hle⟩
  unfold mappages
  rw [if_neg (not_not.mpr halign), if_neg (by decide), if_neg (by decide), Nat.div_self (by decide), mappagesLoop,
    bind_of_ok hwalk, if_neg ha]
  show (if Valid (load k₁.mem a 8) then throw .mappagesRemap else _ : Kernel L Int) k₁ = _
  rw [if_neg hempty]
  rfl

/-- Page `v` has been mapped to a page full of zeros, and the other pages are as they were. -/
structure MappedFresh (k k' : Kmem L) (root n v c perm : Nat) : Prop where
  sound : Sound k' root n
  entries : lookup k' root = update (lookup k root) v (some (c, perm ||| PTE_V))
  zero : ∀ off < PGSIZE, k'.mem (c + off) = 0
  frame : ∀ {w pa f}, w < trapframeNo → lookup k root w = some (pa, f) → Agree k.mem k'.mem pa PGSIZE
  cost : k.freelist.length ≤ k'.freelist.length + 3

theorem Sound.mappedFresh {k₂ k₃ : Kmem L} {c perm : Nat} (h : Sound k root n) (hv : v < n)
    (ht : Taken k k₂ c) (hzero : ∀ off < PGSIZE, k₂.mem (c + off) = 0) (hm : Mapped k k₂ k₃ root v c perm)
    (hlen : k₂.freelist.length ≤ k₃.freelist.length + 2) : MappedFresh k k₃ root n v c perm := by
  refine ⟨hm.owns.sound (fun {w} hnw hw => ?_) (fun {w pa f} hw hl => ?_) h.le, hm.entries, fun off hoff => ?_,
    hm.spares, ?_⟩
  · rw [hm.entries, update_of_ne (by omega)]
    exact h.above hnw hw
  · have hle := h.le
    rw [hm.entries, update_of_ne (by omega)] at hl
    exact h.top hw hl
  · rw [hm.content (c + off) (Nat.le_add_right _ _) (by omega)]
    exact hzero off hoff
  · rw [ht.freelist, length_cons]
    omega

theorem MappedFresh.shows {c perm : Nat} (hm : MappedFresh k k' root n v c perm) (h : Shows k root n A) (hv : v < n)
    (hn : n ≤ trapframeNo) (hnone : lookup k root v = none) (hperm : perm ||| PTE_V = heapFlags) : Shows k' root n A := by
  refine ⟨fun {w pa f} hw hlook => ?_, fun {w} hw hlook => ?_⟩
  · rw [hm.entries] at hlook
    by_cases heq : w = v
    · rw [heq, update_self] at hlook
      cases hlook
      obtain ⟨hflags, hzero⟩ := h.missing hv hnone
      rw [heq, hperm]
      exact ⟨hflags, fun off hoff => by rw [hm.zero off hoff, hzero off hoff]⟩
    rw [update_of_ne heq] at hlook
    obtain ⟨hflags, hbytes⟩ := h.there hw hlook
    refine ⟨hflags, fun off hoff => ?_⟩
    rw [hm.frame (Nat.lt_of_lt_of_le hw hn) hlook (pa + off) (Nat.le_add_right _ _) (by omega)]
    exact hbytes off hoff
  rw [hm.entries] at hlook
  by_cases heq : w = v
  · rw [heq, update_self] at hlook
    cases hlook
  · rw [update_of_ne heq] at hlook
    exact h.missing hw hlook

theorem Sound.map_fresh {perm : Nat} (h : Sound k root n) (hv : v < n) (hnone : lookup k root v = none)
    (hlen : 3 ≤ k.freelist.length) (hperm : perm < 2 ^ 10) :
    ∃ c k₁ k₂ k₃, kalloc k = .ok (c, k₁) ∧ c ≠ 0 ∧ memset c 0 PGSIZE k₁ = .ok ((), k₂) ∧
      mappages root (v * PGSIZE) PGSIZE c perm k₂ = .ok (0, k₃) ∧ MappedFresh k k₃ root n v c perm := by
  have hdiv := mul_PGSIZE_div v
  have hvn : v < NPAGES := Nat.lt_trans (Nat.lt_of_lt_of_le hv h.le) trapframeNo_lt
  rcases kalloc_clear k with hnull | ⟨c, k₁, k₂, halloc, hc, hset, ht, hzero⟩
  · rw [kalloc_null hnull] at hlen
    cases hlen
  have hnone₂ : lookup k₂ root (v * PGSIZE / PGSIZE) = none := by
    rw [hdiv, lookup_congr h.apart.wf (ht.sameTable h.apart)]
    exact hnone
  have hlen₂ : 2 ≤ k₂.freelist.length := by
    rw [ht.freelist, length_cons] at hlen
    omega
  obtain ⟨k₃, hmap, hcost⟩ := mappages_enough c perm (ht.apart h.apart) (mul_lt_MAXVA hvn)
    (Nat.mul_mod_left v PGSIZE) hnone₂ hlen₂
  obtain ⟨r, k', hrun, hcases⟩ := h.owns.tryMap (Nat.lt_of_lt_of_le hv h.le) hnone ht hperm
  rw [hmap] at hrun
  cases hrun
  have hm := hcases.resolve_right fun hbad => hbad.1 rfl
  exact ⟨c, k₁, k₂, k₃, halloc, hc, hset, hmap, h.mappedFresh hv ht hzero hm.2 hcost⟩

/-! ## Page faults -/

variable {q : Space}

/-- The memory of a process is the array. -/
structure Presents (k : Kmem L) (q : Space) (A : UserMem) : Prop where
  size : A.sz = q.sz
  le : q.sz ≤ TRAPFRAME
  sound : Sound k q.pagetable (pagesOf q.sz)
  shows : Shows k q.pagetable (pagesOf q.sz) A

theorem vmfault_refuses (h : q.sz ≤ va) : vmfault q root va k = .ok (0, k) := by
  unfold vmfault
  rw [if_pos h]
  rfl

theorem PGROUNDDOWN_div (va : Nat) : PGROUNDDOWN va / PGSIZE = va / PGSIZE := mul_PGSIZE_div _

theorem PGROUNDDOWN_le (va : Nat) : PGROUNDDOWN va ≤ va := Nat.div_mul_le_self va PGSIZE

theorem lt_MAXVA_of_lt {sz : Nat} (hsz : sz ≤ TRAPFRAME) (h : va < sz) : va < MAXVA := by
  unfold TRAPFRAME TRAMPOLINE at hsz
  omega

theorem vmfault_mapped (hwf : WellFormed L k.mem 2 q.pagetable) (hsz : q.sz ≤ TRAPFRAME)
    (hsome : lookup k q.pagetable (va / PGSIZE) ≠ none) : vmfault q q.pagetable va k = .ok (0, k) := by
  by_cases hva : q.sz ≤ va
  · exact vmfault_refuses hva
  have hmax := lt_MAXVA_of_lt hsz (Nat.lt_of_not_le hva)
  have hdown : PGROUNDDOWN va < MAXVA := Nat.lt_of_le_of_lt (PGROUNDDOWN_le va) hmax
  unfold vmfault
  rw [if_neg hva, bind_of_ok (ismapped_eq hwf hdown), PGROUNDDOWN_div, Option.isSome_iff_ne_none.mpr hsome]
  rfl

theorem Presents.vmfault_fresh (h : Presents k q A) (hva : va < q.sz)
    (hnone : lookup k q.pagetable (va / PGSIZE) = none) (hlen : 3 ≤ k.freelist.length) :
    ∃ c k', vmfault q q.pagetable va k = .ok (c, k') ∧ c ≠ 0 ∧ Presents k' q A ∧
      lookup k' q.pagetable (va / PGSIZE) = some (c, heapFlags) ∧ k.freelist.length ≤ k'.freelist.length + 3 := by
  have hv : va / PGSIZE < pagesOf q.sz := div_lt_pagesOf hva
  have hmax := lt_MAXVA_of_lt h.le hva
  have hdown : PGROUNDDOWN va < MAXVA := Nat.lt_of_le_of_lt (PGROUNDDOWN_le va) hmax
  obtain ⟨c, k₁, k₂, k₃, halloc, hc, hset, hmap, hm⟩ := h.sound.map_fresh hv hnone hlen
    (show PTE_W ||| PTE_U ||| PTE_R < 2 ^ 10 by decide)
  refine ⟨c, k₃, ?_, hc, ⟨h.size, h.le, hm.sound, hm.shows h.shows hv h.sound.le hnone rfl⟩, ?_, hm.cost⟩
  · unfold vmfault
    rw [if_neg (Nat.not_le_of_lt hva), bind_of_ok (ismapped_eq h.sound.apart.wf hdown), PGROUNDDOWN_div, hnone]
    show (kalloc >>= _) k = _
    have hmap : mappages q.pagetable (PGROUNDDOWN va) PGSIZE c (PTE_W ||| PTE_U ||| PTE_R) k₂ = .ok (0, k₃) := hmap
    rw [bind_of_ok halloc, if_neg hc, bind_of_ok hset, bind_of_ok hmap]
    rfl
  · rw [hm.entries, update_self]
    rfl

theorem le_of_pagesOf_le {sz : Nat} (h : pagesOf sz ≤ va / PGSIZE) : sz ≤ PGROUNDDOWN va := by
  unfold pagesOf PGROUNDDOWN PGSIZE at *
  omega

theorem heapFlags_user : heapFlags &&& PTE_U ≠ 0 := by decide

theorem Presents.translate_none (h : Presents k q A) (hu : ¬ A.User va) : (lookup k q.pagetable).translate va = 0 ∧
      (va / PGSIZE < pagesOf q.sz → lookup k q.pagetable (va / PGSIZE) ≠ none) := by
  by_cases hv : va / PGSIZE < pagesOf q.sz
  · have hflags : A.flags (va / PGSIZE) &&& PTE_U = 0 := by
      by_contra hne
      exact hu ⟨by rw [h.size]; exact hv, hne⟩
    cases hlook : lookup k q.pagetable (va / PGSIZE) with
    | none =>
      rw [(h.shows.missing hv hlook).1] at hflags
      exact absurd hflags heapFlags_user
    | some =>
      refine ⟨?_, fun _ hnone => by cases hnone⟩
      rw [(h.shows.there hv hlook).1] at hflags
      exact translate_of_kernel hlook hflags
  refine ⟨?_, fun hlt => absurd hlt hv⟩
  cases hlook : lookup k q.pagetable (va / PGSIZE) with
  | none => exact translate_of_none hlook
  | some =>
    have htop : trapframeNo ≤ va / PGSIZE := by
      by_contra hlt
      rw [h.sound.above (Nat.le_of_not_lt hv) (Nat.lt_of_not_le hlt)] at hlook
      cases hlook
    exact translate_of_kernel hlook (h.sound.top htop hlook)

theorem Presents.translate_there (h : Presents k q A) (hu : A.User va)
    (hlook : lookup k q.pagetable (va / PGSIZE) = some (pa, f)) :
    (lookup k q.pagetable).translate va = pa ∧ pa ≠ 0 ∧ f = A.flags (va / PGSIZE) := by
  have hv : va / PGSIZE < pagesOf q.sz := h.size ▸ hu.1
  have hlt := Nat.lt_of_lt_of_le hv (pagesOf_le_trapframeNo h.le)
  have hflags := (h.shows.there hv hlook).1
  exact ⟨translate_of_lookup hlook (hflags ▸ hu.2), (h.sound.page hlt hlook).1.ne_zero, hflags.symm⟩

theorem Presents.userPage_user (h : Presents k q A) (hu : A.User va) (hlen : 3 ≤ k.freelist.length) :
    ∃ c k', userPage q q.pagetable (PGROUNDDOWN va) k = .ok (c, k') ∧ c ≠ 0 ∧ Presents k' q A ∧
      lookup k' q.pagetable (va / PGSIZE) = some (c, A.flags (va / PGSIZE)) ∧
      k.freelist.length ≤ k'.freelist.length + 3 := by
  have hv : va / PGSIZE < pagesOf q.sz := h.size ▸ hu.1
  have hdown : A.User (PGROUNDDOWN va) := by
    unfold UserMem.User
    rw [PGROUNDDOWN_div]
    exact hu
  unfold userPage
  rw [bind_of_ok (walkaddr_eq h.sound.apart.wf)]
  cases hlook : lookup k q.pagetable (va / PGSIZE) with
  | some e =>
    rw [← PGROUNDDOWN_div] at hlook
    obtain ⟨haddr, hne, hflags⟩ := h.translate_there hdown hlook
    refine ⟨e.1, k, ?_, hne, h, ?_, Nat.le_add_right _ _⟩
    · rw [haddr, if_neg hne]
      rfl
    · rw [PGROUNDDOWN_div] at hlook hflags
      rw [hlook, ← hflags]
  | none =>
    have hnull : (lookup k q.pagetable).translate (PGROUNDDOWN va) = 0 :=
      translate_of_none (by rw [PGROUNDDOWN_div]; exact hlook)
    have hlt : PGROUNDDOWN va < q.sz := by
      unfold pagesOf at hv
      unfold PGROUNDDOWN PGSIZE at *
      omega
    obtain ⟨c, k', hfault, hc, hk', hnew, hcost⟩ := h.vmfault_fresh hlt (by rw [PGROUNDDOWN_div]; exact hlook) hlen
    refine ⟨c, k', ?_, hc, hk', ?_, hcost⟩
    · rw [hnull, if_pos rfl]
      exact hfault
    · rw [PGROUNDDOWN_div] at hnew
      rw [hnew, (h.shows.missing hv hlook).1]

theorem Presents.userPage_none (h : Presents k q A) (hu : ¬ A.User va) :
    userPage q q.pagetable (PGROUNDDOWN va) k = .ok (0, k) := by
  have hdown : ¬ A.User (PGROUNDDOWN va) := by
    unfold UserMem.User
    rw [PGROUNDDOWN_div]
    exact hu
  obtain ⟨hnull, hmapped⟩ := h.translate_none hdown
  unfold userPage
  rw [bind_of_ok (walkaddr_eq h.sound.apart.wf), hnull, if_pos rfl]
  by_cases hv : PGROUNDDOWN va / PGSIZE < pagesOf q.sz
  · exact vmfault_mapped h.sound.apart.wf h.le (hmapped hv)
  · rw [PGROUNDDOWN_div] at hv
    exact vmfault_refuses (le_of_pagesOf_le (Nat.le_of_not_lt hv))

/-! ## Copying between the kernel and the user -/

namespace UserMem

variable {c m : Nat}

theorem div_add (h : c < PGSIZE - va % PGSIZE) : (va + c) / PGSIZE = va / PGSIZE := by
  unfold PGSIZE at *
  omega

theorem user_add (h : c < PGSIZE - va % PGSIZE) : A.User (va + c) ↔ A.User va := by
  unfold User
  rw [div_add h]

def chunk (A : UserMem) (va c : Nat) : List UInt8 := (List.range c).map fun i => A.byte (va + i)

theorem chunk_succ (A : UserMem) (va c : Nat) : A.chunk va (c + 1) = A.byte va :: A.chunk (va + 1) c := by
  unfold chunk
  rw [range_succ_eq_map, map_cons, map_map, Nat.add_zero]
  congr 1
  apply map_congr_left
  intro i _
  show A.byte (va + (i + 1)) = A.byte (va + 1 + i)
  rw [Nat.add_assoc, Nat.add_comm 1 i]

theorem room_succ (h : c + 1 ≤ PGSIZE - va % PGSIZE) (hc : 0 < c) : c ≤ PGSIZE - (va + 1) % PGSIZE := by
  unfold PGSIZE at *
  omega

theorem fetch_chunk (hu : A.User va) (hc : c ≤ PGSIZE - va % PGSIZE) :
    A.fetch va (c + m) = (A.fetch (va + c) m).map (A.chunk va c ++ ·) := by
  induction c generalizing va with
  | zero =>
    have hid : (fun x : List UInt8 => A.chunk va 0 ++ x) = id := rfl
    rw [Nat.zero_add, Nat.add_zero, hid, Option.map_id, id]
  | succ c ih =>
    rw [Nat.succ_add, fetch, if_pos hu, chunk_succ]
    rcases Nat.eq_zero_or_pos c with rfl | hpos
    · rw [Nat.zero_add]
      rfl
    · have hnext : A.User (va + 1) := (user_add (by omega)).mpr hu
      rw [ih hnext (room_succ hc hpos), Option.map_map, Nat.add_assoc, Nat.add_comm 1 c]
      rfl

theorem string_chunk (hu : A.User va) (hc : c ≤ PGSIZE - va % PGSIZE) :
    A.string va (c + m) = if 0 ∈ A.chunk va c then some ((A.chunk va c).takeWhile (· ≠ 0))
      else (A.string (va + c) m).map (A.chunk va c ++ ·) := by
  induction c generalizing va with
  | zero =>
    have hid : (fun x : List UInt8 => A.chunk va 0 ++ x) = id := rfl
    rw [Nat.zero_add, Nat.add_zero, hid, Option.map_id, id, if_neg (by simp [chunk])]
  | succ c ih =>
    rw [Nat.succ_add, string, if_pos hu, chunk_succ]
    by_cases hzero : A.byte va = 0
    · rw [if_pos hzero, hzero]
      simp
    rw [if_neg hzero]
    have hrest : A.string (va + 1) (c + m) = if 0 ∈ A.chunk (va + 1) c then
        some ((A.chunk (va + 1) c).takeWhile (· ≠ 0))
        else (A.string (va + 1 + c) m).map (A.chunk (va + 1) c ++ ·) := by
      rcases Nat.eq_zero_or_pos c with rfl | hpos
      · have hid : (fun x : List UInt8 => A.chunk (va + 1) 0 ++ x) = id := rfl
        rw [Nat.zero_add, Nat.add_zero, hid, Option.map_id, id, if_neg (by simp [chunk])]
      · exact ih ((user_add (by omega)).mpr hu) (room_succ hc hpos)
    rw [hrest]
    have hne : (0 : UInt8) ≠ A.byte va := fun h => hzero h.symm
    by_cases hmem : 0 ∈ A.chunk (va + 1) c
    · simp [hmem, hzero]
    · rw [if_neg hmem, if_neg (by simp [hmem, hne]), Option.map_map, Nat.add_assoc, Nat.add_comm 1 c]
      rfl

theorem allows_add {flag : Nat} (h : c < PGSIZE - va % PGSIZE) : A.Allows flag (va + c) ↔ A.Allows flag va := by
  unfold Allows
  rw [user_add h, div_add h]

def storeAll (A : UserMem) (va : Nat) (l : List UInt8) : UserMem := { A with byte := store A.byte va l }

theorem deposit_chunk (l l' : List UInt8) (hw : A.Allows PTE_W va) (hc : l.length ≤ PGSIZE - va % PGSIZE) :
    A.deposit va (l ++ l') = (A.storeAll va l).deposit (va + l.length) l' := by
  induction l generalizing va A with
  | nil =>
    rw [storeAll, store_nil]
    rfl
  | cons b l ih =>
    rw [cons_append, deposit, if_pos hw]
    rw [length_cons] at hc ⊢
    have hstore : A.storeAll va (b :: l) = (A.write va b).storeAll (va + 1) l := by
      unfold storeAll write
      rw [store_cons]
    rw [hstore, Nat.add_comm l.length 1, ← Nat.add_assoc]
    rcases Nat.eq_zero_or_pos l.length with hzero | hpos
    · rw [length_eq_zero_iff.mp hzero, storeAll, store_nil]
      rfl
    · have hnext : A.Allows PTE_W (va + 1) := (allows_add (by omega)).mpr hw
      exact ih hnext (room_succ hc hpos)

end UserMem

theorem Presents.store {l : List UInt8} {off : Nat} (h : Presents k q A) (hv : v < pagesOf q.sz)
    (hlook : lookup k q.pagetable v = some (pa, f)) (hoff : off + l.length ≤ PGSIZE) :
    Presents (k.write (store k.mem (pa + off) l)) q (A.storeAll (v * PGSIZE + off) l) := by
  have hvt := Nat.lt_of_lt_of_le hv (pagesOf_le_trapframeNo h.le)
  have hp := h.sound.owns.store hvt hlook hoff
  refine ⟨h.size, h.le, hp.owns.sound (fun {w} hnw hw => ?_) (fun {w pa' f'} hw hl => ?_) h.sound.le,
    fun {w pa' f'} hw hl => ?_, fun {w} hw hl => ?_⟩
  · rw [hp.entries]
    exact h.sound.above hnw hw
  · rw [hp.entries] at hl
    exact h.sound.top hw hl
  · rw [hp.entries] at hl
    obtain ⟨hflags, hbytes⟩ := h.shows.there hw hl
    refine ⟨hflags, fun o ho => ?_⟩
    have hwt := Nat.lt_of_lt_of_le hw (pagesOf_le_trapframeNo h.le)
    show Memory.store k.mem (pa + off) l (pa' + o) = Memory.store A.byte (v * PGSIZE + off) l (w * PGSIZE + o)
    by_cases heq : w = v
    · -- The offsets in the page are those in the array.
      rw [heq] at hl ⊢
      rw [hlook] at hl
      cases hl
      have hbyte := hbytes o ho
      rw [heq] at hbyte
      unfold Memory.store
      have hsub : pa + o - (pa + off) = v * PGSIZE + o - (v * PGSIZE + off) := by omega
      by_cases hin : off ≤ o ∧ o < off + l.length
      · rw [if_pos (by omega), if_pos (by omega), hsub]
      · rw [if_neg (by omega), if_neg (by omega)]
        exact hbyte
    have hne : pa' ≠ pa := by
      rintro rfl
      exact heq (h.sound.once hwt hvt hl hlook)
    have hother := hp.others pa' (h.sound.page hwt hl).1.1 hne
    rw [Kmem.write_mem] at hother
    rw [hother (pa' + o) (Nat.le_add_right _ _) (by omega)]
    have hout : ¬ (v * PGSIZE + off ≤ w * PGSIZE + o ∧ w * PGSIZE + o < v * PGSIZE + off + l.length) := by
      unfold PGSIZE at *
      omega
    unfold Memory.store
    rw [if_neg hout]
    exact hbytes o ho
  rw [hp.entries] at hl
  obtain ⟨hflags, hbytes⟩ := h.shows.missing hw hl
  refine ⟨hflags, fun o ho => ?_⟩
  have hne : w ≠ v := by
    rintro rfl
    rw [hlook] at hl
    cases hl
  have hout : ¬ (v * PGSIZE + off ≤ w * PGSIZE + o ∧ w * PGSIZE + o < v * PGSIZE + off + l.length) := by
    unfold PGSIZE at *
    omega
  show Memory.store A.byte (v * PGSIZE + off) l (w * PGSIZE + o) = 0
  unfold Memory.store
  rw [if_neg hout]
  exact hbytes o ho

/-- Where a round of the copy loops stands. -/
structure Round (va len n : Nat) : Prop where
  room : n ≤ PGSIZE - va % PGSIZE
  le : n ≤ len
  next : n = len ∨ PGROUNDDOWN va + PGSIZE = va + n

theorem sub_PGROUNDDOWN (va : Nat) : va - PGROUNDDOWN va = va % PGSIZE := by
  unfold PGROUNDDOWN PGSIZE
  omega

theorem round_min (va len : Nat) : Round va len (min (PGSIZE - (va - PGROUNDDOWN va)) len) := by
  rw [sub_PGROUNDDOWN]
  refine ⟨Nat.min_le_left _ _, Nat.min_le_right _ _, ?_⟩
  unfold PGROUNDDOWN PGSIZE
  omega

variable {src : List UInt8} {len : Nat}

theorem round_pos (hlen : len ≠ 0) : 0 < min (PGSIZE - (va - PGROUNDDOWN va)) len := by
  unfold PGROUNDDOWN PGSIZE
  omega

/-- How many pages of the user a copy of `len` bytes reaches. -/
def copyPages (sz va len : Nat) : Nat := min (pagesOf (va % PGSIZE + len)) (pagesOf sz - va / PGSIZE)

theorem copyPages_pos {sz len : Nat} (hlen : len ≠ 0) (hv : va / PGSIZE < pagesOf sz) : 1 ≤ copyPages sz va len := by
  have hpos : 1 ≤ pagesOf (va % PGSIZE + len) := by
    unfold pagesOf PGSIZE
    omega
  unfold copyPages
  omega

theorem Round.copyPages {sz len m : Nat} (h : Round va len m) (hv : va / PGSIZE < pagesOf sz)
    (hnext : PGROUNDDOWN va + PGSIZE = va + m) :
    copyPages sz (PGROUNDDOWN va + PGSIZE) (len - m) + 1 ≤ copyPages sz va len := by
  have hle := h.le
  have hroom := h.room
  have hpage : (PGROUNDDOWN va + PGSIZE) / PGSIZE = va / PGSIZE + 1 := by
    unfold PGROUNDDOWN PGSIZE
    omega
  have hrest : pagesOf ((PGROUNDDOWN va + PGSIZE) % PGSIZE + (len - m)) + 1 ≤ pagesOf (va % PGSIZE + len) := by
    unfold pagesOf PGROUNDDOWN PGSIZE at *
    omega
  have hleft : pagesOf sz - (PGROUNDDOWN va + PGSIZE) / PGSIZE + 1 ≤ pagesOf sz - va / PGSIZE := by
    rw [hpage]
    omega
  show min _ _ + 1 ≤ min _ _
  rw [← Nat.add_min_add_right]
  exact min_le_min hrest hleft

theorem Presents.bytes_eq {c m : Nat} (h : Presents k q A) (hv : va / PGSIZE < pagesOf q.sz)
    (hlook : lookup k q.pagetable (va / PGSIZE) = some (c, f)) (hm : m ≤ PGSIZE - va % PGSIZE) :
    bytes k.mem (c + va % PGSIZE) m = A.chunk va m := by
  have hbytes := (h.shows.there hv hlook).2
  unfold bytes UserMem.chunk
  apply map_congr_left
  intro i hi
  have hi := mem_range.mp hi
  rw [Nat.add_assoc, hbytes (va % PGSIZE + i) (by omega)]
  have haddr : va / PGSIZE * PGSIZE + (va % PGSIZE + i) = va + i := by
    unfold PGSIZE
    omega
  rw [haddr]

theorem copyinLoop_zero (fuel : Nat) : copyinLoop q root fuel va 0 k = .ok (some [], k) := by
  cases fuel with
  | zero => rfl
  | succ =>
    unfold copyinLoop
    rw [if_pos rfl]
    rfl

theorem copyinLoop_stop (fuel : Nat) (hlen : len ≠ 0)
    (hpage : userPage q root (PGROUNDDOWN va) k = .ok (0, k')) :
    copyinLoop q root (fuel + 1) va len k = .ok (none, k') := by
  unfold copyinLoop
  rw [if_neg hlen, bind_of_ok hpage, if_pos rfl]
  rfl

theorem copyinLoop_round (fuel : Nat) {len c : Nat} (hlen : len ≠ 0)
    (hpage : userPage q root (PGROUNDDOWN va) k = .ok (c, k')) (hc : c ≠ 0) :
    ∃ m, Round va len m ∧ 0 < m ∧ copyinLoop q root (fuel + 1) va len k =
      (copyinLoop q root fuel ((PGROUNDDOWN va + PGSIZE) % 2 ^ 64) (len - m) >>= fun rest =>
        pure (rest.map (bytes k'.mem (c + va % PGSIZE) m ++ ·)) : Kernel L _) k' := by
  refine ⟨_, round_min va len, round_pos hlen, ?_⟩
  rw [copyinLoop, if_neg hlen, bind_of_ok hpage, if_neg hc, sub_PGROUNDDOWN]
  rfl

theorem page_mod {sz : Nat} (hsz : sz ≤ TRAPFRAME) (hv : va / PGSIZE < pagesOf sz) :
    (PGROUNDDOWN va + PGSIZE) % 2 ^ 64 = PGROUNDDOWN va + PGSIZE := by
  apply Nat.mod_eq_of_lt
  have hlt := Nat.lt_of_lt_of_le hv (pagesOf_le_trapframeNo hsz)
  unfold trapframeNo TRAPFRAME TRAMPOLINE MAXVA at hlt
  unfold PGROUNDDOWN PGSIZE at *
  omega

theorem Presents.copyinLoop {fuel len : Nat} (h : Presents k q A) (hfuel : len ≤ fuel)
    (hpages : 3 * copyPages q.sz va len ≤ k.freelist.length) :
    ∃ k', copyinLoop q q.pagetable fuel va len k = .ok (A.fetch va len, k') ∧ Presents k' q A := by
  induction fuel generalizing va len k with
  | zero =>
    rw [Nat.le_zero.mp hfuel]
    exact ⟨k, rfl, h⟩
  | succ fuel ih =>
    by_cases hzero : len = 0
    · rw [hzero, copyinLoop_zero]
      exact ⟨k, rfl, h⟩
    by_cases hu : A.User va
    · have hv : va / PGSIZE < pagesOf q.sz := h.size ▸ hu.1
      have hpos := copyPages_pos hzero hv
      obtain ⟨c, k₁, hpage, hc, h₁, hlook, hcost⟩ := h.userPage_user hu (by omega)
      obtain ⟨m, hround, hm, hrun⟩ := copyinLoop_round fuel hzero hpage hc
      rw [hrun, h₁.bytes_eq hv hlook hround.room, page_mod h.le hv]
      have hsplit : A.fetch va len = (A.fetch (va + m) (len - m)).map (A.chunk va m ++ ·) := by
        rw [← UserMem.fetch_chunk hu hround.room, Nat.add_sub_of_le hround.le]
      rw [hsplit]
      -- The last round, or the page is finished.
      rcases hround.next with hlast | hnext
      · rw [hlast, Nat.sub_self, bind_of_ok (copyinLoop_zero fuel)]
        exact ⟨k₁, rfl, h₁⟩
      have hless := hround.copyPages hv hnext
      obtain ⟨k', hrest, h'⟩ : ∃ k', Vm.copyinLoop q q.pagetable fuel (PGROUNDDOWN va + PGSIZE) (len - m) k₁ =
          .ok (A.fetch (PGROUNDDOWN va + PGSIZE) (len - m), k') ∧ Presents k' q A :=
        ih h₁ (by omega) (by omega)
      rw [bind_of_ok hrest, hnext]
      exact ⟨k', rfl, h'⟩
    rw [copyinLoop_stop fuel hzero (h.userPage_none hu)]
    obtain ⟨len, rfl⟩ := Nat.exists_eq_succ_of_ne_zero hzero
    rw [UserMem.fetch, if_neg hu]
    exact ⟨k, rfl, h⟩

theorem Presents.copyin (h : Presents k q A) (hpages : 3 * copyPages q.sz va len ≤ k.freelist.length) :
    ∃ k', copyin q q.pagetable va len k = .ok (A.fetch va len, k') ∧ Presents k' q A :=
  h.copyinLoop (Nat.le_refl len) hpages

theorem walk_of_lookup (hwf : WellFormed L k.mem 2 root) (hva : va < MAXVA)
    (hlook : lookup k root (va / PGSIZE) = some (pa, f)) :
    ∃ a, walk root va false k = .ok (a, k) ∧ a ≠ 0 ∧ PTE_FLAGS (load k.mem a 8) = f := by
  rw [lookup_eq hwf (div_lt_NPAGES hva)] at hlook
  cases hslot : slot k.mem 2 root (va / PGSIZE) with
  | none =>
    rw [leaf_of_slot_none hslot] at hlook
    cases hlook
  | some a =>
    refine ⟨a, ?_, slot_ne_zero hwf hslot, ?_⟩
    · rw [walk_look_eq hva, hslot, Option.getD_some]
    rw [← load_slot hslot] at hlook
    unfold decode at hlook
    split at hlook
    · cases hlook
      rfl
    · cases hlook

theorem copyoutLoop_nil (fuel : Nat) : copyoutLoop q root fuel va [] k = .ok (0, k) := by
  cases fuel with
  | zero => rfl
  | succ =>
    unfold copyoutLoop
    rw [if_pos length_nil]
    rfl

theorem copyoutLoop_stop (fuel : Nat) (hsrc : src.length ≠ 0)
    (hpage : userPage q root (PGROUNDDOWN va) k = .ok (0, k')) :
    copyoutLoop q root (fuel + 1) va src k = .ok (-1, k) ∨ copyoutLoop q root (fuel + 1) va src k = .ok (-1, k') := by
  unfold copyoutLoop
  rw [if_neg hsrc]
  by_cases hmax : MAXVA ≤ PGROUNDDOWN va
  · rw [if_pos hmax]
    exact .inl rfl
  · rw [if_neg hmax, bind_of_ok hpage, if_pos rfl]
    exact .inr rfl

theorem copyoutLoop_round (fuel : Nat) {c : Nat} (hsrc : src.length ≠ 0)
    (hpage : userPage q root (PGROUNDDOWN va) k = .ok (c, k')) (hc : c ≠ 0) (hwf : WellFormed L k'.mem 2 root)
    (hlook : lookup k' root (va / PGSIZE) = some (pa, f)) :
    ∃ m, Round va src.length m ∧ 0 < m ∧ copyoutLoop q root (fuel + 1) va src k =
      if f &&& PTE_W = 0 then .ok (-1, k')
      else copyoutLoop q root fuel (va + m) (src.drop m) (k'.write (store k'.mem (c + va % PGSIZE) (src.take m))) := by
  have hmax := Nat.lt_of_le_of_lt (PGROUNDDOWN_le va) (lt_MAXVA_of_lookup hlook)
  obtain ⟨a, hwalk, ha, hflags⟩ := walk_of_lookup hwf hmax (by rw [PGROUNDDOWN_div]; exact hlook)
  have hround := round_min va src.length
  refine ⟨_, hround, round_pos hsrc, ?_⟩
  rw [copyoutLoop, if_neg hsrc, if_neg (Nat.not_le_of_lt hmax), bind_of_ok hpage, if_neg hc, bind_of_ok hwalk,
    if_neg ha]
  show (if load k'.mem a 8 &&& PTE_W = 0 then pure (-1) else memput _ _ >>= fun _ =>
    copyoutLoop q root fuel (PGROUNDDOWN va + PGSIZE) _ : Kernel L Int) k' = _
  rw [← PTE_FLAGS_and (f := PTE_W) _ (by decide), hflags]
  by_cases hw : f &&& PTE_W = 0
  · rw [if_pos hw, if_pos hw]
    rfl
  rw [if_neg hw, if_neg hw, sub_PGROUNDDOWN]
  rw [sub_PGROUNDDOWN] at hround
  rcases hround.next with hlast | hnext
  · rw [hlast, drop_length, copyoutLoop_nil]
    exact copyoutLoop_nil fuel
  · rw [← hnext]
    rfl

theorem Presents.copyoutLoop {fuel : Nat} (h : Presents k q A) (hfuel : src.length ≤ fuel)
    (hpages : 3 * copyPages q.sz va src.length ≤ k.freelist.length) :
    ∃ k', copyoutLoop q q.pagetable fuel va src k = .ok ((A.deposit va src).2, k') ∧
      Presents k' q (A.deposit va src).1 := by
  induction fuel generalizing va src k A with
  | zero =>
    rw [length_eq_zero_iff.mp (Nat.le_zero.mp hfuel)]
    exact ⟨k, rfl, h⟩
  | succ fuel ih =>
    by_cases hnil : src.length = 0
    · rw [length_eq_zero_iff.mp hnil, copyoutLoop_nil]
      exact ⟨k, rfl, h⟩
    -- What the call does where the first byte cannot be written.
    have hfail : ¬ A.Allows PTE_W va → A.deposit va src = (A, -1) := by
      intro hw
      cases src with
      | nil => exact absurd rfl hnil
      | cons => rw [UserMem.deposit, if_neg hw]
    by_cases hu : A.User va
    case neg =>
      rw [hfail fun hw => hu hw.1]
      exact ⟨k, or_self_iff.mp (copyoutLoop_stop fuel hnil (h.userPage_none hu)), h⟩
    have hv : va / PGSIZE < pagesOf q.sz := h.size ▸ hu.1
    have hpos := copyPages_pos hnil hv
    obtain ⟨c, k₁, hpage, hc, h₁, hlook, hcost⟩ := h.userPage_user hu (by omega)
    obtain ⟨m, hround, hm, hrun⟩ := copyoutLoop_round fuel hnil hpage hc h₁.sound.apart.wf hlook
    rw [hrun]
    by_cases hw : A.flags (va / PGSIZE) &&& PTE_W = 0
    · rw [if_pos hw, hfail fun hwrite => hwrite.2 hw]
      exact ⟨k₁, rfl, h₁⟩
    rw [if_neg hw]
    have htake : (src.take m).length = m := length_take_of_le hround.le
    have hdeposit : A.deposit va src = (A.storeAll va (src.take m)).deposit (va + m) (src.drop m) := by
      have hsplit := UserMem.deposit_chunk (src.take m) (src.drop m) ⟨hu, hw⟩ (by rw [htake]; exact hround.room)
      rw [take_append_drop, htake] at hsplit
      exact hsplit
    rw [hdeposit]
    have hoff : va % PGSIZE + (src.take m).length ≤ PGSIZE := by
      have hlt : va % PGSIZE < PGSIZE := Nat.mod_lt _ (by decide)
      have hroom := hround.room
      omega
    have h₂ := h₁.store hv hlook hoff
    have haddr : va / PGSIZE * PGSIZE + va % PGSIZE = va := by
      unfold PGSIZE
      omega
    rw [haddr] at h₂
    rcases hround.next with hlast | hnext
    · rw [hlast, drop_length, copyoutLoop_nil]
      rw [hlast] at h₂
      exact ⟨_, rfl, h₂⟩
    have hless := hround.copyPages hv hnext
    rw [hnext] at hless
    apply ih h₂
    · rw [length_drop]
      omega
    · rw [length_drop, Kmem.write_freelist]
      omega

theorem Presents.copyout (h : Presents k q A)
    (hpages : 3 * copyPages q.sz va src.length ≤ k.freelist.length) :
    ∃ k', copyout q q.pagetable va src k = .ok ((A.deposit va src).2, k') ∧ Presents k' q (A.deposit va src).1 :=
  h.copyoutLoop (Nat.le_refl src.length) hpages

/-! ## Strings -/

/-- The pages of the array that the string from `va` on reaches are there: one that is not comes after a null
byte. -/
def Touched (k : Kmem L) (root : Nat) (A : UserMem) (va len : Nat) : Prop :=
  ∀ a, va ≤ a → a < va + len → A.User a → lookup k root (a / PGSIZE) = none →
    ∃ b, va ≤ b ∧ b < PGROUNDDOWN a ∧ A.byte b = 0

theorem copyinstrLoop_zero (fuel : Nat) : copyinstrLoop root fuel va 0 k = .ok (none, k) := by
  cases fuel with
  | zero => rfl
  | succ =>
    unfold copyinstrLoop
    rw [if_pos rfl]
    rfl

theorem Presents.copyinstrLoop {fuel len : Nat} (h : Presents k q A) (hfuel : len ≤ fuel)
    (htouched : Touched k q.pagetable A va len) :
    copyinstrLoop q.pagetable fuel va len k = .ok (A.string va len, k) := by
  induction fuel generalizing va len with
  | zero =>
    rw [Nat.le_zero.mp hfuel]
    rfl
  | succ fuel ih =>
    unfold Vm.copyinstrLoop
    by_cases hzero : len = 0
    · rw [if_pos hzero, hzero]
      rfl
    rw [if_neg hzero, bind_of_ok (walkaddr_eq h.sound.apart.wf)]
    by_cases hu : A.User va
    case neg =>
      have hdown : ¬ A.User (PGROUNDDOWN va) := by
        unfold UserMem.User
        rw [PGROUNDDOWN_div]
        exact hu
      rw [(h.translate_none hdown).1, if_pos rfl]
      obtain ⟨len, rfl⟩ := Nat.exists_eq_succ_of_ne_zero hzero
      rw [UserMem.string, if_neg hu]
      rfl
    have hv : va / PGSIZE < pagesOf q.sz := h.size ▸ hu.1
    have hdown : A.User (PGROUNDDOWN va) := by
      unfold UserMem.User
      rw [PGROUNDDOWN_div]
      exact hu
    cases hlook : lookup k q.pagetable (va / PGSIZE) with
    | none =>
      obtain ⟨b, hle, hlt, -⟩ := htouched va (Nat.le_refl _) (by omega) hu hlook
      have hdownle := PGROUNDDOWN_le va
      omega
    | some e =>
      obtain ⟨haddr, hne, -⟩ := h.translate_there hdown (by rw [PGROUNDDOWN_div]; exact hlook)
      rw [haddr, if_neg hne]
      have hround := round_min va len
      have hm : 0 < min (PGSIZE - (va - PGROUNDDOWN va)) len := round_pos hzero
      generalize min (PGSIZE - (va - PGROUNDDOWN va)) len = m at hround hm
      show (if 0 ∈ bytes k.mem (e.1 + (va - PGROUNDDOWN va)) m then
          pure (some ((bytes k.mem (e.1 + (va - PGROUNDDOWN va)) m).takeWhile (· ≠ 0)))
        else Vm.copyinstrLoop q.pagetable fuel ((PGROUNDDOWN va + PGSIZE) % 2 ^ 64) (len - m) >>= fun rest =>
          pure (rest.map (bytes k.mem (e.1 + (va - PGROUNDDOWN va)) m ++ ·)) : Kernel L _) k = _
      rw [sub_PGROUNDDOWN, h.bytes_eq hv hlook hround.room, page_mod h.le hv]
      have hsplit : A.string va len = if 0 ∈ A.chunk va m then some ((A.chunk va m).takeWhile (· ≠ 0))
          else (A.string (va + m) (len - m)).map (A.chunk va m ++ ·) := by
        rw [← UserMem.string_chunk hu hround.room, Nat.add_sub_of_le hround.le]
      rw [hsplit]
      by_cases hnull : 0 ∈ A.chunk va m
      · rw [if_pos hnull, if_pos hnull]
        rfl
      rw [if_neg hnull, if_neg hnull]
      rcases hround.next with hlast | hnext
      · rw [hlast, Nat.sub_self, bind_of_ok (copyinstrLoop_zero fuel)]
        rfl
      have hle := hround.le
      have hrest : Vm.copyinstrLoop q.pagetable fuel (PGROUNDDOWN va + PGSIZE) (len - m) k =
          .ok (A.string (PGROUNDDOWN va + PGSIZE) (len - m), k) := by
        refine ih (by omega) fun a hlo hhi hua hnone => ?_
        obtain ⟨b, hb, hba, hbyte⟩ := htouched a (by omega) (by omega) hua hnone
        refine ⟨b, ?_, hba, hbyte⟩
        -- There is no null byte in this page.
        by_contra hlt
        apply hnull
        unfold UserMem.chunk
        exact mem_map.mpr ⟨b - va, mem_range.mpr (by omega), by rw [Nat.add_sub_of_le hb]; exact hbyte⟩
      rw [bind_of_ok hrest, hnext]
      rfl

theorem Presents.copyinstr (h : Presents k q A) (htouched : Touched k q.pagetable A va len) :
    copyinstr q.pagetable va len k = .ok (A.string va len, k) := h.copyinstrLoop (Nat.le_refl len) htouched

end Xv6.Vm
