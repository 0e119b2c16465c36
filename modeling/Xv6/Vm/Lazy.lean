import Xv6.Vm.Heap
import Xv6.Vm.Shm

/-!
# Lazy growth

A process grows and shrinks its heap, loads and stores bytes, and the kernel copies to and from its memory.  Growth
takes pages at once (`sbrk`) or when they are first used (`sbrklazy`), and each operation does to the array of bytes
what `UserMem.serve` says, so that the two ways give the same results.  Two operations do not fault pages in as the
others do: `copyinstr` uses `walkaddr` alone, and `vmfault` compares the faulting address with `p->sz`, while the last
page of the heap reaches further than that.
-/

namespace Xv6.Vm

open Hoare Memory PageMap

variable {L : Layout}

/-! ## What a process does with its memory -/

inductive Op where
  | sbrk (n : BitVec 32)
  | load (va : Nat)
  | store (va : Nat) (b : UInt8)
  | copyin (srcva len : Nat)
  | copyout (dstva : Nat) (src : List UInt8)
  | copyinstr (srcva max : Nat)

inductive Outcome where
  | status (r : Int)
  | byte (b : UInt8)
  | stored
  | bytes (l : Option (List UInt8))
  | killed
  deriving DecidableEq

def SBRK_LAZY : Int := 2

/-- An access of the user.  After a page fault the process is killed, or the instruction is executed
again. -/
def userAccess (q : Space) (flag va : Nat) : Kernel L Nat := do
  let page ← accessiblePage flag q.pagetable va
  if page ≠ 0 then pure page
  else do
    let r ← vmfault q q.pagetable va
    if r = 0 then pure 0 else accessiblePage flag q.pagetable va

def userLoad (q : Space) (va : Nat) : Kernel L Outcome := do
  let page ← userAccess q PTE_R va
  if page = 0 then pure .killed
  else do
    let k ← get
    pure (.byte (k.mem (page + va % PGSIZE)))

def userWrite (q : Space) (va : Nat) (b : UInt8) : Kernel L Outcome := do
  let page ← userAccess q PTE_W va
  if page = 0 then pure .killed
  else do
    memput (page + va % PGSIZE) [b]
    pure .stored

/-- One operation of process `p`, which grows as `t` says. -/
def serve (t : Int) (p : Fin NPROC) (op : Op) : Sys L Outcome := do
  let s ← get
  let q := (s.proc p).space
  match op with
  | .sbrk n => do
    let r ← sysSbrk p n.toInt t
    pure (.status r)
  | .load va => lift (userLoad q va)
  | .store va b => lift (userWrite q va b)
  | .copyin srcva len => do
    let l ← lift (copyin q q.pagetable srcva len)
    pure (.bytes l)
  | .copyout dstva src => do
    let r ← lift (copyout q q.pagetable dstva src)
    pure (.status r)
  | .copyinstr srcva max => do
    let l ← lift (copyinstr q.pagetable srcva max)
    pure (.bytes l)

def perform (t : Int) (p : Fin NPROC) : List Op → Sys L (List Outcome)
  | [] => pure []
  | op :: ops => do
    let r ← serve t p op
    if r = .killed then pure [r]
    else do
      let rs ← perform t p ops
      pure (r :: rs)

/-- The pages that an operation may take: those that it reaches, and two levels of the table for each. -/
def Op.cost (sz : Nat) : Op → Nat
  | .sbrk n => growthCost sz n.toInt
  | .load _ | .store _ _ => 3
  | .copyin srcva len => 3 * copyPages sz srcva len
  | .copyout dstva src => 3 * copyPages sz dstva src.length
  | .copyinstr _ _ => 0

/-- Each operation of the sequence finds enough free pages, and is as `dom` says. -/
def Supplied (dom : State L → Fin NPROC → Op → Prop) (t : Int) (p : Fin NPROC) : List Op → State L → Prop
  | [], _ => True
  | op :: ops, s => op.cost (s.proc p).sz ≤ s.kmem.freelist.length ∧ dom s p op ∧
      ∀ r s', serve t p op s = .ok (r, s') → r ≠ .killed → Supplied dom t p ops s'

/-- Lazy and eager growth cannot be told apart. -/
def LazyLikeEager (dom : State L → Fin NPROC → Op → Prop) : Prop :=
  ∀ s p ops, (∃ A, s.Presents p A) → Supplied dom SBRK_EAGER p ops s → Supplied dom SBRK_LAZY p ops s →
    ∃ rs s₁ s₂, perform SBRK_EAGER p ops s = .ok (rs, s₁) ∧ perform SBRK_LAZY p ops s = .ok (rs, s₂) ∧
      ∃ A, s₁.Presents p A ∧ s₂.Presents p A

/-- The operation does not depend on pages that are not there yet: a string does not reach one, and the user does not
access the part of the last page that lies beyond `p->sz`. -/
def AvoidsUntouched (s : State L) (p : Fin NPROC) : Op → Prop
  | .load va | .store va _ => (s.proc p).sz ≤ va → va / PGSIZE < pagesOf (s.proc p).sz →
      lookup s.kmem (s.proc p).pagetable (va / PGSIZE) ≠ none
  | .copyinstr srcva max => ∀ A, s.Presents p A → Touched s.kmem (s.proc p).pagetable A srcva max
  | .sbrk _ | .copyin _ _ | .copyout _ _ => True

/-! ## The same on the array -/

def UserMem.serve (A : UserMem) : Op → Outcome × UserMem
  | .sbrk n => (.status (A.sbrk n.toInt).2, (A.sbrk n.toInt).1)
  | .load va => (if A.Allows PTE_R va then .byte (A.byte va) else .killed, A)
  | .store va b => (if A.Allows PTE_W va then .stored else .killed, if A.Allows PTE_W va then A.write va b else A)
  | .copyin srcva len => (.bytes (A.fetch srcva len), A)
  | .copyout dstva src => (.status (A.deposit dstva src).2, (A.deposit dstva src).1)
  | .copyinstr srcva max => (.bytes (A.string srcva max), A)

def UserMem.perform (A : UserMem) : List Op → List Outcome × UserMem
  | [] => ([], A)
  | op :: ops =>
    if (A.serve op).1 = .killed then ([(A.serve op).1], (A.serve op).2)
    else ((A.serve op).1 :: ((A.serve op).2.perform ops).1, ((A.serve op).2.perform ops).2)

/-! ## Accesses of the user -/

variable {k k' : Kmem L} {q : Space} {A : UserMem} {root va flag pa f : Nat}

theorem accessiblePage_eq (hwf : WellFormed L k.mem 2 root) (hflag : 0x3FF &&& flag = flag) :
    accessiblePage flag root va k = .ok (match lookup k root (va / PGSIZE) with
      | some (_, f) => if f &&& flag = 0 then 0 else (lookup k root).translate va
      | none => 0, k) := by
  unfold accessiblePage
  by_cases hmax : MAXVA ≤ va
  · have hnull : (lookup k root).translate va = 0 := if_pos hmax
    rw [if_pos hmax, hnull]
    simp only [ite_self]
    split <;> rfl
  have hva := Nat.lt_of_not_le hmax
  rw [if_neg hmax]
  cases hlook : lookup k root (va / PGSIZE) with
  | some =>
    obtain ⟨a, hwalk, ha, hflags⟩ := walk_of_lookup hwf hva hlook
    rw [bind_of_ok hwalk, if_neg ha]
    show (if load k.mem a 8 &&& flag = 0 then pure 0 else walkaddr root va : Kernel L Nat) k = _
    rw [← PTE_FLAGS_and _ hflag, hflags]
    dsimp only
    split
    · rfl
    · exact walkaddr_eq hwf
  | none =>
    have hnull : (lookup k root).translate va = 0 := by
      unfold Map.translate
      rw [hlook]
      exact ite_self 0
    rw [bind_of_ok (walk_look_eq hva)]
    cases hslot : slot k.mem 2 root (va / PGSIZE) with
    | none => rfl
    | some a =>
      rw [Option.getD_some, if_neg (slot_ne_zero hwf hslot)]
      show (if load k.mem a 8 &&& flag = 0 then pure 0 else walkaddr root va : Kernel L Nat) k = _
      split
      · rfl
      · rw [walkaddr_eq hwf, hnull]

theorem accessiblePage_none (hwf : WellFormed L k.mem 2 root) (hflag : 0x3FF &&& flag = flag)
    (hnone : lookup k root (va / PGSIZE) = none) : accessiblePage flag root va k = .ok (0, k) := by
  rw [accessiblePage_eq hwf hflag, hnone]

/-- The flags that matter to an access: heap pages have them. -/
structure AccessFlag (flag : Nat) : Prop where
  bits : 0x3FF &&& flag = flag
  heap : heapFlags &&& flag ≠ 0

section

variable (h : Presents k q A) (hflag : AccessFlag flag)

include h hflag

theorem Presents.accessiblePage_there (ha : A.Allows flag va)
    (hlook : lookup k q.pagetable (va / PGSIZE) = some (pa, f)) :
    accessiblePage flag q.pagetable va k = .ok (pa, k) ∧ pa ≠ 0 := by
  obtain ⟨haddr, hne, hf⟩ := h.translate_there ha.1 hlook
  have hset : ¬ f &&& flag = 0 := by
    rw [hf]
    exact ha.2
  rw [accessiblePage_eq h.sound.apart.wf hflag.bits, hlook]
  dsimp only
  rw [if_neg hset, haddr]
  exact ⟨rfl, hne⟩

theorem Presents.userAccess_allowed (ha : A.Allows flag va)
    (htouched : q.sz ≤ va → va / PGSIZE < pagesOf q.sz → lookup k q.pagetable (va / PGSIZE) ≠ none)
    (hlen : 3 ≤ k.freelist.length) : ∃ c f k', userAccess q flag va k = .ok (c, k') ∧ c ≠ 0 ∧ Presents k' q A ∧
      lookup k' q.pagetable (va / PGSIZE) = some (c, f) := by
  have hv : va / PGSIZE < pagesOf q.sz := h.size ▸ ha.1.1
  unfold userAccess
  cases hlook : lookup k q.pagetable (va / PGSIZE) with
  | some e =>
    obtain ⟨hpage, hne⟩ := h.accessiblePage_there hflag ha hlook
    rw [bind_of_ok hpage, if_pos hne]
    exact ⟨e.1, e.2, k, rfl, hne, h, hlook⟩
  | none =>
    have hlt : va < q.sz := by
      by_contra hle
      exact htouched (Nat.le_of_not_lt hle) hv hlook
    obtain ⟨c, k', hfault, hc, hk', hnew, -⟩ := h.vmfault_fresh hlt hlook hlen
    obtain ⟨hpage, -⟩ := hk'.accessiblePage_there hflag ha hnew
    rw [bind_of_ok (accessiblePage_none h.sound.apart.wf hflag.bits hlook), if_neg (not_not.mpr rfl),
      bind_of_ok hfault, if_neg hc]
    exact ⟨c, heapFlags, k', hpage, hc, hk', hnew⟩

theorem Presents.userAccess_fatal (ha : ¬ A.Allows flag va) : userAccess q flag va k = .ok (0, k) := by
  have hnull : accessiblePage flag q.pagetable va k = .ok (0, k) := by
    rw [accessiblePage_eq h.sound.apart.wf hflag.bits]
    cases hlook : lookup k q.pagetable (va / PGSIZE) with
    | none => rfl
    | some e =>
      dsimp only
      by_cases hu : A.User va
      · have hv : va / PGSIZE < pagesOf q.sz := h.size ▸ hu.1
        have hclear : e.2 &&& flag = 0 := by
          by_contra hset
          rw [← (h.shows.there hv hlook).1] at hset
          exact ha ⟨hu, hset⟩
        rw [if_pos hclear]
      · rw [(h.translate_none hu).1, ite_self]
  have hfault : vmfault q q.pagetable va k = .ok (0, k) := by
    by_cases hv : va / PGSIZE < pagesOf q.sz
    · refine vmfault_mapped h.sound.apart.wf h.le fun hnone => ?_
      -- A page that is not there would be a heap page.
      have hheap := (h.shows.missing hv hnone).1
      refine ha ⟨⟨by rw [h.size]; exact hv, ?_⟩, ?_⟩
      · rw [hheap]
        exact heapFlags_user
      · rw [hheap]
        exact hflag.heap
    · exact vmfault_refuses (Nat.le_trans (le_of_pagesOf_le (Nat.le_of_not_lt hv)) (PGROUNDDOWN_le va))
  unfold userAccess
  rw [bind_of_ok hnull, if_neg (not_not.mpr rfl), bind_of_ok hfault, if_pos rfl]
  rfl

end

theorem accessFlag_R : AccessFlag PTE_R := ⟨by decide, by decide⟩

theorem accessFlag_W : AccessFlag PTE_W := ⟨by decide, by decide⟩

theorem Presents.userLoad (h : Presents k q A)
    (htouched : q.sz ≤ va → va / PGSIZE < pagesOf q.sz → lookup k q.pagetable (va / PGSIZE) ≠ none)
    (hlen : 3 ≤ k.freelist.length) :
    ∃ k', userLoad q va k = .ok (if A.Allows PTE_R va then .byte (A.byte va) else .killed, k') ∧ Presents k' q A := by
  unfold Vm.userLoad
  by_cases ha : A.Allows PTE_R va
  · obtain ⟨c, f, k', hrun, hc, hk', hlook⟩ := h.userAccess_allowed accessFlag_R ha htouched hlen
    have hv : va / PGSIZE < pagesOf q.sz := h.size ▸ ha.1.1
    have hbyte : k'.mem (c + va % PGSIZE) = A.byte va := by
      rw [(hk'.shows.there hv hlook).2 (va % PGSIZE) (Nat.mod_lt _ (by decide)), Nat.div_add_mod']
    rw [if_pos ha, bind_of_ok hrun, if_neg hc, get_bind, hbyte]
    exact ⟨k', rfl, hk'⟩
  · rw [if_neg ha, bind_of_ok (h.userAccess_fatal accessFlag_R ha), if_pos rfl]
    exact ⟨k, rfl, h⟩

theorem UserMem.storeAll_singleton (A : UserMem) (va : Nat) (b : UInt8) : A.storeAll va [b] = A.write va b := by
  unfold storeAll write
  rw [store_cons, store_nil]

theorem Presents.userWrite {b : UInt8} (h : Presents k q A)
    (htouched : q.sz ≤ va → va / PGSIZE < pagesOf q.sz → lookup k q.pagetable (va / PGSIZE) ≠ none)
    (hlen : 3 ≤ k.freelist.length) :
    ∃ k', userWrite q va b k = .ok (if A.Allows PTE_W va then .stored else .killed, k') ∧
      Presents k' q (if A.Allows PTE_W va then A.write va b else A) := by
  unfold Vm.userWrite
  by_cases ha : A.Allows PTE_W va
  · obtain ⟨c, f, k', hrun, hc, hk', hlook⟩ := h.userAccess_allowed accessFlag_W ha htouched hlen
    have hv : va / PGSIZE < pagesOf q.sz := h.size ▸ ha.1.1
    have hoff : va % PGSIZE + [b].length ≤ PGSIZE := Nat.mod_lt va (by decide)
    have hstored := hk'.store hv hlook hoff
    rw [Nat.div_add_mod', UserMem.storeAll_singleton] at hstored
    rw [if_pos ha, if_pos ha, bind_of_ok hrun, if_neg hc]
    exact ⟨_, rfl, hstored⟩
  · rw [if_neg ha, if_neg ha, bind_of_ok (h.userAccess_fatal accessFlag_W ha), if_pos rfl]
    exact ⟨k, rfl, h⟩

/-! ## The array is what the process sees -/

variable {s : State L} {p : Fin NPROC} {t : Int}

theorem serve_presents {op : Op} (h : s.Presents p A) (hcost : op.cost (s.proc p).sz ≤ s.kmem.freelist.length)
    (havoids : AvoidsUntouched s p op) :
    ∃ s', serve t p op s = .ok ((A.serve op).1, s') ∧ s'.Presents p (A.serve op).2 := by
  have hsize : A.sz = (s.proc p).sz := h.size
  unfold serve
  rw [get_bind]
  cases op with
  | sbrk n =>
    have hlt : n.toInt < 2 ^ 31 := BitVec.toInt_lt
    have hge : -2 ^ 31 ≤ n.toInt := BitVec.le_toInt n
    obtain ⟨s', hrun, hs'⟩ : ∃ s', sysSbrk p n.toInt t s = .ok ((A.sbrk n.toInt).2, s') ∧
        s'.Presents p (A.sbrk n.toInt).1 := by
      by_cases hn : 0 ≤ n.toInt
      · exact sysSbrk_grows h hn hlt (by rw [hsize]; exact hcost)
      · exact sysSbrk_shrinks h (by omega) hge
    dsimp only
    rw [bind_of_ok hrun]
    exact ⟨s', rfl, hs'⟩
  | load =>
    obtain ⟨k', hrun, hk'⟩ := Vm.Presents.userLoad h havoids hcost
    exact ⟨s.setKmem k', lift_of_ok hrun, hk'⟩
  | store va b =>
    obtain ⟨k', hrun, hk'⟩ := Vm.Presents.userWrite (b := b) h havoids hcost
    exact ⟨s.setKmem k', lift_of_ok hrun, hk'⟩
  | copyin =>
    obtain ⟨k', hrun, hk'⟩ := Vm.Presents.copyin h hcost
    dsimp only
    rw [bind_of_ok (lift_of_ok hrun)]
    exact ⟨s.setKmem k', rfl, hk'⟩
  | copyout =>
    obtain ⟨k', hrun, hk'⟩ := Vm.Presents.copyout h hcost
    dsimp only
    rw [bind_of_ok (lift_of_ok hrun)]
    exact ⟨s.setKmem k', rfl, hk'⟩
  | copyinstr =>
    have hrun := Vm.Presents.copyinstr h (havoids A h)
    dsimp only
    rw [bind_of_ok (lift_of_ok hrun)]
    exact ⟨s.setKmem s.kmem, rfl, h⟩

theorem perform_presents {dom : State L → Fin NPROC → Op → Prop} (hdom : ∀ s p op, dom s p op → AvoidsUntouched s p op)
    (ops : List Op) (h : s.Presents p A) (hops : Supplied dom t p ops s) :
    ∃ s', perform t p ops s = .ok ((A.perform ops).1, s') ∧ s'.Presents p (A.perform ops).2 := by
  induction ops generalizing s A with
  | nil => exact ⟨s, rfl, h⟩
  | cons op ops ih =>
    obtain ⟨hcost, hop, hrest⟩ := hops
    obtain ⟨s₁, hserve, h₁⟩ := serve_presents (t := t) h hcost (hdom s p op hop)
    unfold perform UserMem.perform
    rw [bind_of_ok hserve]
    by_cases hkilled : (A.serve op).1 = .killed
    · rw [if_pos hkilled, if_pos hkilled]
      exact ⟨s₁, rfl, h₁⟩
    · obtain ⟨s₂, hperform, h₂⟩ := ih h₁ (hrest _ s₁ hserve hkilled)
      rw [if_neg hkilled, if_neg hkilled, bind_of_ok hperform]
      exact ⟨s₂, rfl, h₂⟩

/-! ## The first process -/

theorem Books.userRoom {g : Ledger} {v : Nat} {e : Nat × Nat} (h : Books s g) (hp : (s.proc p).state ≠ .unused)
    (hlook : lookup s.kmem (s.proc p).pagetable v = some e) : UserRoom (s.proc p).sz v := by
  have hmem := (h.top hp).mem
  have hv : v < NPAGES := by
    by_contra hge
    rw [lookup_of_ge (Nat.le_of_not_lt hge)] at hlook
    cases hlook
  rw [lookup_eq (h.holds.wf _ hmem) hv] at hlook
  have hvalid : Valid (leaf s.kmem.mem 2 (s.proc p).pagetable v) := by
    by_contra hinvalid
    rw [decode_eq_none.mpr hinvalid] at hlook
    cases hlook
  exact (h.room p hp v).mp (h.holds.room _ hmem v (lt_NENTRIES hv) hvalid)

theorem Books.lookup_beyond {g : Ledger} {v : Nat} (h : Books s g) (hp : (s.proc p).state ≠ .unused)
    (hlo : pagesOf (s.proc p).sz ≤ v) (hhi : v < trapframeNo) : lookup s.kmem (s.proc p).pagetable v = none := by
  have hlt : trapframeNo < trampolineNo := by decide
  cases hlook : lookup s.kmem (s.proc p).pagetable v with
  | none => rfl
  | some =>
    rcases h.userRoom hp hlook with hroom | hroom | hroom <;> omega

theorem Books.presents_empty {g : Ledger} (h : Books s g) (hp : (s.proc p).state ≠ .unused) (hsz : (s.proc p).sz = 0)
    (htop : ∀ v, v = trampolineNo ∨ v = trapframeNo → ∀ e, lookup s.kmem (s.proc p).pagetable v = some e →
      e.2 &&& PTE_U = 0) : ∃ A, s.Presents p A := by
  have hpages : pagesOf (s.proc p).sz = 0 := by rw [hsz]; rfl
  have hlow : ∀ {v}, v < trapframeNo → lookup s.kmem (s.proc p).pagetable v = none :=
    fun hv => h.lookup_beyond hp (by omega) hv
  have htop' : ∀ {v e}, lookup s.kmem (s.proc p).pagetable v = some e → e.2 &&& PTE_U = 0 := by
    intro v e hlook
    have hroom := h.userRoom hp hlook
    unfold UserRoom at hroom
    rw [hpages] at hroom
    exact htop v (hroom.resolve_left (Nat.not_lt_zero v)) e hlook
  refine ⟨⟨0, fun _ => 0, fun _ => 0⟩, hsz.symm, h.sz p, ?_, ?_⟩
  · show Sound s.kmem (s.proc p).pagetable (pagesOf (s.proc p).sz)
    rw [hpages]
    refine ⟨h.holds.apart (h.top hp).mem, fun hv hlook => ?_, fun hv _ hlook => ?_, fun _ hv => hlow hv,
      fun _ hlook => htop' hlook, Nat.zero_le _⟩
    · rw [hlow hv] at hlook
      cases hlook
    · rw [hlow hv] at hlook
      cases hlook
  · show Shows s.kmem (s.proc p).pagetable (pagesOf (s.proc p).sz) _
    rw [hpages]
    exact ⟨fun hv => absurd hv (Nat.not_lt_zero _), fun hv => absurd hv (Nat.not_lt_zero _)⟩

/-- The first process is live, has no memory and cannot see its trampoline and trapframe, and `check` holds. -/
def startsEmpty (check : State smallKernel → Bool) : Bool :=
  match userinit (State.start sixteenPages) with
  | .ok (_, s) => (s.proc 0).state ≠ .unused && (s.proc 0).sz = 0 &&
      [trampolineNo, trapframeNo].all (fun v =>
        (lookup s.kmem (s.proc 0).pagetable v).all fun e => e.2 &&& PTE_U = 0) && check s
  | .error _ => false

theorem booted_of_startsEmpty {check : State smallKernel → Bool} (h : startsEmpty check = true) :
    ∃ s, Booted s ∧ (∃ A, s.Presents 0 A) ∧ check s = true := by
  unfold startsEmpty at h
  split at h
  · next s huser =>
    simp only [Bool.and_eq_true, decide_eq_true_eq] at h
    obtain ⟨⟨⟨hlive, hsz⟩, htop⟩, hcheck⟩ := h
    have hboot : Booted s := booted_of_userinit (n := 16) (by decide) (by decide) huser
    obtain ⟨g, hbooks⟩ := booted_books hboot
    refine ⟨s, hboot, hbooks.presents_empty hlive hsz fun v hv e hlook => ?_, hcheck⟩
    have hall := List.all_eq_true.mp htop v (by simpa using hv)
    rw [hlook, Option.all_some, decide_eq_true_eq] at hall
    exact hall
  · cases h

/-! ## Lazy and eager growth -/

/-- Where no operation depends on untouched pages, lazy growth is eager growth. -/
theorem lazy_like_eager (dom : State L → Fin NPROC → Op → Prop)
    (hdom : ∀ s p op, dom s p op → AvoidsUntouched s p op) : LazyLikeEager dom := by
  intro s p ops ⟨A, h⟩ heager hlazy
  obtain ⟨s₁, hrun₁, h₁⟩ := perform_presents hdom ops h heager
  obtain ⟨s₂, hrun₂, h₂⟩ := perform_presents hdom ops h hlazy
  exact ⟨(A.perform ops).1, s₁, s₂, hrun₁, hrun₂, (A.perform ops).2, h₁, h₂⟩

def bytesInNewPage : List Op := [.sbrk 4096, .copyin 0 8]

/-- After the growth there are enough pages for the bytes. -/
def bytesSupplied (t : Int) (s : State smallKernel) : Bool :=
  growthCost (s.proc 0).sz 4096 ≤ s.kmem.freelist.length &&
    match serve t 0 (.sbrk 4096) s with
    | .ok (_, s') => 3 * copyPages (s'.proc 0).sz 0 8 ≤ s'.kmem.freelist.length
    | .error _ => false

theorem supplied_of_bytesSupplied {s : State smallKernel} (h : bytesSupplied t s = true) :
    Supplied AvoidsUntouched t 0 bytesInNewPage s := by
  unfold bytesSupplied at h
  simp only [Bool.and_eq_true, decide_eq_true_eq] at h
  refine ⟨h.1, trivial, fun r s' hserve _ => ⟨?_, trivial, fun _ _ _ _ => trivial⟩⟩
  have hcost := h.2
  rw [hserve] at hcost
  exact of_decide_eq_true hcost

theorem lazy_like_eager_bytesInNewPage :
    ∃ s : State smallKernel, Booted s ∧ Supplied AvoidsUntouched SBRK_EAGER 0 bytesInNewPage s ∧
      Supplied AvoidsUntouched SBRK_LAZY 0 bytesInNewPage s ∧
      ∃ rs s₁ s₂, perform SBRK_EAGER 0 bytesInNewPage s = .ok (rs, s₁) ∧
        perform SBRK_LAZY 0 bytesInNewPage s = .ok (rs, s₂) ∧ ∃ A, s₁.Presents 0 A ∧ s₂.Presents 0 A := by
  have hrun : startsEmpty (fun s => bytesSupplied SBRK_EAGER s && bytesSupplied SBRK_LAZY s) = true := by
    decide +kernel
  obtain ⟨s, hboot, howns, hcheck⟩ := booted_of_startsEmpty hrun
  rw [Bool.and_eq_true] at hcheck
  have heager := supplied_of_bytesSupplied hcheck.1
  have hlazy := supplied_of_bytesSupplied hcheck.2
  exact ⟨s, hboot, heager, hlazy,
    lazy_like_eager AvoidsUntouched (fun _ _ _ h => h) s 0 bytesInNewPage howns heager hlazy⟩

def outcomes (t : Int) (p : Fin NPROC) (ops : List Op) (s : State L) : Option (List Outcome) :=
  match perform t p ops s with
  | .ok (rs, _) => some rs
  | .error _ => none

theorem outcomes_of_ok {ops : List Op} {rs : List Outcome} {s' : State L} (h : perform t p ops s = .ok (rs, s')) :
    outcomes t p ops s = some rs := by
  unfold outcomes
  rw [h]

/-- The heap grows by a page, and then the kernel reads a string there. -/
def stringInNewPage : List Op := [.sbrk 4096, .copyinstr 0 16]

/-- Eager growth gives the empty string, and lazy growth an error. -/
theorem lazyLikeEager_broken_by_copyinstr : ¬ LazyLikeEager (L := smallKernel) (fun _ _ _ => True) := by
  have hrun : startsEmpty (fun s => growthCost (s.proc 0).sz 4096 ≤ s.kmem.freelist.length &&
      outcomes SBRK_EAGER 0 stringInNewPage s = some [.status 0, .bytes (some [])] &&
      outcomes SBRK_LAZY 0 stringInNewPage s = some [.status 0, .bytes none]) = true := by
    decide +kernel
  obtain ⟨s, -, howns, hcheck⟩ := booted_of_startsEmpty hrun
  simp only [Bool.and_eq_true, decide_eq_true_eq] at hcheck
  obtain ⟨⟨hcost, heager⟩, hlazy⟩ := hcheck
  intro hclaim
  have hsupplied : ∀ t, Supplied (fun _ _ _ => True) t 0 stringInNewPage s :=
    fun t => ⟨hcost, trivial, fun _ _ _ _ => ⟨Nat.zero_le _, trivial, fun _ _ _ _ => trivial⟩⟩
  obtain ⟨rs, s₁, s₂, hrun₁, hrun₂, -⟩ := hclaim s 0 stringInNewPage howns (hsupplied _) (hsupplied _)
  have hsame : [Outcome.status 0, .bytes (some [])] = [.status 0, .bytes none] := by
    apply Option.some.inj
    rw [← heager, ← hlazy, outcomes_of_ok hrun₁, outcomes_of_ok hrun₂]
  exact absurd hsame (by decide)

end Xv6.Vm
