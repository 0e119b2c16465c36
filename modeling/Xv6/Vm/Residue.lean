import Xv6.Vm.Lazy

/-!
# What `getprocinfo` and `fstat` copy out

Both fill a structure on the kernel stack, `struct procinfo` and `struct stat`, and copy all of its bytes to the user.
`stack` is what the stack held before; a byte of the structure that nothing is stored in goes out as it was.
-/

namespace Xv6.Vm

open Function Hoare Memory PageMap

variable {L : Layout}

/-! ## The code -/

/-- The loop of `safestrcpy`: `s` and the memory after it. -/
def safestrcpyLoop : List UInt8 → Nat → Nat → Mem → Nat × Mem
  | _, 0, s, m => (s, m)
  | t, n + 1, s, m =>
    let c := t.headD 0
    let m := update m s c
    if c ≠ 0 then safestrcpyLoop t.tail n (s + 1) m else (s + 1, m)

def safestrcpy (m : Mem) (s : Nat) (t : List UInt8) (n : Nat) : Mem :=
  if n = 0 then m
  else
    let (s, m) := safestrcpyLoop t (n - 1) s m
    update m s 0

/-- `RUNNING` of `enum procstate`. -/
def RUNNING : Nat := 4

/-- The stack with the `struct procinfo` at `info` filled in.  `p` is `myproc()`, so that it is running. -/
def fillProcinfo (s : State L) (p : Fin NPROC) (info : Nat) (stack : Mem) : Mem :=
  let m := put stack info 4 (s.proc p).pid
  let m := put m (info + 4) 4 (match (s.proc p).parent with
    | some parent => (s.proc parent).pid
    | none => 0)
  let m := put m (info + 8) 4 RUNNING
  safestrcpy m (info + 12) (s.proc p).name 16

/-- The end of both calls: `n` bytes at `a` of the stack go to the user. -/
def copyStruct (p : Fin NPROC) (addr : Nat) (m : Mem) (a n : Nat) : Sys L Int := do
  let s ← get
  let q := s.proc p
  let r ← lift (copyout q.space q.pagetable addr (bytes m a n))
  if r < 0 then pure (-1) else pure 0

def sysGetprocinfo (stack : Mem) (info : Nat) (p : Fin NPROC) (addr : Nat) : Sys L Int := do
  let s ← get
  copyStruct p addr (fillProcinfo s p info stack) info 28

structure Inode where
  dev : BitVec 32
  inum : BitVec 32
  type : BitVec 16
  nlink : BitVec 16
  size : BitVec 32

/-- The `uint64 size` is aligned to 8 bytes, so 4 bytes before it are not used. -/
def stati (ip : Inode) (st : Nat) (m : Mem) : Mem :=
  let m := put m st 4 ip.dev.toNat
  let m := put m (st + 4) 4 ip.inum.toNat
  let m := put m (st + 8) 2 ip.type.toNat
  let m := put m (st + 10) 2 ip.nlink.toNat
  put m (st + 16) 8 ip.size.toNat

inductive FileType where
  | none | pipe | inode | device
  deriving DecidableEq, Repr

def filestat (stack : Mem) (st : Nat) (type : FileType) (ip : Inode) (p : Fin NPROC) (addr : Nat) : Sys L Int :=
  if type = .inode ∨ type = .device then copyStruct p addr (stati ip st stack) st 24 else pure (-1)

/-! ## What is stored -/

section Stores

variable {m m' : Mem} {x : Nat} {g g' : Mem → Mem} {P P' : Nat → Prop}

/-- `g` stores at the addresses with `P`, whatever was there, and nowhere else. -/
def Stores (g : Mem → Mem) (P : Nat → Prop) : Prop := ∃ f : Mem, ∀ m x, (P x → g m x = f x) ∧ (¬ P x → g m x = m x)

theorem Stores.congr (h : Stores g P) (hP : ∀ x, P' x ↔ P x) : Stores g P' := by
  obtain ⟨f, hf⟩ := h
  exact ⟨f, fun m x => by simpa only [hP x] using hf m x⟩

theorem Stores.agree_iff (h : Stores g P) : g m' x = g m x ↔ (¬ P x → m' x = m x) := by
  obtain ⟨f, hf⟩ := h
  by_cases hx : P x
  · simp [hx, (hf _ x).1 hx]
  · simp [hx, (hf _ x).2 hx]

theorem Stores.comp (h' : Stores g' P') (h : Stores g P) : Stores (fun m => g' (g m)) (fun x => P' x ∨ P x) := by
  obtain ⟨f', hf'⟩ := h'
  obtain ⟨f, hf⟩ := h
  classical
  refine ⟨fun x => if P' x then f' x else f x, fun m x => ?_⟩
  by_cases hx : P' x
  · simp [hx, (hf' _ x).1 hx]
  · simpa [hx, (hf' _ x).2 hx] using hf m x

theorem put_stores (a n v : Nat) : Stores (put · a n v) (fun x => a ≤ x ∧ x < a + n) :=
  ⟨put (fun _ => 0) a n v, fun _ _ => ⟨fun hx => (if_pos hx).trans (if_pos hx).symm, fun hx => if_neg hx⟩⟩

theorem update_stores (a : Nat) (c : UInt8) : Stores (update · a c) (· = a) :=
  ⟨fun _ => c, fun m x => ⟨fun hx => by rw [hx]; exact update_self a c m, fun hx => update_of_ne hx c m⟩⟩

/-- The length of the string that a list of bytes begins with. -/
def strlen (t : List UInt8) : Nat := (t.takeWhile (· ≠ 0)).length

theorem strlen_eq (t : List UInt8) : strlen t = if t.headD 0 ≠ 0 then strlen t.tail + 1 else 0 := by
  unfold strlen
  cases t with
  | nil => rfl
  | cons c =>
    by_cases hc : c = 0
    · rw [List.takeWhile_cons_of_neg (by simpa using hc), List.headD_cons, if_neg (not_not.mpr hc)]
      rfl
    · rw [List.takeWhile_cons_of_pos (by simpa using hc), List.headD_cons, if_pos hc]
      rfl

theorem safestrcpyLoop_end (t : List UInt8) (n s : Nat) (m : Mem) :
    (safestrcpyLoop t n s m).1 = s + min (strlen t + 1) n := by
  induction n generalizing t s m with
  | zero => rw [safestrcpyLoop, Nat.min_zero, Nat.add_zero]
  | succ n ih =>
    rw [safestrcpyLoop, strlen_eq]
    split
    · rw [ih]
      omega
    · show s + 1 = _
      omega

theorem safestrcpyLoop_stores (t : List UInt8) (n s : Nat) :
    Stores (fun m => (safestrcpyLoop t n s m).2) (fun x => s ≤ x ∧ x < s + min (strlen t + 1) n) := by
  induction n generalizing t s with
  | zero => exact ⟨fun _ => 0, fun m x => ⟨fun hx => absurd hx (by omega), fun _ => rfl⟩⟩
  | succ n ih =>
    simp only [safestrcpyLoop]
    by_cases hc : t.headD 0 ≠ 0
    · simp only [if_pos hc]
      exact ((ih t.tail (s + 1)).comp (update_stores s _)).congr fun x => by rw [strlen_eq t, if_pos hc]; omega
    · simp only [if_neg hc]
      exact (update_stores s _).congr fun x => by rw [strlen_eq t, if_neg hc]; omega

theorem safestrcpy_stores (t : List UInt8) (s : Nat) :
    Stores (safestrcpy · s t 16) (fun x => s ≤ x ∧ x < s + min (strlen t + 2) 16) := by
  have hend : (safestrcpy · s t 16) =
      fun m => update (safestrcpyLoop t 15 s m).2 (s + min (strlen t + 1) 15) 0 := by
    funext m
    rw [← safestrcpyLoop_end t 15 s m]
    rfl
  rw [hend]
  exact ((update_stores _ 0).comp (safestrcpyLoop_stores t 15 s)).congr fun x => by omega

/-- All of `struct procinfo` but what follows the two NULs that `safestrcpy` may store. -/
theorem fillProcinfo_stores (s : State L) (p : Fin NPROC) (info : Nat) :
    Stores (fillProcinfo s p info) (fun x => info ≤ x ∧ x < info + 12 + min (strlen (s.proc p).name + 2) 16) :=
  ((safestrcpy_stores _ (info + 12)).comp ((put_stores (info + 8) 4 _).comp
    ((put_stores (info + 4) 4 _).comp (put_stores info 4 _)))).congr fun x => by omega

/-- All of `struct stat` but the four bytes between `nlink` and `size`. -/
theorem stati_stores (ip : Inode) (st : Nat) :
    Stores (stati ip st) (fun x => st ≤ x ∧ x < st + 12 ∨ st + 16 ≤ x ∧ x < st + 24) :=
  ((put_stores (st + 16) 8 _).comp ((put_stores (st + 10) 2 _).comp
    ((put_stores (st + 8) 2 _).comp ((put_stores (st + 4) 4 _).comp (put_stores st 4 _))))).congr fun x => by omega

end Stores

/-! ## What the user finds -/

section Found

variable {m m' : Mem} {A A' : UserMem} {s : State L} {p : Fin NPROC} {addr a n j va : Nat} {l l' : List UInt8} {b : UInt8}

/-- A copy to `va` gets as far as its byte `j`. -/
def UserMem.Reached (A : UserMem) (va j : Nat) : Prop := ∀ i ≤ j, A.Allows PTE_W (va + i)

/-- Both calls return the same, and the process finds the same bytes in its memory. -/
def SameBytes (p : Fin NPROC) (r r' : Except Panic (Int × State L)) : Prop :=
  ∃ ret t t' A, r = .ok (ret, t) ∧ r' = .ok (ret, t') ∧ t.Presents p A ∧ t'.Presents p A

theorem UserMem.Reached.tail (h : A.Reached va (j + 1)) : (A.write va b).Reached (va + 1) j := by
  intro i hi
  have hnext := h (i + 1) (by omega)
  rwa [show va + (i + 1) = va + 1 + i by omega] at hnext

theorem UserMem.Reached.cons (hva : A.Allows PTE_W va) (h : (A.write va b).Reached (va + 1) j) : A.Reached va (j + 1) := by
  intro i hi
  cases i with
  | zero => exact hva
  | succ i =>
    have hnext := h i (by omega)
    rwa [show va + 1 + i = va + (i + 1) by omega] at hnext

theorem UserMem.deposit_below (h : a < va) : (A.deposit va l).1.byte a = A.byte a := by
  induction l generalizing A va with
  | nil => rfl
  | cons c l ih =>
    rw [deposit]
    split
    · rw [ih (by omega)]
      exact update_of_ne (by omega) _ _
    · rfl

theorem UserMem.deposit_byte (hj : l[j]? = some b) (h : A.Reached va j) : (A.deposit va l).1.byte (va + j) = b := by
  induction l generalizing A va j with
  | nil => cases hj
  | cons c l ih =>
    have hva : A.Allows PTE_W va := h 0 (Nat.zero_le j)
    rw [deposit, if_pos hva]
    cases j with
    | zero =>
      obtain rfl : c = b := by simpa using hj
      rw [deposit_below (by omega)]
      exact update_self va c A.byte
    | succ j =>
      have hnext := ih (A := A.write va c) hj h.tail
      rwa [show va + 1 + j = va + (j + 1) by omega] at hnext

theorem UserMem.deposit_congr (hlen : l'.length = l.length) (h : ∀ j, A.Reached va j → l'[j]? = l[j]?) :
    A.deposit va l' = A.deposit va l := by
  induction l generalizing A va l' with
  | nil => rw [List.length_eq_zero_iff.mp hlen]
  | cons c l ih =>
    obtain ⟨c', l', rfl⟩ := List.exists_cons_of_length_eq_add_one hlen
    rw [deposit, deposit]
    split
    · next hva =>
      have hfirst : c' = c := Option.some.inj (h 0 fun i hi => (Nat.le_zero.mp hi) ▸ hva)
      rw [hfirst]
      exact ih (Nat.succ.inj hlen) fun j hj => h (j + 1) (.cons hva hj)
    · rfl

theorem Presents.byte_eq {k : Kmem L} {q : Space} (h : Presents k q A) (h' : Presents k q A') (ha : a / PGSIZE < pagesOf q.sz) :
    A.byte a = A'.byte a := by
  have hoff : a % PGSIZE < PGSIZE := Nat.mod_lt _ (by decide)
  rw [← Nat.div_add_mod' a PGSIZE]
  cases hlook : lookup k q.pagetable (a / PGSIZE) with
  | some => rw [← (h.shows.there ha hlook).2 _ hoff, (h'.shows.there ha hlook).2 _ hoff]
  | none => rw [(h.shows.missing ha hlook).2 _ hoff, (h'.shows.missing ha hlook).2 _ hoff]

theorem copyStruct_presents (hA : s.Presents p A) (hroom : 3 * copyPages (s.proc p).sz addr n ≤ s.kmem.freelist.length) (m : Mem)
    (a : Nat) : ∃ k, copyStruct p addr m a n s =
        .ok (if (A.deposit addr (bytes m a n)).2 < 0 then -1 else 0, s.setKmem k) ∧
      Presents k (s.proc p).space (A.deposit addr (bytes m a n)).1 := by
  have hcost : 3 * copyPages (s.proc p).space.sz addr (bytes m a n).length ≤ s.kmem.freelist.length := by rwa [length_bytes]
  obtain ⟨k, hrun, hk⟩ := Vm.Presents.copyout hA hcost
  have hrun : copyout (s.proc p).space (s.proc p).pagetable addr (bytes m a n) s.kmem = _ := hrun
  refine ⟨k, ?_, hk⟩
  unfold copyStruct
  rw [get_bind, bind_of_ok (lift_of_ok hrun)]
  split <;> rfl

theorem bytes_getElem? : (bytes m a n)[j]? = if j < n then some (m (a + j)) else none := by
  unfold bytes
  by_cases hj : j < n <;> simp [hj]

theorem copyStruct_congr (h : ∀ j < n, m' (a + j) = m (a + j)) :
    copyStruct (L := L) p addr m' a n = copyStruct p addr m a n := by
  unfold copyStruct bytes
  rw [List.map_congr_left fun j hj => h j (List.mem_range.mp hj)]

theorem sameBytes_copyStruct_iff (hA : s.Presents p A)
    (hroom : 3 * copyPages (s.proc p).sz addr n ≤ s.kmem.freelist.length) :
    SameBytes p (copyStruct p addr m a n s) (copyStruct p addr m' a n s) ↔
      ∀ j < n, A.Reached addr j → m' (a + j) = m (a + j) := by
  obtain ⟨k, hrun, hk⟩ := copyStruct_presents hA hroom m a
  obtain ⟨k', hrun', hk'⟩ := copyStruct_presents hA hroom m' a
  refine ⟨fun ⟨ret, t, t', B, ht, ht', hB, hB'⟩ j hj hreach => ?_, fun h => ?_⟩
  · obtain ⟨-, rfl⟩ := Prod.mk.inj (Except.ok.inj (ht.symm.trans hrun))
    obtain ⟨-, rfl⟩ := Prod.mk.inj (Except.ok.inj (ht'.symm.trans hrun'))
    have hsize : A.sz = (s.proc p).sz := hA.size
    have hin : (addr + j) / PGSIZE < pagesOf (s.proc p).sz := hsize ▸ (hreach j (Nat.le_refl j)).1.1
    have hbyte : ∀ m : Mem, (A.deposit addr (bytes m a n)).1.byte (addr + j) = m (a + j) := fun m =>
      UserMem.deposit_byte (by rw [bytes_getElem?, if_pos hj]) hreach
    rw [← hbyte m', ← hbyte m, hk'.byte_eq hB' hin, hk.byte_eq hB hin]
  have hsame : A.deposit addr (bytes m' a n) = A.deposit addr (bytes m a n) := by
    apply UserMem.deposit_congr (by simp)
    intro j hj
    rw [bytes_getElem?, bytes_getElem?]
    split
    · next hlt => rw [h j hlt hj]
    · rfl
  rw [hsame] at hrun' hk'
  exact ⟨_, _, _, _, hrun, hrun', hk, hk'⟩

end Found

/-- The calls depend on the old stack only in what they do not store: the bytes of `info.name` after the two NULs that
`safestrcpy` may store, and the four bytes between `st.nlink` and `st.size`; and as far as these are copied, they do. -/
theorem copied_structs_determined (stack stack' : Mem) (s : State L) (p : Fin NPROC) (addr info st : Nat) (type : FileType)
    (ip : Inode) :
    ((∀ j, 12 + (strlen (s.proc p).name + 2) ≤ j → j < 28 → stack' (info + j) = stack (info + j)) →
      sysGetprocinfo stack' info p addr s = sysGetprocinfo stack info p addr s) ∧
    ((∀ j, 12 ≤ j → j < 16 → stack' (st + j) = stack (st + j)) →
      filestat stack' st type ip p addr s = filestat stack st type ip p addr s) ∧
    ∀ A, s.Presents p A → 3 * copyPages (s.proc p).sz addr 28 ≤ s.kmem.freelist.length →
      (SameBytes p (sysGetprocinfo stack info p addr s) (sysGetprocinfo stack' info p addr s) ↔
        ∀ j, 12 + (strlen (s.proc p).name + 2) ≤ j → j < 28 → A.Reached addr j → stack' (info + j) = stack (info + j)) ∧
      (SameBytes p (filestat stack st type ip p addr s) (filestat stack' st type ip p addr s) ↔
        (type = .inode ∨ type = .device → ∀ j, 12 ≤ j → j < 16 → A.Reached addr j → stack' (st + j) = stack (st + j))) := by
  have hinfo : ∀ j < 28, fillProcinfo s p info stack' (info + j) = fillProcinfo s p info stack (info + j) ↔
      (12 + (strlen (s.proc p).name + 2) ≤ j → stack' (info + j) = stack (info + j)) := fun j hj =>
    (fillProcinfo_stores s p info).agree_iff.trans (imp_congr_left (by omega))
  have hstat : ∀ j < 24, stati ip st stack' (st + j) = stati ip st stack (st + j) ↔
      (12 ≤ j ∧ j < 16 → stack' (st + j) = stack (st + j)) := fun j hj =>
    (stati_stores ip st).agree_iff.trans (imp_congr_left (by omega))
  refine ⟨fun h => ?_, fun h => ?_, fun A hA hroom => ⟨?_, ?_⟩⟩
  · unfold sysGetprocinfo
    rw [get_bind, get_bind, copyStruct_congr fun j hj => (hinfo j hj).mpr fun hlo => h j hlo hj]
  · unfold filestat
    rw [copyStruct_congr fun j hj => (hstat j hj).mpr fun hin => h j hin.1 hin.2]
  · unfold sysGetprocinfo
    rw [get_bind, get_bind, sameBytes_copyStruct_iff hA hroom]
    refine ⟨fun h j hlo hj hreach => ?_, fun h j hj hreach => ?_⟩
    · exact (hinfo j hj).mp (h j hj hreach) hlo
    · exact (hinfo j hj).mpr fun hlo => h j hlo hj hreach
  unfold filestat
  by_cases htype : type = .inode ∨ type = .device
  · have hroom' : 3 * copyPages (s.proc p).sz addr 24 ≤ s.kmem.freelist.length := by
      unfold copyPages pagesOf PGSIZE at *
      omega
    rw [if_pos htype, if_pos htype, sameBytes_copyStruct_iff hA hroom']
    refine ⟨fun h _ j hlo hhi hreach => ?_, fun h j hj hreach => ?_⟩
    · exact (hstat j (by omega)).mp (h j (by omega) hreach) ⟨hlo, hhi⟩
    · exact (hstat j hj).mpr fun hin => h htype j hin.1 hin.2 hreach
  · rw [if_neg htype, if_neg htype]
    exact ⟨fun _ h => absurd h htype, fun _ => ⟨-1, s, s, A, rfl, rfl, hA, hA⟩⟩

/-- The first process gets a page, and `check` holds then. -/
def growsPage (check : State smallKernel → Bool) (s : State smallKernel) : Bool :=
  growthCost (s.proc 0).sz 4096 ≤ s.kmem.freelist.length && (serve SBRK_EAGER 0 (.sbrk 4096) s).toOption.any fun x => check x.2

theorem presents_of_growsPage {check : State smallKernel → Bool} (h : startsEmpty (growsPage check) = true) :
    ∃ s s' r A, Booted s ∧ serve SBRK_EAGER 0 (.sbrk 4096) s = .ok (r, s') ∧ s'.Presents 0 A ∧ check s' = true := by
  obtain ⟨s, hboot, ⟨A, hA⟩, hcheck⟩ := booted_of_startsEmpty h
  simp only [growsPage, Bool.and_eq_true, decide_eq_true_eq] at hcheck
  obtain ⟨s', hserve, hA'⟩ := @serve_presents _ _ _ _ SBRK_EAGER (.sbrk 4096) hA hcheck.1 trivial
  rw [hserve] at hcheck
  exact ⟨s, s', _, _, hboot, hserve, hA', hcheck.2⟩

/-- There is a page for either structure, and a stack that held something else in the first 12 bytes is not seen. -/
theorem copied_structs_determined_page : ∃ s : State smallKernel,
    (sysGetprocinfo (fun _ => 0) 0 0 0 s).toOption.map Prod.fst = some 0 ∧
    SameBytes 0 (sysGetprocinfo (fun _ => 0) 0 0 0 s) (sysGetprocinfo (fun x => if x < 12 then 1 else 0) 0 0 0 s) ∧
    SameBytes 0 (filestat (fun _ => 0) 0 .inode ⟨1, 1, 1, 1, 1024⟩ 0 0 s)
      (filestat (fun x => if x < 12 then 1 else 0) 0 .inode ⟨1, 1, 1, 1, 1024⟩ 0 0 s) := by
  have hrun : startsEmpty (growsPage fun s => 3 * copyPages (s.proc 0).sz 0 28 ≤ s.kmem.freelist.length &&
      (sysGetprocinfo (fun _ => 0) 0 0 0 s).toOption.map Prod.fst = some 0) = true := by decide +kernel
  obtain ⟨-, s, -, A, -, -, hA, hcheck⟩ := presents_of_growsPage hrun
  rw [Bool.and_eq_true, decide_eq_true_eq, decide_eq_true_eq] at hcheck
  obtain ⟨hinfo, hstat⟩ := (copied_structs_determined (fun _ => 0) (fun x => if x < 12 then 1 else 0) s 0 0 0 0 .inode
    ⟨1, 1, 1, 1, 1024⟩).2.2 A hA hcheck.1
  exact ⟨s, hcheck.2, hinfo.mpr fun j hj _ _ => if_neg (by omega), hstat.mpr fun _ j hj _ _ => if_neg (by omega)⟩

/-- What the first process then finds in its first `n` bytes. -/
def found (call : Sys L Int) (n : Nat) (s : State L) : Option (List UInt8) :=
  match call s with
  | .ok (_, s') =>
    match copyin (s'.proc 0).space (s'.proc 0).pagetable 0 n s'.kmem with
    | .ok (r, _) => r
    | .error _ => none
  | .error _ => none

/-- The first process has one page, and lets both calls write there: it sees what the stack was filled with. -/
theorem copied_structs_leak : ∃ s s' : State smallKernel, ∃ r, Booted s ∧
    serve SBRK_EAGER 0 (.sbrk 4096) s = .ok (r, s') ∧
    found (sysGetprocinfo (fun _ => 0) 0 0 0) 28 s' ≠ found (sysGetprocinfo (fun _ => 1) 0 0 0) 28 s' ∧
    found (filestat (fun _ => 0) 0 .inode ⟨1, 1, 1, 1, 1024⟩ 0 0) 24 s' ≠
      found (filestat (fun _ => 1) 0 .inode ⟨1, 1, 1, 1, 1024⟩ 0 0) 24 s' := by
  have hrun : startsEmpty (growsPage fun s =>
      found (sysGetprocinfo (fun _ => 0) 0 0 0) 28 s ≠ found (sysGetprocinfo (fun _ => 1) 0 0 0) 28 s ∧
        found (filestat (fun _ => 0) 0 .inode ⟨1, 1, 1, 1, 1024⟩ 0 0) 24 s ≠
          found (filestat (fun _ => 1) 0 .inode ⟨1, 1, 1, 1, 1024⟩ 0 0) 24 s) = true := by
    decide +kernel
  obtain ⟨s, s', r, -, hboot, hserve, -, hcheck⟩ := presents_of_growsPage hrun
  exact ⟨s, s', r, hboot, hserve, of_decide_eq_true hcheck⟩

end Xv6.Vm
