import Xv6.Vm.Accounts
import Xv6.Vm.Birth

/-!
# Every call keeps the books

`Books s g` says that the ledger `g` describes the machine in state `s`, and that each region counts how often it is
mapped.  Only `wait`, `exec` and a `sbrk` that shrinks take mappings of user memory away without looking at the
region table; their theorems need that no page of a region is among them.
-/

namespace Xv6.Vm

open Finset Hoare Memory Ledger Runs PageMap

/-! ## The view of a state -/

def Proc.entry (q : Proc) : Option (Nat × Nat) :=
  if q.state = .unused then none else some (q.pagetable, q.trapframe)

def Shmregion.entry (r : Shmregion) : Option Nat := if r.key = 0 then none else some r.kpage

variable {L : Layout} {α β : Type}

def State.view (s : State L) : View where
  space p := (s.proc p).entry
  region i := (s.shmtable i).entry

variable {s t : State L} {g : Ledger} {k : Kmem L} {p np : Fin NPROC} {q : Proc} {i : Fin NSHMEM}
  {ret : Int} {x v : Nat} {E : Panic → Prop}

theorem Proc.entry_live (h : q.state ≠ .unused) : q.entry = some (q.pagetable, q.trapframe) := if_neg h

theorem Shmregion.entry_live {r : Shmregion} (h : r.key ≠ 0) : r.entry = some r.kpage := if_neg h

theorem Shmregion.of_entry {r : Shmregion} (h : r.entry = some x) : r.key ≠ 0 ∧ r.kpage = x := by
  unfold entry at h
  by_cases hkey : r.key = 0
  · rw [if_pos hkey] at h
    cases h
  · rw [if_neg hkey] at h
    exact ⟨hkey, Option.some.inj h⟩

theorem setSpace_same {w : View} {o : Option (Nat × Nat)} (h : w.space p = o) : w.setSpace p o = w := by
  unfold View.setSpace
  cases w with
  | mk =>
    simp only [View.mk.injEq, and_true]
    funext p'
    by_cases hp : p' = p
    · rw [if_pos hp, hp]
      exact h.symm
    · rw [if_neg hp]

theorem view_setProc (s : State L) (p : Fin NPROC) (q : Proc) : (s.setProc p q).view = s.view.setSpace p q.entry := by
  unfold State.view State.setProc View.setSpace
  simp only [View.mk.injEq, and_true]
  funext p'
  by_cases hp : p' = p
  · rw [if_pos hp, if_pos hp]
  · rw [if_neg hp, if_neg hp]

theorem view_setShm (s : State L) (i : Fin NSHMEM) (r : Shmregion) :
    (s.setShm i r).view = s.view.setRegion i r.entry := by
  unfold State.view State.setShm View.setRegion
  simp only [View.mk.injEq, true_and]
  funext j
  by_cases hj : j = i
  · rw [if_pos hj, if_pos hj]
  · rw [if_neg hj, if_neg hj]

@[simp] theorem setShm_self (s : State L) (i : Fin NSHMEM) (r : Shmregion) : (s.setShm i r).shmtable i = r := if_pos rfl

theorem setShm_of_ne (s : State L) {i j : Fin NSHMEM} (r : Shmregion) (h : j ≠ i) :
    (s.setShm i r).shmtable j = s.shmtable j := if_neg h

/-! ## The invariant -/

structure Books (s : State L) (g : Ledger) : Prop where
  holds : Holds g s.kmem
  paged : g.Paged L
  accounts : Accounts L s.view g
  sz : ∀ p, (s.proc p).sz ≤ TRAPFRAME
  unused : ∀ p, (s.proc p).state = .unused → s.proc p = .zero
  vacant : ∀ i, (s.shmtable i).key = 0 → (s.shmtable i).kpage = 0
  refs : ∀ i, (s.shmtable i).key ≠ 0 → (s.shmtable i).refcount = g.count (s.shmtable i).kpage
  room : ∀ p, (s.proc p).state ≠ .unused → ∀ v, (g.room (s.proc p).pagetable v ↔ UserRoom (s.proc p).sz v)

theorem view_space (hp : (s.proc p).state ≠ .unused) :
    s.view.space p = some ((s.proc p).pagetable, (s.proc p).trapframe) := Proc.entry_live hp

theorem view_region (hi : (s.shmtable i).key ≠ 0) :
    s.view.region i = some (s.shmtable i).kpage := Shmregion.entry_live hi

section

variable (h : Books s g) (hp : (s.proc p).state ≠ .unused)

include h hp

theorem Books.top : Top L g (s.proc p).pagetable (s.proc p).trapframe := h.accounts.top (view_space hp)

theorem Books.frames : Frames L g (s.proc p).trapframe := h.accounts.frames (view_space hp)

theorem Books.unseen (hv : v < trapframeNo) (hnone : ∀ x, s.view.IsRegion x → ¬ g.sees (s.proc p).pagetable v x) :
    Unseen g (s.proc p).pagetable v := by
  intro x hx hs
  rcases h.accounts.only (view_space hp) v x hx hs with htop | htop | hregion
  · have hlt : trapframeNo < trampolineNo := by decide
    omega
  · omega
  · exact hnone x hregion hs

theorem Books.hasRoom : HasRoom g (s.proc p).space := fun v hv => (h.room p hp v).mpr (.inl hv)

theorem Books.table_inj {q : Fin NPROC}
    (hq : (s.proc q).state ≠ .unused) (heq : (s.proc p).pagetable = (s.proc q).pagetable) : p = q := by
  have hspace := view_space hq
  rw [← heq] at hspace
  exact h.accounts.table_inj (view_space hp) hspace

end

theorem Proc.entry_eq {q q' : Proc} (h : q.entry = q'.entry) (hq : q.state ≠ .unused) :
    q'.state ≠ .unused ∧ q.pagetable = q'.pagetable := by
  rw [entry_live hq] at h
  by_cases hun : q'.state = .unused
  · have hnone : q'.entry = none := if_pos hun
    rw [hnone] at h
    cases h
  · rw [entry_live hun] at h
    exact ⟨hun, congrArg Prod.fst (Option.some.inj h)⟩

variable {m : Kernel L α} {sz : Nat}

section

variable (h : Books s g)

include h

theorem Books.congr (hk : Holds g t.kmem)
    (hentry : ∀ p, (t.proc p).entry = (s.proc p).entry) (hsz : ∀ p, (t.proc p).sz = (s.proc p).sz)
    (hunused : ∀ p, (t.proc p).state = .unused → t.proc p = .zero) (hshm : t.shmtable = s.shmtable) : Books t g := by
  have hview : t.view = s.view := by
    unfold State.view
    rw [hshm]
    simp only [hentry]
  refine ⟨hk, h.paged, hview ▸ h.accounts, fun p => ?_, hunused, ?_, ?_, fun p hp v => ?_⟩
  · rw [hsz]
    exact h.sz p
  · rw [hshm]
    exact h.vacant
  · rw [hshm]
    exact h.refs
  · obtain ⟨hp', htable⟩ := Proc.entry_eq (hentry p) hp
    rw [htable, hsz]
    exact h.room p hp' v

theorem Books.setKmem (hk : Holds g k) : Books (s.setKmem k) g := h.congr hk (fun _ => rfl) (fun _ => rfl) h.unused rfl

theorem Books.setProc (hp : (s.proc p).state ≠ .unused)
    (hq : q.state ≠ .unused) (hpagetable : q.pagetable = (s.proc p).pagetable)
    (htrapframe : q.trapframe = (s.proc p).trapframe) (hsz : q.sz = (s.proc p).sz) : Books (s.setProc p q) g := by
  refine h.congr h.holds (fun p' => ?_) (fun p' => ?_) (fun p' => ?_) rfl
  · by_cases heq : p' = p
    · rw [heq, setProc_self, Proc.entry_live hp, Proc.entry_live hq, hpagetable, htrapframe]
    · rw [setProc_of_ne s q heq]
  · by_cases heq : p' = p
    · rw [heq, setProc_self]
      exact hsz
    · rw [setProc_of_ne s q heq]
  by_cases heq : p' = p
  · rw [heq, setProc_self]
    exact fun hun => absurd hun hq
  · rw [setProc_of_ne s q heq]
    exact h.unused p'

theorem Books.setSpace {g' : Ledger} (hk : Holds g' k) (hpaged : g'.Paged L)
    (hacc : Accounts L (s.view.setSpace p q.entry) g') (hsz : q.sz ≤ TRAPFRAME)
    (hunused : q.state = .unused → q = .zero) (hcount : ∀ i x, s.view.region i = some x → g'.count x = g.count x)
    (hroom : q.state ≠ .unused → ∀ v, (g'.room q.pagetable v ↔ UserRoom q.sz v))
    (hrooms : ∀ p' ≠ p, (s.proc p').state ≠ .unused → ∀ v,
      (g'.room (s.proc p').pagetable v ↔ g.room (s.proc p').pagetable v)) : Books ((s.setKmem k).setProc p q) g' := by
  refine ⟨hk, hpaged, ?_, fun p' => ?_, fun p' => ?_, h.vacant, fun i hi => ?_, fun p' => ?_⟩
  · rw [view_setProc]
    exact hacc
  · by_cases heq : p' = p
    · rw [heq, setProc_self]
      exact hsz
    · rw [setProc_of_ne _ _ heq]
      exact h.sz p'
  · by_cases heq : p' = p
    · rw [heq, setProc_self]
      exact hunused
    · rw [setProc_of_ne _ _ heq]
      exact h.unused p'
  · have hkept := hcount i (s.shmtable i).kpage (view_region hi)
    have hrefs := h.refs i hi
    rw [← hkept] at hrefs
    exact hrefs
  by_cases heq : p' = p
  · rw [heq, setProc_self]
    exact hroom
  · rw [setProc_of_ne _ _ heq]
    exact fun hp' v => (hrooms p' heq hp' v).trans (h.room p' hp' v)

theorem Books.resize (hp : (s.proc p).state ≠ .unused)
    (hsz : sz ≤ TRAPFRAME) (hk : Holds (g.sized (s.proc p).pagetable sz) k) :
    Books ((s.setKmem k).setProc p { s.proc p with sz := sz }) (g.sized (s.proc p).pagetable sz) := by
  have hentry : ({ s.proc p with sz := sz } : Proc).entry = s.view.space p := rfl
  refine h.setSpace hk h.paged ?_ hsz (fun hun => absurd hun hp) (fun _ _ _ => rfl)
    (fun _ v => sized_self) fun p' hne hp' v => sized_of_ne fun heq => hne (h.table_inj hp' hp heq)
  rw [hentry, setSpace_same rfl]
  exact h.accounts.withRoom _

theorem Books.room_grows {sz r' : Nat} (hp : (s.proc p).state ≠ .unused)
    (hle : (s.proc p).sz ≤ sz) (hroom : g.room r' v) : (g.sized (s.proc p).pagetable sz).room r' v := by
  by_cases heq : r' = (s.proc p).pagetable
  · rw [heq] at hroom ⊢
    rw [sized_self]
    exact ((h.room p hp v).mp hroom).imp_left fun hlt => Nat.lt_of_lt_of_le hlt (pagesOf_mono hle)
  · exact (sized_of_ne heq).mpr hroom

theorem Books.grow (hp : (s.proc p).state ≠ .unused) (hle : (s.proc p).sz ≤ sz) (hsz : sz ≤ TRAPFRAME) :
    Books (s.setProc p { s.proc p with sz := sz }) (g.sized (s.proc p).pagetable sz) :=
  h.resize hp hsz (h.holds.widen fun _ _ _ hroom => h.room_grows hp hle hroom)

end

/-! ## Running memory code -/

theorem lift_ok {a : α} (h : lift m s = .ok (a, t)) : ∃ k, m s.kmem = .ok (a, k) ∧ t = s.setKmem k := by
  unfold lift at h
  split at h
  · next a' k hm =>
    cases h
    exact ⟨k, hm, rfl⟩
  · cases h

theorem lift_bind_ok {f : α → Sys L β} {b : β} (h : (lift m >>= f) s = .ok (b, t)) :
    ∃ a k, m s.kmem = .ok (a, k) ∧ f a (s.setKmem k) = .ok (b, t) := by
  obtain ⟨a, s₁, hm, hf⟩ := bind_ok h
  obtain ⟨k, hk, heq⟩ := lift_ok hm
  rw [heq] at hf
  exact ⟨a, k, hk, hf⟩

theorem lift_at {f : α → Sys L β} {P : Kmem L → Prop} {Q : α → Kmem L → Prop} {R : β → State L → Prop}
    {E : Panic → Prop} (hm : Triple P m Q E) (hs : P s.kmem)
    (hf : ∀ a k, m s.kmem = .ok (a, k) → Q a k → Triple (fun t => t = s.setKmem k) (f a) R E) :
    Triple (fun t => t = s) (lift m >>= f) R E := by
  cases hm' : m s.kmem with
  | ok r =>
    have hlift : lift m s = .ok (r.1, s.setKmem r.2) := by
      unfold lift
      rw [hm']
    exact step_at (bind_of_ok hlift) (hf r.1 r.2 hm' (hm.ok hs hm'))
  | error e =>
    have hlift : lift m s = .error e := by
      unfold lift
      rw [hm']
    have hthrow : Triple (fun t => t = s) (throw e : Sys L β) R E := .throw fun _ _ => hm.error hs hm'
    exact step_at (bind_of_error hlift) hthrow

/-- The panics that are no alarm. -/
def Calm (e : Panic) : Prop := ¬ Alarm e

theorem calmly {φ : Prop} (h : φ) : Allows Calm φ := .inr ⟨fun _ he => he, h⟩

/-! ## `sbrk` -/

/-- None of the user pages from `lo` on belongs to a region. -/
def SparesFrom (s : State L) (g : Ledger) (p : Fin NPROC) (lo : Nat) : Prop :=
  ∀ v, lo ≤ v → v < PGROUNDUP (s.proc p).sz / PGSIZE → ∀ x, s.view.IsRegion x → ¬ g.sees (s.proc p).pagetable v x

theorem lt_trapframeNo (hsz : sz ≤ TRAPFRAME) (hv : v < PGROUNDUP sz / PGSIZE) : v < trapframeNo := by
  rw [PGROUNDUP_div (Nat.le_trans hsz (by decide))] at hv
  unfold trapframeNo TRAPFRAME TRAMPOLINE MAXVA PGSIZE at *
  omega

section

variable (h : Books s g) (hp : (s.proc p).state ≠ .unused)

include h hp

theorem Books.holds_sized : Holds (g.sized (s.proc p).pagetable (s.proc p).sz) s.kmem :=
  h.holds.widen fun _ _ _ hroom => h.room_grows hp (Nat.le_refl _) hroom

theorem Books.holds_of_sized (hk : Holds (g.sized (s.proc p).pagetable (s.proc p).sz) k) : Holds g k := by
  refine hk.widen fun r' _ v hroom => ?_
  by_cases heq : r' = (s.proc p).pagetable
  · rw [heq, sized_self] at hroom
    rw [heq]
    exact (h.room p hp v).mpr hroom
  · exact (sized_of_ne heq).mp hroom

theorem Books.no_room (hsz : sz ≤ TRAPFRAME) (hlo : pagesOf (s.proc p).sz ≤ v) (hhi : v < pagesOf sz) :
    ¬ g.room (s.proc p).pagetable v := by
  rw [h.room p hp]
  unfold UserRoom trampolineNo trapframeNo pagesOf TRAPFRAME TRAMPOLINE MAXVA PGSIZE at *
  omega

theorem growproc_rule {n : Int}
    (hspares : n < 0 → SparesFrom s g p (PGROUNDUP (uint64 ((s.proc p).sz + n)) / PGSIZE)) :
    Triple (fun t => t = s) (growproc p n) (fun _ t => ∃ g', Books t g') Calm := by
  have htop := h.top hp
  have hsz := h.sz p
  have hmax : (s.proc p).sz ≤ MAXVA := Nat.le_trans hsz (by decide)
  have hsized := h.holds_sized hp
  have htop' : Top L (g.sized (s.proc p).pagetable (s.proc p).sz) (s.proc p).pagetable
      (s.proc p).trapframe := ⟨htop.mem, htop.trampoline, htop.trapframe⟩
  unfold growproc
  refine get_at (.ite (fun _ => .ite (fun _ => pure_at ⟨_, h⟩) fun hle => ?_) fun _ => .ite (fun hshrink => ?_) fun _ =>
    pure_at ⟨_, h⟩)
  · have hnew : uint64 ((s.proc p).sz + n) ≤ TRAPFRAME := Nat.le_of_not_lt hle
    have hroom : ∀ v, pagesOf (s.proc p).sz ≤ v → v < pagesOf (uint64 ((s.proc p).sz + n)) →
        ¬ (g.sized (s.proc p).pagetable (s.proc p).sz).room (s.proc p).pagetable v := by
      intro v hlo hhi
      rw [sized_self, ← h.room p hp]
      exact h.no_room hp hnew hlo hhi
    refine lift_at (uvmalloc_rule htop'.mem (by decide) hmax (calmly ⟨Nat.le_trans hnew (by decide), hroom⟩)) hsized
      fun sz k _ hpost => .ite (fun hfail => ?_) fun hfail => modify_at (pure_at ?_)
    · rw [hfail] at hpost
      exact pure_at ⟨_, h.setKmem (h.holds_of_sized hp hpost.failed)⟩
    · have hf : (g.sized (s.proc p).pagetable (s.proc p).sz).shared (s.proc p).trapframe := (h.frames hp).trapframe
      exact ⟨_, h.resize hp (hpost.le_trapframe hf htop' hsz hfail) (hpost.grown hfail)⟩
  have hun : ∀ v, PGROUNDUP (uint64 ((s.proc p).sz + n)) / PGSIZE ≤ v →
      v < PGROUNDUP (s.proc p).sz / PGSIZE → Unseen g (s.proc p).pagetable v :=
    fun v hlo hhi => h.unseen hp (lt_trapframeNo hsz hhi) (hspares hshrink v hlo hhi)
  refine lift_at (uvmdealloc_rule htop'.mem hmax hun (calmly trivial)) hsized fun sz k _ hpost =>
    modify_at (pure_at ?_)
  rcases hpost with ⟨-, hret, hk⟩ | ⟨hlt, hret, hk⟩
  · rw [hret]
    exact ⟨_, h.resize hp hsz hk⟩
  rw [hret]
  refine ⟨_, h.resize hp (Nat.le_trans (Nat.le_of_lt hlt) hsz) (hk.widen fun r' _ v hin => ?_)⟩
  by_cases heq : r' = (s.proc p).pagetable
  · have hold := hin.1
    rw [heq, sized_self] at hold
    rw [if_pos heq]
    refine hold.imp_left fun hhi => ?_
    by_contra hlo
    exact hin.2 ⟨heq, Nat.le_of_not_lt hlo, hhi⟩
  · rw [if_neg heq]
    exact (sized_of_ne heq).mp hin.1

theorem sysSbrk_rule {n ty : Int}
    (hspares : n < 0 → SparesFrom s g p (PGROUNDUP (uint64 ((s.proc p).sz + n)) / PGSIZE)) :
    Triple (fun t => t = s) (sysSbrk p n ty) (fun _ t => ∃ g', Books t g') Calm := by
  unfold sysSbrk
  refine get_at (.ite (fun _ => ?_) fun _ => .ite (fun _ => pure_at ⟨_, h⟩) fun hge =>
    .ite (fun _ => pure_at ⟨_, h⟩) fun hle => ?_)
  · exact (growproc_rule h hp hspares).bind fun r => .ite (fun _ => .pure fun _ h => h) fun _ => .pure fun _ h => h
  · exact modify_at (pure_at ⟨_, h.grow hp (Nat.le_of_not_lt hge) (Nat.le_of_not_lt hle)⟩)

end

/-! ## `exit`, page faults and stores -/

theorem reparent_books (h : Books s g) (p : Fin NPROC) : Books (reparent s p) g := by
  have hproc : ∀ pp, (reparent s p).proc pp = s.proc pp ∨
      ((s.proc pp).parent = some p ∧ (reparent s p).proc pp = { s.proc pp with parent := some s.initproc }) := by
    intro pp
    by_cases hparent : (s.proc pp).parent = some p
    · exact .inr ⟨hparent, if_pos hparent⟩
    · exact .inl (if_neg hparent)
  refine h.congr h.holds (fun pp => ?_) (fun pp => ?_) (fun pp hun => ?_) rfl
  · rcases hproc pp with heq | ⟨-, heq⟩
    · rw [heq]
    · rw [heq]
      rfl
  · rcases hproc pp with heq | ⟨-, heq⟩ <;> rw [heq]
  rcases hproc pp with heq | ⟨hparent, heq⟩
  · rw [heq] at hun ⊢
    exact h.unused pp hun
  -- A slot of the zeroed table has no parent.
  rw [heq] at hun
  rw [h.unused pp hun] at hparent
  cases hparent

theorem reparent_state (s : State L) (p pp : Fin NPROC) : ((reparent s p).proc pp).state = (s.proc pp).state := by
  unfold reparent
  dsimp only
  split <;> rfl

theorem kexit_rule {status : Int} (h : Books s g) (hp : (s.proc p).state ≠ .unused) :
    Triple (fun t => t = s) (kexit p status) (fun _ t => Books t g) Calm := by
  unfold kexit
  refine get_at (.ite (fun _ => .throw fun _ _ => ?_) fun _ => ?_)
  · -- Only the first process cannot leave.
    show ¬ Alarm .initExiting
    decide
  have hp' : ((reparent s p).proc p).state ≠ .unused := by
    rw [reparent_state]
    exact hp
  exact step_at (set_bind _ _ s) (pure_at ((reparent_books h p).setProc hp' (fun hz => by cases hz) rfl rfl rfl))

theorem pageFault_rule {va : Nat} (h : Books s g) (hp : (s.proc p).state ≠ .unused) :
    Triple (fun t => t = s) (pageFault p va) (fun _ t => Books t g) Calm := by
  have hmem := (h.top hp).mem
  have hmax : (s.proc p).sz ≤ MAXVA := Nat.le_trans (h.sz p) (by decide)
  unfold pageFault
  refine get_at (lift_at (vmfault_rule hmem hmem (h.hasRoom hp) (calmly ⟨rfl, hmax⟩)) h.holds fun r k _ hpost => ?_)
  exact .ite (fun _ => pure_at (h.setKmem hpost.2)) fun _ => kexit_rule (h.setKmem hpost.2) hp

theorem accessiblePage_rule {flag r va : Nat} (hr : r ∈ g.tables) (hE : Allows E True) :
    Triple (Holds (L := L) g) (accessiblePage flag r va) (PagePost g) E := by
  have hnull : ∀ k, Holds (L := L) g k → PagePost g 0 k := fun k h => ⟨fun h0 => absurd rfl h0, h⟩
  unfold accessiblePage
  refine .ite (fun _ => .pure hnull) fun hmax => ?_
  refine (walk_look_rule hr (hE.mono fun _ => Nat.lt_of_not_le hmax)).bind fun pte =>
    .ite (fun _ => .pure hnull) fun _ => ?_
  refine loadWord_rule.bind fun e => .ite (fun _ => .pure hnull) fun _ => ?_
  exact walkaddr_rule hr

theorem userStore_rule {va : Nat} {b : UInt8} (h : Books s g) (hp : (s.proc p).state ≠ .unused) :
    Triple (fun t => t = s) (userStore p va b) (fun _ t => Books t g) Calm := by
  unfold userStore
  refine get_at (lift_at (accessiblePage_rule (h.top hp).mem (calmly trivial)) h.holds fun page k _ hpost => ?_)
  refine .ite (fun _ => pageFault_rule (h.setKmem hpost.2) hp) fun hpage => ?_
  have hlt : va % PGSIZE < PGSIZE := Nat.mod_lt va (by decide)
  exact modify_at (pure_at (h.setKmem (hpost.2.store (hpost.1 hpage) (l := [b]) (va % PGSIZE) hlt)))

/-! ## `wait` -/

def SparesAll (s : State L) (g : Ledger) (p : Fin NPROC) : Prop :=
  ∀ v < NENTRIES, ∀ x, s.view.IsRegion x → ¬ g.sees (s.proc p).pagetable v x

theorem lt_NENTRIES_of_sz (hsz : sz ≤ TRAPFRAME) (hv : v < PGROUNDUP sz / PGSIZE) :
    v < NENTRIES := Nat.lt_trans (lt_trapframeNo hsz hv) (by decide)

section

variable (h : Books s g) (hp : (s.proc p).state ≠ .unused) (hspares : SparesAll s g p)

include h hp hspares

theorem SparesAll.noneShared : NoneShared g (s.proc p).space :=
  fun v hv => h.unseen hp (lt_trapframeNo (h.sz p) hv) (hspares v (lt_NENTRIES_of_sz (h.sz p) hv))

theorem Books.plain : Plain L g (s.proc p).pagetable (s.proc p).trapframe (s.proc p).sz :=
  NoneShared.plain (p := (s.proc p).space) (hspares.noneShared h hp) h.paged (h.frames hp) (h.top hp) (h.room p hp) (h.sz p)

theorem freeproc_books : ∃ t, freeproc p s = .ok ((), t) ∧
      Books t ((g.drop (s.proc p).pagetable).release (s.proc p).trapframe) := by
  have hspace := view_space hp
  obtain ⟨k₁, k, htrapframe, htable, hk⟩ := (h.plain hp hspares).freeMemory h.holds
    fun r hr hne v => h.accounts.frame_unseen hspace hr hne v
  have hmemory : freeMemory (s.proc p) s.kmem = .ok ((), k) := by
    unfold freeMemory
    rw [if_pos (h.frames hp).isPage.ne_zero, if_pos (h.holds.table_ne_zero (h.top hp).mem), bind_of_ok htrapframe]
    exact htable
  refine ⟨_, freeproc_run hmemory, h.setSpace hk (h.paged.release (h.frames hp).isPage) (h.accounts.dropSpace hspace)
    (Nat.zero_le _) (fun _ => rfl) (fun i x hi => ?_) (fun hlive => absurd rfl hlive) fun _ _ _ _ => Iff.rfl⟩
  rw [count_release]
  exact count_drop (h.top hp).mem fun v hv => hspares v hv x ⟨i, hi⟩

end

theorem zombieChild_live {pp : Fin NPROC} (h : zombieChild s p = some pp) : (s.proc pp).state ≠ .unused := by
  have hfound := List.find?_some h
  simp only [decide_eq_true_eq] at hfound
  rw [hfound.2]
  decide

theorem copyStatus_rule {addr : Nat} {xstate : Int} (hr : q.pagetable ∈ g.tables) (hroom : HasRoom g q.space) :
    Triple (Holds (L := L) g) (copyStatus q addr xstate) (fun _ => Holds g) Any :=
  .ite (fun _ => copyout_rule hr hr hroom) fun _ => .pure fun _ h => h

theorem kwait_books {addr : Nat} (h : Books s g) (hp : (s.proc p).state ≠ .unused)
    (hspares : ∀ pp, zombieChild s p = some pp → ret ≠ -1 → SparesAll s g pp)
    (hrun : kwait p addr s = .ok (ret, t)) : ∃ g', Books t g' := by
  have hmem := (h.top hp).mem
  unfold kwait at hrun
  rw [get_bind] at hrun
  cases hchild : zombieChild s p with
  | none =>
    simp only [hchild] at hrun
    rw [(pure_ok hrun).2]
    exact ⟨_, h⟩
  | some pp =>
    simp only [hchild] at hrun
    have hpp := zombieChild_live hchild
    obtain ⟨r, k, hcopy, hrest⟩ := lift_bind_ok hrun
    have hk := (copyStatus_rule hmem (h.hasRoom hp)).ok h.holds hcopy
    split at hrest
    · rw [(pure_ok hrest).2]
      exact ⟨_, h.setKmem hk⟩
    obtain ⟨_, s₂, hfree, hend⟩ := bind_ok hrest
    have hret := pure_ok hend
    have hne : ret ≠ -1 := by
      rw [hret.1]
      omega
    obtain ⟨t', hfree', hbooks⟩ := freeproc_books (h.setKmem hk) hpp (hspares pp hchild hne)
    rw [hfree'] at hfree
    cases hfree
    rw [hret.2]
    exact ⟨_, hbooks⟩

/-! ## `exec` -/

theorem sysExecCall_books {upath uargv : Nat} {namei : List UInt8 → Option (List UInt8)}
    (h : Books s g) (hp : (s.proc p).state ≠ .unused) (hspares : ret ≠ -1 → SparesAll s g p)
    (hrun : sysExecCall p upath uargv namei s = .ok (ret, t)) : ∃ g', Books t g' := by
  have hspace := view_space hp
  unfold sysExecCall at hrun
  rw [get_bind] at hrun
  obtain ⟨e, k, hexec, hrest⟩ := lift_bind_ok hrun
  have hpost := (sysExec_rule (h.frames hp) (h.top hp) h.paged (h.room p hp) (h.sz p)).ok h.holds hexec
  cases e with
  | none =>
    rw [(pure_ok hrest).2]
    exact ⟨_, h.setKmem hpost⟩
  | some e =>
    simp only [modify_bind] at hrest
    have hret := pure_ok hrest
    have hne : ret ≠ -1 := by
      rw [hret.1]
      omega
    have hall := hspares hne
    have hk := hpost.2 (hall.noneShared h hp)
    rw [hret.2]
    have hr := hpost.1.1
    have hfresh : ∀ {p'}, (s.proc p').state ≠ .unused → (s.proc p').pagetable ≠ e.space.pagetable :=
      fun hp' heq => hr (heq ▸ (h.top hp').mem)
    refine ⟨_, h.setSpace hk h.paged ?_ hpost.1.2 (fun hun => absurd hun hp) (fun i x hi => ?_)
      (fun _ _ => sized_self) fun p' _ hp' v => ?_⟩
    · rw [Proc.entry_live]
      · exact (h.accounts.replaceSpace hspace hr).withRoom _
      · exact hp
    · have hframe : x ≠ (s.proc p).trapframe := fun heq => h.accounts.disjoint ⟨p, _, hspace⟩ ⟨i, heq ▸ hi⟩
      have hmem := mem_insert_of_mem (b := e.space.pagetable) (h.top hp).mem
      have hne : (s.proc p).pagetable ≠ e.space.pagetable := fun heq => hr (heq ▸ (h.top hp).mem)
      rw [← count_space hr (h.accounts.region_ne_trampoline hi) hframe]
      show ((g.space L e.space.pagetable (s.proc p).trapframe).drop (s.proc p).pagetable).count x = _
      refine count_drop hmem fun v hv => ?_
      show ¬ if (s.proc p).pagetable = e.space.pagetable then _ else _
      rw [if_neg hne]
      exact hall v hv x ⟨i, hi⟩
    · rw [sized_of_ne (hfresh hp')]
      show (g.space L e.space.pagetable (s.proc p).trapframe).room _ v ↔ _
      exact space_of_ne (hfresh hp')

/-! ## `fork` -/

theorem Books.same (h : Books s g) (hk : Holds g t.kmem) (hproc : ∀ p, t.proc p = s.proc p)
    (hshm : t.shmtable = s.shmtable) : Books t g := by
  refine h.congr hk (fun p => ?_) (fun p => ?_) (fun p => ?_) hshm
  · rw [hproc]
  · rw [hproc]
  · rw [hproc]
    exact h.unused p

theorem Books.born {kb k : Kmem L} {tf r : Nat} (h : Books s g) (hslot : (s.proc np).state = .unused)
    (hothers : ∀ p ≠ np, t.proc p = s.proc p) (hshm : t.shmtable = s.shmtable) (ht : Taken s.kmem kb tf)
    (hm : Made kb k r tf) (habove : ∀ v, pagesOf (t.proc np).sz ≤ v → v < trapframeNo → lookup k r v = none)
    (hlist : t.kmem.freelist = k.freelist) (hframe : ∀ y, y % PGSIZE = 0 → y ≠ tf → Agree k.mem t.kmem.mem y PGSIZE)
    (hlive : (t.proc np).state ≠ .unused) (hsz : (t.proc np).sz ≤ TRAPFRAME) (hr : (t.proc np).pagetable = r)
    (htf : (t.proc np).trapframe = tf) : ∃ g', Books t g' := by
  obtain ⟨hf, hkb⟩ := h.holds.take ht.freelist ht.isPage ht.others
  have hframes : Frames L (g.hold tf) tf := ⟨.inl h.accounts.shared_trampoline, g.shared_hold tf, hf.isPage⟩
  obtain ⟨hnew, hk⟩ := hm.holds hkb hframes habove
  have hk' : Holds (((g.hold tf).space L r tf).sized r (t.proc np).sz) t.kmem := by
    refine hk.same (fun x => ?_) fun r' hr' => hk.sameTable (hk.shared tf hframes.trapframe).2 hframe hr'
    unfold Kmem.free
    rw [hlist]
  have hset : Books ((s.setKmem t.kmem).setProc np (t.proc np)) (((g.hold tf).space L r tf).sized r (t.proc np).sz) := by
    refine h.setSpace hk' h.paged ?_ hsz (fun hun => absurd hun hlive) (fun i x hi => ?_) (fun _ v => ?_) fun p _ hp v => ?_
    · have hnone : s.view.space np = none := if_pos hslot
      rw [Proc.entry_live hlive, hr, htf]
      exact (h.accounts.addSpace hnone hf hnew).withRoom _
    · have hne : x ≠ tf := fun heq => hf.not_shared (heq ▸ h.accounts.shared_region hi)
      exact (count_space hnew (h.accounts.region_ne_trampoline hi) hne).trans (count_hold_of_ne hne)
    · rw [hr]
      exact sized_self
    · have hne : (s.proc p).pagetable ≠ r := fun heq => hnew (heq ▸ (h.top hp).mem)
      rw [sized_of_ne hne]
      exact space_of_ne hne
  refine ⟨_, hset.same hk' (fun p => ?_) hshm⟩
  by_cases heq : p = np
  · rw [heq, setProc_self]
  · rw [setProc_of_ne _ _ heq]
    exact hothers p heq

/-- In every state that the books describe, any process can be copied, whatever it shares. -/
theorem Holds.elsewhere {root v pa f : Nat} (h : Holds g k) (hr : root ∈ g.tables)
    (hlook : lookup k root v = some (pa, f)) : k.free pa + pages k.mem 2 root pa = 0 := by
  by_cases hx : g.shared pa
  · have hzero := h.shared pa hx
    have hpages := hzero.2 root hr
    omega
  have hvn := lt_of_lookup hlook
  have hhit : Hits (leaf k.mem 2 root v) pa := by
    rw [← pointsTo_lookup (h.wf root hr) hvn, hlook]
    exact pointsTo_some.mpr rfl
  have hpos := mapsTo_pos (lt_NENTRIES hvn) hhit
  have hle := h.uses_le hr hx
  unfold uses at hle
  omega

theorem Books.forkable {g : Ledger} (h : Books s g) (hp : (s.proc p).state ≠ .unused) : Forkable s p := by
  refine ⟨hp, h.holds.free_le, fun q hq => ?_, fun q hq => ?_, h.sz p, h.unused⟩
  · have hmem := (h.top hq).mem
    have hwf := h.holds.wf _ hmem
    refine ⟨hwf, fun x hx => ?_, fun _ hlook => (Nat.add_eq_zero_iff.mp (h.holds.elsewhere hmem hlook)).1⟩
    have hapart := (h.holds.apart hmem).2 x
    omega
  · exact (h.holds.shared _ (h.frames hq).trapframe).1

theorem kfork_books (h : Books s g) (hp : (s.proc p).state ≠ .unused)
    (hrun : kfork p s = .ok (ret, t)) : ∃ g', Books t g' := by
  have hready := h.forkable hp
  obtain ⟨ret', t', hrun', hcases⟩ := hready.kfork
  rw [hrun] at hrun'
  cases hrun'
  rcases hcases with ⟨np, kb, k, tf, r, -, hchild⟩ | ⟨-, hsame⟩
  · have hproc := hchild.proc
    refine h.born hchild.slot hchild.others hchild.shmtable hchild.taken hchild.copied.toMade ?_ hchild.freelist
      hchild.frame ?_ ?_ ?_ ?_
    · rw [hproc]
      exact hchild.copied.above
    · rw [hproc]
      exact fun hun => by cases hun
    · rw [hproc]
      exact h.sz p
    · rw [hproc]
    · rw [hproc]
  · exact ⟨g, h.same (h.holds.noTrace hsame.memory) (fun p => by rw [hsame.proc]) hsame.shmtable⟩

/-! ## Boot -/

theorem pagesFrom_length (a n : Nat) : (pagesFrom a n).length = n := by
  induction n generalizing a with
  | zero => rfl
  | succ n ih => rw [pagesFrom, List.length_append, ih, List.length_singleton]

theorem le_of_mem_pagesFrom {a n x : Nat} (h : x ∈ pagesFrom a n) : a ≤ x := by
  induction n generalizing a with
  | zero => cases h
  | succ n ih =>
    rw [pagesFrom, List.mem_append, List.mem_singleton] at h
    cases h with
    | inl hrest => exact Nat.le_trans (Nat.le_add_right a PGSIZE) (ih hrest)
    | inr heq => exact Nat.le_of_eq heq.symm

theorem pagesFrom_nodup (a n : Nat) : (pagesFrom a n).Nodup := by
  induction n generalizing a with
  | zero => exact List.nodup_nil
  | succ n ih =>
    apply List.Nodup.append (ih _) (List.nodup_singleton a)
    intro x hx hmem
    have hle := le_of_mem_pagesFrom hx
    rw [List.mem_singleton] at hmem
    unfold PGSIZE at hle
    omega

theorem pagesFrom_drop (a m n : Nat) : (pagesFrom a (m + n)).drop n = pagesFrom a m := by
  induction m generalizing a with
  | zero =>
    rw [Nat.zero_add]
    exact List.drop_of_length_le (Nat.le_of_eq (pagesFrom_length a n))
  | succ m ih =>
    have hlen := pagesFrom_length (a + PGSIZE) (m + n)
    rw [Nat.add_right_comm, pagesFrom, pagesFrom, List.drop_append_of_le_length (by omega), ih]

theorem freerange_run {a n : Nat} (k : Kmem L) (hpages : ∀ i < n, L.IsPage (a + i * PGSIZE)) :
    ∃ k', freerange a n k = .ok ((), k') ∧ k'.freelist = pagesFrom a n ++ k.freelist := by
  induction n generalizing a k with
  | zero => exact ⟨k, rfl, rfl⟩
  | succ n ih =>
    have hfirst : L.IsPage a := by
      have hzero := hpages 0 (Nat.succ_pos n)
      rw [Nat.zero_mul, Nat.add_zero] at hzero
      exact hzero
    obtain ⟨k₁, hfree, hlist, -⟩ := kfree_page k hfirst
    obtain ⟨k', hrest, hlist'⟩ := ih (a := a + PGSIZE) k₁ (fun i hi => by
      have hnext := hpages (i + 1) (by omega)
      rw [Nat.succ_mul, Nat.add_comm (i * PGSIZE), ← Nat.add_assoc] at hnext
      exact hnext)
    refine ⟨k', ?_, ?_⟩
    · show (kfree a k >>= fun r => freerange (a + PGSIZE) n r.2) = .ok ((), k')
      rw [hfree]
      exact hrest
    · rw [hlist', hlist, pagesFrom, List.append_assoc]
      rfl

theorem kinit_run (L : Layout) (m : Mem) : ∃ k, kinit L (emptyKmem L m) = .ok ((), k) ∧
      k.freelist = pagesFrom (PGROUNDUP L.kend) ((PHYSTOP - PGROUNDUP L.kend) / PGSIZE) := by
  have hle := L.kend_le
  have hround : L.kend ≤ PGROUNDUP L.kend := by
    rw [PGROUNDUP_eq (Nat.le_trans hle (by decide))]
    unfold PGSIZE
    omega
  have haligned := PGROUNDUP_aligned L.kend
  obtain ⟨k, hrun, hlist⟩ := freerange_run (a := PGROUNDUP L.kend)
    (n := (PHYSTOP - PGROUNDUP L.kend) / PGSIZE) (emptyKmem L m) (fun i hi => by
      generalize PGROUNDUP L.kend = a at *
      unfold Layout.IsPage
      unfold PGSIZE at *
      omega)
  refine ⟨k, hrun, ?_⟩
  rw [hlist]
  exact List.append_nil _

/-- The books before the first process: nothing is in use but the trampoline. -/
def Ledger.start (k : Kmem L) (h : k.freelist.Nodup) : Ledger where
  shared x := x = L.trampoline
  tables := ∅
  sees _ _ _ := False
  room _ _ := False
  total x := k.free x
  total_le x := List.nodup_iff_count_le_one.mp h x

theorem start_holds (h : k.freelist.Nodup) : Holds (Ledger.start k h) k := by
  refine ⟨fun r hr => absurd hr (notMem_empty r), fun x _ => ?_, fun x hx => ⟨?_, fun r hr => ?_⟩,
    fun r hr => absurd hr (notMem_empty r), fun r hr => absurd hr (notMem_empty r)⟩
  · show k.free x + ∑ r ∈ ∅, uses k.mem r x = k.free x
    rw [sum_empty, Nat.add_zero]
  · -- The trampoline lies below the pages that are ever freed.
    by_contra hfree
    exact (Kmem.isPage_of_free (Nat.pos_of_ne_zero hfree)).ne_trampoline hx
  · exact absurd hr (notMem_empty r)

theorem start_paged (h : k.freelist.Nodup) : (Ledger.start k h).Paged L :=
  fun _ hx => Kmem.isPage_of_free (Nat.pos_of_ne_zero hx)

theorem start_space (e : Nat × Nat) : (State.start k).view.space p ≠ some e := fun hp => by cases hp

theorem start_region (x : Nat) : (State.start k).view.region i ≠ some x := fun hi => by cases hi

theorem start_accounts (h : k.freelist.Nodup) : Accounts L (State.start k).view (Ledger.start k h) where
  tables r := ⟨fun hr => absurd hr (notMem_empty r), fun ⟨_, _, hp⟩ => absurd hp (start_space _)⟩
  shared x := by
    refine ⟨.inl, fun hx => ?_⟩
    rcases hx with hx | ⟨_, _, hp⟩ | ⟨_, hi⟩
    · exact hx
    · exact absurd hp (start_space _)
    · exact absurd hi (start_region _)
  frame_page hp := absurd hp (start_space _)
  region_page hi := absurd hi (start_region _)
  top hp := absurd hp (start_space _)
  only hp := absurd hp (start_space _)
  table_inj hp := absurd hp (start_space _)
  frame_inj hp := absurd hp (start_space _)
  region_inj hi := absurd hi (start_region _)
  disjoint := fun ⟨_, _, hp⟩ => absurd hp (start_space _)

theorem start_books (h : k.freelist.Nodup) : Books (State.start k) (Ledger.start k h) :=
  ⟨start_holds h, start_paged h, start_accounts h, fun _ => Nat.zero_le _, fun _ _ => rfl, fun _ _ => rfl,
    fun _ hi => absurd rfl hi, fun _ hp => absurd rfl hp⟩

theorem booted_books (h : Booted s) : ∃ g, Books s g := by
  obtain ⟨m, k₀, k₁, hinit, ⟨taken, htaken⟩, huser⟩ := h.boot
  have hnodup : k₁.freelist.Nodup := by
    obtain ⟨k, hrun, hlist⟩ := kinit_run L m
    have hsame : k₀ = k := congrArg Prod.snd (Except.ok.inj (hinit.symm.trans hrun))
    rw [htaken, hsame, hlist]
    exact (pagesFrom_nodup _ _).sublist (List.drop_sublist _ _)
  have hstart := start_books hnodup
  unfold userinit at huser
  obtain ⟨np, s₁, halloc, hrest⟩ := bind_ok huser
  obtain ⟨ret, s₁', halloc', hcases⟩ := allocproc_newborn hstart.holds.free_le hstart.unused
  rw [halloc] at halloc'
  cases halloc'
  rcases hcases with ⟨rfl, -⟩ | ⟨np, kb, tf, r, rfl, hs₁⟩
  · cases hrest
  have hproc := hs₁.proc
  cases hrest
  refine hstart.born hs₁.slot (fun p hne => ?_) hs₁.shmtable hs₁.taken hs₁.space.1 (fun v _ => hs₁.space.2 v)
    rfl (fun _ _ _ => .refl _ _ _) ?_ ?_ ?_ ?_
  · exact (setProc_of_ne _ _ hne).trans (hs₁.others p hne)
  · show ((s₁.setProc np _).proc np).state ≠ .unused
    rw [setProc_self]
    exact fun hun => by cases hun
  · show ((s₁.setProc np _).proc np).sz ≤ TRAPFRAME
    rw [setProc_self, hproc]
    exact Nat.zero_le _
  · show ((s₁.setProc np _).proc np).pagetable = r
    rw [setProc_self, hproc]
  · show ((s₁.setProc np _).proc np).trapframe = tf
    rw [setProc_self, hproc]

end Xv6.Vm
