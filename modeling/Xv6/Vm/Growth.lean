import Xv6.Vm.ShmStore

/-!
# Growing an address space

Eager and lazy `sbrk`, the page faults behind it, `fork` and `shmat` all choose addresses from `p->sz`, each with its
own limit.  Only `shmat` has none, and maps over the trapframe once the process has grown up to it.
-/

namespace Xv6.Vm

open Hoare Memory Ledger Runs

variable {L : Layout} {s t : State L} {g : Ledger} {p np : Fin NPROC} {ret : Int} {e : Panic} {v : Nat}

/-! ## `fork` -/

theorem kfork_no_panic (h : Books s g) (hp : (s.proc p).state ≠ .unused) : kfork p s ≠ .error e := by
  intro hrun
  obtain ⟨ret, s', hok, -⟩ := (h.forkable hp).kfork
  rw [hrun] at hok
  cases hok

/-! ## Every run -/

def GrowthCall : Call → Prop
  | .sbrk _ _ | .fork | .fault _ | .store _ _ | .shmget _ _ | .shmat _ | .shmdt _ => True
  | _ => False

instance (c : Call) : Decidable (GrowthCall c) := by
  unfold GrowthCall
  split <;> infer_instance

/-- `shmat` has failed and left the memory as it was, or mapped a page below the trapframe. -/
def AttachesBelow (s : State L) (p : Fin NPROC) (ret : Int) (t : State L) : Prop :=
  (ret = 0 ∧ Untouched s t) ∨
    ∃ va : Nat, ret = va ∧ va + PGSIZE ≤ TRAPFRAME ∧
      ¬ Valid (entryAt s p (va / PGSIZE)) ∧ Valid (entryAt t p (va / PGSIZE))

/-- After any run of `good` steps, no growth call that is `good` there panics in the page tables. -/
def GrowthNeverPanics (good : State L → Act × Int → Prop) : Prop :=
  ∀ s, Booted s → ∀ tr t, Run (restrict good Step) s tr t →
    ∀ a, GrowthCall a.call → (t.proc a.proc).state = .runnable → (∀ ret, good t (a, ret)) →
      (∀ e, body a t = .error e → Calm e) ∧
        ∀ id, a.call = .shmat id → ∀ ret u, body a t = .ok (ret, u) → AttachesBelow t a.proc ret u

/-- No region is cut off, and `shmat` finds a page left below the trapframe. -/
def GrowsBelow (s : State L) (ev : Act × Int) : Prop :=
  SparesRegions s ev ∧ ∀ id, ev.1.call = .shmat id → (s.proc ev.1.proc).sz + PGSIZE ≤ TRAPFRAME

theorem Books.attachesBelow {id : Int} (h : Books s g) (hp : (s.proc p).state ≠ .unused)
    (hdoes : ShmDoes s p (.shmat id) ret t) : AttachesBelow s p ret t := by
  cases hdoes with
  | atRefused _ hsame => exact .inl ⟨rfl, hsame⟩
  | atDone hlive hbelow hempty _ _ hset =>
    have hpage := h.accounts.region_page (view_region hlive)
    refine .inr ⟨_, rfl, hbelow, hempty, ?_⟩
    rw [hset p hp _ (attachNo_lt hbelow), if_pos ⟨rfl, rfl⟩]
    exact (mapping_spec hpage.1 hpage.lt (by decide)).1

theorem Books.calm {a : Act} (h : Books s g) (hp : (s.proc a.proc).state ≠ .unused)
    (hcall : GrowthCall a.call) (hgood : GrowsBelow s (a, ret)) (hrun : body a s = .error e) : Calm e := by
  obtain ⟨hspares, hbelow⟩ := hgood
  obtain ⟨p, call⟩ := a
  cases call with
  | shmget => exact (shmemGet_rule p h).error rfl hrun
  | shmat id => exact absurd ((shmemAt_rule h hp).error rfl hrun) (Nat.not_lt_of_le (hbelow id rfl))
  | shmdt => exact (shmemDt_rule h hp).error rfl hrun
  | fork => exact absurd hrun (kfork_no_panic h hp)
  | sbrk =>
    refine (sysSbrk_rule h hp fun hn v hlo hhi x hx hs => ?_).error rfl hrun
    exact hspares hn v hlo hhi (h.mapsRegion hp (lt_NENTRIES_of_sz (h.sz _) hhi) hx hs)
  | fault => exact (pageFault_rule h hp).error rfl hrun
  | store => exact (userStore_rule h hp).error rfl hrun
  | _ => exact hcall.elim

theorem growthNeverPanics_of_growsBelow (L : Layout) : GrowthNeverPanics (GrowsBelow (L := L)) := by
  intro s hs tr t hrun a hcall hrunnable hgood
  have hreach : Reachable Booted (restrict SparesRegions Step) t :=
    ⟨s, tr, hs, hrun.mono fun _ _ _ hstep => ⟨hstep.1.1, hstep.2⟩⟩
  obtain ⟨g, hg⟩ := books_of_reachable hreach
  have hp : (t.proc a.proc).state ≠ .unused := by
    rw [hrunnable]
    decide
  refine ⟨fun e herr => hg.calm hp hcall (hgood 0) herr, fun id hid ret u hok => ?_⟩
  unfold body at hok
  simp only [hid] at hok
  exact hg.attachesBelow hp ((shmemAt_rule hg hp).ok rfl hok).1

/-! ## Growing up to the trapframe -/

/-- Lazy growth up to the trapframe, by as much as an `int` can say at a time, and then a region. -/
def fillAddressSpace : List Act :=
  List.replicate 127 ⟨0, .sbrk 2147483647 0⟩ ++ [⟨0, .sbrk (TRAPFRAME - 127 * 2147483647) 0⟩, ⟨0, .shmget 1 4096⟩]

/-- The first process runs, and its `shmat(0)` panics in the page tables. -/
def attachAlarms (s : State smallKernel) : Bool :=
  (s.proc 0).state = .runnable &&
    match body ⟨0, .shmat 0⟩ s with
    | .ok _ => false
    | .error e => Alarm e

theorem fillAddressSpace_alarms : (match userinit (State.start eightPages) with
      | .ok (_, s) => (execs (guarded (fun _ ev => GrowthCall ev.1.call) exec) s fillAddressSpace).any
          fun r => attachAlarms r.1
      | .error _ => false) = true := by
  decide +kernel

theorem growthNeverPanics_broken_by_attach :
    ¬ GrowthNeverPanics (L := smallKernel) (fun _ ev => GrowthCall ev.1.call) := by
  intro hclaim
  have hrun := fillAddressSpace_alarms
  split at hrun
  · next s huser =>
    have hboot : Booted s := booted_of_userinit (n := 8) (by decide) (by decide) huser
    obtain ⟨t, tr, hrun, hcheck⟩ := Run.of_any_execs hrun
    unfold attachAlarms at hcheck
    rw [Bool.and_eq_true, decide_eq_true_eq] at hcheck
    obtain ⟨hrunnable, halarm⟩ := hcheck
    have hcalm := (hclaim s hboot tr t hrun ⟨0, .shmat 0⟩ trivial hrunnable fun _ => trivial).1
    split at halarm
    · cases halarm
    · next e herr => exact hcalm e herr (of_decide_eq_true halarm)
  · cases hrun

end Xv6.Vm
