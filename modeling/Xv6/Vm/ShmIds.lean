import Xv6.Vm.ShmStore

/-!
# What a shared-memory id means

An id of `shmget` is the index of a slot of `shmtable`.  The slot is cleared when its last attachment
goes, and the next new region takes it, while processes that have the id from before may still use it.
-/

namespace Xv6.Vm

open Hoare Memory Ledger Runs

variable {L : Layout} {s t : State L} {g g' : Ledger} {p : Fin NPROC} {i : Fin NSHMEM} {ret : Int}
  {past : List (Act × Int)}

/-- A call of the past, and the slot that it returned. -/
def Got (past : List (Act × Int)) (p : Fin NPROC) (key : Int) (i : Fin NSHMEM) : Prop :=
  ∃ size, (⟨p, .shmget key size⟩, (i.val : Int)) ∈ past

/-- A run of shared-memory calls. -/
def ShmStep : List (Act × Int) × State L → Act × Int → List (Act × Int) × State L → Prop :=
  recorded (restrict (fun _ ev => ShmCall ev.1.call) Step)

/-- `shmat` has failed, or the page that it returns maps the region of that key. -/
def AttachesKey (s : State L) (p : Fin NPROC) (key ret : Int) (t : State L) : Prop :=
  (ret = 0 ∧ Untouched s t) ∨
    ∃ i, (s.shmtable i).key = key ∧ Hits (entryAt t p (ret.toNat / PGSIZE)) (s.shmtable i).kpage

/-- In the runs whose steps are all `good`, a process that has an id for a key attaches that key's
region with it, or nothing. -/
def IdsKeepMeaning (good : List (Act × Int) × State L → Act × Int → Prop) : Prop :=
  ∀ s, Reachable Booted (restrict SparesRegions Step) s →
    ∀ tr past t, Run (restrict good ShmStep) ([], s) tr (past, t) →
      ∀ p key i, Got past p key i → ∀ ret u, Step t (⟨p, .shmat (i.val : Int)⟩, ret) u → AttachesKey t p key ret u

/-- `shmget` makes a region only in a slot that it has not returned for another key before. -/
def SparesIds (m : List (Act × Int) × State L) (ev : Act × Int) : Prop :=
  match ev.1.call with
  | .shmget key _ => (∀ i, (m.2.shmtable i).key ≠ key) →
      ∀ i, freeSlot m.2 = some i → ∀ p key', Got m.1 p key' i → key' = key
  | _ => True

/-- The slots that processes know are theirs, or vacant. -/
def Known (past : List (Act × Int)) (s : State L) : Prop :=
  ∀ p key i, Got past p key i → (s.shmtable i).key = 0 ∨ (s.shmtable i).key = key

variable {ev : Act × Int}

theorem got_snoc {key : Int} (h : Got (past ++ [ev]) p key i) :
    Got past p key i ∨ ∃ size, ev = (⟨p, .shmget key size⟩, (i.val : Int)) := by
  obtain ⟨size, hmem⟩ := h
  rcases List.mem_append.mp hmem with hold | hnew
  · exact .inl ⟨size, hold⟩
  · exact .inr ⟨size, (List.mem_singleton.mp hnew).symm⟩

theorem get_event_inj {q : Fin NPROC} {key key' size size' : Int} {j : Fin NSHMEM}
    (h : ((⟨p, .shmget key size⟩, (i.val : Int)) : Act × Int) =
      (⟨q, .shmget key' size'⟩, (j.val : Int))) : key = key' ∧ i = j := by
  simp only [Prod.mk.injEq, Act.mk.injEq, Call.shmget.injEq] at h
  exact ⟨h.1.2.1, Fin.ext (Int.ofNat.inj h.2)⟩

theorem Known.congr (h : Known past s) (hkey : ∀ i, (t.shmtable i).key = 0 ∨
    (t.shmtable i).key = (s.shmtable i).key) : Known past t := by
  intro p key i hgot
  rcases hkey i with hzero | hsame
  · exact .inl hzero
  · rw [hsame]
    exact h p key i hgot

theorem Known.other (h : Known past s) (hno : ∀ key size (i : Fin NSHMEM), ev ≠ (⟨p, .shmget key size⟩, (i.val : Int)))
    (hproc : ev.1.proc = p) : Known (past ++ [ev]) s := by
  intro q key i hgot
  rcases got_snoc hgot with hold | ⟨size, heq⟩
  · exact h q key i hold
  have hq : q = p := by
    rw [heq] at hproc
    exact hproc
  rw [hq] at heq
  exact absurd heq (hno key size i)

theorem Known.step (h : Known past s) (hgood : SparesIds (past, s) ev)
    (hdoes : ShmDoes s ev.1.proc ev.1.call ev.2 t) : Known (past ++ [ev]) t := by
  obtain ⟨⟨p, call⟩, ret⟩ := ev
  dsimp only at hdoes
  cases hdoes with
  | getRefused _ hsame =>
    refine (h.congr fun i => .inr (by rw [hsame.shmtable])).other (p := p) (fun key size i heq => ?_) rfl
    have hret : (-1 : Int) = i.val := congrArg Prod.snd heq
    omega
  | @getFound key size i _ hkey =>
    intro q key' j hgot
    rcases got_snoc hgot with hold | ⟨size', heq⟩
    · exact h q key' j hold
    · obtain ⟨hkeys, hij⟩ := get_event_inj heq
      rw [← hij, ← hkeys]
      exact .inr hkey
  | @getCreated key size i page _ _ hnone hslot _ htable _ _ =>
    intro q key' j hgot
    have hgood' := hgood hnone i hslot
    by_cases hj : j = i
    · -- Whoever had the vacant slot before had it for this key.
      rw [hj] at hgot ⊢
      have hself : t.shmtable i = ⟨key, 0, page⟩ := by rw [htable, setShm_self]
      rw [hself]
      rcases got_snoc hgot with hold | ⟨size', heq⟩
      · exact .inr (hgood' q key' hold).symm
      · exact .inr (get_event_inj heq).1
    have hother : t.shmtable j = s.shmtable j := by rw [htable, setShm_of_ne _ _ hj]
    rw [hother]
    rcases got_snoc hgot with hold | ⟨size', heq⟩
    · exact h q key' j hold
    · exact absurd (get_event_inj heq).2.symm hj
  | atRefused _ hsame =>
    refine (h.congr fun i => .inr (by rw [hsame.shmtable])).other (p := p) (fun key size i heq => ?_) rfl
    cases heq
  | @atDone i _ _ _ _ htable _ _ =>
    refine (h.congr fun j => .inr ?_).other (p := p) (fun key size i heq => by cases heq) rfl
    rw [htable]
    by_cases hj : j = i
    · rw [hj, setShm_self]
    · rw [setShm_of_ne _ _ hj]
  | dtRefused => exact h.other (p := p) (fun key size i heq => by cases heq) rfl
  | @dtDone _ i _ _ _ _ _ _ htable _ _ =>
    refine (h.congr fun j => ?_).other (p := p) (fun key size i heq => by cases heq) rfl
    rw [htable]
    by_cases hj : j = i
    · rw [hj, setShm_self]
      by_cases hzero : (s.shmtable i).release.key = 0
      · exact .inl hzero
      · exact .inr (Shmregion.release_live hzero).1
    · rw [setShm_of_ne _ _ hj]
      exact .inr rfl

theorem Books.attachesKey {key : Int} (h : Books s g) (hp : (s.proc p).state ≠ .unused)
    (hkey : (s.shmtable i).key = 0 ∨ (s.shmtable i).key = key)
    (hdoes : ShmDoes s p (.shmat (i.val : Int)) ret t) : AttachesKey s p key ret t := by
  generalize hcall : Call.shmat (i.val : Int) = call at hdoes
  cases hdoes with
  | atRefused _ hsame => exact .inl ⟨rfl, hsame⟩
  | @atDone j _ hlive hbelow _ _ _ hset =>
    have hij : i = j := Fin.ext (Int.ofNat.inj (Call.shmat.inj hcall))
    rw [← hij] at hlive hset
    have hpage := h.accounts.region_page (view_region hlive)
    refine .inr ⟨i, hkey.resolve_left hlive, ?_⟩
    rw [Int.toNat_natCast, hset p hp _ (attachNo_lt hbelow), if_pos ⟨rfl, rfl⟩]
    exact (hits_mapping hpage.1 hpage.lt (by decide)).mpr rfl
  | getRefused | getFound | getCreated | dtRefused | dtDone => cases hcall

theorem idsKeepMeaning_of_sparesIds (L : Layout) : IdsKeepMeaning (SparesIds (L := L)) := by
  intro s hs tr past t hrun p key i hgot ret u hstep
  have hinv := hrun.invariant (P := fun m => (∃ g, Books m.2 g) ∧ Known m.1 m.2)
    (fun m ev m' ih hnext => by
      obtain ⟨⟨g, hg⟩, hknown⟩ := ih
      obtain ⟨hgood, hpast, hcall, hlast⟩ := hnext
      refine ⟨hg.step (sparesRegions_of_shmCall hcall) hlast, ?_⟩
      rw [hpast]
      exact hknown.step hgood (hg.does hcall hlast).2)
    ⟨books_of_reachable hs, fun p key i hnone => by
      obtain ⟨size, hmem⟩ := hnone
      cases hmem⟩
  obtain ⟨⟨g, hg⟩, hknown⟩ := hinv
  have hcall : ShmCall (.shmat (i.val : Int)) := trivial
  obtain ⟨hp, hdoes⟩ := hg.does hcall hstep
  exact hg.attachesKey hp (hknown p key i hgot) hdoes

/-! ## An id that has changed its meaning -/

instance : DecidablePred ShmCall
  | .shmget _ _ | .shmat _ | .shmdt _ => .isTrue trivial
  | .fork | .exec _ _ _ | .sbrk _ _ | .exit _ | .wait _ | .fault _ | .store _ _ => .isFalse id

/-- Calls that free no memory. -/
def Quiet (ev : Act × Int) : Prop :=
  match ev.1.call with
  | .sbrk n _ => 0 ≤ n
  | .fork => True
  | _ => False

instance (ev : Act × Int) : Decidable (Quiet ev) := by
  unfold Quiet
  split <;> infer_instance

theorem sparesRegions_of_quiet (h : Quiet ev) : SparesRegions s ev := by
  unfold Quiet at h
  unfold SparesRegions
  split at h
  · next n _ hcall =>
    rw [hcall]
    intro hneg
    omega
  · next hcall =>
    rw [hcall]
    trivial
  · exact h.elim

def twoProcesses : List Act := [⟨0, .sbrk 4096 0⟩, ⟨0, .fork⟩]

/-- It makes a region, attaches and detaches it, and then the other one makes a region of its own. -/
def recycleSlot : List Act := [⟨0, .shmget 1 4096⟩, ⟨0, .shmat 0⟩, ⟨0, .shmdt 4096⟩, ⟨1, .shmget 2 4096⟩]

/-- The first call has returned 0, and now `shmat(0)` of that process attaches a page although there
is no region of its key any more. -/
def attachesOther (r : State smallKernel × List (Act × Int)) : Bool :=
  r.2.head?.map Prod.snd = some 0 && (exec r.1 ⟨0, .shmat 0⟩).any fun u => u.2 ≠ 0 ∧ ∀ i, (r.1.shmtable i).key ≠ 1

theorem recycleSlot_attachesOther : (match userinit (State.start sixteenPages) with
      | .ok (_, s) => (execs (guarded (fun _ ev => Quiet ev) exec) s twoProcesses).any fun r =>
          (execs (guarded (fun _ ev => ShmCall ev.1.call) exec) r.1 recycleSlot).any attachesOther
      | .error _ => false) = true := by
  decide +kernel

theorem idsKeepMeaning_broken_by_recycling : ¬ IdsKeepMeaning (L := smallKernel) (fun _ _ => True) := by
  intro hclaim
  have hrun := recycleSlot_attachesOther
  split at hrun
  · next s huser =>
    have hboot : Booted s := booted_of_userinit (n := 16) (by decide) (by decide) huser
    obtain ⟨s₁, tr₁, hrun₁, hrun⟩ := Run.of_any_execs hrun
    have hreach : Reachable Booted (restrict SparesRegions Step) s₁ :=
      ⟨s, tr₁, hboot, hrun₁.mono fun _ _ _ hstep => ⟨sparesRegions_of_quiet hstep.1, hstep.2⟩⟩
    rw [Option.any_eq_true] at hrun
    obtain ⟨⟨t, tr⟩, hexecs, hother⟩ := hrun
    have hacts := map_fst_of_execs hexecs
    have hrec := (Run.of_guarded_execs hexecs).recorded []
    have hshm : Run (restrict (fun _ _ => True) ShmStep) ([], s₁) tr ([] ++ tr, t) :=
      hrec.mono fun _ _ _ hstep => ⟨trivial, hstep⟩
    unfold attachesOther at hother
    rw [Bool.and_eq_true, decide_eq_true_eq, Option.any_eq_true] at hother
    obtain ⟨hfirst, ⟨u, ret⟩, hat, hcheck⟩ := hother
    rw [decide_eq_true_eq] at hcheck
    -- The first event of the run is the `shmget` of key 1, and it returned 0.
    have hgot : Got ([] ++ tr) 0 1 0 := by
      cases tr with
      | nil => cases hfirst
      | cons ev =>
        have hact : ev.1 = ⟨0, .shmget 1 4096⟩ := (List.cons.inj hacts).1
        have hret : ev.2 = 0 := Option.some.inj hfirst
        refine ⟨4096, List.mem_cons.mpr (.inl ?_)⟩
        exact Prod.ext hact.symm hret.symm
    rcases hclaim s₁ hreach tr _ t hshm 0 1 0 hgot ret u hat with hfail | ⟨i, hkey, -⟩
    · exact hcheck.1 hfail.1
    · exact hcheck.2 i hkey
  · cases hrun

end Xv6.Vm
