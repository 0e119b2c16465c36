import Xv6.Sem.Effect

/-!
# Semaphore keys

`semget` is documented to initialize a semaphore or to retrieve the one that has the key.
`sem_get` never compares keys: it takes the first slot that is not in use.  Two calls with one key
therefore make two semaphores, and processes that agreed on a key do not share one.
-/

namespace Xv6.Sem

open Runs

def KeysDistinct (s : State) : Prop :=
  ∀ i j, (s.semtable i).used = true → (s.semtable j).used = true → (s.semtable i).key = (s.semtable j).key → i = j

/-- In every state that runs of `step` reach, a key names at most one semaphore, and a `semget` of this key, when
it returns, retrieves it without touching its value. -/
def KeyNamesOne (step : State → Event → State → Prop) : Prop :=
  ∀ s, Reachable (· = boot) step s → KeysDistinct s ∧
    ∀ s' p key v i, 0 ≤ v → step s (.semGet p key v, none) s' → (s.semtable i).used = true → (s.semtable i).key = key →
      ∀ tr t ret u, Run step s' tr t → (∀ ev ∈ tr, ev.1 = .semGetStep → ev.2 = none) →
        step t (.semGetStep, some ret) u → ret = i ∧ (u.semtable i).value = (t.semtable i).value

/-- `sem_get` is called only with keys that no semaphore in use has. -/
def NewKey (s : State) : Event → Prop
  | (.semGet _ key v, _) => 0 ≤ v → ∀ i, (s.semtable i).used = true → (s.semtable i).key ≠ key
  | _ => True

structure KeysKept (s s' : State) : Prop where
  key : ∀ j, (s'.semtable j).key = (s.semtable j).key
  used : ∀ j, (s'.semtable j).used = true → (s.semtable j).used = true

section Kept

variable {s s' s'' : State} {i : Fin NSEM} {slot : SemSlot}

theorem KeysKept.trans (h : KeysKept s s') (h' : KeysKept s' s'') : KeysKept s s'' :=
  ⟨fun j => (h'.key j).trans (h.key j), fun j hj => h.used j (h'.used j hj)⟩

theorem KeysKept.of_table (htable : s'.semtable = s.semtable) : KeysKept s s' :=
  ⟨fun j => by rw [htable], fun j hj => by rwa [htable] at hj⟩

theorem KeysKept.of_slot (htable : s'.semtable = (s.setSlot i slot).semtable) (hkey : slot.key = (s.semtable i).key)
    (hused : slot.used = true → (s.semtable i).used = true) : KeysKept s s' := by
  constructor
  · intro j
    rw [htable]
    by_cases hj : j = i
    · rw [hj, setSlot_self, hkey]
    · rw [setSlot_of_ne s slot hj]
  intro j hj
  rw [htable] at hj
  by_cases hji : j = i
  · rw [hji, setSlot_self] at hj
    rw [hji]
    exact hused hj
  · rw [setSlot_of_ne s slot hji] at hj
    exact hj

theorem keysKept_waitLoop (p : Fin NPROC) (hkey : slot.key = (s.semtable i).key)
    (hused : slot.used = true → (s.semtable i).used = true) : KeysKept s (waitLoop (s.setSlot i slot) p i).1 := by
  have hslot : KeysKept s (s.setSlot i slot) := .of_slot rfl hkey hused
  unfold waitLoop
  dsimp only
  split
  · exact hslot.trans (.of_slot (i := i) rfl rfl id)
  · exact hslot.trans (.of_table rfl)

theorem KeysKept.keysDistinct (h : KeysKept s s') (hs : KeysDistinct s) : KeysDistinct s' := by
  intro i j hi hj hkey
  rw [h.key, h.key] at hkey
  exact hs i j (h.used i hi) (h.used j hj) hkey

end Kept

section Steps

variable {s s' : State} {p : Fin NPROC} {i : Fin NSEM} {key v : Int} {ev : Event}

theorem KeysDistinct.get (h : KeysDistinct s) (slot : SemSlot)
    (hnew : ∀ j, (s.semtable j).used = true → (s.semtable j).key ≠ slot.key) : KeysDistinct (s.setSlot i slot) := by
  intro j₁ j₂ h₁ h₂ hkey
  by_cases hj₁ : j₁ = i
  · by_cases hj₂ : j₂ = i
    · rw [hj₁, hj₂]
    · rw [hj₁, setSlot_self, setSlot_of_ne s slot hj₂] at hkey
      rw [setSlot_of_ne s slot hj₂] at h₂
      exact absurd hkey.symm (hnew j₂ h₂)
  rw [setSlot_of_ne s slot hj₁] at h₁ hkey
  by_cases hj₂ : j₂ = i
  · rw [hj₂, setSlot_self] at hkey
    exact absurd hkey (hnew j₁ h₁)
  · rw [setSlot_of_ne s slot hj₂] at h₂ hkey
    exact h j₁ j₂ h₁ h₂ hkey

/-- The keys in use are different, also from the one that a `sem_get` is going to store. -/
structure KeysInv (s : State) : Prop where
  distinct : KeysDistinct s
  pending : ∀ g, s.getter = some g → g.taken = false → ∀ i, (s.semtable i).used = true → (s.semtable i).key ≠ g.key

theorem KeysInv.kept (h : KeysInv s) (hkept : KeysKept s s')
    (hgetter : ∀ g', s'.getter = some g' → g'.taken = false →
      ∃ g, s.getter = some g ∧ g.taken = false ∧ g'.key = g.key) : KeysInv s' := by
  refine ⟨hkept.keysDistinct h.distinct, fun g' hg' htaken i hi => ?_⟩
  obtain ⟨g, hg, hfree, hkey⟩ := hgetter g' hg' htaken
  rw [hkept.key, hkey]
  exact h.pending g hg hfree i (hkept.used i hi)

theorem KeysInv.step (h : KeysInv s) (hnew : NewKey s ev) (hstep : Step s ev s') : KeysInv s' := by
  have hsame : s'.getter = s.getter → ∀ g', s'.getter = some g' → g'.taken = false →
      ∃ g, s.getter = some g ∧ g.taken = false ∧ g'.key = g.key := by
    intro hgetter g' hg' htaken
    exact ⟨g', hgetter ▸ hg', htaken, rfl⟩
  cases hstep.does with
  | refused => exact h
  | @call p key v hv _ =>
    refine ⟨h.distinct, fun g hg _ => ?_⟩
    cases hg
    exact hnew hv
  | store => exact h.kept (.of_slot rfl rfl id) nofun
  | @take g hg htaken _ =>
    refine ⟨h.distinct.get _ (h.pending g hg htaken), fun g' hg' htaken' => ?_⟩
    cases hg'
    cases htaken'
  | next hg htaken =>
    refine h.kept (.of_table rfl) fun g' hg' _ => ⟨_, hg, htaken, ?_⟩
    cases hg'
    rfl
  | full => exact h.kept (.of_table rfl) nofun
  | wait _ _ _ hr _ hs | again _ _ _ hr _ hs =>
    subst hr hs
    exact h.kept (keysKept_waitLoop _ rfl id) (hsame (waitLoop_getter _ _ _))
  | abort | post => exact h.kept (.of_slot rfl rfl id) (hsame rfl)
  | close => exact h.kept (.of_slot rfl rfl fun hused => absurd hused Bool.false_ne_true) (hsame rfl)
  | kill => exact h.kept (.of_table rfl) (hsame rfl)

end Steps

/-- In runs where `semget` is called only with keys that are not in use, a key names one
semaphore. -/
theorem keyNamesOne_of_newKey (step : State → Event → State → Prop)
    (hsub : ∀ s ev t, step s ev t → restrict NewKey Step s ev t) : KeyNamesOne step := by
  intro s hs
  have hinv : KeysInv s := by
    refine Reachable.invariant ?_ (fun _ _ _ h hstep => h.step (hsub _ _ _ hstep).1 (hsub _ _ _ hstep).2) hs
    rintro _ rfl
    exact ⟨nofun, nofun⟩
  refine ⟨hinv.distinct, fun s' p key v i hv hstep hused hkey => ?_⟩
  exact absurd hkey ((hsub _ _ _ hstep).1 hv i hused)

instance (s : State) : (ev : Event) → Decidable (NewKey s ev)
  | (.semGet _ _ _, _) => inferInstanceAs (Decidable (_ → _))
  | (.semGetStep, _) | (.semWait _ _, _) | (.resume _ _, _) | (.semPost _ _, _) | (.semClose _ _, _) | (.kill _, _) =>
    isTrue trivial

/-- Two semaphores with different keys. -/
theorem twoKeys_distinct : ∃ tr s, Run (restrict NewKey Step) boot tr s ∧ (s.semtable 0).used = true ∧
    (s.semtable 1).used = true ∧ KeysDistinct s := by
  have hrun : (execs (guarded NewKey exec) boot [.semGet 0 1 0, .semGetStep, .semGetStep, .semGet 0 2 0, .semGetStep,
      .semGetStep, .semGetStep]).any (fun r => (r.1.semtable 0).used ∧ (r.1.semtable 1).used) = true := by decide
  obtain ⟨s, tr, hrun, hused⟩ := Run.of_any_execs hrun
  obtain ⟨hfirst, hsecond⟩ := of_decide_eq_true hused
  exact ⟨tr, s, hrun, hfirst, hsecond, (keyNamesOne_of_newKey _ (fun _ _ _ h => h) s ⟨boot, tr, rfl, hrun⟩).1⟩

/-- The second `semget(1, 0)` makes a second semaphore with the key 1. -/
theorem semget_twice_two_semaphores : ¬ KeyNamesOne Step := by
  intro hclaim
  obtain ⟨r, hexec, hfirst, hsecond, hkey⟩ : ∃ r, execs exec boot [.semGet 0 1 0, .semGetStep, .semGetStep,
      .semGet 0 1 0, .semGetStep, .semGetStep, .semGetStep] = some r ∧ (r.1.semtable 0).used = true ∧
      (r.1.semtable 1).used = true ∧ (r.1.semtable 0).key = (r.1.semtable 1).key :=
    ⟨_, rfl, rfl, rfl, rfl⟩
  exact absurd ((hclaim r.1 ⟨boot, _, rfl, Run.of_execs hexec⟩).1 0 1 hfirst hsecond hkey) (by decide)

end Xv6.Sem
