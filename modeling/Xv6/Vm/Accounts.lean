import Xv6.Vm.ExecRules
import Xv6.Param

/-!
# The books of the whole machine

Which ledger belongs to a machine: its tables are the page tables of the processes, and the pages that are shared are
the trampoline, the trapframes and the pages of the shared-memory regions.  A view of a machine lists just these.
-/

namespace Xv6.Vm

open Finset Hoare Memory Ledger

/-! ## Counting what a ledger sees -/

open Classical in
noncomputable def Ledger.mark (g : Ledger) (r v x : Nat) : Nat := if g.sees r v x then 1 else 0

noncomputable def Ledger.count (g : Ledger) (x : Nat) : Nat := ∑ r ∈ g.tables, ∑ v ∈ range NENTRIES, g.mark r v x

variable {L : Layout} {g g' : Ledger} {k : Kmem L} {r r' v x c f f' : Nat}

theorem Ledger.mark_of_sees (h : g.sees r v x) : g.mark r v x = 1 := if_pos h

theorem Ledger.mark_of_not (h : ¬ g.sees r v x) : g.mark r v x = 0 := if_neg h

theorem Ledger.mark_congr (h : g'.sees r v x ↔ g.sees r v x) : g'.mark r v x = g.mark r v x := by
  by_cases hs : g.sees r v x
  · rw [mark_of_sees hs, mark_of_sees (h.mpr hs)]
  · rw [mark_of_not hs, mark_of_not (fun hs' => hs (h.mp hs'))]

theorem Ledger.count_congr (htables : g'.tables = g.tables)
    (h : ∀ r ∈ g.tables, ∀ v, g'.sees r v x ↔ g.sees r v x) : g'.count x = g.count x := by
  unfold count
  rw [htables]
  exact sum_congr rfl fun r hr => sum_congr rfl fun v _ => mark_congr (h r hr v)

theorem Ledger.count_eq_zero (h : ∀ r ∈ g.tables, ∀ v, ¬ g.sees r v x) : g.count x = 0 :=
  sum_eq_zero fun r hr => sum_eq_zero fun v _ => mark_of_not (h r hr v)

theorem Ledger.count_insert (htables : g'.tables = insert r g.tables) (hr : r ∉ g.tables)
    (hrow : ∀ v < NENTRIES, ¬ g'.sees r v x)
    (h : ∀ r' ∈ g.tables, ∀ v, g'.sees r' v x ↔ g.sees r' v x) : g'.count x = g.count x := by
  have hzero : ∑ v ∈ range NENTRIES, g'.mark r v x = 0 := sum_eq_zero fun v hv => mark_of_not (hrow v (mem_range.mp hv))
  unfold count
  rw [htables, sum_insert hr, hzero, Nat.zero_add]
  exact sum_congr rfl fun r' hr' => sum_congr rfl fun v _ => mark_congr (h r' hr' v)

theorem Ledger.not_sees_of_count (h : g.count x = 0) (hr : r ∈ g.tables) (hv : v < NENTRIES) : ¬ g.sees r v x := by
  intro hs
  have hrow := Sums.term_le_sum (f := fun r => ∑ v ∈ range NENTRIES, g.mark r v x) hr
  have hmark := Sums.term_le_sum (f := fun v => g.mark r v x) (mem_range.mpr hv)
  have hone := mark_of_sees hs
  simp only [hone] at hmark
  unfold count at h
  omega

theorem Ledger.count_change (htables : g'.tables = g.tables) (hr : r ∈ g.tables) (hv : v < NENTRIES)
    (hsame : ∀ r' v', ¬ (r' = r ∧ v' = v) → (g'.sees r' v' x ↔ g.sees r' v' x)) :
    g'.count x + g.mark r v x = g.count x + g'.mark r v x := by
  have hrow := Sums.sum_change (f := fun w => g'.mark r w x) (g := fun w => g.mark r w x)
    (mem_range.mpr hv) (fun w _ hne => mark_congr (hsame r w fun heq => hne heq.2))
  have hsum := Sums.sum_change
    (f := fun r' => ∑ w ∈ range NENTRIES, g'.mark r' w x)
    (g := fun r' => ∑ w ∈ range NENTRIES, g.mark r' w x)
    hr (fun r' _ hne => sum_congr rfl fun w _ => mark_congr (hsame r' w fun heq => hne heq.1))
  unfold count
  rw [htables]
  omega

theorem Ledger.count_see (hr : r ∈ g.tables) (hv : v < NENTRIES) (hnew : ¬ g.sees r v x) :
    (g.see r v x).count x = g.count x + 1 := by
  have hsee : (g.see r v x).sees r v x := .inl ⟨rfl, rfl, rfl⟩
  have hchange : (g.see r v x).count x + g.mark r v x =
      g.count x + (g.see r v x).mark r v x :=
    count_change rfl hr hv fun r' v' hne =>
      ⟨fun h => h.resolve_left fun heq => hne ⟨heq.1, heq.2.1⟩, .inr⟩
  rw [mark_of_not hnew, mark_of_sees hsee] at hchange
  exact hchange

theorem Ledger.count_unsee (hr : r ∈ g.tables) (hv : v < NENTRIES) (hsee : g.sees r v x) :
    (g.unsee r v).count x + 1 = g.count x := by
  have hgone : ¬ (g.unsee r v).sees r v x := fun h => h.1 ⟨rfl, rfl⟩
  have hchange : (g.unsee r v).count x + g.mark r v x =
      g.count x + (g.unsee r v).mark r v x :=
    count_change rfl hr hv fun r' v' hne => ⟨fun h => h.2, fun h => ⟨hne, h⟩⟩
  rw [mark_of_sees hsee, mark_of_not hgone] at hchange
  exact hchange

theorem Ledger.count_unsee_of_not (hsee : ¬ g.sees r v x) : (g.unsee r v).count x = g.count x :=
  count_congr rfl fun _ _ _ => ⟨fun h => h.2, fun h => ⟨fun heq => hsee (heq.1 ▸ heq.2 ▸ h), h⟩⟩

theorem Ledger.count_see_of_ne (hne : x ≠ c) : (g.see r v c).count x = g.count x :=
  count_congr rfl fun _ _ _ => ⟨fun h => h.resolve_left fun heq => hne heq.2.2, .inr⟩

theorem Ledger.count_hold_self (g : Ledger) (c : Nat) : (g.hold c).count c = 0 := count_eq_zero fun _ _ _ h => h.1 rfl

theorem Ledger.count_hold_of_ne (hne : x ≠ c) : (g.hold c).count x = g.count x :=
  count_congr rfl fun _ _ _ => ⟨fun h => h.2, fun h => ⟨hne, h⟩⟩

theorem Ledger.count_release (g : Ledger) (c x : Nat) : (g.release c).count x = g.count x :=
  count_congr rfl fun _ _ _ => Iff.rfl

theorem Ledger.count_space (hr : r ∉ g.tables) (htrampoline : x ≠ L.trampoline) (hf : x ≠ f) :
    (g.space L r f).count x = g.count x := by
  apply count_insert rfl hr
  · intro v _ hs
    simp only [space, if_true] at hs
    exact hs.elim (fun h => htrampoline h.2) fun h => hf h.2
  · intro r' hr' v
    have hne : r' ≠ r := fun heq => hr (heq ▸ hr')
    simp only [space, if_neg hne]

theorem Ledger.count_drop (hr : r ∈ g.tables) (hnone : ∀ v < NENTRIES, ¬ g.sees r v x) :
    (g.drop r).count x = g.count x := by
  symm
  exact count_insert (insert_erase hr).symm (notMem_erase r g.tables) hnone fun _ _ _ => Iff.rfl

/-! ## Views -/

/-- The address spaces (page table and trapframe) and the regions of a machine. -/
structure View where
  space : Fin NPROC → Option (Nat × Nat)
  region : Fin NSHMEM → Option Nat

namespace View

variable {w : View} {p q : Fin NPROC} {i j : Fin NSHMEM}

def setSpace (w : View) (p : Fin NPROC) (o : Option (Nat × Nat)) : View :=
  { w with space := fun q => if q = p then o else w.space q }

def setRegion (w : View) (i : Fin NSHMEM) (o : Option Nat) : View :=
  { w with region := fun j => if j = i then o else w.region j }

def IsFrame (w : View) (x : Nat) : Prop := ∃ p r, w.space p = some (r, x)

def IsRegion (w : View) (x : Nat) : Prop := ∃ i, w.region i = some x

theorem setSpace_some {o : Option (Nat × Nat)} {e : Nat × Nat}
    (h : (w.setSpace p o).space q = some e) : (q = p ∧ o = some e) ∨ (q ≠ p ∧ w.space q = some e) := by
  have hite : (if q = p then o else w.space q) = some e := h
  by_cases hq : q = p
  · rw [if_pos hq] at hite
    exact .inl ⟨hq, hite⟩
  · rw [if_neg hq] at hite
    exact .inr ⟨hq, hite⟩

theorem setSpace_inj {q' : Fin NPROC} {e e₁ e₂ : Nat × Nat} (key : Nat × Nat → Nat)
    (hinj : w.space q = some e₁ → w.space q' = some e₂ → q = q')
    (hother : ∀ {q e'}, q ≠ p → w.space q = some e' → key e' ≠ key e) (hkey : key e₁ = key e₂)
    (h : (w.setSpace p (some e)).space q = some e₁) (h' : (w.setSpace p (some e)).space q' = some e₂) : q = q' := by
  rcases setSpace_some h with ⟨heq, he⟩ | ⟨hne, hq⟩ <;> rcases setSpace_some h' with ⟨heq', he'⟩ | ⟨hne', hq'⟩
  · rw [heq, heq']
  · exact absurd (hkey.symm.trans (congrArg key (Option.some.inj he)).symm) (hother hne' hq')
  · exact absurd (hkey.trans (congrArg key (Option.some.inj he')).symm) (hother hne hq)
  · exact hinj hq hq'

theorem setSpace_self (o : Option (Nat × Nat)) : (w.setSpace p o).space p = o := if_pos rfl

theorem setSpace_of_ne (o : Option (Nat × Nat)) (h : q ≠ p) : (w.setSpace p o).space q = w.space q := if_neg h

theorem setRegion_some {o : Option Nat} {e : Nat} (h : (w.setRegion i o).region j = some e) :
    (j = i ∧ o = some e) ∨ (j ≠ i ∧ w.region j = some e) := by
  have hite : (if j = i then o else w.region j) = some e := h
  by_cases hj : j = i
  · rw [if_pos hj] at hite
    exact .inl ⟨hj, hite⟩
  · rw [if_neg hj] at hite
    exact .inr ⟨hj, hite⟩

theorem setRegion_self (o : Option Nat) : (w.setRegion i o).region i = o := if_pos rfl

theorem setRegion_of_ne (o : Option Nat) (h : j ≠ i) : (w.setRegion i o).region j = w.region j := if_neg h

end View

/-- Where a page table may map shared pages. -/
def Allowed (L : Layout) (w : View) (f v x : Nat) : Prop :=
  (v = trampolineNo ∧ x = L.trampoline) ∨ (v = trapframeNo ∧ x = f) ∨ w.IsRegion x

structure Accounts (L : Layout) (w : View) (g : Ledger) : Prop where
  tables : ∀ r, r ∈ g.tables ↔ ∃ p f, w.space p = some (r, f)
  shared : ∀ x, g.shared x ↔ x = L.trampoline ∨ w.IsFrame x ∨ w.IsRegion x
  frame_page : ∀ {p r f}, w.space p = some (r, f) → L.IsPage f
  region_page : ∀ {i x}, w.region i = some x → L.IsPage x
  top : ∀ {p r f}, w.space p = some (r, f) → Top L g r f
  only : ∀ {p r f}, w.space p = some (r, f) → ∀ v x, g.shared x → g.sees r v x → Allowed L w f v x
  table_inj : ∀ {p q r f f'}, w.space p = some (r, f) → w.space q = some (r, f') → p = q
  frame_inj : ∀ {p q r r' f}, w.space p = some (r, f) → w.space q = some (r', f) → p = q
  region_inj : ∀ {i j x}, w.region i = some x → w.region j = some x → i = j
  disjoint : ∀ {x}, w.IsFrame x → ¬ w.IsRegion x

namespace Accounts

variable {w : View} {p : Fin NPROC} {i : Fin NSHMEM}

section

variable (h : Accounts L w g)

include h

theorem shared_trampoline : g.shared L.trampoline := (h.shared _).mpr (.inl rfl)

theorem shared_frame (hp : w.space p = some (r, f)) : g.shared f := (h.shared f).mpr (.inr (.inl ⟨p, r, hp⟩))

theorem shared_region (hi : w.region i = some x) : g.shared x := (h.shared x).mpr (.inr (.inr ⟨i, hi⟩))

theorem frames (hp : w.space p = some (r, f)) : Frames L g f :=
  ⟨h.shared_trampoline, h.shared_frame hp, h.frame_page hp⟩

theorem mem_tables (hp : w.space p = some (r, f)) : r ∈ g.tables := (h.tables r).mpr ⟨p, f, hp⟩

theorem region_ne_trampoline (hi : w.region i = some x) : x ≠ L.trampoline := (h.region_page hi).ne_trampoline

theorem frame_unseen (hp : w.space p = some (r, f)) (hr' : r' ∈ g.tables)
    (hne : r' ≠ r) (v : Nat) : ¬ g.sees r' v f := by
  intro hs
  obtain ⟨q, f', hq⟩ := (h.tables r').mp hr'
  rcases h.only hq v f (h.shared_frame hp) hs with ⟨-, heq⟩ | ⟨-, heq⟩ | hregion
  · exact (h.frame_page hp).ne_trampoline heq
  · rw [← heq] at hq
    have hsame := h.frame_inj hp hq
    rw [hsame, hq] at hp
    exact hne (congrArg Prod.fst (Option.some.inj hp))
  · exact h.disjoint ⟨p, r, hp⟩ hregion

theorem withRoom (room : Nat → Nat → Prop) : Accounts L w { g with room := room } where
  tables := h.tables
  shared := h.shared
  frame_page := h.frame_page
  region_page := h.region_page
  top hp := ⟨(h.top hp).mem, (h.top hp).trampoline, (h.top hp).trapframe⟩
  only := h.only
  table_inj := h.table_inj
  frame_inj := h.frame_inj
  region_inj := h.region_inj
  disjoint := h.disjoint

/-! ## Regions -/

theorem addRegion (hi : w.region i = none) (hx : Fresh L g x) : Accounts L (w.setRegion i (some x)) (g.hold x) := by
  have hnew : ∀ y, (w.setRegion i (some x)).IsRegion y ↔ w.IsRegion y ∨ y = x := by
    intro y
    constructor
    · rintro ⟨j, hj⟩
      rcases View.setRegion_some hj with ⟨-, heq⟩ | ⟨-, hj⟩
      · exact .inr (Option.some.inj heq).symm
      · exact .inl ⟨j, hj⟩
    rintro (⟨j, hj⟩ | heq)
    · have hne : j ≠ i := fun heq => by simp [heq, hi] at hj
      exact ⟨j, (View.setRegion_of_ne _ hne).trans hj⟩
    · exact ⟨i, heq ▸ View.setRegion_self _⟩
  have hold : ∀ {y}, g.shared y → y ≠ x := fun hy heq => hx.not_shared (heq ▸ hy)
  refine ⟨h.tables, fun y => ?_, h.frame_page, fun hj => ?_, fun hp => ?_,
    fun hp v y hy hs => ?_, h.table_inj, h.frame_inj, fun hj hj' => ?_, fun hf hr => ?_⟩
  · show g.shared y ∨ y = x ↔ _
    rw [h.shared, hnew, or_assoc, or_assoc]
    exact Iff.rfl
  · rcases View.setRegion_some hj with ⟨-, heq⟩ | ⟨-, hj⟩
    · exact Option.some.inj heq ▸ hx.isPage
    · exact h.region_page hj
  · have htop := h.top hp
    exact ⟨htop.mem, ⟨hold h.shared_trampoline, htop.trampoline⟩, ⟨hold (h.shared_frame hp), htop.trapframe⟩⟩
  · rcases h.only hp v y (hy.resolve_right hs.1) hs.2 with htop | htop | hregion
    · exact .inl htop
    · exact .inr (.inl htop)
    · exact .inr (.inr ((hnew y).mpr (.inl hregion)))
  · rcases View.setRegion_some hj with ⟨heq, hx₁⟩ | ⟨-, hj⟩ <;>
      rcases View.setRegion_some hj' with ⟨heq', hx₂⟩ | ⟨-, hj'⟩
    · rw [heq, heq']
    · exact absurd (Option.some.inj hx₁).symm (hold (h.shared_region hj'))
    · exact absurd (Option.some.inj hx₂).symm (hold (h.shared_region hj))
    · exact h.region_inj hj hj'
  rcases (hnew _).mp hr with hr | heq
  · exact h.disjoint hf hr
  · obtain ⟨p, r, hp⟩ := hf
    exact hold (h.shared_frame hp) heq

theorem dropRegion (hi : w.region i = some x) : Accounts L (w.setRegion i none) (g.release x) := by
  have hnew : ∀ y, (w.setRegion i none).IsRegion y ↔ w.IsRegion y ∧ y ≠ x := by
    intro y
    constructor
    · rintro ⟨j, hj⟩
      rcases View.setRegion_some hj with ⟨-, ⟨⟩⟩ | ⟨hne, hj⟩
      · exact ⟨⟨j, hj⟩, fun heq => hne (h.region_inj (heq ▸ hj) hi)⟩
    rintro ⟨⟨j, hj⟩, hne⟩
    have hji : j ≠ i := by
      intro heq
      rw [heq, hi] at hj
      exact hne (Option.some.inj hj).symm
    exact ⟨j, (View.setRegion_of_ne _ hji).trans hj⟩
  have hframe : ∀ {y}, w.IsFrame y → y ≠ x := fun hf heq => h.disjoint hf ⟨i, heq ▸ hi⟩
  have hback : ∀ {j y}, (w.setRegion i none).region j = some y → w.region j = some y := by
    intro j y hj
    rcases View.setRegion_some hj with ⟨-, ⟨⟩⟩ | ⟨-, hj⟩
    · exact hj
  refine ⟨h.tables, fun y => ?_, h.frame_page, fun hj => h.region_page (hback hj),
    fun hp => ⟨(h.top hp).mem, (h.top hp).trampoline, (h.top hp).trapframe⟩, fun hp v y hy hs => ?_,
    h.table_inj, h.frame_inj, fun hj hj' => h.region_inj (hback hj) (hback hj'),
    fun hf hr => h.disjoint hf ((hnew _).mp hr).1⟩
  · show g.shared y ∧ y ≠ x ↔ _
    rw [h.shared, hnew]
    constructor
    · rintro ⟨htop | hframe | hregion, hne⟩
      · exact .inl htop
      · exact .inr (.inl hframe)
      · exact .inr (.inr ⟨hregion, hne⟩)
    rintro (htop | hframe' | ⟨hregion, hne⟩)
    · exact ⟨.inl htop, fun heq => h.region_ne_trampoline hi (heq.symm.trans htop)⟩
    · exact ⟨.inr (.inl hframe'), hframe hframe'⟩
    · exact ⟨.inr (.inr hregion), hne⟩
  rcases h.only hp v y hy.1 hs with htop | htop | hregion
  · exact .inl htop
  · exact .inr (.inl htop)
  · exact .inr (.inr ((hnew y).mpr ⟨hregion, hy.2⟩))

theorem see (hi : w.region i = some x) (r v : Nat) : Accounts L w (g.see r v x) := by
  refine ⟨h.tables, h.shared, h.frame_page, h.region_page,
    fun hp => ⟨(h.top hp).mem, .inr (h.top hp).trampoline, .inr (h.top hp).trapframe⟩,
    fun hp v' y hy hs => ?_, h.table_inj, h.frame_inj, h.region_inj, h.disjoint⟩
  cases hs with
  | inl heq => exact .inr (.inr ⟨i, heq.2.2 ▸ hi⟩)
  | inr hs => exact h.only hp v' y hy hs

theorem unsee (r : Nat) (hv : v < trapframeNo) : Accounts L w (g.unsee r v) := by
  have htrampoline : trampolineNo ≠ v := Nat.ne_of_gt (Nat.lt_trans hv (by decide))
  refine ⟨h.tables, h.shared, h.frame_page, h.region_page, fun hp => ?_,
    fun hp v' y hy hs => h.only hp v' y hy hs.2, h.table_inj, h.frame_inj, h.region_inj,
    h.disjoint⟩
  exact ⟨(h.top hp).mem, ⟨fun heq => htrampoline heq.2, (h.top hp).trampoline⟩,
    ⟨fun heq => Nat.ne_of_gt hv heq.2, (h.top hp).trapframe⟩⟩

/-! ## Address spaces -/

theorem addSpace (hp : w.space p = none) (hf : Fresh L g f) (hr : r ∉ g.tables) :
    Accounts L (w.setSpace p (some (r, f))) ((g.hold f).space L r f) := by
  have hkeep : ∀ {q e}, w.space q = some e → (w.setSpace p (some (r, f))).space q = some e := by
    intro q e hq
    have hne : q ≠ p := fun heq => by simp [heq, hp] at hq
    exact (View.setSpace_of_ne _ hne).trans hq
  have hnew : ∀ y, (w.setSpace p (some (r, f))).IsFrame y ↔ w.IsFrame y ∨ y = f := by
    intro y
    constructor
    · rintro ⟨q, r', hq⟩
      rcases View.setSpace_some hq with ⟨-, heq⟩ | ⟨-, hq⟩
      · exact .inr (congrArg Prod.snd (Option.some.inj heq)).symm
      · exact .inl ⟨q, r', hq⟩
    · rintro (⟨q, r', hq⟩ | heq)
      · exact ⟨q, r', hkeep hq⟩
      · exact ⟨p, r, heq ▸ View.setSpace_self _⟩
  have hold : ∀ {y}, g.shared y → y ≠ f := fun hy heq => hf.not_shared (heq ▸ hy)
  have hother : ∀ {q r' f'}, w.space q = some (r', f') → r' ≠ r := fun hq heq => hr (heq ▸ h.mem_tables hq)
  refine ⟨fun r' => ?_, fun y => ?_, fun hq => ?_, h.region_page, fun hq => ?_,
    fun hq v y hy hs => ?_, View.setSpace_inj Prod.fst h.table_inj (fun _ => hother) rfl,
    View.setSpace_inj Prod.snd h.frame_inj (fun _ hq => hold (h.shared_frame hq)) rfl, h.region_inj, fun hy hregion => ?_⟩
  · show r' ∈ insert r g.tables ↔ _
    rw [mem_insert, h.tables]
    constructor
    · rintro (heq | ⟨q, f', hq⟩)
      · exact ⟨p, f, heq ▸ View.setSpace_self _⟩
      · exact ⟨q, f', hkeep hq⟩
    rintro ⟨q, f', hq⟩
    rcases View.setSpace_some hq with ⟨-, heq⟩ | ⟨-, hq⟩
    · exact .inl (congrArg Prod.fst (Option.some.inj heq)).symm
    · exact .inr ⟨q, f', hq⟩
  · show g.shared y ∨ y = f ↔ y = L.trampoline ∨ _ ∨ w.IsRegion y
    rw [h.shared, hnew]
    tauto
  · rcases View.setSpace_some hq with ⟨-, ⟨⟩⟩ | ⟨-, hq⟩
    · exact hf.isPage
    · exact h.frame_page hq
  · rcases View.setSpace_some hq with ⟨-, ⟨⟩⟩ | ⟨-, hq⟩
    · exact (g.hold f).space_top L r f
    have htop := h.top hq
    refine ⟨mem_insert_of_mem htop.mem, ?_, ?_⟩
    · simp only [space, if_neg (hother hq)]
      exact ⟨hold h.shared_trampoline, htop.trampoline⟩
    · simp only [space, if_neg (hother hq)]
      exact ⟨hold (h.shared_frame hq), htop.trapframe⟩
  · rcases View.setSpace_some hq with ⟨-, ⟨⟩⟩ | ⟨-, hq⟩
    · simp only [space, if_true] at hs
      exact hs.imp_right .inl
    · simp only [space, Ledger.hold, if_neg (hother hq)] at hs
      exact h.only hq v y (hy.resolve_right hs.1) hs.2
  rcases (hnew _).mp hy with hframe | heq
  · exact h.disjoint hframe hregion
  · obtain ⟨i, hi⟩ := hregion
    exact hold (h.shared_region hi) heq

theorem dropSpace (hp : w.space p = some (r, f)) : Accounts L (w.setSpace p none) ((g.drop r).release f) := by
  have hback : ∀ {q e}, (w.setSpace p none).space q = some e → q ≠ p ∧ w.space q = some e := by
    intro q e hq
    rcases View.setSpace_some hq with ⟨-, ⟨⟩⟩ | hq
    · exact hq
  have hframe : ∀ {q r' f'}, q ≠ p → w.space q = some (r', f') → f' ≠ f :=
    fun hne hq heq => hne (h.frame_inj (heq ▸ hq) hp)
  have htable : ∀ {q r' f'}, q ≠ p → w.space q = some (r', f') → r' ≠ r :=
    fun hne hq heq => hne (h.table_inj (heq ▸ hq) hp)
  refine ⟨fun r' => ?_, fun y => ?_, fun hq => h.frame_page (hback hq).2, h.region_page, fun hq => ?_,
    fun hq v y hy hs => h.only (hback hq).2 v y hy.1 hs,
    fun hq hq' => h.table_inj (hback hq).2 (hback hq').2,
    fun hq hq' => h.frame_inj (hback hq).2 (hback hq').2, h.region_inj, fun hy => ?_⟩
  · show r' ∈ g.tables.erase r ↔ _
    rw [mem_erase, h.tables]
    constructor
    · rintro ⟨hne, q, f', hq⟩
      have hqp : q ≠ p := by
        intro heq
        rw [heq, hp] at hq
        exact hne (congrArg Prod.fst (Option.some.inj hq)).symm
      exact ⟨q, f', (View.setSpace_of_ne _ hqp).trans hq⟩
    · rintro ⟨q, f', hq⟩
      exact ⟨htable (hback hq).1 (hback hq).2, q, f', (hback hq).2⟩
  · show g.shared y ∧ y ≠ f ↔ y = L.trampoline ∨ _ ∨ w.IsRegion y
    rw [h.shared]
    constructor
    · rintro ⟨htop | ⟨q, r', hq⟩ | hregion, hne⟩
      · exact .inl htop
      · have hqp : q ≠ p := by
          intro heq
          rw [heq, hp] at hq
          exact hne (congrArg Prod.snd (Option.some.inj hq)).symm
        exact .inr (.inl ⟨q, r', (View.setSpace_of_ne _ hqp).trans hq⟩)
      · exact .inr (.inr hregion)
    rintro (htop | ⟨q, r', hq⟩ | hregion)
    · exact ⟨.inl htop, fun heq => (h.frame_page hp).ne_trampoline (heq.symm.trans htop)⟩
    · exact ⟨.inr (.inl ⟨q, r', (hback hq).2⟩), hframe (hback hq).1 (hback hq).2⟩
    · exact ⟨.inr (.inr hregion), fun heq => h.disjoint ⟨p, r, hp⟩ (heq ▸ hregion)⟩
  · have htop := h.top (hback hq).2
    exact ⟨mem_erase.mpr ⟨htable (hback hq).1 (hback hq).2, htop.mem⟩, htop.trampoline, htop.trapframe⟩
  · obtain ⟨q, r', hq⟩ := hy
    exact h.disjoint ⟨q, r', (hback hq).2⟩

theorem replaceSpace (hp : w.space p = some (r, f)) (hr : r' ∉ g.tables) :
    Accounts L (w.setSpace p (some (r', f))) (g.replace L r r' f) := by
  have hnew : ∀ y, (w.setSpace p (some (r', f))).IsFrame y ↔ w.IsFrame y := by
    intro y
    constructor
    · rintro ⟨q, r₁, hq⟩
      rcases View.setSpace_some hq with ⟨-, ⟨⟩⟩ | ⟨-, hq⟩
      · exact ⟨p, r, hp⟩
      · exact ⟨q, r₁, hq⟩
    rintro ⟨q, r₁, hq⟩
    by_cases hqp : q = p
    · rw [hqp, hp] at hq
      cases hq
      exact ⟨p, r', View.setSpace_self _⟩
    · exact ⟨q, r₁, (View.setSpace_of_ne _ hqp).trans hq⟩
  have hother : ∀ {q r₁ f₁}, w.space q = some (r₁, f₁) → r₁ ≠ r' := fun hq heq => hr (heq ▸ h.mem_tables hq)
  have htable : ∀ {q r₁ f₁}, q ≠ p → w.space q = some (r₁, f₁) → r₁ ≠ r :=
    fun hne hq heq => hne (h.table_inj (heq ▸ hq) hp)
  have hframe : ∀ {q r₁ f₁}, q ≠ p → w.space q = some (r₁, f₁) → f₁ ≠ f :=
    fun hne hq heq => hne (h.frame_inj (heq ▸ hq) hp)
  refine ⟨fun r₁ => ?_, fun y => ?_, fun hq => ?_, h.region_page, fun hq => ?_,
    fun hq v y hy hs => ?_, View.setSpace_inj Prod.fst h.table_inj (fun _ => hother) rfl,
    View.setSpace_inj Prod.snd h.frame_inj hframe rfl, h.region_inj,
    fun hy => h.disjoint ((hnew _).mp hy)⟩
  · show r₁ ∈ (insert r' g.tables).erase r ↔ _
    rw [mem_erase, mem_insert, h.tables]
    constructor
    · rintro ⟨hne, heq | ⟨q, f₁, hq⟩⟩
      · exact ⟨p, f, heq ▸ View.setSpace_self _⟩
      have hqp : q ≠ p := by
        intro heq
        rw [heq, hp] at hq
        exact hne (congrArg Prod.fst (Option.some.inj hq)).symm
      exact ⟨q, f₁, (View.setSpace_of_ne _ hqp).trans hq⟩
    rintro ⟨q, f₁, hq⟩
    rcases View.setSpace_some hq with ⟨-, ⟨⟩⟩ | ⟨hne, hq⟩
    · exact ⟨(hother hp).symm, .inl rfl⟩
    · exact ⟨htable hne hq, .inr ⟨q, f₁, hq⟩⟩
  · show g.shared y ↔ y = L.trampoline ∨ _ ∨ w.IsRegion y
    rw [h.shared, hnew]
  · rcases View.setSpace_some hq with ⟨-, ⟨⟩⟩ | ⟨-, hq⟩
    · exact h.frame_page hp
    · exact h.frame_page hq
  · rcases View.setSpace_some hq with ⟨-, ⟨⟩⟩ | ⟨hne, hq⟩
    · have htop := g.space_top L r' f
      exact ⟨mem_erase.mpr ⟨(hother hp).symm, htop.mem⟩, htop.trampoline, htop.trapframe⟩
    · have htop := (h.top hq).space f hr
      exact ⟨mem_erase.mpr ⟨htable hne hq, htop.mem⟩, htop.trampoline, htop.trapframe⟩
  · rcases View.setSpace_some hq with ⟨-, ⟨⟩⟩ | ⟨-, hq⟩
    · simp only [Ledger.replace, drop, space, if_true] at hs
      exact hs.imp_right .inl
    · simp only [Ledger.replace, drop, space, if_neg (hother hq)] at hs
      exact h.only hq v y hy hs

end

end Accounts

end Xv6.Vm
