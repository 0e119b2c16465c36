import Xv6.Vm.Spaces

/-!
# Rules for process page tables and `exec`

What is known of one table, how it is made and how it is given up, is read here as a change of the ledger.  `kexec`
frees the old table only after the new one is complete, and that is the one step of `exec` that can free a shared
page.
-/

namespace Xv6.Vm

open Finset Hoare Memory Ledger PageMap

variable {L : Layout} {g : Ledger} {k k' k₀ : Kmem L} {r v x c tf sz : Nat} {E : Panic → Prop}

/-! ## Process page tables -/

def Ledger.space (L : Layout) (g : Ledger) (r tf : Nat) : Ledger :=
  { g with
    tables := insert r g.tables
    sees := fun r' v x =>
      if r' = r then (v = trampolineNo ∧ x = L.trampoline) ∨ (v = trapframeNo ∧ x = tf)
      else g.sees r' v x
    room := fun r' v => if r' = r then v = trampolineNo ∨ v = trapframeNo else g.room r' v }

/-- Where a process with `sz` bytes of user memory may have entries. -/
def UserRoom (sz v : Nat) : Prop := v < pagesOf sz ∨ v = trampolineNo ∨ v = trapframeNo

def Ledger.sized (g : Ledger) (r sz : Nat) : Ledger :=
  { g with room := fun r' v => if r' = r then UserRoom sz v else g.room r' v }

theorem Ledger.sized_self : (g.sized r sz).room r v ↔ UserRoom sz v := by
  simp only [sized, if_true]

variable {cs : List Nat} {argv : List (List UInt8)} {p : Space} {file : List UInt8} {r' : Nat}

theorem Ledger.sized_of_ne (hne : r' ≠ r) : (g.sized r sz).room r' v ↔ g.room r' v := by
  simp only [sized, if_neg hne]

theorem Ledger.space_of_ne (hne : r' ≠ r) : (g.space L r tf).room r' v ↔ g.room r' v := by
  simp only [space, if_neg hne]

theorem Ledger.space_sees_of_ne (hne : r' ≠ r) : (g.space L r tf).sees r' v x ↔ g.sees r' v x := by
  simp only [space, if_neg hne]

/-- The trampoline and the trapframe `tf` are pages that the tables may map but do not own. -/
structure Frames (L : Layout) (g : Ledger) (tf : Nat) : Prop where
  trampoline : g.shared L.trampoline
  trapframe : g.shared tf
  isPage : L.IsPage tf

/-- What the table of a process shows of the two pages at its top. -/
structure Top (L : Layout) (g : Ledger) (r tf : Nat) : Prop where
  mem : r ∈ g.tables
  trampoline : g.sees r trampolineNo L.trampoline
  trapframe : g.sees r trapframeNo tf

theorem Ledger.space_top (L : Layout) (g : Ledger) (r tf : Nat) : Top L (g.space L r tf) r tf where
  mem := mem_insert_self r g.tables
  trampoline := by simp [space]
  trapframe := by simp [space]

theorem Top.space (ht : Top L g r tf) (tf' : Nat) (hr' : r' ∉ g.tables) : Top L (g.space L r' tf') r tf := by
  have hne : r ≠ r' := fun heq => hr' (heq ▸ ht.mem)
  exact ⟨mem_insert_of_mem ht.mem, (space_sees_of_ne hne).mpr ht.trampoline, (space_sees_of_ne hne).mpr ht.trapframe⟩

def Ledger.Paged (L : Layout) (g : Ledger) : Prop := ∀ x, g.total x ≠ 0 → L.IsPage x

theorem Ledger.Paged.release (h : g.Paged L) (hc : L.IsPage c) : (g.release c).Paged L := by
  intro x hx
  by_cases heq : x = c
  · exact heq ▸ hc
  · have hold : (if x = c then 1 else g.total x) ≠ 0 := hx
    rw [if_neg heq] at hold
    exact h x hold

theorem mapsTo_eq_users (hwf : WellFormed L k.mem 2 r)
    (htop : ∀ v < NENTRIES, trapframeNo ≤ v → ¬ Hits (leaf k.mem 2 r v) x) :
    mapsTo (leaf k.mem 2 r) x = users (lookup k r) x := by
  have hle : trapframeNo ≤ NENTRIES := by decide
  unfold mapsTo users
  rw [← sum_subset (range_subset_range.mpr hle) fun v hv hout =>
    if_neg (htop v (mem_range.mp hv) (Nat.le_of_not_lt fun hlt => hout (mem_range.mpr hlt)))]
  apply sum_congr rfl
  intro v hv
  simp only [pointsTo_lookup hwf (Nat.lt_trans (mem_range.mp hv) trapframeNo_lt)]

/-! ## A new table -/

theorem Holds.sameTable_of_frame (h : Holds g k₀)
    (hframe : ∀ y, y % PGSIZE = 0 → k₀.free y = 0 → Agree k₀.mem k.mem y PGSIZE) (hr : r ∈ g.tables) :
    SameTable k₀.mem k.mem 2 r := by
  intro y hy
  have honce := (h.apart hr).once y
  exact hframe y ((h.wf r hr).isPage_of_pages hy).1 (by omega)

theorem Holds.noTrace (h : Holds g k₀) (hk : NoTrace k₀ k) : Holds g k :=
  h.same hk.free fun _ hr => h.sameTable_of_frame hk.frame hr

theorem Made.holds (hm : Made k₀ k r tf) (h : Holds g k₀) (hf : Frames L g tf)
    (habove : ∀ v, pagesOf sz ≤ v → v < trapframeNo → lookup k r v = none) :
    r ∉ g.tables ∧ Holds ((g.space L r tf).sized r sz) k := by
  have hsame : ∀ r' ∈ g.tables, SameTable k₀.mem k.mem 2 r' := fun r' hr' => h.sameTable_of_frame hm.frame hr'
  have hcount : ∀ x, k.free x + pages k.mem 2 r x + users (lookup k r) x = k₀.free x := hm.count
  have hself := pages_self_pos k.mem 2 r
  have hnew : r ∉ g.tables := by
    intro hr
    have honce := (h.apart hr).once r
    have hcount := hcount r
    have hold := pages_self_pos k₀.mem 2 r
    omega
  have hold : ∀ {r'}, r' ∈ (g.space L r tf).tables → r' ≠ r → r' ∈ g.tables := mem_of_mem_insert_of_ne
  refine ⟨hnew, fun r' hr' => ?_, fun x hx => ?_, fun x hx => ?_, fun r' hr' v hv x hx => ?_,
    fun r' hr' v hv hvalid => ?_⟩
  · by_cases heq : r' = r
    · rw [heq]
      exact hm.owns.wf
    · exact (h.wf r' (hold hr' heq)).congr (hsame r' (hold hr' heq))
  · have husers : mapsTo (leaf k.mem 2 r) x = users (lookup k r) x := by
      refine mapsTo_eq_users hm.owns.wf fun v hv hge hhit => hx ?_
      rcases (hm.hits_top hv hge).mp hhit with ⟨-, heq⟩ | ⟨-, heq⟩
      · rw [heq]
        exact hf.trampoline
      · rw [heq]
        exact hf.trapframe
    have hsum : ∑ r' ∈ g.tables, uses k.mem r' x = ∑ r' ∈ g.tables, uses k₀.mem r' x :=
      sum_congr rfl fun r' hr' => uses_congr (hsame r' hr')
    have hcount := hcount x
    have hbalance := h.balance x hx
    show k.free x + ∑ r' ∈ insert r g.tables, uses k.mem r' x = g.total x
    rw [sum_insert hnew, hsum, uses, husers]
    omega
  · have hzero := h.shared x hx
    have hcount := hcount x
    refine ⟨by omega, fun r' hr' => ?_⟩
    by_cases heq : r' = r
    · rw [heq]
      omega
    · rw [pages_congr (hsame r' (hold hr' heq))]
      exact hzero.2 r' (hold hr' heq)
  · by_cases heq : r' = r
    · have hsees : (g.space L r tf).sees r v x ↔
          (v = trampolineNo ∧ x = L.trampoline) ∨ (v = trapframeNo ∧ x = tf) := by
        simp only [space, if_true]
      rw [heq]
      refine Iff.trans ?_ hsees.symm
      by_cases hge : trapframeNo ≤ v
      · exact hm.hits_top hv hge
      -- What is mapped below the trapframe was free before, and nothing shared was.
      have hlt : v < trapframeNo := Nat.lt_of_not_le hge
      have hlow := trapframeNo_lt_trampolineNo
      refine ⟨fun hhit => ?_, fun htop => by omega⟩
      rw [← pointsTo_lookup hm.owns.wf (Nat.lt_trans hlt trapframeNo_lt)] at hhit
      obtain ⟨_, hlook⟩ := hhit.eq
      have hpos := users_pos hlt hlook
      have hcount := hcount x
      have hzero := (h.shared x hx).1
      omega
    · rw [leaf_congr (hsame r' (hold hr' heq))]
      exact (h.sees r' (hold hr' heq) v hv x hx).trans (space_sees_of_ne heq).symm
  by_cases heq : r' = r
  · rw [heq] at hvalid ⊢
    rw [sized_self]
    by_cases hlt : v < NPAGES
    · by_cases hge : trapframeNo ≤ v
      · exact .inr (top_cases hge hlt).symm
      left
      by_contra hhigh
      have hnone := habove v (Nat.le_of_not_lt hhigh) (Nat.lt_of_not_le hge)
      rw [lookup_eq hm.owns.wf hlt, decode_eq_none] at hnone
      exact hnone hvalid
    · exact absurd hvalid (hm.beyond v hv (Nat.le_of_not_lt hlt))
  · rw [sized_of_ne heq, space_of_ne heq]
    rw [leaf_congr (hsame r' (hold hr' heq))] at hvalid
    exact h.room r' (hold hr' heq) v hv hvalid

theorem Holds.free_le (h : Holds g k) (x : Nat) : k.free x ≤ 1 := by
  by_cases hx : g.shared x
  · rw [(h.shared x hx).1]
    exact Nat.zero_le 1
  · have hbalance := h.balance x hx
    have htotal := g.total_le x
    omega

theorem procPagetable_rule (hf : Frames L g tf) : Triple (Holds (L := L) g) (procPagetable tf)
      (fun r k => (r = 0 ∧ Holds g k) ∨ ((r ≠ 0 ∧ r ∉ g.tables) ∧ Holds ((g.space L r tf).sized r 0) k)) E := by
  apply Triple.of_returns
  intro k h
  obtain ⟨r, k', hrun, ⟨hr, hk'⟩ | ⟨hr, hmade, hnone⟩⟩ := procPagetable_made h.free_le hf.isPage.1 hf.isPage.lt
  · exact ⟨r, k', hrun, .inl ⟨hr, h.noTrace hk'⟩⟩
  · have hspace : r ∉ g.tables ∧ Holds ((g.space L r tf).sized r 0) k' := hmade.holds h hf fun v _ => hnone v
    obtain ⟨hnew, hk'⟩ := hspace
    exact ⟨r, k', hrun, .inr ⟨⟨hr, hnew⟩, hk'⟩⟩

/-! ## Giving up a table -/

/-- What the ledger says of a table that can be given up: the trampoline and the trapframe are at the top, there is private
memory below `sz`, and nothing else. -/
structure Plain (L : Layout) (g : Ledger) (r tf sz : Nat) : Prop where
  paged : g.Paged L
  frames : Frames L g tf
  top : Top L g r tf
  le : sz ≤ TRAPFRAME
  unseen : ∀ v < pagesOf sz, Unseen g r v
  room : ∀ v < NENTRIES, g.room r v → UserRoom sz v

section Plain

variable (h : Plain L g r tf sz) (hk : Holds g k)

include h hk

theorem Plain.low (hv : v < trapframeNo) (hhit : Hits (leaf k.mem 2 r v) x) : v < pagesOf sz ∧ ¬ g.shared x := by
  have hlt : v < NENTRIES := lt_NENTRIES (Nat.lt_trans hv trapframeNo_lt)
  have hlow := trapframeNo_lt_trampolineNo
  have huser : v < pagesOf sz := by
    rcases h.room v hlt (hk.room r h.top.mem v hlt hhit.1) with huser | htop | htop
    · exact huser
    · omega
    · omega
  exact ⟨huser, fun hx => h.unseen v huser x hx ((hk.sees r h.top.mem v hlt x hx).mp hhit)⟩

theorem Plain.high (hv : v < NENTRIES) (hge : trapframeNo ≤ v) (hhit : Hits (leaf k.mem 2 r v) x) : g.shared x := by
  have hle := pagesOf_le_trapframeNo h.le
  have hshared : ∀ {y}, g.shared y → g.sees r v y → g.shared x := by
    intro y hy hsees
    have hhit' := (hk.sees r h.top.mem v hv y hy).mpr hsees
    rw [← hhit.2, hhit'.2]
    exact hy
  rcases h.room v hv (hk.room r h.top.mem v hv hhit.1) with huser | rfl | rfl
  · omega
  · exact hshared h.frames.trampoline h.top.trampoline
  · exact hshared h.frames.trapframe h.top.trapframe

theorem Plain.lookup_some {f pa : Nat} (hv : v < trapframeNo) (hlook : lookup k r v = some (pa, f)) :
    Hits (leaf k.mem 2 r v) pa := by
  rw [← pointsTo_lookup (hk.wf r h.top.mem) (Nat.lt_trans hv trapframeNo_lt), hlook]
  exact pointsTo_some.mpr rfl

theorem Plain.disposable : Disposable k r sz := by
  have hr := h.top.mem
  refine ⟨⟨hk.wf r hr, hk.once hr, fun {v pa f} hv hlook => ?_⟩, h.le, fun v hlo hv => ?_, fun v hv hhigh hvalid => ?_⟩
  · have hhit := h.lookup_some hk hv hlook
    have hlt : v < NENTRIES := lt_NENTRIES (lt_of_lookup hlook)
    refine ⟨h.paged pa ?_, hk.target_not_page hr hr hlt hhit⟩
    have hterm := Sums.term_le_sum (f := fun r => uses k.mem r pa) hr
    have hbalance := hk.balance pa (h.low hk hv hhit).2
    have hpos := mapsTo_pos hlt hhit
    unfold uses at hterm hbalance
    omega
  · cases hlook : lookup k r v with
    | none => rfl
    | some =>
      have hlt := (h.low hk hv (h.lookup_some hk hv hlook)).1
      omega
  have hle := pagesOf_le_trapframeNo h.le
  have htop := trapframeNo_lt
  have htop' := trampolineNo_lt
  rcases h.room v hv (hk.room r hr v hv hvalid) with huser | heq | heq <;> omega

theorem Plain.drop (hfree : ∀ x, k'.free x = estate k r x)
    (hframe : ∀ y, y % PGSIZE = 0 → ¬ g.shared y → estate k r y = 0 → Agree k.mem k'.mem y PGSIZE) :
    Holds (g.drop r) k' := by
  have hr := h.top.mem
  have hestate : ∀ {x}, ¬ g.shared x → estate k r x = k.free x + uses k.mem r x := by
    intro x hx
    unfold estate uses
    rw [mapsTo_eq_users (hk.wf r hr) fun v hv hge hhit => hx (h.high hk hv hge hhit), Nat.add_assoc]
  have hsame : ∀ r' ∈ g.tables.erase r, SameTable k.mem k'.mem 2 r' := by
    intro r' hr' y hy
    obtain ⟨hne, hr'⟩ := mem_erase.mp hr'
    have hy' := hk.not_shared_of_page hr' hy
    have hle := hk.uses_two_le hr' hr hne hy'
    apply hframe y ((hk.wf r' hr').isPage_of_pages hy).1 hy'
    rw [hestate hy']
    unfold uses at hle ⊢
    omega
  refine ⟨fun r' hr' => (hk.wf r' (mem_of_mem_erase hr')).congr (hsame r' hr'), fun x hx => ?_, fun x hx => ?_,
    fun r' hr' v hv x hx => ?_, fun r' hr' v hv hvalid => ?_⟩
  · have hsum : ∑ r' ∈ g.tables.erase r, uses k'.mem r' x = ∑ r' ∈ g.tables.erase r, uses k.mem r' x :=
      sum_congr rfl fun r' hr' => uses_congr (hsame r' hr')
    show k'.free x + ∑ r' ∈ g.tables.erase r, uses k'.mem r' x = g.total x
    rw [hfree, hestate hx, hsum, Nat.add_assoc, add_sum_erase _ (fun r' => uses k.mem r' x) hr]
    exact hk.balance x hx
  · have husers : users (lookup k r) x = 0 := by
      apply users_eq_zero
      intro v hv hpoints
      obtain ⟨f, hlook⟩ := hpoints.eq
      exact (h.low hk hv (h.lookup_some hk hv hlook)).2 hx
    have hzero := hk.shared x hx
    refine ⟨?_, fun r' hr' => ?_⟩
    · rw [hfree, estate, husers, hzero.1, hzero.2 r hr]
    · rw [pages_congr (hsame r' hr')]
      exact hzero.2 r' (mem_of_mem_erase hr')
  · rw [leaf_congr (hsame r' hr')]
    exact hk.sees r' (mem_of_mem_erase hr') v hv x hx
  · rw [leaf_congr (hsame r' hr')] at hvalid
    exact hk.room r' (mem_of_mem_erase hr') v hv hvalid

end Plain

theorem Plain.freed (h : Plain L g r tf sz) :
    Triple (Holds (L := L) g) (procFreepagetable r sz) (fun _ => Holds (g.drop r)) E := by
  apply Triple.of_returns
  intro k hk
  obtain ⟨k', hrun, hg⟩ := (h.disposable hk).procFreepagetable
  exact ⟨(), k', hrun, h.drop hk hg.free fun y hy _ => hg.frame y hy⟩

theorem Plain.kfree_trapframe (h : Plain L g r tf sz) (hk : Holds g k) (hrun : kfree tf k = .ok ((), k')) :
    SameTable k.mem k'.mem 2 r ∧ Disposable k' r sz := by
  obtain ⟨-, -, hmem⟩ := kfree_ok hrun
  have hsame : SameTable k.mem k'.mem 2 r := by
    rw [hmem]
    exact hk.sameTable_fill h.frames.isPage (hk.shared tf h.frames.trapframe).2 h.top.mem
  exact ⟨hsame, (h.disposable hk).congr hsame⟩

/-- `freeproc` frees the trapframe first, while the table still maps it, and only then takes the table down.  In between the
page is both free and mapped. -/
theorem Plain.freeMemory (h : Plain L g r tf sz) (hk : Holds g k)
    (hsole : ∀ r' ∈ g.tables, r' ≠ r → ∀ v, ¬ g.sees r' v tf) :
    ∃ k₁ k', kfree tf k = .ok ((), k₁) ∧ procFreepagetable r sz k₁ = .ok ((), k') ∧
      Holds ((g.drop r).release tf) k' := by
  obtain ⟨k₁, hrun, hlist, hmem⟩ := kfree_page k h.frames.isPage
  obtain ⟨hsame, hdisp⟩ := h.kfree_trapframe hk hrun
  obtain ⟨k', hfreed, hg⟩ := hdisp.procFreepagetable
  have hestate : ∀ x, estate k₁ r x = estate k r x + if x = tf then 1 else 0 := by
    intro x
    unfold estate
    rw [lookup_congr (hk.wf r h.top.mem) hsame, pages_congr hsame, free_of_freelist hlist]
    omega
  -- The same memory without the trapframe on the free list.
  let k₂ : Kmem L := ⟨k'.freelist.erase tf, k'.mem, fun pa hpa => k'.isPage pa (List.mem_of_mem_erase hpa)⟩
  have hfree : ∀ x, k'.free x = k₂.free x + if x = tf then 1 else 0 := by
    intro x
    have htf : tf ∈ k'.freelist := by
      rw [← List.count_pos_iff]
      have hcount := hg.free tf
      rw [hestate, if_pos rfl] at hcount
      show 0 < k'.free tf
      omega
    have hperm : k'.freelist.Perm (tf :: k₂.freelist) := List.perm_cons_erase htf
    exact free_of_perm hperm
  have hdropped : Holds (g.drop r) k₂ := by
    refine h.drop hk (fun x => ?_) fun y hy hs hzero => ?_
    · have hcount := hg.free x
      have hone := hfree x
      rw [hestate] at hcount
      omega
    have hne : y ≠ tf := fun heq => hs (heq ▸ h.frames.trapframe)
    have hzero₁ : estate k₁ r y = 0 := by
      rw [hestate, hzero, if_neg hne]
    have hagree : Agree k.mem k₁.mem y PGSIZE := by
      rw [hmem]
      exact agree_fill (page_disjoint hy h.frames.isPage.1 hne)
    exact hagree.trans (hg.frame y hy hzero₁)
  refine ⟨k₁, k', hrun, hfreed, hdropped.release h.frames.trapframe (fun r' hr' v _ => ?_) hfree fun r' _ y _ => .refl _ _ _⟩
  exact hsole r' (mem_of_mem_erase hr') (ne_of_mem_erase hr') v

theorem Plain.space (hpaged : g.Paged L) (hf : Frames L g tf) (hsz : sz ≤ TRAPFRAME) :
    Plain L ((g.space L r tf).sized r sz) r tf sz := by
  have htop := g.space_top L r tf
  refine ⟨hpaged, ⟨hf.trampoline, hf.trapframe, hf.isPage⟩, ⟨htop.mem, htop.trampoline, htop.trapframe⟩, hsz,
    fun v hv x _ hsees => ?_, fun v _ hroom => sized_self.mp hroom⟩
  have hle := pagesOf_le_trapframeNo hsz
  have hlow := trapframeNo_lt_trampolineNo
  have hsees' : (g.space L r tf).sees r v x := hsees
  simp only [Ledger.space, if_true] at hsees'
  omega

theorem Plain.beside (h : Plain L g r tf sz) (hr' : r' ∉ g.tables) (tf' sz' : Nat) :
    Plain L ((g.space L r' tf').sized r' sz') r tf sz := by
  have hne : r ≠ r' := fun heq => hr' (heq ▸ h.top.mem)
  have htop := h.top.space tf' hr'
  refine ⟨h.paged, ⟨h.frames.trampoline, h.frames.trapframe, h.frames.isPage⟩, ⟨htop.mem, htop.trampoline, htop.trapframe⟩,
    h.le, fun v hv x hx hsees => h.unseen v hv x hx ((space_sees_of_ne hne).mp hsees), fun v hv hroom => h.room v hv ?_⟩
  rw [sized_of_ne hne, space_of_ne hne] at hroom
  exact hroom

/-! ## Building an image -/

theorem readi_length_le (file : List UInt8) (off n : Nat) : (readi file off n).length ≤ n := by
  unfold readi
  split
  · exact Nat.zero_le _
  · rw [List.length_take]
    exact Nat.min_le_left _ _

theorem loadsegLoop_rule {va offset sz rounds i : Nat} (hr : r ∈ g.tables) :
    Triple (Holds (L := L) g) (loadsegLoop r va file offset sz rounds i) (fun _ => Holds g) Any := by
  induction rounds generalizing i with
  | zero => exact .pure fun _ h => h
  | succ rounds ih =>
    unfold loadsegLoop
    refine (walkaddr_rule hr).bind fun pa => .ite (fun _ => .throw fun _ _ => any _) fun hpa => ?_
    have hle := readi_length_le file ((offset + i) % 2 ^ 32) (if sz - i < PGSIZE then sz - i else PGSIZE)
    have hfits : (readi file ((offset + i) % 2 ^ 32)
        (if sz - i < PGSIZE then sz - i else PGSIZE)).length ≤ PGSIZE := by
      refine Nat.le_trans hle ?_
      split <;> omega
    refine (Triple.modify fun k h => ?_).bind fun _ => .ite (fun _ => .pure fun _ h => h) fun _ => ih
    exact h.2.store (h.1 hpa) 0 (by rw [Nat.zero_add]; exact hfits)

theorem flags2perm_lt (flags : Nat) : flags2perm flags < 2 ^ 10 := by
  unfold flags2perm
  apply Nat.or_lt_two_pow <;> (split <;> decide)

theorem UvmallocPost.le_trapframe {oldsz newsz ret : Nat} (hf : g.shared tf) (ht : Top L g r tf)
    (hold : oldsz ≤ TRAPFRAME) (hret : ret ≠ 0) (h : UvmallocPost g r oldsz newsz ret k) : ret ≤ TRAPFRAME := by
  rcases h with ⟨hfail | hsame, -⟩ | ⟨hgrown, -⟩
  · exact absurd hfail hret
  · rw [hsame.2]
    exact hold
  rw [hgrown.1]
  by_contra hgt
  refine hgrown.2.2 trapframeNo ?_ ?_ tf hf ht.trapframe
  · have hmax : oldsz ≤ MAXVA := Nat.le_trans hold (by decide)
    rw [PGROUNDUP_div hmax]
    unfold trapframeNo TRAPFRAME TRAMPOLINE MAXVA PGSIZE at *
    omega
  · have hno : trapframeNo * PGSIZE = TRAPFRAME := by decide
    omega

theorem UvmallocPost.failed {oldsz newsz : Nat} (h : UvmallocPost g r oldsz newsz 0 k) : Holds g k := by
  rcases h with h | ⟨hgrown, h⟩
  · exact h.2
  -- It was asked to grow from nothing to nothing.
  refine h.widen fun _ _ v hroom => hroom.elim id fun hin => ?_
  have hempty : pagesOf newsz = 0 := by
    rw [← hgrown.1]
    rfl
  omega

theorem UvmallocPost.grown {oldsz newsz ret : Nat} (hret : ret ≠ 0)
    (h : UvmallocPost (g.sized r oldsz) r oldsz newsz ret k) : Holds (g.sized r ret) k := by
  rcases h with ⟨hfail | hsame, h⟩ | ⟨hgrown, h⟩
  · exact absurd hfail hret
  · rw [hsame.2]
    exact h
  rw [hgrown.1]
  refine h.widen fun r' _ v hroom => ?_
  have hle := pagesOf_mono hgrown.2.1
  rcases hroom with hroom | hin
  · by_cases heq : r' = r
    · rw [heq, sized_self] at hroom
      rw [heq, if_pos rfl]
      exact hroom.imp_left fun hlt => Nat.lt_of_lt_of_le hlt hle
    · rw [if_neg heq]
      exact (sized_of_ne heq).mp hroom
  · rw [if_pos hin.1]
    exact .inl hin.2.2

theorem loadSegments_rule {n off sz : Nat} (hf : g.shared tf)
    (ht : Top L g r tf) (hsz : sz ≤ TRAPFRAME) : Triple (Holds (L := L) (g.sized r sz)) (loadSegments r file n off sz)
      (fun ret k => ret.2 ≤ TRAPFRAME ∧ Holds (g.sized r ret.2) k) Any := by
  induction n generalizing off sz with
  | zero => exact .pure fun _ h => ⟨hsz, h⟩
  | succ n ih =>
    have hstop : ∀ b : Bool, Triple (Holds (L := L) (g.sized r sz)) (pure (b, sz))
        (fun ret k => ret.2 ≤ TRAPFRAME ∧ Holds (g.sized r ret.2) k) Any :=
      fun b => .pure fun _ h => ⟨hsz, h⟩
    have ht' : Top L (g.sized r sz) r tf := ⟨ht.mem, ht.trampoline, ht.trapframe⟩
    unfold loadSegments
    refine .ite (fun _ => hstop _) fun _ => .ite (fun _ => ih hsz) fun _ =>
      .ite (fun _ => hstop _) fun _ => .ite (fun _ => hstop _) fun _ =>
      .ite (fun _ => hstop _) fun _ => ?_
    refine (uvmalloc_rule ht'.mem (flags2perm_lt _) (Nat.le_trans hsz (by decide))
      (.inl any)).bind fun sz1 => .ite (fun hzero => ?_) fun hsz1 => ?_
    · rw [hzero]
      exact (hstop _).pre fun _ h => h.failed
    have hf' : (g.sized r sz).shared tf := hf
    refine .known (fun k h => h.le_trapframe hf' ht' hsz hsz1) fun hle => ?_
    refine .pre (P := Holds (g.sized r sz1)) ?_ fun _ h => h.grown hsz1
    have hr : r ∈ (g.sized r sz1).tables := ht.mem
    refine (loadsegLoop_rule hr).bind fun loaded => .ite (fun _ => ih hle) fun _ => ?_
    exact .pure fun _ h => ⟨hle, h⟩

theorem pushStrings_rule {stackbase sp : Nat}
    {ustack : List Nat} (hp : p.pagetable ∈ g.tables) (hr : r ∈ g.tables) (hroom : HasRoom g p) :
    Triple (Holds (L := L) g) (pushStrings p r stackbase argv sp ustack) (fun _ => Holds g)
      Any := by
  induction argv generalizing sp ustack with
  | nil => exact .pure fun _ h => h
  | cons s argv ih =>
    unfold pushStrings
    refine .ite (fun _ => .pure fun _ h => h) fun _ => .ite (fun _ => .pure fun _ h => h) fun _ => ?_
    exact (copyout_rule hp hr hroom).bind fun ret => .ite (fun _ => .pure fun _ h => h) fun _ => ih

theorem pushArgs_rule {sp stackbase : Nat}
    (hp : p.pagetable ∈ g.tables) (hr : r ∈ g.tables) (hroom : HasRoom g p) :
    Triple (Holds (L := L) g) (pushArgs p r sp stackbase argv) (fun _ => Holds g) Any := by
  unfold pushArgs
  refine (pushStrings_rule hp hr hroom).bind fun pushed => ?_
  cases pushed with
  | none => exact .pure fun _ h => h
  | some =>
    refine .ite (fun _ => .throw fun _ _ => any _) fun _ => .ite (fun _ => .pure fun _ h => h) fun _ => ?_
    refine (copyout_rule hp hr hroom).bind fun ret => ?_
    exact .ite (fun _ => .pure fun _ h => h) fun _ => .pure fun _ h => h

theorem HasRoom.sized (h : HasRoom g p) (hne : p.pagetable ≠ r) (sz : Nat) : HasRoom (g.sized r sz) p :=
  fun v hv => (sized_of_ne hne).mpr (h v hv)

theorem HasRoom.space (h : HasRoom g p) (hne : p.pagetable ≠ r) (tf : Nat) : HasRoom (g.space L r tf) p :=
  fun v hv => (space_of_ne hne).mpr (h v hv)

theorem buildStack_rule {sz : Nat} (hf : g.shared tf)
    (ht : Top L g r tf) (hp : p.pagetable ∈ g.tables) (hroom : HasRoom g p) (hne : p.pagetable ≠ r)
    (hsz : sz ≤ TRAPFRAME) : Triple (Holds (L := L) (g.sized r sz)) (buildStack p r sz argv)
      (fun ret k => ret.1 ≤ TRAPFRAME ∧ Holds (g.sized r ret.1) k) Any := by
  have ht' : Top L (g.sized r sz) r tf := ⟨ht.mem, ht.trampoline, ht.trapframe⟩
  unfold buildStack
  generalize (sz + (USERSTACK + 1) * PGSIZE) % 2 ^ 64 = newsz
  refine (uvmalloc_rule ht'.mem (by decide) (Nat.le_trans hsz (by decide)) (.inl any)).bind
    fun sz1 => .ite (fun hzero => ?_) fun hsz1 => ?_
  · rw [hzero]
    exact .pure fun _ h => ⟨hsz, h.failed⟩
  have hf' : (g.sized r sz).shared tf := hf
  refine .known (fun k h => h.le_trapframe hf' ht' hsz hsz1) fun hle => ?_
  refine .pre (P := Holds (g.sized r sz1)) ?_ fun _ h => h.grown hsz1
  have hr : r ∈ (g.sized r sz1).tables := ht.mem
  have hp' : p.pagetable ∈ (g.sized r sz1).tables := hp
  refine (uvmclear_rule hr).bind fun _ => ?_
  exact (pushArgs_rule hp' hr (hroom.sized hne sz1)).bind fun pushed => .pure fun _ h => ⟨hle, h⟩

theorem procFreepagetable_new (hpaged : g.Paged L) (hf : Frames L g tf) (hr : r ∉ g.tables) (hsz : sz ≤ TRAPFRAME) :
    Triple (Holds (L := L) ((g.space L r tf).sized r sz)) (procFreepagetable r sz) (fun _ => Holds g) E := by
  refine (Plain.space hpaged hf hsz).freed.post fun _ k h => ?_
  refine h.congr (erase_insert hr).symm rfl (fun _ => Iff.rfl) (fun r' hr' v x _ => ?_) fun r' hr' v hroom => ?_
  · exact (space_sees_of_ne (ne_of_mem_erase hr')).symm
  · have hroom' : ((g.space L r tf).sized r sz).room r' v := hroom
    rw [sized_of_ne (ne_of_mem_erase hr'), space_of_ne (ne_of_mem_erase hr')] at hroom'
    exact hroom'

/-- Nothing has changed, or there is one more address space. -/
def ImagePost (g : Ledger) (tf : Nat) (ret : Option Image) (k : Kmem L) : Prop :=
  match ret with
  | none => Holds g k
  | some image => (image.pagetable ∉ g.tables ∧ image.sz ≤ TRAPFRAME) ∧
      Holds ((g.space L image.pagetable tf).sized image.pagetable image.sz) k

theorem pagesOf_PGROUNDUP {sz : Nat} (h : sz ≤ MAXVA) : pagesOf (PGROUNDUP sz) = pagesOf sz := by
  rw [PGROUNDUP_eq h]
  unfold pagesOf PGSIZE
  omega

theorem PGROUNDUP_le_TRAPFRAME {sz : Nat} (h : sz ≤ TRAPFRAME) : PGROUNDUP sz ≤ TRAPFRAME := by
  rw [PGROUNDUP_eq (Nat.le_trans h (by decide))]
  unfold TRAPFRAME TRAMPOLINE MAXVA PGSIZE at *
  omega

theorem Holds.roundedUp {sz : Nat} (h : Holds (g.sized r sz) k) (hsz : sz ≤ TRAPFRAME) :
    Holds (g.sized r (PGROUNDUP sz)) k := by
  unfold sized UserRoom
  rw [pagesOf_PGROUNDUP (Nat.le_trans hsz (by decide))]
  exact h

theorem buildImage_rule (hpaged : g.Paged L)
    (hf : Frames L g tf) (hp : p.pagetable ∈ g.tables) (hroom : HasRoom g p) :
    Triple (Holds (L := L) g) (buildImage p tf file argv) (ImagePost g tf) Any := by
  unfold buildImage
  refine .ite (fun _ => .pure fun _ h => h) fun _ => .ite (fun _ => .pure fun _ h => h) fun _ => ?_
  refine (procPagetable_rule hf).bind fun r => .or (.assume fun hr => ?_) (.assume fun hr => ?_)
  · rw [if_pos hr]
    exact .pure fun _ h => h
  rw [if_neg hr.1]
  have htop := g.space_top L r tf
  have hp' : p.pagetable ∈ (g.space L r tf).tables := mem_insert_of_mem hp
  have hne : p.pagetable ≠ r := fun heq => hr.2 (heq ▸ hp)
  have hundo : ∀ sz, sz ≤ TRAPFRAME →
      Triple (Holds (L := L) ((g.space L r tf).sized r sz))
        (do procFreepagetable r sz; pure (none : Option Image)) (ImagePost g tf) Any :=
    fun sz hsz => (procFreepagetable_new hpaged hf hr.2 hsz).bind fun _ => .pure fun _ h => h
  have hshared : (g.space L r tf).shared tf := hf.trapframe
  refine (loadSegments_rule hshared htop (Nat.zero_le _)).bind fun ret => .assume fun hsz => ?_
  refine .ite (fun _ => hundo _ hsz) fun _ => ?_
  have hup := PGROUNDUP_le_TRAPFRAME hsz
  refine .pre (P := Holds ((g.space L r tf).sized r (PGROUNDUP ret.2))) ?_ fun k h => h.roundedUp hsz
  refine (buildStack_rule hshared htop hp' (hroom.space hne tf) hne hup).bind fun ret =>
    .assume fun hsz => ?_
  obtain ⟨sz, pushed⟩ := ret
  cases pushed with
  | none => exact hundo _ hsz
  | some => exact .pure fun _ h => ⟨⟨hr.2, hsz⟩, h⟩

/-! ## `kexec` -/

theorem storeWord_shared {off e : Nat} (hc : L.IsPage c) (hs : g.shared c) (hoff : off + 8 ≤ PGSIZE) :
    Triple (Holds (L := L) g) (storeWord (c + off) e) (fun _ => Holds g) E := by
  apply Triple.modify
  intro k h
  refine h.write fun _ hr => h.sameTable (h.shared c hs).2 (fun y hy hne => ?_) hr
  have hdisj := page_disjoint hy hc.1 hne
  exact agree_put (by omega)

def NoneShared (g : Ledger) (p : Space) : Prop := ∀ v < PGROUNDUP p.sz / PGSIZE, Unseen g p.pagetable v

/-- The ledger after the address space of a process has been replaced. -/
def Ledger.replace (L : Layout) (g : Ledger) (old new tf : Nat) : Ledger := (g.space L new tf).drop old

/-- Nothing has changed, or the new address space has taken the place of the old one.  That the books
are in order then needs that the old one had nothing shared. -/
def ExecPost (g : Ledger) (p : Space) (tf : Nat) (ret : Option Executed) (k : Kmem L) : Prop :=
  match ret with
  | none => Holds g k
  | some e => (e.space.pagetable ∉ g.tables ∧ e.space.sz ≤ TRAPFRAME) ∧
      (NoneShared g p → Holds ((g.replace L p.pagetable e.space.pagetable tf).sized e.space.pagetable e.space.sz) k)

theorem NoneShared.plain (h : NoneShared g p) (hpaged : g.Paged L) (hf : Frames L g tf)
    (ht : Top L g p.pagetable tf) (hroom : ∀ v, g.room p.pagetable v ↔ UserRoom p.sz v) (hsz : p.sz ≤ TRAPFRAME) :
    Plain L g p.pagetable tf p.sz := by
  refine ⟨hpaged, hf, ht, hsz, fun v hv => ?_, fun v _ => (hroom v).mp⟩
  rw [← pagesOf_eq (Nat.le_trans hsz (by decide))] at hv
  exact h v hv

theorem Frames.storeWord {r sz off e : Nat} (hf : Frames L g tf) (hoff : off + 8 ≤ PGSIZE) :
    Triple (Holds (L := L) ((g.space L r tf).sized r sz)) (Vm.storeWord (tf + off) e)
      (fun _ => Holds ((g.space L r tf).sized r sz)) Any :=
  storeWord_shared hf.isPage hf.trapframe hoff

theorem kexec_rule {namei : List UInt8 → Option (List UInt8)} {path : List UInt8}
    (hf : Frames L g tf) (ht : Top L g p.pagetable tf) (hpaged : g.Paged L)
    (hroom : ∀ v, g.room p.pagetable v ↔ UserRoom p.sz v) (hsz : p.sz ≤ TRAPFRAME) :
    Triple (Holds (L := L) g) (kexec p tf namei path argv) (ExecPost g p tf) Any := by
  unfold kexec
  cases namei path with
  | none => exact .pure fun _ h => h
  | some =>
    refine (buildImage_rule hpaged hf ht.mem fun v hv => (hroom v).mpr (.inl hv)).bind fun ret => ?_
    cases ret with
    | none => exact .pure fun _ h => h
    | some image =>
      refine .assume fun himage => ?_
      refine (hf.storeWord (by decide)).bind fun _ => (hf.storeWord (by decide)).bind fun _ =>
        (hf.storeWord (by decide)).bind fun _ => ?_
      by_cases hnone : NoneShared g p
      · have hplain := (hnone.plain hpaged hf ht hroom hsz).beside himage.1 tf image.sz
        exact hplain.freed.bind fun _ => .pure fun _ h => ⟨himage, fun _ => h⟩
      refine Triple.of_ok any fun k ret k' _ hrun => ?_
      obtain ⟨_, k₁, -, hret⟩ := bind_ok hrun
      rw [(pure_ok hret).1]
      exact ⟨himage, fun h => absurd h hnone⟩

/-! ## `sys_exec` -/

def Ledger.holdAll (g : Ledger) (cs : List Nat) : Ledger :=
  { g with
    shared := fun x => g.shared x ∨ x ∈ cs
    sees := fun r v x => x ∉ cs ∧ g.sees r v x }

structure FreshAll (L : Layout) (g : Ledger) (cs : List Nat) : Prop where
  fresh : ∀ c ∈ cs, Fresh L g c
  nodup : cs.Nodup

theorem Holds.holdAll_nil (h : Holds g k) : Holds (g.holdAll []) k :=
  h.congr rfl rfl (fun x => by simp [holdAll]) (fun r _ v x _ => by simp [holdAll]) fun _ _ _ hroom => hroom

theorem Ledger.Fresh.of_holdAll (hc : Fresh L (g.holdAll cs) c) : Fresh L g c ∧ c ∉ cs :=
  ⟨⟨hc.isPage, fun hs => hc.not_shared (.inl hs), hc.total⟩, fun hmem => hc.not_shared (.inr hmem)⟩

theorem Holds.holdAll_snoc (h : Holds ((g.holdAll cs).hold c) k) : Holds (g.holdAll (cs ++ [c])) k := by
  refine h.congr rfl rfl (fun x => ?_) (fun r _ v x _ => ?_) fun _ _ _ hroom => hroom
  · show g.shared x ∨ x ∈ cs ++ [c] ↔ (g.shared x ∨ x ∈ cs) ∨ x = c
    rw [List.mem_append, List.mem_singleton, or_assoc]
  · show x ∉ cs ++ [c] ∧ g.sees r v x ↔ x ≠ c ∧ x ∉ cs ∧ g.sees r v x
    rw [List.mem_append, List.mem_singleton, not_or]
    tauto

theorem Holds.holdAll_cons (h : Holds (g.holdAll (c :: cs)) k) : Holds ((g.holdAll cs).hold c) k := by
  refine h.congr rfl rfl (fun x => ?_) (fun r _ v x _ => ?_) fun _ _ _ hroom => hroom
  · show (g.shared x ∨ x ∈ cs) ∨ x = c ↔ g.shared x ∨ x ∈ c :: cs
    rw [List.mem_cons]
    tauto
  · show x ≠ c ∧ x ∉ cs ∧ g.sees r v x ↔ x ∉ c :: cs ∧ g.sees r v x
    rw [List.mem_cons, not_or]
    tauto

theorem FreshAll.snoc (h : FreshAll L g cs) (hc : Fresh L (g.holdAll cs) c) : FreshAll L g (cs ++ [c]) := by
  have hfresh := hc.of_holdAll
  refine ⟨fun x hx => ?_, ?_⟩
  · cases List.mem_append.mp hx with
    | inl hold => exact h.fresh x hold
    | inr hnew =>
      rw [List.mem_singleton.mp hnew]
      exact hfresh.1
  rw [List.nodup_append]
  refine ⟨h.nodup, List.nodup_singleton c, fun a ha b hb => ?_⟩
  rw [List.mem_singleton.mp hb]
  exact fun heq => hfresh.2 (heq ▸ ha)

theorem kfreeAll_rule (hcs : FreshAll L g cs) :
    Triple (Holds (L := L) (g.holdAll cs)) (kfreeAll cs) (fun _ => Holds g) Any := by
  induction cs with
  | nil =>
    refine .pure fun k h => h.congr rfl rfl (fun x => ?_) (fun r _ v x _ => ?_) fun _ _ _ hroom => hroom
    all_goals simp [holdAll]
  | cons c cs ih =>
    have hc := hcs.fresh c List.mem_cons_self
    have hnot : c ∉ cs := (List.nodup_cons.mp hcs.nodup).1
    have hfresh : Fresh L (g.holdAll cs) c := ⟨hc.isPage, fun hs => hs.elim hc.not_shared hnot, hc.total⟩
    have hrest : FreshAll L g cs :=
      ⟨fun x hx => hcs.fresh x (List.mem_cons_of_mem c hx), (List.nodup_cons.mp hcs.nodup).2⟩
    unfold kfreeAll
    refine .pre ?_ fun k h => h.holdAll_cons
    exact (kfree_held hfresh).bind fun _ => ih hrest

theorem fetchaddr_rule {addr : Nat} (hp : p.pagetable ∈ g.tables) (hroom : HasRoom g p) :
    Triple (Holds (L := L) g) (fetchaddr p addr) (fun _ => Holds g) Any := by
  unfold fetchaddr
  refine .ite (fun _ => .pure fun _ h => h) fun _ => ?_
  exact (copyin_rule hp hp hroom).bind fun _ => .pure fun _ h => h

def FetchPost (g : Ledger) (f : Fetched) (k : Kmem L) : Prop := FreshAll L g f.pages ∧ Holds (g.holdAll f.pages) k

theorem fetchArgs_rule {uargv n i : Nat}
    (hp : p.pagetable ∈ g.tables) (hroom : HasRoom g p) (hcs : FreshAll L g cs) :
    Triple (Holds (L := L) (g.holdAll cs)) (fetchArgs p uargv n i cs argv) (FetchPost g) Any := by
  induction n generalizing i cs argv with
  | zero => exact .pure fun _ h => ⟨hcs, h⟩
  | succ n ih =>
    have hp' : p.pagetable ∈ (g.holdAll cs).tables := hp
    unfold fetchArgs
    have hroom' : HasRoom (g.holdAll cs) p := hroom
    refine (fetchaddr_rule hp' hroom').bind fun uarg => ?_
    cases uarg with
    | none => exact .pure fun _ h => ⟨hcs, h⟩
    | some =>
      refine .ite (fun _ => .pure fun _ h => ⟨hcs, h⟩) fun _ => ?_
      apply kalloc_then
      · rw [if_pos rfl]
        exact .pure fun _ h => ⟨hcs, h⟩
      intro c hc
      rw [if_neg hc.ne_zero]
      have hp'' : p.pagetable ∈ ((g.holdAll cs).hold c).tables := hp
      refine (copyinstr_rule hp'').bind fun s => ?_
      cases s with
      | none => exact .pure fun _ h => ⟨hcs.snoc hc, h.2.holdAll_snoc⟩
      | some s =>
        refine .known (fun k h => h.1 s rfl) fun hlen => ?_
        refine (Triple.modify fun k h => ?_).bind fun _ => ih (hcs.snoc hc)
        have hfits : 0 + (s ++ [0]).length ≤ PGSIZE := by
          rw [List.length_append, List.length_singleton]
          omega
        have hdata : Data ((g.holdAll cs).hold c) k c := ⟨hc.isPage.1, (h.2.shared c (shared_hold _ c)).2⟩
        exact (h.2.store hdata 0 hfits).holdAll_snoc

theorem Frames.holdAll (hf : Frames L g tf) : Frames L (g.holdAll cs) tf :=
  ⟨.inl hf.trampoline, .inl hf.trapframe, hf.isPage⟩

theorem FreshAll.not_mem (hcs : FreshAll L g cs) (hx : g.shared x) : x ∉ cs :=
  fun hmem => (hcs.fresh x hmem).not_shared hx

theorem Top.holdAll (ht : Top L g r tf) (hf : Frames L g tf) (hcs : FreshAll L g cs) : Top L (g.holdAll cs) r tf :=
  ⟨ht.mem, ⟨hcs.not_mem hf.trampoline, ht.trampoline⟩, ⟨hcs.not_mem hf.trapframe, ht.trapframe⟩⟩

theorem NoneShared.holdAll (h : NoneShared g p) : NoneShared (g.holdAll cs) p := by
  intro v hv x hx hs
  exact h v hv x (hx.resolve_right hs.1) hs.2

theorem Holds.replace_holdAll {old new sz : Nat} (hf : Frames L g tf)
    (hcs : FreshAll L g cs) (h : Holds (((g.holdAll cs).replace L old new tf).sized new sz) k) :
    Holds (((g.replace L old new tf).sized new sz).holdAll cs) k := by
  refine h.congr rfl rfl (fun _ => Iff.rfl) (fun r' _ v x _ => ?_) fun _ _ _ hroom => hroom
  show (x ∉ cs ∧ if r' = new then _ else g.sees r' v x) ↔
    if r' = new then _ else x ∉ cs ∧ g.sees r' v x
  by_cases hnew : r' = new
  · rw [if_pos hnew, if_pos hnew]
    refine ⟨fun hs => hs.2, fun hs => ⟨?_, hs⟩⟩
    cases hs with
    | inl htramp =>
      rw [htramp.2]
      exact hcs.not_mem hf.trampoline
    | inr hframe =>
      rw [hframe.2]
      exact hcs.not_mem hf.trapframe
  · rw [if_neg hnew, if_neg hnew]

theorem FreshAll.replace {old new sz : Nat} (hcs : FreshAll L g cs) :
    FreshAll L ((g.replace L old new tf).sized new sz) cs :=
  ⟨fun c hc => ⟨(hcs.fresh c hc).isPage, (hcs.fresh c hc).not_shared, (hcs.fresh c hc).total⟩, hcs.nodup⟩

theorem sysExec_rule {upath uargv : Nat} {namei : List UInt8 → Option (List UInt8)}
    (hf : Frames L g tf) (ht : Top L g p.pagetable tf) (hpaged : g.Paged L)
    (hroom : ∀ v, g.room p.pagetable v ↔ UserRoom p.sz v) (hsz : p.sz ≤ TRAPFRAME) :
    Triple (Holds (L := L) g) (sysExec p tf upath uargv namei) (ExecPost g p tf) Any := by
  unfold sysExec
  refine (copyinstr_rule ht.mem).bind fun path => ?_
  cases path with
  | none => exact .pure fun _ h => h.2
  | some =>
    refine .pre (P := Holds (g.holdAll [])) ?_ fun k h => h.2.holdAll_nil
    have hstart : FreshAll L g [] := ⟨fun c hc => absurd hc List.not_mem_nil, List.nodup_nil⟩
    refine (fetchArgs_rule ht.mem (fun v hv => (hroom v).mpr (.inl hv)) hstart).bind fun fetched =>
      .assume fun hcs => .ite (fun _ => ?_) fun _ => ?_
    · refine (kexec_rule hf.holdAll (ht.holdAll hf hcs) hpaged hroom hsz).bind fun ret => ?_
      cases ret with
      | none => exact (kfreeAll_rule hcs).bind fun _ => .pure fun _ h => h
      | some =>
        refine .assume fun he => ?_
        by_cases hnone : NoneShared g p
        · refine .pre ?_ fun k h => Holds.replace_holdAll hf hcs (h hnone.holdAll)
          exact (kfreeAll_rule hcs.replace).bind fun _ => .pure fun _ h => ⟨he, fun _ => h⟩
        refine Triple.of_ok any fun k ret k' _ hrun => ?_
        obtain ⟨_, k₁, -, hret⟩ := bind_ok hrun
        rw [(pure_ok hret).1]
        exact ⟨he, fun h => absurd h hnone⟩
    · exact (kfreeAll_rule hcs).bind fun _ => .pure fun _ h => h

end Xv6.Vm
