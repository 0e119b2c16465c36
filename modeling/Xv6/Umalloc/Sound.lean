import Mathlib.Algebra.BigOperators.Group.Finset.Piecewise
import Xv6.Lib.Circuit
import Xv6.Umalloc.Model

/-!
# The heap stays sound

The blocks of the heap are those on the free list and those in use.  They do not overlap, they lie in what `sbrk` has
returned, and together they are all of it.  The free ones are linked in order of their addresses, and no two of them touch.
-/

namespace Xv6.Umalloc

open Circuit Finset Function

/-- The blocks `A`, by their headers, with their sizes. -/
structure Blocks (base : Nat) (size : Nat → Nat) (regions : List (Nat × Nat)) (A : Finset Nat) : Prop where
  pos : ∀ a ∈ A, 0 < size a ∧ base < a
  apart : ∀ a ∈ A, ∀ b ∈ A, a < b → a + 16 * size a ≤ b
  mine : ∀ a ∈ A, ∀ x, a ≤ x → x < a + 16 * size a → ∃ r ∈ regions, r.1 ≤ x ∧ x < r.1 + r.2
  count : 16 * ∑ a ∈ A, size a = (regions.map Prod.snd).sum
  enough : (regions.map Prod.snd).sum ≤ PHYSMEM

section Blocks

variable {base x y n : Nat} {size : Nat → Nat} {regions : List (Nat × Nat)} {A : Finset Nat}

theorem sum_update (size : Nat → Nat) (hx : x ∈ A) (v : Nat) : ∑ a ∈ A, update size x v a + size x = ∑ a ∈ A, size a + v := by
  have hsum := sum_update_of_mem hx size v
  have hold := add_sum_erase A size hx
  rw [sdiff_singleton_eq_erase] at hsum
  omega

section

variable (h : Blocks base size regions A)

include h

theorem Blocks.size_add (hx : x ∈ A) (hy : y ∈ A) (hxy : x ≠ y) : (size x + size y) % 2 ^ 32 = size x + size y := by
  have hfirst := add_sum_erase A size hy
  have hsecond := add_sum_erase (A.erase y) size (mem_erase.mpr ⟨hxy, hx⟩)
  have hcount := h.count
  have henough := h.enough
  unfold PHYSMEM at henough
  apply Nat.mod_eq_of_lt
  omega

theorem Blocks.merge (hx : x ∈ A) (hy : y ∈ A) (hxy : x + 16 * size x = y) :
    Blocks base (update size x (size x + size y)) regions (A.erase y) := by
  have hpos := h.pos x hx
  have hxe : x ∈ A.erase y := mem_erase.mpr ⟨by omega, hx⟩
  have hother : ∀ {a}, a ≠ x → update size x (size x + size y) a = size a := fun ha => update_of_ne ha _ _
  have hself : update size x (size x + size y) x = size x + size y := update_self ..
  refine ⟨fun a ha => ?_, fun a ha b hb hab => ?_, fun a ha z hlo hhi => ?_, ?_, h.enough⟩
  · have ha := h.pos a (mem_of_mem_erase ha)
    by_cases hax : a = x
    · rw [hax, hself]
      omega
    · rwa [hother hax]
  · obtain ⟨hby, hb⟩ := mem_erase.mp hb
    obtain ⟨hay, ha⟩ := mem_erase.mp ha
    by_cases hax : a = x
    · rw [hax, hself]
      have hxb := h.apart x hx b hb (by omega)
      have hyb := h.apart y hy b hb (by omega)
      omega
    · rw [hother hax]
      exact h.apart a ha b hb hab
  · have haA := mem_of_mem_erase ha
    by_cases hax : a = x
    · rw [hax, hself] at hhi
      by_cases hz : z < y
      · exact h.mine x hx z (by omega) (by omega)
      · exact h.mine y hy z (by omega) (by omega)
    · rw [hother hax] at hhi
      exact h.mine a haA z hlo hhi
  have hsum := sum_update size hxe (size x + size y)
  have hold := add_sum_erase A size hy
  have hcount := h.count
  omega

theorem Blocks.split (hx : x ∈ A) (hn : 0 < n) (hlt : n < size x) : x + 16 * (size x - n) ∉ A ∧
      Blocks base (update (update size x (size x - n)) (x + 16 * (size x - n)) n) regions
        (insert (x + 16 * (size x - n)) A) := by
  have hpos := h.pos x hx
  generalize hq : x + 16 * (size x - n) = q
  have hfresh : q ∉ A := fun hmem => by
    have := h.apart x hx q hmem (by omega)
    omega
  have hxq : x ≠ q := by omega
  have hne : ∀ {a}, a ∈ A → a ≠ q := fun ha heq => hfresh (heq ▸ ha)
  generalize hsize : update (update size x (size x - n)) q n = size'
  have hx' : size' x = size x - n := by rw [← hsize, update_of_ne hxq, update_self]
  have hq' : size' q = n := by rw [← hsize, update_self]
  have hother : ∀ {a}, a ∈ A → a ≠ x → size' a = size a := by
    intro a ha hax
    rw [← hsize, update_of_ne (hne ha), update_of_ne hax]
  refine ⟨hfresh, fun a ha => ?_, fun a ha b hb hab => ?_, fun a ha z hlo hhi => ?_, ?_, h.enough⟩
  · obtain rfl | ha := mem_insert.mp ha
    · omega
    by_cases hax : a = x
    · rw [hax, hx']
      omega
    · rw [hother ha hax]
      exact h.pos a ha
  · obtain rfl | ha := mem_insert.mp ha
    · have hb := (mem_insert.mp hb).resolve_left (by omega)
      have := h.apart x hx b hb (by omega)
      omega
    obtain hbq | hb := mem_insert.mp hb
    · by_cases hax : a = x
      · rw [hax, hx']
        omega
      rw [hother ha hax]
      have hlt : a < x ∨ x < a := by omega
      obtain hlt | hgt := hlt
      · have := h.apart a ha x hx hlt
        omega
      · have := h.apart x hx a ha hgt
        omega
    have := h.apart a ha b hb hab
    by_cases hax : a = x
    · rw [hax, hx']
      rw [hax] at this
      omega
    · rwa [hother ha hax]
  · obtain rfl | ha := mem_insert.mp ha
    · exact h.mine x hx z (by omega) (by omega)
    by_cases hax : a = x
    · rw [hax, hx'] at hhi
      exact h.mine x hx z (by omega) (by omega)
    · rw [hother ha hax] at hhi
      exact h.mine a ha z hlo hhi
  have hsum := sum_update size hx (size x - n)
  have hcount := h.count
  have hlast : ∑ a ∈ A, size' a = ∑ a ∈ A, update size x (size x - n) a :=
    sum_congr rfl fun a ha => by rw [← hsize, update_of_ne (hne ha)]
  rw [sum_insert hfresh, hq', hlast]
  omega

theorem Blocks.extend (hbelow : ∀ r ∈ regions, r.1 + r.2 ≤ x) (hbase : base < x) (hn : 0 < n)
    (henough : (regions.map Prod.snd).sum + 16 * n ≤ PHYSMEM) :
    x ∉ A ∧ Blocks base (update size x n) ((x, 16 * n) :: regions) (insert x A) := by
  have hend : ∀ a ∈ A, a + 16 * size a ≤ x := by
    intro a ha
    have hpos := h.pos a ha
    obtain ⟨r, hr, -, hhi⟩ := h.mine a ha (a + 16 * size a - 1) (by omega) (by omega)
    have := hbelow r hr
    omega
  have hfresh : x ∉ A := fun hmem => by
    have := hend x hmem
    have := h.pos x hmem
    omega
  have hother : ∀ {a}, a ∈ A → update size x n a = size a := by
    intro a ha
    have hne : a ≠ x := fun heq => hfresh (heq ▸ ha)
    exact update_of_ne hne _ _
  have hself : update size x n x = n := update_self ..
  refine ⟨hfresh, fun a ha => ?_, fun a ha b hb hab => ?_, fun a ha z hlo hhi => ?_, ?_, ?_⟩
  · obtain rfl | ha := mem_insert.mp ha
    · rw [hself]
      exact ⟨hn, hbase⟩
    · rw [hother ha]
      exact h.pos a ha
  · obtain rfl | ha := mem_insert.mp ha
    · have hb := (mem_insert.mp hb).resolve_left (by omega)
      have := hend b hb
      omega
    rw [hother ha]
    obtain hbx | hb := mem_insert.mp hb
    · rw [hbx]
      exact hend a ha
    · exact h.apart a ha b hb hab
  · obtain rfl | ha := mem_insert.mp ha
    · rw [hself] at hhi
      exact ⟨_, List.mem_cons_self, hlo, hhi⟩
    · rw [hother ha] at hhi
      obtain ⟨r, hr, hin⟩ := h.mine a ha z hlo hhi
      exact ⟨r, List.mem_cons_of_mem _ hr, hin⟩
  · rw [sum_insert hfresh, hself, sum_congr rfl fun a ha => hother ha, List.map_cons, List.sum_cons, ← h.count]
    omega
  · rw [List.map_cons, List.sum_cons]
    omega

end

end Blocks

/-- `F` is on the free list and the rest of `A` is in use. -/
structure Inv (base : Nat) (h : Heap) (F A : Finset Nat) : Prop where
  blocks : Blocks base h.size h.regions A
  sub : F ⊆ A
  round : Round h.ptr (insert base F)
  freep : h.freep ∈ insert base F
  empty : h.size base = 0
  gap : ∀ a ∈ F, ∀ b ∈ F, a < b → a + 16 * h.size a < b
  low : 0 < base ∧ base < h.sz
  high : ∀ r ∈ h.regions, r.1 + r.2 ≤ h.sz

theorem Inv.congr {base : Nat} {h : Heap} {F A : Finset Nat} {ptr size : Nat → Nat} (hi : Inv base h F A)
    (hptr : ∀ a ∈ insert base F, ptr a = h.ptr a) (hsize : ∀ a ∈ A, size a = h.size a) (hbase : size base = h.size base) :
    Inv base { h with ptr := ptr, size := size } F A := by
  have hb := hi.blocks
  refine ⟨⟨fun a ha => ?_, fun a ha => ?_, fun a ha => ?_, ?_, hb.enough⟩, hi.sub, fun a ha => ?_, hi.freep,
    hbase.trans hi.empty, fun a ha => ?_, hi.low, hi.high⟩
  · show 0 < size a ∧ base < a
    rw [hsize a ha]
    exact hb.pos a ha
  · show ∀ b ∈ A, a < b → a + 16 * size a ≤ b
    rw [hsize a ha]
    exact hb.apart a ha
  · show ∀ x, a ≤ x → x < a + 16 * size a → _
    rw [hsize a ha]
    exact hb.mine a ha
  · exact (congrArg (16 * ·) (sum_congr rfl hsize)).trans hb.count
  · show Next (insert base F) a (ptr a)
    rw [hptr a ha]
    exact hi.round a ha
  · show ∀ b ∈ F, a < b → a + 16 * size a < b
    rw [hsize a (hi.sub ha)]
    exact hi.gap a ha

/-- With every bound from some on, the loops end, with this result. -/
def Returns {α : Type} (f : Nat → Option α) (x : α) : Prop := ∃ k, ∀ n, k < n → f n = some x

theorem Returns.unique {α : Type} {f : Nat → Option α} {x y : α} (hx : Returns f x) (hy : Returns f y) : x = y := by
  obtain ⟨k, hk⟩ := hx
  obtain ⟨j, hj⟩ := hy
  exact Option.some.inj ((hk (max k j + 1) (by omega)).symm.trans (hj _ (by omega)))

section Free

variable {base p q bp : Nat} {h h' : Heap} {F A F' A' : Finset Nat}

/-- `p` is the last node before `x`. -/
def Before (N : Finset Nat) (p x : Nat) : Prop := p ∈ N ∧ p < x ∧ ∀ c ∈ N, c ≤ p ∨ x < c

theorem Inv.base_le (hi : Inv base h F A) {c : Nat} (hc : c ∈ insert base F) : base ≤ c := by
  obtain rfl | hc := mem_insert.mp hc
  · exact Nat.le_refl c
  · exact Nat.le_of_lt (hi.blocks.pos c (hi.sub hc)).2

theorem Inv.notMem (hi : Inv base h F A) (hbp : bp ∈ A) (hnot : bp ∉ F) : bp ∉ insert base F := fun hmem =>
  hnot ((mem_insert.mp hmem).resolve_left (Nat.ne_of_gt (hi.blocks.pos bp hbp).2))

theorem Inv.findPlace_step (hi : Inv base h F A) (hbp : bp ∈ A) (hq : q ∈ insert base F) (n : Nat) :
    (Before (insert base F) q bp → findPlace h bp (n + 1) q = some q) ∧
      (¬ Before (insert base F) q bp → findPlace h bp (n + 1) q = findPlace h bp n (h.ptr q)) := by
  have hlow := (hi.blocks.pos bp hbp).2
  obtain ⟨hmem, hnext⟩ := hi.round q hq
  have hbase := hnext base (mem_insert_self base F)
  rw [findPlace]
  constructor
  · intro hb
    have hptr := hb.2.2 _ hmem
    have hlt := hb.2.1
    by_cases hin : bp > q ∧ bp < h.ptr q
    · rw [if_pos hin]
    · rw [if_neg hin, if_pos ⟨by omega, .inl hlt⟩]
  intro hb
  have hstop : ¬ (q < bp ∧ (bp < h.ptr q ∨ h.ptr q ≤ q)) := fun hs => hb ⟨hq, hs.1, fun c hc => by
    have := hnext c hc
    omega⟩
  rw [if_neg (by omega), if_neg (by omega)]

theorem Inv.place (hi : Inv base h F A) (hbp : bp ∈ A) (hnot : bp ∉ F) :
    ∃ p, Returns (findPlace h bp · h.freep) p ∧ Before (insert base F) p bp := by
  have hlow := (hi.blocks.pos bp hbp).2
  have hfresh := hi.notMem hbp hnot
  have hne : ((insert base F).filter (· < bp)).Nonempty := ⟨base, mem_filter.mpr ⟨mem_insert_self base F, hlow⟩⟩
  have ht := mem_filter.mp (max'_mem _ hne)
  have hplace : Before (insert base F) (max' _ hne) bp := ⟨ht.1, ht.2, fun c hc => by
    by_cases hcb : c < bp
    · exact .inl (le_max' _ c (mem_filter.mpr ⟨hc, hcb⟩))
    · exact .inr (Nat.lt_of_le_of_ne (Nat.le_of_not_lt hcb) fun heq => hfresh (heq ▸ hc))⟩
  obtain ⟨k, hk⟩ := hi.round.reach hi.freep ht.1
  -- On the way there the search may stop earlier.
  have hhere : ∀ q ∈ insert base F, Before (insert base F) q bp → Returns (findPlace h bp · q) q := by
    refine fun q hq hb => ⟨0, fun n hn => ?_⟩
    obtain ⟨n, rfl⟩ := Nat.exists_eq_add_of_lt hn
    exact (hi.findPlace_step hbp hq _).1 hb
  have hwalk : ∀ k q, q ∈ insert base F → Before (insert base F) (h.ptr^[k] q) bp →
      ∃ p, Returns (findPlace h bp · q) p ∧ Before (insert base F) p bp := by
    intro k
    induction k with
    | zero => exact fun q hq hb => ⟨q, hhere q hq hb, hb⟩
    | succ k ih =>
      intro q hq hb
      by_cases hstop : Before (insert base F) q bp
      · exact ⟨q, hhere q hq hstop, hstop⟩
      obtain ⟨p, ⟨j, hj⟩, hp⟩ := ih (h.ptr q) (hi.round q hq).1 hb
      refine ⟨p, ⟨j + 1, fun n hn => ?_⟩, hp⟩
      obtain ⟨n, rfl⟩ := Nat.exists_eq_add_of_lt hn
      exact ((hi.findPlace_step hbp hq _).2 hstop).trans (hj _ (by omega))
  exact hwalk k h.freep hi.freep (hk ▸ hplace)

/-- After `joinNext`: the block has its final end, and `p` is still to be pointed to it. -/
structure Joined (base : Nat) (h h' : Heap) (p bp : Nat) (F A F' A' : Finset Nat) : Prop where
  blocks : Blocks base h'.size h'.regions A'
  mem : bp ∈ A' ∧ bp ∉ F'
  sub : F' ⊆ A'
  place : Before (insert base F') p bp
  round : Round (update h'.ptr p bp) (insert bp (insert base F'))
  gap : ∀ a ∈ F', ∀ b ∈ F', a < b → a + 16 * h'.size a < b
  after : ∀ b ∈ F', bp < b → bp + 16 * h'.size bp < b
  grows : h.size bp ≤ h'.size bp
  same : ∀ a ≠ bp, h'.size a = h.size a
  used : ∀ a, (a ∈ A' ∧ a ∉ F') ↔ (a ∈ A ∧ a ∉ F)
  kept : h'.sz = h.sz ∧ h'.regions = h.regions

theorem Inv.joined (hi : Inv base h F A) (hbp : bp ∈ A) (hnot : bp ∉ F) (hp : Before (insert base F) p bp) :
    ∃ F' A', Joined base h (joinNext h p bp) p bp F A F' A' := by
  have hpos := hi.blocks.pos bp hbp
  have hfresh := hi.notMem hbp hnot
  have hne : bp ≠ p := by
    have := hp.2.1
    omega
  obtain ⟨hmem, hnext⟩ := hi.round p hp.1
  have hround := hi.round.insert hp.1 hp.2.1 hp.2.2
  unfold joinNext
  by_cases hjoin : bp + 16 * h.size bp = h.ptr p
  · rw [if_pos hjoin]
    generalize hq : h.ptr p = q at hjoin hmem hnext hround
    have hqF : q ∈ F := (mem_insert.mp hmem).resolve_left (by omega)
    have hqA := hi.sub hqF
    have hqp : q ≠ p := by
      have := hp.2.1
      omega
    have hqbp : q ≠ bp := by omega
    have hsize : ∀ {a}, a ≠ bp → update h.size bp (h.size bp + h.size q) a = h.size a := fun ha => update_of_ne ha _ _
    have herase : insert bp (insert base (F.erase q)) = (insert bp (insert base F)).erase q := by
      rw [erase_insert_of_ne hqbp.symm, erase_insert_of_ne (by omega)]
    have hsub := erase_subset q F
    rw [hi.blocks.size_add hbp hqA hqbp.symm]
    refine ⟨F.erase q, A.erase q, hi.blocks.merge hbp hqA hjoin, ⟨mem_erase.mpr ⟨hqbp.symm, hbp⟩, fun hb =>
      hnot (hsub hb)⟩, erase_subset_erase q hi.sub, ⟨?_, hp.2.1, fun c hc => ?_⟩, ?_, fun a ha b hb hab => ?_,
      fun b hb hlt => ?_, ?_, fun a ha => hsize ha, fun a => ?_, rfl, rfl⟩
    · exact mem_insert.mpr ((mem_insert.mp hp.1).imp_right fun h => mem_erase.mpr ⟨hqp.symm, h⟩)
    · exact hp.2.2 c (insert_subset_insert base hsub hc)
    · have hskip := hround.erase (mem_insert_self bp _)
      rw [update_of_ne hne, update_self, update_of_ne hqp, update_of_ne hqbp,
        update_comm hne.symm, update_idem] at hskip
      rw [herase]
      exact hskip
    · show a + 16 * update h.size bp (h.size bp + h.size q) a < b
      rw [hsize fun heq => hnot (heq ▸ hsub ha)]
      exact hi.gap a (hsub ha) b (hsub hb) hab
    · show bp + 16 * update h.size bp (h.size bp + h.size q) bp < b
      rw [update_self]
      have := hnext b (mem_insert_of_mem (hsub hb))
      have := hi.gap q hqF b (hsub hb) (by
        have := ne_of_mem_erase hb
        have := hp.2.1
        omega)
      omega
    · show h.size bp ≤ update h.size bp (h.size bp + h.size q) bp
      rw [update_self]
      omega
    simp only [mem_erase, ne_eq]
    constructor
    · exact fun ha => ⟨ha.1.2, fun hF => ha.2 ⟨ha.1.1, hF⟩⟩
    · exact fun ha => ⟨⟨fun heq => ha.2 (heq ▸ hqF), ha.1⟩, fun hF => ha.2 hF.2⟩
  rw [if_neg hjoin]
  refine ⟨F, A, hi.blocks, ⟨hbp, hnot⟩, hi.sub, hp, hround, hi.gap, fun b hb hlt => ?_, Nat.le_refl _, fun _ _ => rfl,
    fun _ => Iff.rfl, rfl, rfl⟩
  have hbN := hnext b (mem_insert_of_mem hb)
  have hlt' := hp.2.1
  have hself := hp.2.2 _ hmem
  have hqA : h.ptr p ∈ A := hi.sub ((mem_insert.mp hmem).resolve_left (by
    have := hi.base_le hp.1
    omega))
  have := hi.blocks.apart bp hbp _ hqA (by omega)
  show bp + 16 * h.size bp < b
  omega

theorem Inv.freed (hi : Inv base h F A) (hbp : bp ∈ A) (hnot : bp ∉ F) :
    ∃ h' F' A', Returns (free h · (bp + 16)) h' ∧ Inv base h' F' A' ∧
      (∀ a, (a ∈ A' ∧ a ∉ F') ↔ (a ∈ A ∧ a ∉ F ∧ a ≠ bp)) ∧ (∀ a ∈ A', a ∉ F' → h'.size a = h.size a) ∧
      (∃ a ∈ F', h.size bp ≤ h'.size a) := by
  obtain ⟨p, ⟨k, hk⟩, hp⟩ := hi.place hbp hnot
  obtain ⟨F₁, A₁, hj⟩ := hi.joined hbp hnot hp
  have hlt := hp.2.1
  have hbase := (hi.blocks.pos bp hbp).2
  have hfresh : bp ∉ insert base F₁ := fun hmem =>
    hj.mem.2 ((mem_insert.mp hmem).resolve_left (Nat.ne_of_gt hbase))
  have hempty : (joinNext h p bp).size base = 0 := (hj.same base (Nat.ne_of_lt hbase)).trans hi.empty
  have hreturns : Returns (free h · (bp + 16)) { joinPrev (joinNext h p bp) p bp with freep := p } :=
    ⟨k, fun n hn => congrArg (Option.map _) (hk n hn)⟩
  suffices hfinal : ∃ F' A', Inv base { joinPrev (joinNext h p bp) p bp with freep := p } F' A' ∧
      (∀ a, (a ∈ A' ∧ a ∉ F') ↔ (a ∈ A ∧ a ∉ F ∧ a ≠ bp)) ∧
      (∀ a ∈ A', a ∉ F' → (joinPrev (joinNext h p bp) p bp).size a = h.size a) ∧
      (∃ a ∈ F', h.size bp ≤ (joinPrev (joinNext h p bp) p bp).size a) by
    obtain ⟨F', A', hrest⟩ := hfinal
    exact ⟨_, F', A', hreturns, hrest⟩
  have hlow : 0 < base ∧ base < (joinNext h p bp).sz := hj.kept.1 ▸ hi.low
  have hhigh : ∀ r ∈ (joinNext h p bp).regions, r.1 + r.2 ≤ (joinNext h p bp).sz := by
    rw [hj.kept.1, hj.kept.2]
    exact hi.high
  generalize joinNext h p bp = h₁ at hj hempty hlow hhigh
  have hround := hj.round
  unfold joinPrev
  by_cases hjoin : p + 16 * h₁.size p = bp
  · rw [if_pos hjoin]
    have hpF : p ∈ F₁ := (mem_insert.mp hj.place.1).resolve_left fun heq => by
      rw [heq, hempty] at hjoin
      omega
    have hpA := hj.sub hpF
    have hskip := hround.erase (mem_insert_of_mem hj.place.1)
    rw [update_self, update_of_ne (Nat.ne_of_gt hlt), update_idem, erase_insert hfresh] at hskip
    rw [hj.blocks.size_add hpA hj.mem.1 (Nat.ne_of_lt hlt)]
    have hsize : ∀ {a}, a ≠ p → update h₁.size p (h₁.size p + h₁.size bp) a = h₁.size a := fun ha => update_of_ne ha _ _
    have hself : update h₁.size p (h₁.size p + h₁.size bp) p = h₁.size p + h₁.size bp := update_self ..
    have hused : ∀ a, (a ∈ A₁.erase bp ∧ a ∉ F₁) ↔ (a ∈ A ∧ a ∉ F ∧ a ≠ bp) := by
      intro a
      rw [mem_erase, and_assoc, hj.used, and_comm, and_assoc]
    refine ⟨F₁, A₁.erase bp, ⟨hj.blocks.merge hpA hj.mem.1 hjoin, fun a ha => ?_, hskip, hj.place.1, ?_, fun a ha b hb hab => ?_,
      hlow, hhigh⟩, hused, fun a ha haF => ?_, p, hpF, ?_⟩
    · exact mem_erase.mpr ⟨fun heq => hj.mem.2 (heq ▸ ha), hj.sub ha⟩
    · exact (hsize (Nat.ne_of_lt (hj.blocks.pos p hpA).2)).trans hempty
    · show a + 16 * update h₁.size p (h₁.size p + h₁.size bp) a < b
      by_cases hap : a = p
      · have hbp' := hj.place.2.2 b (mem_insert_of_mem hb)
        have := hj.after b hb (by omega)
        rw [hap, hself]
        omega
      · rw [hsize hap]
        exact hj.gap a ha b hb hab
    · show update h₁.size p (h₁.size p + h₁.size bp) a = h.size a
      rw [hsize fun heq : a = p => haF (heq ▸ hpF)]
      exact hj.same a (ne_of_mem_erase ha)
    show h.size bp ≤ update h₁.size p (h₁.size p + h₁.size bp) p
    have := hj.grows
    rw [hself]
    omega
  rw [if_neg hjoin]
  refine ⟨insert bp F₁, A₁, ⟨hj.blocks, insert_subset hj.mem.1 hj.sub, ?_, ?_, hempty, fun a ha b hb hab => ?_,
    hlow, hhigh⟩, fun a => ?_, fun a ha haF => ?_, bp, mem_insert_self bp F₁, hj.grows⟩
  · rw [insert_comm]
    exact hround
  · rw [insert_comm]
    exact mem_insert_of_mem hj.place.1
  · show a + 16 * h₁.size a < b
    obtain hab' | ha := mem_insert.mp ha <;> obtain hbb | hb := mem_insert.mp hb
    · omega
    · rw [hab'] at hab ⊢
      exact hj.after b hb hab
    · have hap := hj.place.2.2 a (mem_insert_of_mem ha)
      have hpA : p = base ∨ p ∈ F₁ := mem_insert.mp hj.place.1
      by_cases heq : a = p
      · have := hj.blocks.apart a (hj.sub ha) bp hj.mem.1 (by omega)
        rw [heq] at this ⊢
        omega
      have hpF := hpA.resolve_left fun hpb => by
        have := (hj.blocks.pos a (hj.sub ha)).2
        omega
      have := hj.gap a ha p hpF (by omega)
      omega
    · exact hj.gap a ha b hb hab
  · rw [mem_insert, not_or, and_comm (a := ¬ a = bp), ← and_assoc, hj.used, and_assoc]
  · exact hj.same a fun heq => haF (heq ▸ mem_insert_self bp F₁)

end Free

section Malloc

variable {base p prevp nunits : Nat} {h : Heap} {F A : Finset Nat} {core : Heap → Nat → Option (Nat × Heap)}
  {more : Option Nat}

/-- What `malloc` leaves: nothing has changed for the blocks in use, and there is one more if `r` is not null. -/
structure Allocated (base : Nat) (h : Heap) (F A : Finset Nat) (nunits r : Nat) (h' : Heap) (F' A' : Finset Nat) : Prop where
  inv : Inv base h' F' A'
  used : ∀ a, (a ∈ A' ∧ a ∉ F') ↔ (a ∈ A ∧ a ∉ F) ∨ r = a + 16
  same : ∀ a ∈ A, a ∉ F → h'.size a = h.size a ∧ r ≠ a + 16
  size : r = 0 ∨ ∃ a, r = a + 16 ∧ h'.size a = nunits

theorem Inv.allocate (hi : Inv base h F A) (hprev : prevp ∈ insert base F) (hpos : 0 < nunits)
    (hfit : nunits ≤ h.size (h.ptr prevp)) : ∃ F' A', Allocated base h F A nunits
      (allocate h nunits prevp (h.ptr prevp)).1 (allocate h nunits prevp (h.ptr prevp)).2 F' A' := by
  have hmem := (hi.round prevp hprev).1
  have hpF : h.ptr prevp ∈ F := (mem_insert.mp hmem).resolve_left fun heq => by
    rw [heq, hi.empty] at hfit
    omega
  have hpA := hi.sub hpF
  have hbase := (hi.blocks.pos _ hpA).2
  have hne : prevp ≠ h.ptr prevp := fun heq => by
    have := (hi.round prevp hprev).2 base (mem_insert_self base F)
    omega
  have hround := hi.round.erase hprev
  unfold Umalloc.allocate
  generalize h.ptr prevp = p at hfit hpF hpA hround hbase hne
  by_cases heq : h.size p = nunits
  · rw [if_pos heq]
    rw [erase_insert_of_ne (Nat.ne_of_lt hbase)] at hround
    have hprev' : prevp ∈ insert base (F.erase p) := by
      rw [← erase_insert_of_ne (Nat.ne_of_lt hbase)]
      exact mem_erase.mpr ⟨hne, hprev⟩
    refine ⟨F.erase p, A, ⟨hi.blocks, (erase_subset p F).trans hi.sub, hround, hprev', hi.empty, fun a ha b hb =>
      hi.gap a (mem_of_mem_erase ha) b (mem_of_mem_erase hb), hi.low, hi.high⟩, fun a => ?_, fun a ha haF => ?_,
      .inr ⟨p, rfl, heq⟩⟩
    · by_cases hap : a = p
      · simp [hap, hpA, hpF]
      · simp [hap, Ne.symm hap]
    · exact ⟨rfl, fun hr => haF (by rw [← Nat.add_right_cancel hr]; exact hpF)⟩
  rw [if_neg heq]
  dsimp only
  obtain ⟨hfresh, hsplit⟩ := hi.blocks.split hpA hpos (by omega)
  generalize hq : p + 16 * (h.size p - nunits) = q at hfresh hsplit ⊢
  have hqF : q ∉ F := fun hmem => hfresh (hi.sub hmem)
  have hother : ∀ {a}, a ∈ A → a ≠ p →
      update (update h.size p (h.size p - nunits)) q nunits a = h.size a := by
    intro a ha hap
    have haq : a ≠ q := fun heq => hfresh (heq ▸ ha)
    rw [update_of_ne haq, update_of_ne hap]
  refine ⟨F, insert q A, ⟨hsplit, hi.sub.trans (subset_insert q A), hi.round, hprev, ?_, fun a ha b hb hab => ?_,
    hi.low, hi.high⟩, fun a => ?_, fun a ha haF => ⟨hother ha fun heq => haF (heq ▸ hpF), fun hr => ?_⟩,
    .inr ⟨q, rfl, update_self ..⟩⟩
  · show update (update h.size p (h.size p - nunits)) q nunits base = 0
    rw [update_of_ne (by omega), update_of_ne (Nat.ne_of_lt hbase)]
    exact hi.empty
  · have hgap := hi.gap a ha b hb hab
    show a + 16 * update (update h.size p (h.size p - nunits)) q nunits a < b
    by_cases hap : a = p
    · rw [hap, update_of_ne (by omega), update_self]
      rw [hap] at hgap
      omega
    · rwa [hother (hi.sub ha) hap]
  · by_cases haq : a = q
    · simp [haq, hqF]
    · simp [haq, Ne.symm haq]
  · exact hfresh (by rw [Nat.add_right_cancel hr]; exact ha)

theorem mallocLoop_walk (nunits : Nat) (core : Heap → Nat → Option (Nat × Heap)) (k prevp : Nat)
    (hstop : nunits ≤ h.size (h.ptr^[k + 1] prevp) ∨ h.ptr^[k + 1] prevp = h.freep) :
    ∃ i ≤ k, (nunits ≤ h.size (h.ptr^[i + 1] prevp) ∨ h.ptr^[i + 1] prevp = h.freep) ∧
      ∀ n, mallocLoop nunits core (n + i) h prevp (h.ptr prevp) =
        mallocLoop nunits core n h (h.ptr^[i] prevp) (h.ptr^[i + 1] prevp) := by
  have hzero : ∀ {prevp} (n : Nat), mallocLoop nunits core (n + 0) h prevp (h.ptr prevp) =
      mallocLoop nunits core n h (h.ptr^[0] prevp) (h.ptr^[0 + 1] prevp) := fun n => by
    rw [Nat.add_zero, Nat.zero_add, Function.iterate_one, Function.iterate_zero, id]
  induction k generalizing prevp with
  | zero => exact ⟨0, Nat.le_refl 0, hstop, hzero⟩
  | succ k ih =>
    by_cases hhere : nunits ≤ h.size (h.ptr prevp) ∨ h.ptr prevp = h.freep
    · exact ⟨0, Nat.zero_le _, hhere, hzero⟩
    obtain ⟨i, hi, hend, hrun⟩ := ih (h.ptr prevp) hstop
    refine ⟨i + 1, Nat.succ_le_succ hi, hend, fun n => ?_⟩
    rw [← Nat.add_assoc, mallocLoop, if_neg fun hfit => hhere (.inl hfit), if_neg fun heq => hhere (.inr heq), hrun]
    rfl

theorem mallocLoop_back {h' : Heap} (hfit : ¬ nunits ≤ h.size p) (hp : p = h.freep) (n : Nat) :
    (core h n = some (0, h') → mallocLoop nunits core (n + 1) h prevp p = some (0, h')) ∧
      ∀ {q}, q ≠ 0 → core h n = some (q, h') →
        mallocLoop nunits core (n + 1) h prevp p = mallocLoop nunits core n h' q (h'.ptr q) := by
  rw [mallocLoop, if_neg hfit, if_pos hp]
  constructor
  · intro hcore
    rw [hcore]
    exact if_pos rfl
  · intro q hq hcore
    rw [hcore]
    exact if_neg hq

theorem units_pos (nbytes : Nat) : 0 < units nbytes := Nat.succ_pos _

theorem Inv.mallocLoop_found (hi : Inv base h F A) (hpos : 0 < nunits) {i : Nat}
    (hrun : ∀ n, mallocLoop nunits core (n + i) h h.freep (h.ptr h.freep) =
      mallocLoop nunits core n h (h.ptr^[i] h.freep) (h.ptr^[i + 1] h.freep))
    (hfound : nunits ≤ h.size (h.ptr^[i + 1] h.freep)) :
    ∃ r h' F' A', Returns (fun n => mallocLoop nunits core n h h.freep (h.ptr h.freep)) (r, h') ∧
      Allocated base h F A nunits r h' F' A' := by
  rw [iterate_succ_apply' h.ptr i] at hfound hrun
  obtain ⟨F', A', hall⟩ := hi.allocate (hi.round.iterate_mem hi.freep i) hpos hfound
  refine ⟨_, _, F', A', ⟨i, fun n hn => ?_⟩, hall⟩
  obtain ⟨m, rfl⟩ := Nat.exists_eq_add_of_lt hn
  show mallocLoop nunits core (i + m + 1) h h.freep (h.ptr h.freep) = _
  rw [show i + m + 1 = m + 1 + i by omega, hrun, mallocLoop, if_pos hfound]

theorem Inv.mallocLoop_fits (hi : Inv base h F A) (hpos : 0 < nunits) (hfit : ∃ a ∈ F, nunits ≤ h.size a) :
    ∃ r h' F' A', Returns (fun n => mallocLoop nunits core n h h.freep (h.ptr h.freep)) (r, h') ∧
      Allocated base h F A nunits r h' F' A' := by
  obtain ⟨a, haF, hfit⟩ := hfit
  have hex : ∃ k, nunits ≤ h.size (h.ptr^[k + 1] h.freep) := by
    obtain ⟨k, hk⟩ := hi.round.reach (hi.round _ hi.freep).1 (mem_insert_of_mem haF)
    exact ⟨k, by rwa [iterate_succ_apply, hk]⟩
  obtain ⟨i, hik, hend, hrun⟩ := mallocLoop_walk nunits core (Nat.find hex) h.freep (.inl (Nat.find_spec hex))
  apply hi.mallocLoop_found hpos hrun
  by_contra hnot
  have hback := hend.resolve_left hnot
  have hlt : i < Nat.find hex := Nat.lt_of_le_of_ne hik fun heq => hnot (heq ▸ Nat.find_spec hex)
  -- From `freep` on the search would repeat itself, and find the block earlier.
  have hfirst := Nat.find_spec hex
  rw [show Nat.find hex + 1 = Nat.find hex - (i + 1) + 1 + (i + 1) by omega, iterate_add_apply, hback] at hfirst
  exact Nat.find_min hex (by omega) hfirst

/-- A positive number of bytes: `sbrk` fails, or there is a new region above the old ones. -/
theorem sbrk_cases (h : Heap) (more : Option Nat) {n : Nat} (hn : 0 < n) :
    sbrk h n more = (none, h) ∨ ∃ p, h.sz ≤ p ∧ h.obtained + n ≤ PHYSMEM ∧
      sbrk h n more = (some p, { h with sz := p + n, regions := (p, n) :: h.regions }) := by
  have hpos : (0 : Int) < (n : Int) := Int.natCast_pos.mpr hn
  unfold sbrk
  rw [if_pos hpos, Int.toNat_natCast]
  cases more with
  | none => exact .inl rfl
  | some gap =>
    by_cases henough : h.obtained + n ≤ PHYSMEM
    · exact .inr ⟨h.sz + gap, Nat.le_add_right _ _, henough, if_pos henough⟩
    · exact .inl (if_neg henough)

/-- A call of `morecore`: it returns a null pointer, or puts a block on the list that is large enough. -/
def Refills (base : Nat) (h : Heap) (F A : Finset Nat) (nunits : Nat) (f : Nat → Option (Nat × Heap)) : Prop :=
  (∀ n, f n = some (0, h)) ∨ ∃ h' F' A', Returns f (h'.freep, h') ∧ Inv base h' F' A' ∧
    (∀ a, (a ∈ A' ∧ a ∉ F') ↔ (a ∈ A ∧ a ∉ F)) ∧ (∀ a ∈ A, a ∉ F → h'.size a = h.size a) ∧ ∃ a ∈ F', nunits ≤ h'.size a

section

variable (hi : Inv base h F A)

include hi

theorem Inv.morecore (hpos : 0 < nunits) (hsmall : 16 * nunits < 2 ^ 31) :
    Refills base h F A nunits (morecore h · nunits more) := by
  unfold Umalloc.morecore
  generalize hnu : (if nunits < 4096 then 4096 else nunits) = nu
  have hle : nunits ≤ nu ∧ 16 * nu < 2 ^ 31 := by
    split at hnu <;> omega
  have hint : int32 ((nu : Int) * 16) = ((16 * nu : Nat) : Int) := by
    rw [int32_eq_self (by omega) (by omega)]
    omega
  dsimp only
  rw [hint]
  obtain hnone | ⟨p, hp, henough, hsome⟩ := sbrk_cases h more (n := 16 * nu) (by omega)
  · rw [hnone]
    exact .inl fun n => rfl
  rw [hsome]
  right
  have hlow := hi.low
  obtain ⟨hfresh, hext⟩ := hi.blocks.extend (fun r hr => Nat.le_trans (hi.high r hr) hp) (by omega) (by omega) henough
  have hsize : ∀ {a}, a ∈ A → update h.size p nu a = h.size a := by
    intro a ha
    have hne : a ≠ p := fun heq => hfresh (heq ▸ ha)
    exact update_of_ne hne _ _
  have hinv : Inv base ({ h with
      sz := p + 16 * nu, regions := (p, 16 * nu) :: h.regions, size := update h.size p nu } : Heap) F (insert p A) := by
    refine ⟨hext, hi.sub.trans (subset_insert _ A), hi.round, hi.freep, ?_, fun a ha b hb hab => ?_, ?_, fun r hr => ?_⟩
    · exact (update_of_ne (by omega) _ _).trans hi.empty
    · show a + 16 * update h.size p nu a < b
      rw [hsize (hi.sub ha)]
      exact hi.gap a ha b hb hab
    · show 0 < base ∧ base < p + 16 * nu
      omega
    show r.1 + r.2 ≤ p + 16 * nu
    obtain rfl | hr := List.mem_cons.mp hr
    · exact Nat.le_refl _
    · have := hi.high r hr
      omega
  obtain ⟨h', F', A', ⟨k, hk⟩, hinv', hused, hsame, b, hbF, hb⟩ :=
    hinv.freed (mem_insert_self p A) fun hmem => hfresh (hi.sub hmem)
  have hother : ∀ a, (a ∈ A' ∧ a ∉ F') ↔ (a ∈ A ∧ a ∉ F) := by
    intro a
    rw [hused, mem_insert]
    constructor
    · exact fun ⟨ha, haF, hne⟩ => ⟨ha.resolve_left hne, haF⟩
    · exact fun ⟨ha, haF⟩ => ⟨.inr ha, haF, fun heq => hfresh (heq ▸ ha)⟩
  refine ⟨h', F', A', ⟨k, fun n hn => congrArg (Option.map _) (hk n hn)⟩, hinv', hother, fun a ha haF => ?_, b, hbF, ?_⟩
  · obtain ⟨haA', haF'⟩ := (hother a).mpr ⟨ha, haF⟩
    exact (hsame a haA' haF').trans (hsize ha)
  · have hb : update h.size p nu p ≤ h'.size b := hb
    rw [update_self] at hb
    omega

theorem Inv.unallocated : Allocated base h F A nunits 0 h F A :=
  ⟨hi, fun a => ⟨.inl, fun ha => ha.resolve_right (by omega)⟩, fun a _ _ => ⟨rfl, by omega⟩, .inl rfl⟩

theorem Inv.ready : ready base h = h := by
  have hne : h.freep ≠ 0 := by
    have := hi.base_le hi.freep
    have := hi.low
    omega
  rw [Umalloc.ready, if_neg hne]

theorem Inv.mallocLoop (hpos : 0 < nunits) (hcore : Refills base h F A nunits (core h)) :
    ∃ r h' F' A', Returns (fun n => mallocLoop nunits core n h h.freep (h.ptr h.freep)) (r, h') ∧
      Allocated base h F A nunits r h' F' A' := by
  obtain ⟨k, hk⟩ := hi.round.reach (hi.round _ hi.freep).1 hi.freep
  obtain ⟨i, -, hend, hrun⟩ := mallocLoop_walk nunits core k h.freep (.inr (by rwa [iterate_succ_apply]))
  by_cases hfit : nunits ≤ h.size (h.ptr^[i + 1] h.freep)
  · exact hi.mallocLoop_found hpos hrun hfit
  have hback := hend.resolve_left hfit
  obtain hnone | ⟨h₁, F₁, A₁, ⟨j, hj⟩, hi₁, hused, hsame, hfit₁⟩ := hcore
  · refine ⟨0, h, F, A, ⟨i, fun n hn => ?_⟩, hi.unallocated⟩
    obtain ⟨m, rfl⟩ := Nat.exists_eq_add_of_lt hn
    show Umalloc.mallocLoop nunits core (i + m + 1) h h.freep (h.ptr h.freep) = _
    rw [show i + m + 1 = m + 1 + i by omega, hrun]
    exact (mallocLoop_back hfit hback m).1 (hnone m)
  obtain ⟨r, h', F', A', ⟨l, hl⟩, hall⟩ := hi₁.mallocLoop_fits hpos hfit₁
  refine ⟨r, h', F', A', ⟨i + j + l + 1, fun n hn => ?_⟩, hall.inv, fun a => (hall.used a).trans (or_congr_left (hused a)),
    fun a ha haF => ?_, hall.size⟩
  · obtain ⟨m, rfl⟩ := Nat.exists_eq_add_of_lt hn
    have hne : h₁.freep ≠ 0 := by
      have := hi₁.base_le hi₁.freep
      have := hi₁.low
      omega
    show Umalloc.mallocLoop nunits core (i + j + l + 1 + m + 1) h h.freep (h.ptr h.freep) = _
    rw [show i + j + l + 1 + m + 1 = j + l + m + 1 + 1 + i by omega, hrun]
    exact ((mallocLoop_back hfit hback _).2 hne (hj _ (by omega))).trans (hl _ (by omega))
  · obtain ⟨ha₁, haF₁⟩ := (hused a).mpr ⟨ha, haF⟩
    obtain ⟨hsize, hr⟩ := hall.same a ha₁ haF₁
    exact ⟨hsize.trans (hsame a ha haF), hr⟩

theorem Inv.malloc {nbytes : Nat} (hsmall : 16 * units nbytes < 2 ^ 31) (more : Option Nat) :
    ∃ r h' F' A', Returns (malloc base h · nbytes more) (r, h') ∧ Allocated base h F A (units nbytes) r h' F' A' := by
  unfold Umalloc.malloc
  rw [hi.ready]
  exact hi.mallocLoop (units_pos nbytes) (hi.morecore (units_pos nbytes) hsmall)

end

theorem ready_inv (hfreep : h.freep = 0) (hregions : h.regions = []) (hlow : 0 < base ∧ base < h.sz) :
    Inv base (ready base h) ∅ ∅ := by
  rw [ready, if_pos hfreep]
  refine ⟨⟨by simp, by simp, by simp, by simp [hregions], by simp [hregions]⟩, Finset.Subset.refl ∅, ?_, by simp, ?_, by simp, hlow,
    by simp [hregions]⟩
  · intro a ha
    have ha : a = base := by simpa using ha
    rw [ha]
    exact ⟨by simp, fun c hc => by simp at hc; simp [hc]⟩
  · exact update_self ..

end Malloc

end Xv6.Umalloc
