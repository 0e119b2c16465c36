import Xv6.Lib.Runs
import Xv6.Umalloc.Sound

/-!
# A program and its heap

A program calls `malloc`, calls `free` on what it has been given, and writes where it may: the bytes it has asked for.
-/

namespace Xv6.Umalloc

open Finset Function Runs

structure Program where
  heap : Heap
  /-- The lengths that the pointers not yet freed were asked for with. -/
  live : Nat → Option Nat

inductive Event where
  | malloc (nbytes : Nat) (more : Option Nat) (r : Nat)
  | free (r : Nat)
  /-- The two fields of every header, as they read after a write to the block at `r`. -/
  | write (r : Nat) (ptr size : Nat → Nat)

/-- The headers that share no byte with the `n` bytes at `r` read as before. -/
def Within (r n : Nat) (f g : Nat → Nat) : Prop := ∀ x, x + 16 ≤ r ∨ r + n ≤ x → g x = f x

def step (base : Nat) (s : Program) : Event → Program → Prop
  | .malloc nbytes more r, t => 16 * units nbytes < 2 ^ 31 ∧ Returns (malloc base s.heap · nbytes more) (r, t.heap) ∧
      t.live = if r = 0 then s.live else update s.live r (some nbytes)
  | .free r, t => s.live r ≠ none ∧ Returns (free s.heap · r) t.heap ∧ t.live = update s.live r none
  | .write r ptr size, t => ∃ n, s.live r = some n ∧ Within r n s.heap.ptr ptr ∧ Within r n s.heap.size size ∧
      t = { s with heap := { s.heap with ptr := ptr, size := size } }

/-- Before the first call: `base` is below the break, and nothing has been asked for. -/
def Fresh (base : Nat) (s : Program) : Prop :=
  s.heap.freep = 0 ∧ s.heap.regions = [] ∧ (0 < base ∧ base < s.heap.sz) ∧ ∀ r, s.live r = none

/-- The blocks in use are those of the live pointers, and large enough. -/
structure Sound (base : Nat) (s : Program) (F A : Finset Nat) : Prop where
  inv : Inv base s.heap F A
  live : ∀ a ∈ A, a ∉ F → s.live (a + 16) ≠ none
  used : ∀ r n, s.live r = some n → ∃ a ∈ A, a ∉ F ∧ r = a + 16 ∧ n + 16 ≤ 16 * s.heap.size a

def Good (base : Nat) (s : Program) : Prop := Fresh base s ∨ ∃ F A, Sound base s F A

section Steps

variable {base : Nat} {s t : Program} {F A : Finset Nat}

theorem Good.prepared (h : Good base s) : ∃ F A, Sound base { s with heap := ready base s.heap } F A := by
  obtain ⟨hfreep, hregions, hlow, hlive⟩ | ⟨F, A, hs⟩ := h
  · refine ⟨∅, ∅, ready_inv hfreep hregions hlow, by simp, fun r n hr => ?_⟩
    have hr : s.live r = some n := hr
    rw [hlive r] at hr
    cases hr
  · exact ⟨F, A, by rwa [hs.inv.ready]⟩

theorem units_enough (nbytes : Nat) : nbytes + 16 ≤ 16 * units nbytes := by
  unfold units
  omega

theorem Good.allocated (h : Good base s) {nbytes : Nat} (hsmall : 16 * units nbytes < 2 ^ 31) (more : Option Nat) :
    ∃ r h' F A F' A', Returns (malloc base s.heap · nbytes more) (r, h') ∧
      Sound base { s with heap := ready base s.heap } F A ∧
      Allocated base (ready base s.heap) F A (units nbytes) r h' F' A' := by
  obtain ⟨F, A, hs⟩ := h.prepared
  obtain ⟨r, h', F', A', hret, hall⟩ := hs.inv.malloc hsmall more
  have hsame : ∀ n, malloc base (ready base s.heap) n nbytes more = malloc base s.heap n nbytes more := by
    intro n
    unfold malloc
    rw [hs.inv.ready]
  exact ⟨r, h', F, A, F', A', by simpa only [hsame] using hret, hs, hall⟩

theorem Sound.allocated {F' A' : Finset Nat} {r nbytes : Nat} (hs : Sound base s F A)
    (hall : Allocated base s.heap F A (units nbytes) r t.heap F' A')
    (hlive : t.live = if r = 0 then s.live else update s.live r (some nbytes)) : Sound base t F' A' := by
  have hold : ∀ a ∈ A, a ∉ F → t.live (a + 16) = s.live (a + 16) := by
    intro a ha haF
    rw [hlive]
    split
    · rfl
    · exact update_of_ne (Ne.symm (hall.same a ha haF).2) _ _
  refine ⟨hall.inv, fun a ha haF => ?_, fun q n hq => ?_⟩
  · obtain ⟨ha, haF⟩ | rfl := (hall.used a).mp ⟨ha, haF⟩
    · rw [hold a ha haF]
      exact hs.live a ha haF
    · rw [hlive, if_neg (by omega), update_self]
      exact Option.some_ne_none nbytes
  by_cases hnew : r ≠ 0 ∧ q = r
  · obtain ⟨hr, rfl⟩ := hnew
    rw [hlive, if_neg hr, update_self] at hq
    obtain rfl : nbytes = n := Option.some.inj hq
    obtain ⟨a, rfl, hsize⟩ := hall.size.resolve_left hr
    obtain ⟨ha, haF⟩ := (hall.used a).mpr (.inr rfl)
    refine ⟨a, ha, haF, rfl, ?_⟩
    rw [hsize]
    exact units_enough nbytes
  have hq : s.live q = some n := by
    rw [← hq, hlive]
    by_cases hr : r = 0
    · rw [if_pos hr]
    · rw [if_neg hr, update_of_ne fun heq => hnew ⟨hr, heq⟩]
  obtain ⟨a, ha, haF, rfl, hn⟩ := hs.used q n hq
  obtain ⟨ha', haF'⟩ := (hall.used a).mpr (.inl ⟨ha, haF⟩)
  exact ⟨a, ha', haF', rfl, by rwa [(hall.same a ha haF).1]⟩

theorem Sound.freed (hs : Sound base s F A) {r : Nat} (hr : s.live r ≠ none) :
    ∃ h' F' A', Returns (free s.heap · r) h' ∧ Sound base ⟨h', update s.live r none⟩ F' A' := by
  obtain ⟨n, hn⟩ := Option.ne_none_iff_exists'.mp hr
  obtain ⟨b, hb, hbF, rfl, -⟩ := hs.used r n hn
  obtain ⟨h', F', A', hret, hinv, hused, hsize, -⟩ := hs.inv.freed hb hbF
  refine ⟨h', F', A', hret, hinv, fun a ha haF => ?_, fun q m hq => ?_⟩
  · obtain ⟨ha, haF, hne⟩ := (hused a).mp ⟨ha, haF⟩
    show update s.live (b + 16) none (a + 16) ≠ none
    rw [update_of_ne (by omega)]
    exact hs.live a ha haF
  have hq : update s.live (b + 16) none q = some m := hq
  have hne : q ≠ b + 16 := fun heq => by
    rw [heq, update_self] at hq
    cases hq
  rw [update_of_ne hne] at hq
  obtain ⟨a, ha, haF, rfl, hm⟩ := hs.used q m hq
  obtain ⟨ha', haF'⟩ := (hused a).mpr ⟨ha, haF, by omega⟩
  exact ⟨a, ha', haF', rfl, by rwa [hsize a ha' haF']⟩

theorem Sound.write (hs : Sound base s F A) {r n : Nat} (hr : s.live r = some n) {ptr size : Nat → Nat}
    (hptr : Within r n s.heap.ptr ptr) (hsize : Within r n s.heap.size size) :
    Sound base { s with heap := { s.heap with ptr := ptr, size := size } } F A := by
  obtain ⟨b, hb, hbF, rfl, hn⟩ := hs.used r n hr
  have hout : ∀ a, a = base ∨ a ∈ A → a + 16 ≤ b + 16 ∨ b + 16 + n ≤ a := by
    intro a ha
    have hpos := hs.inv.blocks.pos b hb
    obtain rfl | ha := ha
    · omega
    by_cases hlt : b < a
    · have := hs.inv.blocks.apart b hb a ha hlt
      omega
    · omega
  have hsizes : ∀ a ∈ A, size a = s.heap.size a := fun a ha => hsize a (hout a (.inr ha))
  have hptrs : ∀ a ∈ insert base F, ptr a = s.heap.ptr a := fun a ha =>
    hptr a (hout a ((mem_insert.mp ha).imp_right fun h => hs.inv.sub h))
  refine ⟨hs.inv.congr hptrs hsizes (hsize base (hout base (.inl rfl))), hs.live, fun q m hq => ?_⟩
  obtain ⟨a, ha, haF, hqa, hm⟩ := hs.used q m hq
  refine ⟨a, ha, haF, hqa, ?_⟩
  show m + 16 ≤ 16 * size a
  rwa [hsizes a ha]

theorem Good.step {e : Event} (h : Good base s) (hstep : step base s e t) : Good base t := by
  have hsound : s.live ≠ (fun _ => none) → ∃ F A, Sound base s F A := fun hne =>
    h.resolve_left fun hfresh => hne (funext hfresh.2.2.2)
  cases e with
  | malloc nbytes more r =>
    obtain ⟨hsmall, hret, hlive⟩ := hstep
    obtain ⟨r', h', F, A, F', A', hret', hs, hall⟩ := h.allocated hsmall more
    obtain ⟨rfl, rfl⟩ : r = r' ∧ t.heap = h' := Prod.mk.inj (hret.unique hret')
    exact .inr ⟨F', A', hs.allocated hall hlive⟩
  | free r =>
    obtain ⟨hr, hret, hlive⟩ := hstep
    obtain ⟨F, A, hs⟩ := hsound fun heq => hr (congrFun heq r)
    obtain ⟨h', F', A', hret', hs'⟩ := hs.freed hr
    obtain rfl : t.heap = h' := hret.unique hret'
    rw [← hlive] at hs'
    exact .inr ⟨F', A', hs'⟩
  | write =>
    obtain ⟨n, hr, hptr, hsize, rfl⟩ := hstep
    obtain ⟨F, A, hs⟩ := hsound fun heq => by
      rw [heq] at hr
      cases hr
    exact .inr ⟨F, A, hs.write hr hptr hsize⟩

theorem good_reachable (h : Reachable (Fresh base) (step base) s) : Good base s :=
  h.invariant (fun _ hs => .inl hs) fun _ _ _ => Good.step

end Steps

section Results

variable {base : Nat} {s : Program}

/-- At every moment `F` is on the list and `U` is in use, `malloc` and `free` return, and the blocks are all there is. -/
theorem heap_stays_sound (hreach : Reachable (Fresh base) (step base) s) :
    (s.heap.freep = 0 ∧ s.heap.regions = [] ∧ (∀ r, s.live r = none) ∨ ∃ F U : Finset Nat,
      (∀ a, a ∈ insert base F ↔ ∃ k, s.heap.ptr^[k] base = a) ∧ Circuit.Round s.heap.ptr (insert base F) ∧
      s.heap.freep ∈ insert base F ∧ Disjoint F U ∧ (∀ r, s.live r ≠ none ↔ ∃ a ∈ U, r = a + 16) ∧
      (∀ a ∈ F ∪ U, ∀ b ∈ F ∪ U, a < b → a + 16 * s.heap.size a ≤ b) ∧
      (∀ a ∈ F, ∀ b ∈ F, a < b → a + 16 * s.heap.size a < b) ∧
      (∀ a ∈ F ∪ U, ∀ x, a ≤ x → x < a + 16 * s.heap.size a → ∃ g ∈ s.heap.regions, g.1 ≤ x ∧ x < g.1 + g.2) ∧
      16 * (∑ a ∈ F, s.heap.size a + ∑ a ∈ U, s.heap.size a) = s.heap.obtained) ∧
    (∀ nbytes more, 16 * units nbytes < 2 ^ 31 → ∃ x, Returns (malloc base s.heap · nbytes more) x) ∧
    ∀ r, s.live r ≠ none → ∃ h', Returns (free s.heap · r) h' := by
  have hgood := good_reachable hreach
  refine ⟨?_, fun nbytes more hsmall => ?_, fun r hr => ?_⟩
  · refine hgood.imp (fun h => ⟨h.1, h.2.1, h.2.2.2⟩) fun ⟨F, A, hs⟩ => ⟨F, A \ F, ?_⟩
    have hi := hs.inv
    have hmem : base ∈ insert base F := mem_insert_self base F
    have hunion : F ∪ A \ F = A := union_sdiff_of_subset hi.sub
    rw [hunion]
    refine ⟨fun a => ⟨fun ha => hi.round.reach hmem ha, fun ⟨k, hk⟩ => hk ▸ hi.round.iterate_mem hmem k⟩, hi.round, hi.freep,
      disjoint_sdiff, fun r => ⟨fun hr => ?_, fun ⟨a, ha, hr⟩ => ?_⟩, hi.blocks.apart, hi.gap, hi.blocks.mine, ?_⟩
    · obtain ⟨n, hn⟩ := Option.ne_none_iff_exists'.mp hr
      obtain ⟨a, ha, haF, hra, -⟩ := hs.used r n hn
      exact ⟨a, mem_sdiff.mpr ⟨ha, haF⟩, hra⟩
    · obtain ⟨ha, haF⟩ := mem_sdiff.mp ha
      exact hr ▸ hs.live a ha haF
    · rw [← sum_union disjoint_sdiff, hunion]
      exact hi.blocks.count
  · obtain ⟨r, h', -, -, -, -, hret, -⟩ := hgood.allocated hsmall more
    exact ⟨_, hret⟩
  have hsound := hgood.resolve_left fun hfresh => hr (hfresh.2.2.2 r)
  obtain ⟨F, A, hs⟩ := hsound
  obtain ⟨h', -, -, hret, -⟩ := hs.freed hr
  exact ⟨h', hret⟩

def boot : Program := ⟨⟨fun _ => 0, fun _ => 0, 0, 4096, []⟩, fun _ => none⟩

theorem fresh_boot : Fresh 16 boot := ⟨rfl, rfl, by decide, fun _ => rfl⟩

/-- The first call of `malloc` asks for 4096 units and cuts the 8 it needs off their end. -/
theorem given_first : ∃ s, Reachable (Fresh 16) (step 16) s ∧ s.live 69520 = some 100 := by
  have hboot : Reachable (Fresh 16) (step 16) boot := ⟨boot, [], fresh_boot, .nil⟩
  obtain ⟨r, h', -, -, -, -, ⟨k, hret⟩, -⟩ := (good_reachable hboot).allocated (show 16 * units 100 < 2 ^ 31 by decide) (some 0)
  have hr : (malloc 16 boot.heap (k + 1 + 8) 100 (some 0)).map Prod.fst = some 69520 := rfl
  have hrun : malloc 16 boot.heap (k + 1 + 8) 100 (some 0) = some (r, h') := hret _ (by omega)
  rw [hrun] at hr
  obtain rfl : r = 69520 := Option.some.inj hr
  have hstep : step 16 boot (.malloc 100 (some 0) 69520) ⟨h', update boot.live 69520 (some 100)⟩ := ⟨by decide, ⟨k, hret⟩, rfl⟩
  exact ⟨⟨h', update boot.live 69520 (some 100)⟩, hboot.run (.single hstep), rfl⟩

theorem heap_stays_sound_freed : ∃ s t : Program, s.live 69520 = some 100 ∧ step 16 s (.free 69520) t ∧
    ∃ x, Returns (malloc 16 t.heap · 100 none) x := by
  obtain ⟨s, hreach, hlive⟩ := given_first
  have hne : s.live 69520 ≠ none := hlive ▸ Option.some_ne_none 100
  obtain ⟨h', hret⟩ := (heap_stays_sound hreach).2.2 69520 hne
  have hstep : step 16 s (.free 69520) ⟨h', update s.live 69520 none⟩ := ⟨hne, hret, rfl⟩
  exact ⟨s, _, hlive, hstep, (heap_stays_sound (hreach.run (.single hstep))).2.1 100 none (by decide)⟩

/-- Small requests: a pointer that is not null leads to bytes that `sbrk` has returned, and that nobody else has. -/
theorem malloc_keeps_promise (hreach : Reachable (Fresh base) (step base) s) {nbytes : Nat}
    (hsmall : 16 * units nbytes < 2 ^ 31) (more : Option Nat) :
    ∃ r h', Returns (malloc base s.heap · nbytes more) (r, h') ∧ (r = 0 ∨
      (∀ x, r ≤ x → x < r + nbytes → ∃ g ∈ h'.regions, g.1 ≤ x ∧ x < g.1 + g.2) ∧
      ∀ q n, s.live q = some n → q + n ≤ r ∨ r + nbytes ≤ q) := by
  obtain ⟨r, h', F, A, F', A', hret, hs, hall⟩ := (good_reachable hreach).allocated hsmall more
  refine ⟨r, h', hret, hall.size.imp_right ?_⟩
  rintro ⟨a, rfl, hsize⟩
  obtain ⟨ha, -⟩ := (hall.used a).mpr (.inr rfl)
  have henough := units_enough nbytes
  refine ⟨fun x hlo hhi => hall.inv.blocks.mine a ha x (by omega) (by omega), fun q n hq => ?_⟩
  obtain ⟨b, hb, hbF, rfl, hn⟩ := hs.used q n hq
  obtain ⟨hb', -⟩ := (hall.used b).mpr (.inl ⟨hb, hbF⟩)
  obtain ⟨hbsize, hne⟩ := hall.same b hb hbF
  have hn : n + 16 ≤ 16 * (ready base s.heap).size b := hn
  by_cases hlt : b < a
  · have := hall.inv.blocks.apart b hb' a ha hlt
    omega
  · have := hall.inv.blocks.apart a ha b hb' (by omega)
    omega

theorem malloc_keeps_promise_second : ∃ (s : Program) (r : Nat) (h' : Heap), s.live 69520 = some 100 ∧
    Returns (malloc 16 s.heap · 8 none) (r, h') ∧ (r = 0 ∨ 69520 + 100 ≤ r ∨ r + 8 ≤ 69520) := by
  obtain ⟨s, hreach, hlive⟩ := given_first
  obtain ⟨r, h', hret, hr⟩ := malloc_keeps_promise hreach (show 16 * units 8 < 2 ^ 31 by decide) none
  exact ⟨s, r, h', hlive, hret, hr.imp_right fun h => h.2 69520 100 hlive⟩

/-- `malloc(4294967295)` asks for 2^28 + 1 units.  Their 2^32 + 16 bytes are 16 as an `int`, and `sbrk(16)` succeeds. -/
theorem malloc_breaks_promise : Fresh 16 boot ∧ ∃ h', malloc 16 boot.heap 8 4294967295 (some 0) = some (4112, h') ∧
    ¬ ∀ x, 4112 ≤ x → x < 4112 + 4294967295 → ∃ g ∈ h'.regions, g.1 ≤ x ∧ x < g.1 + g.2 := by
  have hrun : (malloc 16 boot.heap 8 4294967295 (some 0)).map (fun x => (x.1, x.2.regions)) = some (4112, [(4096, 16)]) := by
    decide +kernel
  obtain ⟨⟨r, h'⟩, hmalloc, hx⟩ := Option.map_eq_some_iff.mp hrun
  obtain ⟨rfl, hregions⟩ := Prod.mk.inj hx
  refine ⟨fresh_boot, h', hmalloc, fun hall => ?_⟩
  obtain ⟨g, hg, -, hhi⟩ := hall 4112 (by decide) (by decide)
  rw [show h'.regions = [(4096, 16)] from hregions, List.mem_singleton] at hg
  rw [hg] at hhi
  exact absurd hhi (by decide)

end Results

end Xv6.Umalloc
