import Mathlib.Data.List.Basic
import Mathlib.Data.List.Nodup
import Mathlib.Tactic.Common

/-!
# Reference-counted caches

A cache has a fixed set of entries, in an order.  A key is looked up by going through the order, and a key that
is not found gets an entry that nobody refers to.  `Use` is what the users of the cache know; `Table` says that
the entries agree with it.
-/

namespace Cache

open Function List

variable {ι κ δ : Type}

/-! ## The users' side -/

structure Use (κ δ : Type) where
  /-- How many references there are to a key. -/
  users : κ → Nat
  /-- What was last read or stored under a key since there last was no reference to it. -/
  mem : κ → Option δ
  /-- What was last read or stored under a key. -/
  last : κ → Option δ

namespace Use

def start : Use κ δ where
  users _ := 0
  mem _ := none
  last _ := none

variable [DecidableEq κ]

def ref (u : Use κ δ) (k : κ) : Use κ δ := { u with users := update u.users k (u.users k + 1) }

def unref (u : Use κ δ) (k : κ) : Use κ δ :=
  { u with
    users := update u.users k (u.users k - 1)
    mem := if u.users k = 1 then update u.mem k none else u.mem }

def store (u : Use κ δ) (k : κ) (d : δ) : Use κ δ :=
  { u with mem := update u.mem k (some d), last := update u.last k (some d) }

theorem users_ref (u : Use κ δ) (k k' : κ) : (u.ref k).users k' = update u.users k (u.users k + 1) k' := rfl

theorem users_unref (u : Use κ δ) (k k' : κ) : (u.unref k).users k' = update u.users k (u.users k - 1) k' := rfl

theorem mem_unref (u : Use κ δ) (k : κ) :
    (u.unref k).mem = if u.users k = 1 then update u.mem k none else u.mem := rfl

theorem mem_store (u : Use κ δ) (k k' : κ) (d : δ) : (u.store k d).mem k' = update u.mem k (some d) k' := rfl

theorem last_store (u : Use κ δ) (k k' : κ) (d : δ) : (u.store k d).last k' = update u.last k (some d) k' := rfl

theorem mem_unref_none {u : Use κ δ} {k k' : κ} (h : (u.unref k).mem k' = none) :
    u.mem k' = none ∨ k' = k ∧ u.users k = 1 := by
  by_cases hone : u.users k = 1
  · by_cases hk : k' = k
    · exact .inr ⟨hk, hone⟩
    · rw [mem_unref, if_pos hone, update_of_ne hk] at h
      exact .inl h
  · rw [mem_unref, if_neg hone] at h
    exact .inl h

theorem mem_store_none {u : Use κ δ} {k k' : κ} {d : δ} (h : (u.store k d).mem k' = none) :
    k' ≠ k ∧ u.mem k' = none := by
  by_cases hk : k' = k
  · rw [hk, mem_store, update_self] at h
    exact absurd h (Option.some_ne_none d)
  · rw [mem_store, update_of_ne hk] at h
    exact ⟨hk, h⟩

end Use

/-! ## The entries -/

section Table

variable [DecidableEq κ]

/-- The lookup of an assigned entry's key comes to that entry first. -/
def Finds (order : List ι) (key : ι → κ) (assigned : ι → Bool) : Prop :=
  ∀ i, assigned i = true → order.find? (fun j => decide (key j = key i)) = some i

/-- The entries `ι`, each with a key, contents if it has any, and a number of references, agree with what the
users know.  Only the entries that have been assigned to a key on demand count. -/
structure Table (u : Use κ δ) (key : ι → κ) (cont : ι → Option δ) (assigned : ι → Bool) (refs : ι → Nat) : Prop where
  blank : ∀ i, assigned i = false → refs i = 0 ∧ cont i = none
  users : ∀ i, assigned i = true → u.users (key i) = refs i
  unused : ∀ k, (∀ i, assigned i = true → key i ≠ k) → u.users k = 0
  mem : ∀ k x, u.mem k = some x → ∃ i, assigned i = true ∧ key i = k ∧ cont i = some x ∧ 0 < refs i
  last : ∀ i x, assigned i = true → cont i = some x → u.last (key i) = some x

/-- Contents that no user vouches for are those of the `backing` store. -/
def Clean (u : Use κ δ) (backing : κ → δ) (key : ι → κ) (cont : ι → Option δ) (assigned : ι → Bool) : Prop :=
  ∀ i x, assigned i = true → cont i = some x → u.mem (key i) = none → backing (key i) = x

variable {u : Use κ δ} {order : List ι} {key : ι → κ} {cont : ι → Option δ} {assigned : ι → Bool}
  {refs : ι → Nat} {backing : κ → δ} {i j : ι} {k : κ} {x : δ}

section

variable (hfinds : Finds order key assigned)

include hfinds

theorem Finds.eq_of_find (hfind : order.find? (fun j => decide (key j = k)) = some i) (hj : assigned j = true)
    (hkey : key j = k) : j = i := by
  have hfj := hfinds j hj
  rw [hkey, hfind] at hfj
  exact (Option.some.inj hfj).symm

theorem Finds.eq_of_key (hi : assigned i = true) (hj : assigned j = true) (hkey : key i = key j) : i = j :=
  hfinds.eq_of_find (hfinds j hj) hi hkey

theorem Finds.key_ne (hi : assigned i = true) (hj : assigned j = true) (hne : j ≠ i) : key j ≠ key i :=
  fun hkey => hne (hfinds.eq_of_key hj hi hkey)

theorem Table.cont_eq (h : Table u key cont assigned refs) (hi : assigned i = true) (hx : u.mem (key i) = some x) :
    cont i = some x := by
  obtain ⟨j, hj, hkey, hcont, -⟩ := h.mem _ _ hx
  rwa [hfinds.eq_of_key hj hi hkey] at hcont

end

theorem ne_of_assigned (hi : assigned i = true) (hj : assigned j = false) : j ≠ i := by
  rintro rfl
  rw [hi] at hj
  exact Bool.false_ne_true hj.symm

theorem key_of_find (key : ι → κ) (hfind : order.find? (fun j => decide (key j = k)) = some i) : key i = k := by
  have hp := find?_some hfind
  simpa using hp

theorem ne_of_miss (key : ι → κ) (hmiss : order.find? (fun j => decide (key j = k)) = none)
    (hall : ∀ j, j ∈ order) (j : ι) : key j ≠ k :=
  fun hkj => find?_eq_none.mp hmiss j (hall j) (decide_eq_true hkj)

omit [DecidableEq κ] in
theorem Table.start (hassigned : ∀ i, assigned i = false) (hblank : ∀ i, refs i = 0 ∧ cont i = none) :
    Table Use.start key cont assigned refs where
  blank i _ := hblank i
  users i hi := absurd hi (by rw [hassigned i]; exact Bool.false_ne_true)
  unused _ _ := rfl
  mem _ _ hx := absurd hx nofun
  last i _ hi := absurd hi (by rw [hassigned i]; exact Bool.false_ne_true)

variable [DecidableEq ι]

section

variable (hfinds : Finds order key assigned)

include hfinds

theorem Finds.hit (hfind : order.find? (fun j => decide (key j = k)) = some i) :
    Finds order key (update assigned i true) := by
  intro j hass
  by_cases hj : j = i
  · rw [hj, key_of_find key hfind]
    exact hfind
  · rw [update_of_ne hj] at hass
    exact hfinds j hass

theorem Finds.recycle (hmiss : order.find? (fun j => decide (key j = k)) = none) (hall : ∀ j, j ∈ order) :
    Finds order (update key i k) (update assigned i true) := by
  intro j hass
  by_cases hj : j = i
  · have hsome : (order.find? fun m => decide (update key i k m = k)).isSome := by
      rw [find?_isSome]
      exact ⟨i, hall i, by rw [update_self]; exact decide_eq_true rfl⟩
    obtain ⟨m, hm⟩ := Option.isSome_iff_exists.mp hsome
    have hkm := key_of_find _ hm
    have hmi : m = i := by
      by_contra hne
      rw [update_of_ne hne] at hkm
      exact ne_of_miss key hmiss hall m hkm
    rw [hj, update_self, hm, hmi]
  rw [update_of_ne hj] at hass ⊢
  have hold := hfinds j hass
  rw [find?_eq_some_iff_append] at hold ⊢
  obtain ⟨hp, as, bs, hsplit, hbefore⟩ := hold
  refine ⟨decide_eq_true (update_of_ne hj _ _), as, bs, hsplit, fun m hm => ?_⟩
  by_cases hmi : m = i
  · rw [hmi, update_self]
    simpa using (ne_of_miss key hmiss hall j).symm
  · rw [update_of_ne hmi]
    exact hbefore m hm

theorem Finds.moveFront (hi : assigned i = true) : Finds (i :: order.erase i) key assigned := by
  intro j hj
  rw [find?_cons]
  by_cases hji : j = i
  · rw [hji, decide_eq_true rfl]
  have hne : key i ≠ key j := (hfinds.key_ne hi hj hji).symm
  rw [decide_eq_false hne]
  have hold := hfinds j hj
  show (order.erase i).find? _ = some j
  by_cases hmem : i ∈ order
  · obtain ⟨as, bs, hnot, hsplit, herase⟩ := exists_erase_eq hmem
    rw [herase, find?_append]
    rw [hsplit, find?_append, find?_cons, decide_eq_false hne] at hold
    exact hold
  · rw [erase_of_not_mem hmem]
    exact hold

end

section

variable (h : Table u key cont assigned refs)

include h

theorem Table.hit (hfinds : Finds order key assigned) (hfind : order.find? (fun j => decide (key j = k)) = some i) :
    Table (u.ref k) key cont (update assigned i true) (update refs i (refs i + 1)) := by
  have hki := key_of_find key hfind
  have hother : ∀ j, j ≠ i → update assigned i true j = true → assigned j = true ∧ key j ≠ k := by
    intro j hj hass
    rw [update_of_ne hj] at hass
    exact ⟨hass, fun hkj => hj (hfinds.eq_of_find hfind hass hkj)⟩
  refine ⟨?_, ?_, ?_, ?_, ?_⟩
  · intro j hass
    have hj : j ≠ i := ne_of_assigned (update_self i true assigned) hass
    rw [update_of_ne hj] at hass ⊢
    exact h.blank j hass
  · intro j hass
    by_cases hj : j = i
    · rw [hj, hki, Use.users_ref, update_self, update_self]
      cases hold : assigned i with
      | true => rw [← h.users i hold, hki]
      | false =>
        -- nobody has the key yet
        have hzero : u.users k = 0 := by
          apply h.unused
          intro j' hj' hkj'
          rw [hfinds.eq_of_find hfind hj' hkj', hold] at hj'
          exact Bool.false_ne_true hj'
        rw [hzero, (h.blank i hold).1]
    · rw [Use.users_ref, update_of_ne (hother j hj hass).2, update_of_ne hj]
      exact h.users j (hother j hj hass).1
  · intro k' hk'
    have hne : k' ≠ k := fun heq => hk' i (update_self i true assigned) (hki.trans heq.symm)
    rw [Use.users_ref, update_of_ne hne]
    apply h.unused
    intro j hj
    apply hk' j
    by_cases hji : j = i
    · rw [hji, update_self]
    · rw [update_of_ne hji, hj]
  · intro k' x hx
    obtain ⟨j, hj, hkj, hcont, hpos⟩ := h.mem k' x hx
    refine ⟨j, ?_, hkj, hcont, ?_⟩
    · by_cases hji : j = i
      · rw [hji, update_self]
      · rw [update_of_ne hji, hj]
    by_cases hji : j = i
    · rw [hji, update_self]
      exact Nat.succ_pos _
    · rw [update_of_ne hji]
      exact hpos
  intro j x hass hcont
  cases hold : assigned j with
  | true => exact h.last j x hold hcont
  | false =>
    rw [(h.blank j hold).2] at hcont
    exact absurd hcont nofun

theorem Table.recycle (hnew : ∀ j, key j ≠ k) (hfree : refs i = 0) :
    Table (u.ref k) (update key i k) (update cont i none) (update assigned i true) (update refs i 1) := by
  have hzero : u.users k = 0 := h.unused k fun j _ => hnew j
  refine ⟨?_, ?_, ?_, ?_, ?_⟩
  · intro j hass
    have hj : j ≠ i := ne_of_assigned (update_self i true assigned) hass
    rw [update_of_ne hj] at hass ⊢
    rw [update_of_ne hj]
    exact h.blank j hass
  · intro j hass
    by_cases hj : j = i
    · rw [hj, update_self, update_self, Use.users_ref, update_self, hzero]
    · rw [update_of_ne hj] at hass ⊢
      rw [update_of_ne hj, Use.users_ref, update_of_ne (hnew j)]
      exact h.users j hass
  · intro k' hk'
    have hne : k' ≠ k := by
      intro heq
      apply hk' i (update_self i true assigned)
      rw [update_self, heq]
    rw [Use.users_ref, update_of_ne hne]
    by_cases hgone : assigned i = true ∧ key i = k'
    · -- the key that the entry had before
      rw [← hgone.2, h.users i hgone.1, hfree]
    apply h.unused
    intro j hj hkj
    by_cases hji : j = i
    · exact hgone ⟨hji ▸ hj, hji ▸ hkj⟩
    · apply hk' j
      · rw [update_of_ne hji, hj]
      · rw [update_of_ne hji, hkj]
  · intro k' x hx
    obtain ⟨j, hj, hkj, hcont, hpos⟩ := h.mem k' x hx
    have hji : j ≠ i := by
      intro heq
      rw [heq, hfree] at hpos
      exact Nat.lt_irrefl 0 hpos
    refine ⟨j, ?_, ?_, ?_, ?_⟩
    · rw [update_of_ne hji, hj]
    · rw [update_of_ne hji, hkj]
    · rw [update_of_ne hji, hcont]
    · rw [update_of_ne hji]
      exact hpos
  intro j x hass hcont
  by_cases hj : j = i
  · rw [hj, update_self] at hcont
    exact absurd hcont nofun
  · rw [update_of_ne hj] at hass hcont ⊢
    exact h.last j x hass hcont

theorem Table.unref (hfinds : Finds order key assigned) (hi : assigned i = true) (hpos : 0 < refs i) :
    Table (u.unref (key i)) key cont assigned (update refs i (refs i - 1)) := by
  have hmine := h.users i hi
  refine ⟨?_, ?_, ?_, ?_, h.last⟩
  · intro j hass
    rw [update_of_ne (ne_of_assigned hi hass)]
    exact h.blank j hass
  · intro j hass
    by_cases hj : j = i
    · rw [hj, Use.users_unref, update_self, update_self, hmine]
    · rw [Use.users_unref, update_of_ne (hfinds.key_ne hi hass hj), update_of_ne hj]
      exact h.users j hass
  · intro k hk
    have hne : k ≠ key i := fun heq => hk i hi heq.symm
    rw [Use.users_unref, update_of_ne hne]
    exact h.unused k hk
  intro k x hx
  have hold : u.mem k = some x ∧ (k = key i → refs i ≠ 1) := by
    rw [← hmine]
    by_cases hone : u.users (key i) = 1
    · rw [Use.mem_unref, if_pos hone] at hx
      by_cases hk : k = key i
      · rw [hk, update_self] at hx
        exact absurd hx nofun
      · rw [update_of_ne hk] at hx
        exact ⟨hx, fun heq => absurd heq hk⟩
    · rw [Use.mem_unref, if_neg hone] at hx
      exact ⟨hx, fun _ => hone⟩
  obtain ⟨j, hj, hkj, hcont, hposj⟩ := h.mem k x hold.1
  refine ⟨j, hj, hkj, hcont, ?_⟩
  by_cases hji : j = i
  · have hmore := hold.2 (by rw [← hkj, hji])
    rw [hji, update_self]
    omega
  · rw [update_of_ne hji]
    exact hposj

theorem Table.store (hfinds : Finds order key assigned) (hi : assigned i = true) (hpos : 0 < refs i) (d : δ) :
    Table (u.store (key i) d) key (update cont i (some d)) assigned refs := by
  refine ⟨?_, h.users, h.unused, ?_, ?_⟩
  · intro j hass
    rw [update_of_ne (ne_of_assigned hi hass)]
    exact h.blank j hass
  · intro k x hx
    by_cases hk : k = key i
    · rw [hk, Use.mem_store, update_self] at hx
      exact ⟨i, hi, hk.symm, by rw [update_self, hx], hpos⟩
    rw [Use.mem_store, update_of_ne hk] at hx
    obtain ⟨j, hj, hkj, hcont, hposj⟩ := h.mem k x hx
    have hji : j ≠ i := fun heq => hk (by rw [← hkj, heq])
    exact ⟨j, hj, hkj, by rw [update_of_ne hji, hcont], hposj⟩
  intro j x hj hcont
  by_cases hji : j = i
  · rw [hji, update_self] at hcont
    rw [hji, Use.last_store, update_self, hcont]
  · rw [update_of_ne hji] at hcont
    rw [Use.last_store, update_of_ne (hfinds.key_ne hi hj hji)]
    exact h.last j x hj hcont

end

/-! ## Contents that are those of the backing store -/

section

variable (h : Clean u backing key cont assigned)

include h

theorem Clean.hit (htable : Table u key cont assigned refs) :
    Clean (u.ref k) backing key cont (update assigned i true) := by
  intro j x _ hcont hmem
  cases hj : assigned j with
  | true => exact h j x hj hcont hmem
  | false =>
    rw [(htable.blank j hj).2] at hcont
    exact absurd hcont nofun

theorem Clean.recycle : Clean (u.ref k) backing (update key i k) (update cont i none) (update assigned i true) := by
  intro j x hass hcont hmem
  by_cases hj : j = i
  · rw [hj, update_self] at hcont
    exact absurd hcont nofun
  · rw [update_of_ne hj] at hass hcont hmem ⊢
    exact h j x hass hcont hmem

omit [DecidableEq ι] in
theorem Clean.unref (htable : Table u key cont assigned refs) (hfinds : Finds order key assigned)
    (hi : assigned i = true) (hback : refs i = 1 → ∀ x, cont i = some x → backing (key i) = x) :
    Clean (u.unref (key i)) backing key cont assigned := by
  intro j x hj hcont hmem
  rcases Use.mem_unref_none hmem with hold | ⟨hkey, hone⟩
  · exact h j x hj hcont hold
  · rw [htable.users i hi] at hone
    rw [hfinds.eq_of_key hj hi hkey] at hcont ⊢
    exact hback hone x hcont

theorem Clean.store {d : δ} : Clean (u.store (key i) d) backing key (update cont i (some d)) assigned := by
  intro j x hj hcont hmem
  obtain ⟨hkey, hold⟩ := Use.mem_store_none hmem
  rw [update_of_ne fun heq => hkey (congrArg key heq)] at hcont
  exact h j x hj hcont hold

theorem Clean.write (hfinds : Finds order key assigned) (hi : assigned i = true) (hx : cont i = some x) :
    Clean u (update backing (key i) x) key cont assigned := by
  intro j y hj hcont hmem
  by_cases hji : j = i
  · rw [hji, update_self]
    rw [hji, hx] at hcont
    exact Option.some.inj hcont
  · rw [update_of_ne (hfinds.key_ne hi hj hji)]
    exact h j y hj hcont hmem

end

end Table

end Cache
