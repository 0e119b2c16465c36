import Mathlib.Data.List.Count
import Mathlib.Data.Finset.Card
import Xv6.Dev.Virtio

/-!
# Who owns a descriptor

The descriptors are divided between the free ones and the chains of the requests in flight.  A request in flight
is a process in the second `sleep` of `virtio_disk_rw`; while `b->disk` is set, the head of its chain is in exactly
one of four places: in the avail ring, with the disk, answered but not published, or in the used ring.
-/

namespace Xv6.Virtio

open Function List Runs

variable {β τ : Type}

def Pc.flight : Pc β → Option (Request β × Idx)
  | .waiting r idx => some (r, idx)
  | _ => none

def State.flight (s : State β τ) (p : τ) : Option (Request β × Idx) := (s.proc p).pc.flight

def Pc.buf : Pc β → Option β
  | .idle => none
  | .enter r => some r.b
  | .starved r => some r.b
  | .waiting r _ => some r.b

def chain (desc : Nat → VirtqDesc β) : Nat → Nat → List Nat
  | 0, _ => []
  | n + 1, i => i :: if (desc i).flags &&& VRING_DESC_F_NEXT ≠ 0 then chain desc n (desc i).next else []

def Idx.list (idx : Idx) : List Nat := [idx.1, idx.2.1, idx.2.2]

/-- The descriptors are divided between the free ones and the chains of the requests in flight. -/
structure Partition (s : State β τ) : Prop where
  linked : ∀ p r idx, s.flight p = some (r, idx) → chain s.desc NUM idx.1 = idx.list
  three : ∀ p r idx, s.flight p = some (r, idx) → idx.list.Nodup
  busy : ∀ p r idx, s.flight p = some (r, idx) → ∀ i ∈ idx.list, i < NUM ∧ s.free i = false
  disjoint : ∀ p q r r' idx idx', s.flight p = some (r, idx) → s.flight q = some (r', idx') → p ≠ q →
    idx.list.Disjoint idx'.list
  cover : ∀ i, i < NUM → s.free i = false → ∃ p r idx, s.flight p = some (r, idx) ∧ i ∈ idx.list

section Claim

variable [DecidableEq β] [DecidableEq τ]

/-- The disk has done the request `r`, whose chain begins at `head`, since `p` last looked for descriptors. -/
def ServedSince (tr : List (Event β τ)) (p : τ) (r : Request β) (head : Nat) : Prop :=
  Since (fun ev => decide (ev = (.answer head, .served r.op r.b))) (fun ev => decide (ev.1 = .start p)) tr

/-- What the driver is meant to guarantee, in runs of `step`. -/
def DescriptorOwnership (step : State β τ → Event β τ → State β τ → Prop) : Prop :=
  ∀ tr s, Run step boot tr s →
    Partition s ∧
    (∀ p r idx s', s.flight p = some (r, idx) → step s (.resume p, .returned) s' → ServedSince tr p r idx.1) ∧
    ∀ a why s', ¬ step s (a, .panic why) s'

def Exclusive (s : State β τ) (ev : Event β τ) : Prop :=
  match ev.1 with
  | .call _ r => ∀ q, (s.proc q).pc.buf ≠ some r.b
  | _ => True

end Claim

/-! ## Taking and giving back descriptors -/

/-- The descriptors `l` have been given back; nothing else has changed that a request in flight depends on. -/
structure Released (l : List Nat) (s s' : State β τ) : Prop where
  pc : ∀ p, (s'.proc p).pc = (s.proc p).pc
  free : ∀ i, s'.free i = (s.free i || decide (i ∈ l))
  desc : ∀ i, i ∉ l → s'.desc i = s.desc i
  same : s' = { s with proc := s'.proc, free := s'.free, desc := s'.desc }

section Release

variable {s s' s'' : State β τ} {l l' : List Nat} {i : Nat}

theorem Released.refl (s : State β τ) : Released [] s s where
  pc _ := rfl
  free i := by simp
  desc _ _ := rfl
  same := rfl

theorem Released.trans (h : Released l s s') (h' : Released l' s' s'') : Released (l ++ l') s s'' where
  pc p := by rw [h'.pc, h.pc]
  free i := by
    rw [h'.free, h.free, Bool.or_assoc, ← Bool.decide_or]
    simp only [mem_append]
  desc i hi := by
    rw [mem_append, not_or] at hi
    rw [h'.desc i hi.2, h.desc i hi.1]
  same := by rw [h'.same, h.same]

def State.grab (s : State β τ) (l : List Nat) : State β τ := { s with free := fun i => s.free i && !decide (i ∈ l) }

/-- Nothing has changed that a request in flight depends on. -/
structure Kept (s s' : State β τ) : Prop where
  pc : ∀ p, (s'.proc p).pc = (s.proc p).pc
  desc : ∀ i, s.free i = false → s'.desc i = s.desc i
  same : s' = { s with proc := s'.proc, desc := s'.desc }

theorem Released.kept (h : Released l (s.grab l) s') (hl : ∀ i ∈ l, s.free i = true) : Kept s s' where
  pc := h.pc
  desc i hi := by
    refine h.desc i fun hmem => ?_
    rw [hl i hmem] at hi
    cases hi
  same := by
    have hfree : s'.free = s.free := by
      funext i
      rw [h.free]
      by_cases hmem : i ∈ l
      · simp [hmem, hl i hmem]
      · simp [State.grab, hmem]
    rw [h.same, hfree]
    rfl

theorem allocDesc_grab (idx : List Nat) :
    (∃ i, allocDesc (s.grab idx) = some (i, s.grab (idx ++ [i])) ∧ i < NUM ∧ s.free i = true ∧ i ∉ idx) ∨
      allocDesc (s.grab idx) = none := by
  rw [allocDesc]
  cases hfind : (range NUM).find? (s.grab idx).free with
  | none => exact .inr rfl
  | some i =>
    have hfree : (s.grab idx).free i = true := find?_some hfind
    have hmem := mem_of_find?_eq_some hfind
    simp only [State.grab, Bool.and_eq_true, Bool.not_eq_true', decide_eq_false_iff_not] at hfree
    refine .inl ⟨i, ?_, mem_range.1 hmem, hfree.1, hfree.2⟩
    simp only [Option.map_some, State.grab, Option.some.injEq, Prod.mk.injEq, true_and]
    congr 1
    funext j
    rw [update_apply]
    by_cases hj : j = i <;> simp [hj]

section Code

variable [DecidableEq β]

theorem freeDesc_released (hi : i < NUM) (hbusy : s.free i = false) :
    ∃ s', freeDesc i s = .ok s' ∧ Released [i] s s' := by
  refine ⟨_, by rw [freeDesc, if_neg (Nat.not_le.2 hi), hbusy, if_neg Bool.false_ne_true], ?_, ?_, ?_, rfl⟩
  · intro p
    exact Thread.wake_pc _ _
  · intro j
    show update s.free i true j = _
    rw [update_apply]
    by_cases hj : j = i <;> simp [hj]
  · intro j hj
    exact update_of_ne (fun heq => hj (by simp [heq])) _ _

theorem freeDescs_released (hnodup : l.Nodup) (hl : ∀ i ∈ l, i < NUM ∧ s.free i = false) :
    ∃ s', freeDescs l s = .ok s' ∧ Released l s s' := by
  induction l generalizing s with
  | nil => exact ⟨s, rfl, .refl s⟩
  | cons i l ih =>
    obtain ⟨hnot, hnodup⟩ := nodup_cons.1 hnodup
    obtain ⟨s₁, hfree, hone⟩ := freeDesc_released (hl i (by simp)).1 (hl i (by simp)).2
    obtain ⟨s₂, hrest, hall⟩ := ih (s := s₁) hnodup fun j hj => by
      have hne : j ≠ i := fun heq => hnot (heq ▸ hj)
      refine ⟨(hl j (by simp [hj])).1, ?_⟩
      rw [hone.free, (hl j (by simp [hj])).2]
      simp [hne]
    refine ⟨s₂, ?_, hone.trans hall⟩
    rw [freeDescs, hfree]
    exact hrest

theorem freeChain_next {n : Nat} (hrun : freeDesc i s = .ok s') (hflag : (s.desc i).flags &&& VRING_DESC_F_NEXT ≠ 0) :
    freeChain (n + 1) i s = freeChain n (s.desc i).next s' := by
  rw [freeChain, hrun]
  exact if_pos hflag

theorem freeChain_last {n : Nat} (hrun : freeDesc i s = .ok s') (hflag : ¬ (s.desc i).flags &&& VRING_DESC_F_NEXT ≠ 0) :
    freeChain (n + 1) i s = .ok s' := by
  rw [freeChain, hrun]
  exact if_neg hflag

theorem allocLoop_spec (n : Nat) {idx : List Nat} (hnodup : idx.Nodup) (hidx : ∀ i ∈ idx, i < NUM ∧ s.free i = true) :
    (∃ l, allocLoop n idx (s.grab idx) = .ok (some l, s.grab l) ∧ l.length = idx.length + n ∧ l.Nodup ∧
        ∀ i ∈ l, i < NUM ∧ s.free i = true) ∨
      ∃ s', allocLoop n idx (s.grab idx) = .ok (none, s') ∧ Kept s s' := by
  induction n generalizing idx with
  | zero => exact .inl ⟨idx, rfl, rfl, hnodup, hidx⟩
  | succ n ih =>
    rcases allocDesc_grab (s := s) idx with ⟨i, halloc, hi, hfree, hnot⟩ | halloc
    · have hnodup' : (idx ++ [i]).Nodup := by
        rw [nodup_append]
        refine ⟨hnodup, nodup_singleton i, fun a ha b hb heq => ?_⟩
        rw [mem_singleton] at hb
        exact hnot (hb ▸ heq ▸ ha)
      have hidx' : ∀ j ∈ idx ++ [i], j < NUM ∧ s.free j = true := by
        intro j hj
        rcases mem_append.1 hj with hold | hnew
        · exact hidx j hold
        · rw [mem_singleton.1 hnew]
          exact ⟨hi, hfree⟩
      simp only [allocLoop, halloc]
      rw [show idx.length + (n + 1) = (idx ++ [i]).length + n by rw [length_append, length_singleton]; omega]
      exact ih hnodup' hidx'
    obtain ⟨s', hrun, hrel⟩ := freeDescs_released (s := s.grab idx) hnodup fun i hi =>
      ⟨(hidx i hi).1, by simp [State.grab, hi]⟩
    refine .inr ⟨s', ?_, hrel.kept fun i hi => (hidx i hi).2⟩
    simp only [allocLoop, halloc, hrun]
    rfl

end Code

end Release

/-! ## The invariant -/

/-- The descriptors of a request in flight say what the request is. -/
structure Formatted (s : State β τ) (r : Request β) (idx : Idx) : Prop where
  nodup : idx.list.Nodup
  busy : ∀ i ∈ idx.list, i < NUM ∧ s.free i = false
  head : s.desc idx.1 = (r.descs idx.1 idx.2.1 idx.2.2).1
  data : s.desc idx.2.1 = (r.descs idx.1 idx.2.1 idx.2.2).2.1
  last : s.desc idx.2.2 = (r.descs idx.1 idx.2.1 idx.2.2).2.2
  buf : (s.info idx.1).b = some r.b
  op : s.ops idx.1 = r.op

def places (avail done : List Nat) (s : State β τ) (i : Nat) : Nat :=
  avail.count i + s.taken.count i + s.answered.toList.count i + done.count i

def Act.starts : Act β τ → Bool
  | .start _ => true
  | _ => false

def Ret.silent : Ret β → Bool
  | .none | .served _ _ => true
  | .returned | .panic _ => false

/-- `avail` is what the disk has not seen of the avail ring, and `done` what the handler has not seen of the used
ring. -/
structure Inv [DecidableEq β] [DecidableEq τ] (tr : List (Event β τ)) (avail done : List Nat) (s : State β τ) : Prop where
  formatted : ∀ p r idx, s.flight p = some (r, idx) → Formatted s r idx
  disjoint : ∀ p q r r' idx idx', s.flight p = some (r, idx) → s.flight q = some (r', idx') → p ≠ q →
    idx.list.Disjoint idx'.list
  cover : ∀ i, i < NUM → s.free i = false → ∃ p r idx, s.flight p = some (r, idx) ∧ i ∈ idx.list
  exclusive : ∀ p q b, (s.proc p).pc.buf = some b → (s.proc q).pc.buf = some b → p = q
  availQueue : Ring.Queue s.avail.ring s.seen s.avail.idx avail
  usedQueue : Ring.Queue s.used.ring s.usedIdx s.used.idx done
  once : ∀ i, places avail done s i ≤ 1
  places_iff : ∀ i, 0 < places avail done s i ↔ ∃ p r idx, s.flight p = some (r, idx) ∧ idx.1 = i ∧ s.disk r.b = true
  status : ∀ i, s.answered = some i ∨ i ∈ done → (s.info i).status = 0
  staged : ∀ i, s.answered = some i → s.used.ring (Ring.cell NUM s.used.idx) = i
  served : ∀ p r idx, s.flight p = some (r, idx) → s.disk r.b = false ∨ s.answered = some idx.1 ∨ idx.1 ∈ done →
    ServedSince tr p r idx.1

theorem NUM_dvd : NUM ∣ 2 ^ 16 := by decide

theorem NUM_lt : NUM < 2 ^ 16 := by decide

section Facts

variable {s : State β τ} {p q : τ} {r : Request β} {idx : Idx} {i : Nat}

theorem Idx.head_mem (idx : Idx) : idx.1 ∈ idx.list := mem_cons_self

theorem buf_of_flight (h : s.flight p = some (r, idx)) : (s.proc p).pc.buf = some r.b := by
  unfold State.flight at h
  cases hpc : (s.proc p).pc with
  | waiting =>
    rw [hpc] at h
    cases h
    rfl
  | idle | enter | starved =>
    rw [hpc] at h
    cases h

theorem Formatted.same {s' : State β τ} (h : Formatted s r idx)
    (hkept : ∀ x ∈ idx.list, s'.desc x = s.desc x ∧ (s.free x = false → s'.free x = false))
    (hbuf : (s'.info idx.1).b = (s.info idx.1).b) (hop : s'.ops idx.1 = s.ops idx.1) : Formatted s' r idx where
  nodup := h.nodup
  busy x hx := ⟨(h.busy x hx).1, (hkept x hx).2 (h.busy x hx).2⟩
  head := (hkept _ (by simp [Idx.list])).1.trans h.head
  data := (hkept _ (by simp [Idx.list])).1.trans h.data
  last := (hkept _ (by simp [Idx.list])).1.trans h.last
  buf := hbuf.trans h.buf
  op := hop.trans h.op

theorem flight_setThread [DecidableEq τ] (s : State β τ) (p q : τ) (th : Thread (Chan β) (Pc β)) :
    (s.setThread p th).flight q = if q = p then th.pc.flight else s.flight q := by
  show (update s.proc p th q).pc.flight = _
  rw [update_apply]
  split <;> rfl

theorem length_lt_NUM {l : List Nat} (hnodup : l.Nodup) (hl : ∀ y ∈ l, y < NUM) (hi : i < NUM) (hnot : i ∉ l) :
    l.length < NUM := by
  have hsub : (i :: l) ⊆ range NUM := by
    intro y hy
    rw [mem_range]
    rcases mem_cons.1 hy with rfl | hy
    · exact hi
    · exact hl y hy
  have hle := (subperm_of_subset (nodup_cons.2 ⟨hnot, hnodup⟩) hsub).length_le
  rw [length_range] at hle
  exact hle

theorem places_pos_iff {avail done : List Nat} :
    0 < places avail done s i ↔ i ∈ avail ∨ i ∈ s.taken ∨ s.answered = some i ∨ i ∈ done := by
  unfold places
  simp only [Nat.add_pos_iff_pos_or_pos, count_pos_iff, Option.mem_toList, or_assoc]

theorem head_next : VRING_DESC_F_NEXT &&& VRING_DESC_F_NEXT ≠ 0 := by decide

theorem data_next (r : Request β) :
    ((if r.write then 0 else VRING_DESC_F_WRITE) ||| VRING_DESC_F_NEXT) &&& VRING_DESC_F_NEXT ≠ 0 := by
  split <;> decide

theorem last_next : ¬ VRING_DESC_F_WRITE &&& VRING_DESC_F_NEXT ≠ 0 := by decide

theorem Formatted.chain (h : Formatted s r idx) : chain s.desc NUM idx.1 = idx.list := by
  show idx.1 :: ite _ _ _ = _
  rw [if_pos (by rw [h.head]; exact head_next)]
  rw [show (s.desc idx.1).next = idx.2.1 by rw [h.head]; rfl]
  show idx.1 :: idx.2.1 :: ite _ _ _ = _
  rw [if_pos (by rw [h.data]; exact data_next r)]
  rw [show (s.desc idx.2.1).next = idx.2.2 by rw [h.data]; rfl]
  show idx.1 :: idx.2.1 :: idx.2.2 :: ite _ _ _ = _
  rw [if_neg (by rw [h.last]; exact last_next)]
  rfl

theorem desc_submit_of_not_mem [DecidableEq β] (r : Request β) {i j k x : Nat} (hx : x ∉ [i, j, k]) :
    (submit r i j k s).desc x = s.desc x := by
  simp only [mem_cons, not_mem_nil, or_false, not_or] at hx
  simp only [submit]
  rw [update_of_ne hx.2.2, update_of_ne hx.2.1, update_of_ne hx.1]

theorem formatted_submit [DecidableEq β] (r : Request β) {i j k : Nat} (hnodup : [i, j, k].Nodup)
    (hbusy : ∀ x ∈ [i, j, k], x < NUM ∧ s.free x = false) : Formatted (submit r i j k s) r (i, j, k) := by
  have hne : (i ≠ j ∧ i ≠ k) ∧ j ≠ k := by simpa using hnodup
  refine ⟨hnodup, hbusy, ?_, ?_, update_self .., ?_, update_self ..⟩
  · simp only [submit]
    rw [update_of_ne hne.1.2, update_of_ne hne.1.1, update_self]
  · simp only [submit]
    rw [update_of_ne hne.2, update_self]
  · simp only [submit]
    rw [update_self]

theorem freeChain_formatted [DecidableEq β] (s₁ : State β τ) (hf : Formatted s r idx) (hfree : s₁.free = s.free) (hdesc : s₁.desc = s.desc) :
    ∃ s₂, freeChain (NUM + 1) idx.1 s₁ = .ok s₂ ∧ Released idx.list s₁ s₂ := by
  have hbusy : ∀ i ∈ idx.list, i < NUM ∧ s₁.free i = false := by
    rw [hfree]
    exact hf.busy
  have hne : (idx.1 ≠ idx.2.1 ∧ idx.1 ≠ idx.2.2) ∧ idx.2.1 ≠ idx.2.2 := by simpa [Idx.list] using hf.nodup
  obtain ⟨a, ha, hra⟩ := freeDesc_released (hbusy idx.1 (by simp [Idx.list])).1 (hbusy idx.1 (by simp [Idx.list])).2
  have hbusy_a : a.free idx.2.1 = false := by
    rw [hra.free, (hbusy idx.2.1 (by simp [Idx.list])).2]
    simp [hne.1.1.symm]
  obtain ⟨b, hb, hrb⟩ := freeDesc_released (hbusy idx.2.1 (by simp [Idx.list])).1 hbusy_a
  have hbusy_b : b.free idx.2.2 = false := by
    rw [hrb.free, hra.free, (hbusy idx.2.2 (by simp [Idx.list])).2]
    simp [hne.1.2.symm, hne.2.symm]
  obtain ⟨c, hc, hrc⟩ := freeDesc_released (hbusy idx.2.2 (by simp [Idx.list])).1 hbusy_b
  have hhead : s₁.desc idx.1 = (r.descs idx.1 idx.2.1 idx.2.2).1 := by
    rw [hdesc]
    exact hf.head
  have hdata : a.desc idx.2.1 = (r.descs idx.1 idx.2.1 idx.2.2).2.1 := by
    rw [hra.desc _ (by simp [hne.1.1.symm]), hdesc]
    exact hf.data
  have hlast : b.desc idx.2.2 = (r.descs idx.1 idx.2.1 idx.2.2).2.2 := by
    rw [hrb.desc _ (by simp [hne.2.symm]), hra.desc _ (by simp [hne.1.2.symm]), hdesc]
    exact hf.last
  refine ⟨c, ?_, (hra.trans hrb).trans hrc⟩
  rw [freeChain_next ha (by rw [hhead]; exact head_next), hhead, show NUM = 6 + 1 + 1 from rfl]
  show freeChain (6 + 1 + 1) idx.2.1 a = _
  rw [freeChain_next hb (by rw [hdata]; exact data_next r), hdata]
  show freeChain (6 + 1) idx.2.2 b = _
  exact freeChain_last hc (by rw [hlast]; exact last_next)

end Facts

section Inv

variable [DecidableEq β] [DecidableEq τ] {tr : List (Event β τ)} {avail done : List Nat} {s s' : State β τ}
variable {p q : τ} {r : Request β} {idx : Idx} {i : Nat}

theorem Inv.partition (h : Inv tr avail done s) : Partition s where
  linked p r idx hp := (h.formatted p r idx hp).chain
  three p r idx hp := (h.formatted p r idx hp).nodup
  busy p r idx hp := (h.formatted p r idx hp).busy
  disjoint := h.disjoint
  cover := h.cover

theorem Inv.boot : Inv ([] : List (Event β τ)) [] [] boot where
  formatted _ _ _ h := nomatch h
  disjoint _ _ _ _ _ _ h := nomatch h
  cover i hi hfree := by
    have hfree : decide (i < NUM) = false := hfree
    rw [decide_eq_false_iff_not] at hfree
    exact absurd hi hfree
  exclusive _ _ _ h := nomatch h
  availQueue := Ring.Queue.empty _
  usedQueue := Ring.Queue.empty _
  once _ := Nat.zero_le _
  places_iff i := by
    constructor
    · intro h
      exact absurd h (Nat.lt_irrefl 0)
    · rintro ⟨p, r, idx, hp, -⟩
      cases hp
  status i h := by
    rcases h with h | h <;> cases h
  staged _ h := nomatch h
  served _ _ _ h := nomatch h

section

variable (h : Inv tr avail done s)

include h

theorem Inv.flight_inj {r' : Request β} {idx' : Idx} (hp : s.flight p = some (r, idx))
    (hq : s.flight q = some (r', idx')) (hi : i ∈ idx.list) (hi' : i ∈ idx'.list) : p = q := by
  by_contra hne
  exact h.disjoint p q r r' idx idx' hp hq hne hi hi'

theorem Inv.buf_inj {r' : Request β} {idx' : Idx} (hp : s.flight p = some (r, idx))
    (hq : s.flight q = some (r', idx')) (hb : r.b = r'.b) : p = q :=
  h.exclusive p q r.b (buf_of_flight hp) (by rw [hb]; exact buf_of_flight hq)

theorem Inv.flight_of_places (hi : 0 < places avail done s i) :
    i < NUM ∧ s.free i = false ∧ ∃ p r idx, s.flight p = some (r, idx) ∧ idx.1 = i ∧ s.disk r.b = true := by
  obtain ⟨p, r, idx, hp, rfl, hdisk⟩ := (h.places_iff i).1 hi
  have hbusy := (h.formatted p r idx hp).busy idx.1 idx.head_mem
  exact ⟨hbusy.1, hbusy.2, p, r, idx, hp, rfl, hdisk⟩

theorem Inv.once_count (i : Nat) :
    avail.count i + s.taken.count i + s.answered.toList.count i + done.count i ≤ 1 := h.once i

theorem Inv.done_length_lt (hi : 0 < places avail done s i)
    (hother : 0 < s.taken.count i + s.answered.toList.count i) : done.length < NUM := by
  have hone := h.once_count
  refine length_lt_NUM ?_ ?_ (h.flight_of_places hi).1 ?_
  · rw [nodup_iff_count_le_one]
    intro y
    have := hone y
    omega
  · intro y hy
    exact (h.flight_of_places (places_pos_iff.2 (.inr (.inr (.inr hy))))).1
  · rw [← count_eq_zero]
    have := hone i
    omega

theorem Inv.avail_length_lt (hi : i < NUM) (hzero : places avail done s i = 0) : avail.length < NUM := by
  refine length_lt_NUM ?_ ?_ hi ?_
  · rw [nodup_iff_count_le_one]
    intro y
    have := h.once_count y
    omega
  · intro y hy
    exact (h.flight_of_places (places_pos_iff.2 (.inl hy))).1
  · intro hmem
    have hpos : 0 < places avail done s i := places_pos_iff.2 (.inl hmem)
    omega

theorem Inv.note {ev : Event β τ} (hev : ∀ p r idx, s.flight p = some (r, idx) → ev.1 ≠ .start p) :
    Inv (tr ++ [ev]) avail done s :=
  { h with
    served := fun p r idx hp hdone => by
      unfold ServedSince
      rw [since_snoc]
      exact .inr ⟨h.served p r idx hp hdone, decide_eq_false (hev p r idx hp)⟩ }

theorem Inv.pass (a : Act β τ) (ret : Ret β) (hne : a.starts = false) : Inv (tr ++ [(a, ret)]) avail done s := by
  refine h.note fun p _ _ _ heq => ?_
  change a = .start p at heq
  rw [heq] at hne
  cases hne

/-! ## Steps -/

theorem Inv.same {proc : τ → Thread (Chan β) (Pc β)} {d : Nat → VirtqDesc β}
    (hflight : State.flight { s with proc := proc, desc := d } = s.flight) (hdesc : ∀ i, s.free i = false → d i = s.desc i)
    (hexclusive : ∀ p q b, (proc p).pc.buf = some b → (proc q).pc.buf = some b → p = q) :
    Inv tr avail done { s with proc := proc, desc := d } := by
  constructor
  case formatted =>
    rw [hflight]
    intro p r idx hp
    have hf := h.formatted p r idx hp
    exact hf.same (fun i hi => ⟨hdesc i (hf.busy i hi).2, id⟩) rfl rfl
  case exclusive => exact hexclusive
  all_goals try rw [hflight]
  exacts [h.disjoint, h.cover, h.availQueue, h.usedQueue, h.once, h.places_iff, h.status, h.staged, h.served]

theorem Inv.kept (hk : Kept s s') : Inv tr avail done s' := by
  obtain ⟨hpc, hdesc, hsame⟩ := hk
  generalize s'.proc = proc at hpc hsame
  generalize s'.desc = desc at hdesc hsame
  subst hsame
  refine h.same (funext fun p => congrArg Pc.flight (hpc p)) hdesc fun p q b hp hq => ?_
  rw [hpc] at hp hq
  exact h.exclusive p q b hp hq

theorem Inv.setIntr (b : Bool) : Inv tr avail done { s with intr := b } :=
  { h with formatted := fun p r idx hp => (h.formatted p r idx hp).same (fun _ _ => ⟨rfl, id⟩) rfl rfl }

variable {th : Thread (Chan β) (Pc β)}

theorem Inv.setThread (hfl : th.pc.flight = s.flight p)
    (hbuf : ∀ b q, th.pc.buf = some b → (s.proc q).pc.buf = some b → q = p) :
    Inv tr avail done (s.setThread p th) := by
  refine h.same (d := s.desc) (funext fun q => ?_) (fun _ _ => rfl) fun q q' b hq hq' => ?_
  · refine (flight_setThread s p q th).trans ?_
    split
    · next heq => rw [hfl, heq]
    · rfl
  simp only [update_apply] at hq hq'
  split at hq
  · split at hq'
    · simp only [*]
    · rename_i hqp _
      rw [hqp, hbuf b q' hq hq']
  split at hq'
  · rename_i _ hqp'
    rw [hqp', hbuf b q hq' hq]
  · exact h.exclusive q q' b hq hq'

theorem Inv.take (hne : s.seen ≠ s.avail.idx) : ∃ avail', Inv tr avail' done
      { s with seen := s.seen + 1, taken := s.taken ++ [s.avail.ring (Ring.cell NUM s.seen)] } := by
  obtain ⟨rest, rfl, hqueue⟩ := h.availQueue.take NUM_dvd NUM_lt hne
  generalize s.avail.ring (Ring.cell NUM s.seen) = x at h
  have hplaces : ∀ i, places rest done { s with seen := s.seen + 1, taken := s.taken ++ [x] } i =
      places (x :: rest) done s i := by
    intro i
    simp only [places, count_cons, count_append, count_nil]
    omega
  exact ⟨rest,
    { h with
      formatted := fun p r idx hp => (h.formatted p r idx hp).same (fun _ _ => ⟨rfl, id⟩) rfl rfl
      availQueue := hqueue
      once := fun i => (hplaces i).trans_le (h.once i)
      places_iff := fun i => by rw [hplaces]; exact h.places_iff i }⟩

theorem Inv.publish (hne : s.answered ≠ none) :
    ∃ done', Inv tr avail done' { s with used := { s.used with idx := s.used.idx + 1 }, answered := none } := by
  obtain ⟨x, hx⟩ := Option.ne_none_iff_exists'.1 hne
  have hpos : 0 < places avail done s x := places_pos_iff.2 (.inr (.inr (.inl hx)))
  have hplaces : ∀ i, places avail (done ++ [x])
      { s with used := { s.used with idx := s.used.idx + 1 }, answered := none } i = places avail done s i := by
    intro i
    simp only [places, hx, count_append, Option.toList_none, Option.toList_some, count_nil]
    omega
  have hmem : ∀ {i}, i ∈ done ++ [x] → s.answered = some i ∨ i ∈ done := by
    intro i hi
    rcases mem_append.1 hi with hi | hi
    · exact .inr hi
    · rw [mem_singleton.1 hi]
      exact .inl hx
  refine ⟨done ++ [x],
    { h with
      formatted := fun p r idx hp => (h.formatted p r idx hp).same (fun _ _ => ⟨rfl, id⟩) rfl rfl
      usedQueue := h.usedQueue.advance NUM_dvd NUM_lt (h.done_length_lt hpos (by simp [hx])) (h.staged x hx)
      once := fun i => (hplaces i).trans_le (h.once i)
      places_iff := fun i => by rw [hplaces]; exact h.places_iff i
      status := fun i hi => h.status i (hi.elim nofun hmem)
      staged := nofun
      served := fun p r idx hp hdone => h.served p r idx hp ?_ }⟩
  rcases hdone with hdone | hdone | hdone
  · exact .inl hdone
  · cases hdone
  · exact .inr (hmem hdone)

theorem Inv.answer (hp : s.flight p = some (r, idx)) (hmem : idx.1 ∈ s.taken)
    (hnone : s.answered = none) (hserved : ServedSince tr p r idx.1) : Inv tr avail done (s.finish idx.1 idx.1) := by
  have hpos : 0 < places avail done s idx.1 := places_pos_iff.2 (.inr (.inl hmem))
  have hcount : 0 < s.taken.count idx.1 := count_pos_iff.2 hmem
  have hplaces : ∀ i, places avail done (s.finish idx.1 idx.1) i = places avail done s i := by
    intro i
    simp only [places, State.finish, hnone, Option.toList_none, Option.toList_some, count_nil, count_erase, count_cons,
      beq_iff_eq]
    split
    · rename_i heq
      rw [← heq]
      omega
    · omega
  refine
    { h with
      formatted := fun q r' idx' hq => (h.formatted q r' idx' hq).same (fun _ _ => ⟨rfl, id⟩) ?_ rfl
      usedQueue := h.usedQueue.stage NUM_dvd NUM_lt (h.done_length_lt hpos (by omega)) idx.1
      once := fun i => (hplaces i).trans_le (h.once i)
      places_iff := fun i => by rw [hplaces]; exact h.places_iff i
      status := fun i hi => ?_
      staged := fun i hi => Option.some.inj hi ▸ update_self ..
      served := fun q r' idx' hq hdone => ?_ }
  · show (update s.info idx.1 _ idx'.1).b = _
    rw [update_apply]
    split
    · next heq => rw [heq]
    · rfl
  · show (update s.info idx.1 _ i).status = 0
    rw [update_apply]
    split
    · rfl
    rename_i hne
    rcases hi with hi | hi
    · injection hi with hi
      exact absurd hi.symm hne
    · exact h.status i (.inr hi)
  rcases hdone with hdone | hdone | hdone
  · exact h.served q r' idx' hq (.inl hdone)
  · injection hdone with hdone
    have hpq : p = q := h.flight_inj hp hq idx.head_mem (by rw [hdone]; exact idx'.head_mem)
    subst hpq
    change s.flight p = some (r', idx') at hq
    rw [hp] at hq
    cases hq
    exact hserved
  · exact h.served q r' idx' hq (.inr (.inr hdone))

theorem Inv.handle (hne : s.usedIdx ≠ s.used.idx) : ∃ s' done', handle s = .ok (s', .none) ∧ Inv tr avail done' s' := by
  obtain ⟨rest, rfl, hqueue⟩ := h.usedQueue.take NUM_dvd NUM_lt hne
  obtain ⟨x, hx⟩ : ∃ x, s.used.ring (Ring.cell NUM s.usedIdx) = x := ⟨_, rfl⟩
  rw [hx] at h
  have hmem : x ∈ x :: rest := mem_cons_self
  obtain ⟨-, -, p, r, idx, hp, rfl, hdisk⟩ := h.flight_of_places (places_pos_iff.2 (.inr (.inr (.inr hmem))))
  have hbuf := (h.formatted p r idx hp).buf
  have hrun : Virtio.handle s = .ok (({ s with
      disk := update s.disk r.b false, usedIdx := s.usedIdx + 1 } : State β τ).wakeup (.buf r.b), .none) := by
    unfold Virtio.handle
    rw [hx, if_neg (not_not.2 (h.status idx.1 (.inr hmem)))]
    simp only [hbuf]
    rfl
  refine ⟨_, rest, hrun, ?_⟩
  -- The woken processes stay where they are.
  refine Inv.kept (s := { s with disk := update s.disk r.b false, usedIdx := s.usedIdx + 1 }) ?_
    ⟨fun _ => Thread.wake_pc _ _, fun _ _ => rfl, rfl⟩
  have hdisk_of_ne : ∀ {q r' idx'}, s.flight q = some (r', idx') → q ≠ p →
      update s.disk r.b false r'.b = s.disk r'.b := by
    intro q r' idx' hq hqp
    exact update_of_ne (fun heq => hqp (h.buf_inj hq hp heq)) _ _
  have hplaces : ∀ i, places avail rest
      { s with disk := update s.disk r.b false, usedIdx := s.usedIdx + 1 } i =
        if i = idx.1 then 0 else places avail (idx.1 :: rest) s i := by
    intro i
    have hone := h.once_count i
    simp only [places, count_cons, beq_iff_eq] at hone ⊢
    split
    · rename_i heq
      rw [if_pos heq.symm] at hone
      omega
    · rename_i hne
      rw [if_neg (Ne.symm hne), Nat.add_zero]
  refine
    { h with
      formatted := fun q r' idx' hq => (h.formatted q r' idx' hq).same (fun _ _ => ⟨rfl, id⟩) rfl rfl
      usedQueue := hqueue
      once := fun i => ?_
      places_iff := fun i => ?_
      status := fun i hi => h.status i (hi.imp id (mem_cons_of_mem _))
      served := fun q r' idx' hq hdone => ?_ }
  · rw [hplaces]
    split
    · exact Nat.zero_le 1
    · exact h.once i
  · rw [hplaces]
    constructor
    · intro hi
      split at hi
      · cases hi
      rename_i hix
      obtain ⟨q, r', idx', hq, rfl, hd⟩ := (h.places_iff i).1 hi
      have hqp : q ≠ p := by
        rintro rfl
        rw [hp] at hq
        cases hq
        exact hix rfl
      exact ⟨q, r', idx', hq, rfl, (hdisk_of_ne hq hqp).trans hd⟩
    rintro ⟨q, r', idx', hq, rfl, hd⟩
    change s.flight q = some (r', idx') at hq
    change update s.disk r.b false r'.b = true at hd
    have hqp : q ≠ p := by
      rintro rfl
      rw [hp] at hq
      cases hq
      rw [update_self] at hd
      cases hd
    have hix : idx'.1 ≠ idx.1 := fun heq => hqp (h.flight_inj hq hp idx'.head_mem (by rw [heq]; exact idx.head_mem))
    rw [if_neg hix]
    rw [hdisk_of_ne hq hqp] at hd
    exact (h.places_iff _).2 ⟨q, r', idx', hq, rfl, hd⟩
  by_cases hqp : q = p
  · subst hqp
    change s.flight q = some (r', idx') at hq
    rw [hp] at hq
    cases hq
    exact h.served q r idx hp (.inr (.inr hmem))
  · change update s.disk r.b false r'.b = false ∨ _ at hdone
    rw [hdisk_of_ne hq hqp] at hdone
    exact h.served q r' idx' hq (hdone.imp id (Or.imp id (mem_cons_of_mem _)))

theorem Inv.submit {i j k : Nat} (hnone : s.flight p = none)
    (hown : (s.proc p).pc.buf = some r.b) (hnodup : [i, j, k].Nodup) (hl : ∀ x ∈ [i, j, k], x < NUM ∧ s.free x = true)
    (hth : th.pc = .waiting r (i, j, k)) :
    Inv tr (avail ++ [i]) done ((submit r i j k (s.grab [i, j, k])).setThread p th) := by
  have hflight : ∀ {q r' idx'}, ((Virtio.submit r i j k (s.grab [i, j, k])).setThread p th).flight q = some (r', idx') ↔
      q = p ∧ r = r' ∧ (i, j, k) = idx' ∨ q ≠ p ∧ s.flight q = some (r', idx') := by
    intro q r' idx'
    rw [flight_setThread, hth]
    by_cases hqp : q = p
    · simp [hqp, Pc.flight]
    · simp only [hqp, if_false, false_and, false_or, ne_eq, not_false_eq_true, true_and]
      rfl
  -- The descriptors of the others are not free, so that they are none of the new ones.
  have hapart : ∀ {q r' idx' x}, s.flight q = some (r', idx') → x ∈ idx'.list → x ∉ [i, j, k] := by
    intro q r' idx' x hq hx hnew
    have hbusy := ((h.formatted q r' idx' hq).busy x hx).2
    rw [(hl x hnew).2] at hbusy
    cases hbusy
  have hdisk_of_ne : ∀ {q r' idx'}, s.flight q = some (r', idx') → q ≠ p →
      update s.disk r.b true r'.b = s.disk r'.b := by
    intro q r' idx' hq hqp
    refine update_of_ne (fun heq => hqp (h.exclusive q p r.b ?_ hown)) _ _
    rw [← heq]
    exact buf_of_flight hq
  have hplaces_head : places avail done s i = 0 := by
    by_contra hpos
    obtain ⟨-, hbusy, -⟩ := h.flight_of_places (Nat.pos_of_ne_zero hpos)
    rw [(hl i (by simp)).2] at hbusy
    cases hbusy
  have hplaces : ∀ x, places (avail ++ [i]) done ((Virtio.submit r i j k (s.grab [i, j, k])).setThread p th) x =
      if x = i then 1 else places avail done s x := by
    intro x
    show (avail ++ [i]).count x + s.taken.count x + s.answered.toList.count x + done.count x = _
    rw [count_append, count_singleton]
    unfold places at hplaces_head ⊢
    by_cases hx : x = i
    · subst hx
      simp only [beq_self_eq_true, if_true]
      omega
    · rw [if_neg hx, if_neg (by simpa using Ne.symm hx)]
      omega
  have hnot : s.answered ≠ some i ∧ i ∉ done := by
    have hzero : ¬ 0 < places avail done s i := by omega
    rw [places_pos_iff] at hzero
    exact ⟨fun hans => hzero (.inr (.inr (.inl hans))), fun hmem => hzero (.inr (.inr (.inr hmem)))⟩
  constructor
  · intro q r' idx' hq
    rcases hflight.1 hq with ⟨-, rfl, rfl⟩ | ⟨-, hq⟩
    · have hnew := formatted_submit (s := s.grab [i, j, k]) r hnodup fun x hx =>
        ⟨(hl x hx).1, by simp only [State.grab]; simp [hx]⟩
      exact hnew.same (fun _ _ => ⟨rfl, id⟩) rfl rfl
    have hne : idx'.1 ≠ i := fun heq => hapart hq idx'.head_mem (by simp [heq])
    refine (h.formatted q r' idx' hq).same (fun x hx => ⟨desc_submit_of_not_mem r (hapart hq hx), fun hbusy => ?_⟩)
      (congrArg Info.b (update_of_ne hne _ _)) (update_of_ne hne _ _)
    show (s.free x && _) = false
    rw [hbusy, Bool.false_and]
  · intro q q' r' r'' idx' idx'' hq hq' hne
    rcases hflight.1 hq with ⟨rfl, rfl, rfl⟩ | ⟨-, hq⟩
    · rcases hflight.1 hq' with ⟨rfl, -, -⟩ | ⟨-, hq'⟩
      · exact absurd rfl hne
      · exact fun x hx hx' => hapart hq' hx' hx
    · rcases hflight.1 hq' with ⟨-, -, rfl⟩ | ⟨-, hq'⟩
      · exact fun x hx hx' => hapart hq hx hx'
      · exact h.disjoint q q' r' r'' idx' idx'' hq hq' hne
  · intro x hx hbusy
    change (s.free x && !decide (x ∈ [i, j, k])) = false at hbusy
    by_cases hnew : x ∈ [i, j, k]
    · exact ⟨p, r, (i, j, k), hflight.2 (.inl ⟨rfl, rfl, rfl⟩), hnew⟩
    have hold : s.free x = false := by simpa [hnew] using hbusy
    obtain ⟨q, r', idx', hq, hmem⟩ := h.cover x hx hold
    refine ⟨q, r', idx', hflight.2 (.inr ⟨?_, hq⟩), hmem⟩
    rintro rfl
    rw [hnone] at hq
    cases hq
  · have hpc : ∀ q, (((Virtio.submit r i j k (s.grab [i, j, k])).setThread p th).proc q).pc.buf = (s.proc q).pc.buf := by
      intro q
      show (update s.proc p th q).pc.buf = _
      rw [update_apply]
      split
      · rename_i heq
        rw [hth, heq, hown]
        rfl
      · rfl
    intro q q' b
    rw [hpc, hpc]
    exact h.exclusive q q' b
  · exact h.availQueue.put NUM_dvd NUM_lt (h.avail_length_lt (hl i (by simp)).1 hplaces_head) i
  · exact h.usedQueue
  · intro x
    rw [hplaces]
    split
    · exact Nat.le_refl 1
    · exact h.once x
  · intro x
    rw [hplaces]
    constructor
    · intro hx
      by_cases hxi : x = i
      · exact ⟨p, r, (i, j, k), hflight.2 (.inl ⟨rfl, rfl, rfl⟩), hxi.symm, update_self ..⟩
      rw [if_neg hxi] at hx
      obtain ⟨q, r', idx', hq, rfl, hd⟩ := (h.places_iff x).1 hx
      have hqp : q ≠ p := by
        rintro rfl
        rw [hnone] at hq
        cases hq
      exact ⟨q, r', idx', hflight.2 (.inr ⟨hqp, hq⟩), rfl, (hdisk_of_ne hq hqp).trans hd⟩
    rintro ⟨q, r', idx', hq, rfl, hd⟩
    rcases hflight.1 hq with ⟨-, -, rfl⟩ | ⟨hqp, hq⟩
    · rw [if_pos rfl]
      exact Nat.one_pos
    · rw [if_neg fun heq => hapart hq idx'.head_mem (by simp [heq])]
      exact (h.places_iff _).2 ⟨q, r', idx', hq, rfl, (hdisk_of_ne hq hqp).symm.trans hd⟩
  · intro x hx
    have hxi : x ≠ i := by
      rintro rfl
      exact hx.elim hnot.1 hnot.2
    exact (congrArg Info.status (update_of_ne hxi _ _)).trans (h.status x hx)
  · exact h.staged
  intro q r' idx' hq hdone
  rcases hflight.1 hq with ⟨-, rfl, rfl⟩ | ⟨hqp, hq⟩
  · rcases hdone with hdone | hdone | hdone
    · change update s.disk r.b true r.b = false at hdone
      rw [update_self] at hdone
      cases hdone
    · exact absurd hdone hnot.1
    · exact absurd hdone hnot.2
  · change update s.disk r.b true r'.b = false ∨ _ at hdone
    rw [hdisk_of_ne hq hqp] at hdone
    exact h.served q r' idx' hq hdone

theorem Inv.returned {s₂ : State β τ} (hp : s.flight p = some (r, idx)) (hdisk : s.disk r.b = false)
    (hrel : Released idx.list { s with info := update s.info idx.1 { s.info idx.1 with b := none } } s₂)
    (hth : th.pc = .idle) : Inv tr avail done (s₂.setThread p th) := by
  have hzero : places avail done s idx.1 = 0 := by
    by_contra hpos
    obtain ⟨-, -, q, r', idx', hq, hhead, hd⟩ := h.flight_of_places (Nat.pos_of_ne_zero hpos)
    have hpq : p = q := h.flight_inj hp hq idx.head_mem (by rw [← hhead]; exact idx'.head_mem)
    subst hpq
    rw [hp] at hq
    cases hq
    rw [hdisk] at hd
    cases hd
  obtain ⟨hpc, hfree, hdesc, hsame⟩ := hrel
  generalize s₂.proc = proc at hpc hsame
  generalize s₂.free = free at hfree hsame
  generalize s₂.desc = desc at hdesc hsame
  subst hsame
  have hflight : ∀ {q r' idx'}, (State.setThread { s with
        info := update s.info idx.1 { s.info idx.1 with b := none }, proc := proc, free := free, desc := desc }
      p th).flight q = some (r', idx') ↔ q ≠ p ∧ s.flight q = some (r', idx') := by
    intro q r' idx'
    rw [flight_setThread, hth]
    by_cases hqp : q = p
    · simp [hqp, Pc.flight]
    rw [if_neg hqp]
    show (proc q).pc.flight = _ ↔ _
    rw [hpc]
    exact ⟨fun hq => ⟨hqp, hq⟩, fun hq => hq.2⟩
  have hapart : ∀ {q r' idx' x}, q ≠ p → s.flight q = some (r', idx') → x ∈ idx'.list → x ∉ idx.list :=
    fun hqp hq hx hmem => h.disjoint _ _ _ _ _ _ hq hp hqp hx hmem
  constructor
  · intro q r' idx' hq
    obtain ⟨hqp, hq⟩ := hflight.1 hq
    have hne : idx'.1 ≠ idx.1 := fun heq => hapart hqp hq idx'.head_mem (by rw [heq]; exact idx.head_mem)
    refine (h.formatted q r' idx' hq).same (fun x hx => ⟨hdesc x (hapart hqp hq hx), fun hbusy => ?_⟩)
      (congrArg Info.b (update_of_ne hne _ _)) rfl
    show free x = false
    rw [hfree x]
    show (s.free x || decide (x ∈ idx.list)) = false
    rw [hbusy, decide_eq_false (hapart hqp hq hx), Bool.or_false]
  · intro q q' r' r'' idx' idx'' hq hq'
    exact h.disjoint q q' r' r'' idx' idx'' (hflight.1 hq).2 (hflight.1 hq').2
  · intro x hx hbusy
    change free x = false at hbusy
    rw [hfree x] at hbusy
    obtain ⟨hold, hnot⟩ := Bool.or_eq_false_iff.1 hbusy
    obtain ⟨q, r', idx', hq, hmem⟩ := h.cover x hx hold
    refine ⟨q, r', idx', hflight.2 ⟨?_, hq⟩, hmem⟩
    rintro rfl
    rw [hp] at hq
    cases hq
    exact of_decide_eq_false hnot hmem
  · have hbuf : ∀ {q b}, ((update proc p th q).pc.buf = some b) → (s.proc q).pc.buf = some b := by
      intro q b hq
      rw [update_apply] at hq
      split at hq
      · rw [hth] at hq
        cases hq
      · rw [hpc] at hq
        exact hq
    intro q q' b hq hq'
    exact h.exclusive q q' b (hbuf hq) (hbuf hq')
  · exact h.availQueue
  · exact h.usedQueue
  · exact h.once
  · intro i
    show 0 < places avail done s i ↔ _
    rw [h.places_iff]
    constructor
    · rintro ⟨q, r', idx', hq, hhead, hd⟩
      refine ⟨q, r', idx', hflight.2 ⟨?_, hq⟩, hhead, hd⟩
      rintro rfl
      rw [hp] at hq
      cases hq
      rw [hdisk] at hd
      cases hd
    · rintro ⟨q, r', idx', hq, hhead, hd⟩
      exact ⟨q, r', idx', (hflight.1 hq).2, hhead, hd⟩
  · intro i hi
    have hne : i ≠ idx.1 := by
      rintro rfl
      have hpos : 0 < places avail done s idx.1 := places_pos_iff.2 (.inr (.inr hi))
      omega
    exact (congrArg Info.status (update_of_ne hne _ _)).trans (h.status i hi)
  · exact h.staged
  · intro q r' idx' hq
    exact h.served q r' idx' (hflight.1 hq).2

/-! ## Runs -/

theorem Inv.await (hp : s.flight p = some (r, idx)) :
    ∃ s' ret, await p r idx s = .ok (s', ret) ∧ Inv tr avail done s' ∧
      (ret = .none ∨ ret = .returned ∧ s.disk r.b = false) := by
  unfold Virtio.await
  split
  · refine ⟨_, .none, rfl, ?_, .inl rfl⟩
    exact h.setThread hp.symm fun b q hb hq => h.exclusive q p b hq (by rw [buf_of_flight hp]; exact hb)
  rename_i hdisk
  have hdisk : s.disk r.b = false := Bool.eq_false_iff.2 hdisk
  obtain ⟨s₂, hrun, hrel⟩ := freeChain_formatted
    { s with info := update s.info idx.1 { s.info idx.1 with b := none } } (h.formatted p r idx hp) rfl rfl
  refine ⟨s₂.setThread p ((s₂.proc p).resume .idle), .returned, ?_, h.returned hp hdisk hrel rfl, .inr ⟨rfl, hdisk⟩⟩
  simp only [hrun]
  rfl

end

theorem await_submit (p : τ) (r : Request β) {i j k : Nat} : ∃ th : Thread (Chan β) (Pc β), th.pc = .waiting r (i, j, k) ∧
    Virtio.await p r (i, j, k) (Virtio.submit r i j k s) = .ok ((Virtio.submit r i j k s).setThread p th, .none) :=
  ⟨_, rfl, if_pos (update_self ..)⟩

theorem Inv.start (h : Inv tr avail done s) (hnone : s.flight p = none) (hown : (s.proc p).pc.buf = some r.b) :
    ∃ s' avail', start p r s = .ok (s', .none) ∧ Inv tr avail' done s' := by
  have hgrab : s.grab [] = s := by simp [State.grab]
  have halloc := allocLoop_spec (s := s) 3 nodup_nil (fun i hi => nomatch hi)
  rw [hgrab] at halloc
  rcases halloc with ⟨l, hrun, hlen, hnodup, hl⟩ | ⟨s₁, hrun, hkept⟩
  · obtain ⟨i, j, k, rfl⟩ := length_eq_three.1 hlen
    obtain ⟨th, hpc, hawait⟩ := await_submit p r (s := s.grab [i, j, k])
    refine ⟨_, avail ++ [i], ?_, h.submit hnone hown hnodup hl hpc⟩
    simp only [Virtio.start, alloc3Desc, hrun]
    exact hawait
  have hpc : ∀ q, (s₁.proc q).pc = (s.proc q).pc := hkept.pc
  refine ⟨s₁.setThread p ((s₁.proc p).sleep .free (.starved r)), avail, ?_, (h.kept hkept).setThread ?_ ?_⟩
  · simp only [Virtio.start, alloc3Desc, hrun]
    rfl
  · show none = (s₁.proc p).pc.flight
    rw [hpc]
    exact hnone.symm
  · intro b q hb hq
    rw [hpc] at hq
    exact h.exclusive q p b hq (by rw [hown]; exact hb)

theorem Inv.answer_eq (h : Inv tr avail done s) {head : Nat} (hmem : head ∈ s.taken) :
    ∃ p r idx, s.flight p = some (r, idx) ∧ idx.1 = head ∧
      Virtio.answer head s = .ok (s.finish head head, .served r.op r.b) := by
  obtain ⟨-, -, p, r, idx, hp, rfl, -⟩ := h.flight_of_places (places_pos_iff.2 (.inr (.inl hmem)))
  have hf := h.formatted p r idx hp
  refine ⟨p, r, idx, hp, rfl, ?_⟩
  simp only [Virtio.answer, hf.head, hf.data, hf.last, Request.descs, hf.op]
  rfl

/-- A step keeps the invariant and does not panic, and a call that returns finds `b->disk` cleared. -/
structure Goes (tr : List (Event β τ)) (s : State β τ) (a : Act β τ) (ret : Ret β) (t : State β τ) : Prop where
  inv : ∃ avail done, Inv (tr ++ [(a, ret)]) avail done t
  noPanic : ∀ why, ret ≠ .panic why
  returned : ∀ p r idx, s.flight p = some (r, idx) → a = .resume p → ret = .returned → s.disk r.b = false

variable {t : State β τ}

theorem Inv.goes {a : Act β τ} {ret : Ret β} (h : Inv (tr ++ [(a, ret)]) avail done t)
    (hret : ret.silent = true) : Goes tr s a ret t := by
  refine ⟨⟨avail, done, h⟩, fun why hpanic => ?_, fun p r idx _ _ hreturned => ?_⟩
  · rw [hpanic] at hret
    cases hret
  · rw [hreturned] at hret
    cases hret

theorem Inv.startStep (h : Inv tr avail done s) {ret : Ret β} {c : Prop} [Decidable c]
    (hnone : s.flight p = none) (hown : (s.proc p).pc.buf = some r.b)
    (hrun : (if c then none else s.outcome (Virtio.start p r s)) = some (t, ret)) : Goes tr s (.start p) ret t := by
  split at hrun
  · cases hrun
  have hnote : Inv (tr ++ [(.start p, ret)]) avail done s := h.note fun q r' idx' hq heq => by
    injection heq with heq
    rw [← heq, hnone] at hq
    cases hq
  obtain ⟨s', avail', hstart, hinv⟩ := hnote.start hnone hown
  rw [hstart] at hrun
  cases hrun
  exact hinv.goes rfl

theorem Inv.step {a : Act β τ} {ret : Ret β} (h : Inv tr avail done s)
    (hstep : restrict Exclusive Step s (a, ret) t) : Goes tr s a ret t := by
  obtain ⟨hgood, hexec⟩ := hstep
  change exec s a = some (t, ret) at hexec
  cases a with
  | call p r =>
    simp only [exec, Option.ite_none_right_eq_some, Option.some.injEq, Prod.mk.injEq] at hexec
    obtain ⟨hidle, rfl, rfl⟩ := hexec
    have hnone : s.flight p = none := by
      unfold State.flight
      rw [hidle]
      rfl
    refine Inv.goes ((h.pass (.call p r) .none rfl).setThread hnone.symm fun b q hb hq => ?_) rfl
    cases hb
    exact absurd hq (hgood q)
  | start =>
    simp only [exec] at hexec
    split at hexec
    · next r hpc => exact h.startStep (by unfold State.flight; rw [hpc]; rfl) (by rw [hpc]; rfl) hexec
    · next r hpc => exact h.startStep (by unfold State.flight; rw [hpc]; rfl) (by rw [hpc]; rfl) hexec
    · cases hexec
  | resume p =>
    simp only [exec] at hexec
    split at hexec
    · rename_i r idx hpc
      have hp : s.flight p = some (r, idx) := by
        unfold State.flight
        rw [hpc]
        rfl
      split at hexec
      · cases hexec
      obtain ⟨s', ret', hawait, hinv, hret⟩ := (h.pass (.resume p) ret rfl).await hp
      rw [hawait] at hexec
      cases hexec
      rcases hret with rfl | ⟨rfl, hdisk⟩
      · exact hinv.goes rfl
      refine ⟨⟨avail, done, hinv⟩, nofun, ?_⟩
      rintro q r' idx' hq heq -
      cases heq
      rw [hp] at hq
      cases hq
      exact hdisk
    · cases hexec
  | kill p =>
    simp only [exec, Option.some.injEq, Prod.mk.injEq] at hexec
    obtain ⟨rfl, rfl⟩ := hexec
    exact Inv.goes ((h.pass (.kill p) .none rfl).setThread rfl fun b q hb hq => h.exclusive q p b hq hb) rfl
  | intr =>
    simp only [exec, Option.ite_none_left_eq_some, Option.some.injEq, Prod.mk.injEq] at hexec
    obtain ⟨-, rfl, rfl⟩ := hexec
    exact ((h.pass .intr .none rfl).setIntr true).goes rfl
  | handle =>
    simp only [exec] at hexec
    split at hexec
    · split at hexec
      · cases hexec
        exact ((h.pass .handle .none rfl).setIntr false).goes rfl
      rename_i hne
      obtain ⟨s', done', hrun, hinv⟩ := (h.pass .handle ret rfl).handle hne
      rw [hrun] at hexec
      cases hexec
      exact hinv.goes rfl
    · cases hexec
  | take =>
    simp only [exec, Option.ite_none_left_eq_some, Option.some.injEq, Prod.mk.injEq] at hexec
    obtain ⟨hne, rfl, rfl⟩ := hexec
    obtain ⟨avail', hinv⟩ := (h.pass .take .none rfl).take hne
    exact hinv.goes rfl
  | answer =>
    simp only [exec, Option.ite_none_right_eq_some] at hexec
    obtain ⟨⟨hmem, hnone⟩, hexec⟩ := hexec
    obtain ⟨p, r, idx, hp, rfl, hrun⟩ := h.answer_eq hmem
    rw [hrun] at hexec
    cases hexec
    refine ((h.pass (.answer idx.1) (.served r.op r.b) rfl).answer hp hmem hnone ?_).goes rfl
    unfold ServedSince
    rw [since_snoc]
    exact .inl (decide_eq_true rfl)
  | publish =>
    simp only [exec, Option.ite_none_left_eq_some, Option.some.injEq, Prod.mk.injEq] at hexec
    obtain ⟨hne, rfl, rfl⟩ := hexec
    obtain ⟨done', hinv⟩ := (h.pass .publish .none rfl).publish hne
    exact hinv.goes rfl

theorem Inv.of_run (h : Run (restrict Exclusive Step) Virtio.boot tr s) : ∃ avail done, Inv tr avail done s := by
  refine h.invariant_trace (P := fun tr s => ∃ avail done, Inv tr avail done s) ?_ ⟨[], [], .boot⟩
  rintro tr s ⟨a, ret⟩ t ⟨avail, done, hinv⟩ hstep
  exact (hinv.step hstep).inv

end Inv

/-- While no two calls in progress are for one buffer, a descriptor has one owner. -/
theorem descriptorOwnership_of_exclusive [DecidableEq β] [DecidableEq τ] :
    DescriptorOwnership (restrict Exclusive (Step : State β τ → Event β τ → State β τ → Prop)) := by
  intro tr s hrun
  obtain ⟨avail, done, hinv⟩ := Inv.of_run hrun
  refine ⟨hinv.partition, ?_, ?_⟩
  · intro p r idx s' hp hstep
    exact hinv.served p r idx hp (.inl ((hinv.step hstep).returned p r idx hp rfl rfl))
  · intro a why s' hstep
    exact (hinv.step hstep).noPanic why rfl

/-- Two processes want the same buffer.  The first request is done, `b->disk` is cleared, and both return. -/
theorem not_descriptorOwnership : ¬ DescriptorOwnership (Step : State Bool Bool → Event Bool Bool → State Bool Bool → Prop) := by
  intro h
  let r : Request Bool := { b := false, blockno := 7, write := true }
  let acts : List (Act Bool Bool) := [.call false r, .start false, .call true r, .start true, .take, .answer 0, .publish,
    .intr, .handle, .handle]
  have hcheck : (execs (guarded (fun _ _ => True) exec) boot acts).any (fun x =>
      decide (x.1.flight true = some (r, (3, 4, 5))) &&
        (exec x.1 (.resume true)).any (fun y => decide (y.2 = .returned)) &&
          x.2.all fun ev => decide (ev ≠ (.answer 3, .served r.op r.b))) = true := by
    decide +kernel
  obtain ⟨s, tr, hrun, hs⟩ := Run.of_any_execs hcheck
  simp only [Bool.and_eq_true, decide_eq_true_eq, all_eq_true] at hs
  obtain ⟨⟨hflight, hany⟩, hnever⟩ := hs
  obtain ⟨s', ret, hstep, hret⟩ := Exec.of_any hany
  rw [decide_eq_true_eq] at hret
  change ret = .returned at hret
  rw [hret] at hstep
  obtain ⟨tr₁, ev, tr₂, htr, hserved, -⟩ := (h tr s (hrun.mono fun _ _ _ hs => hs.2)).2.1 true r _ s' hflight hstep
  exact hnever ev (by rw [htr]; simp) (of_decide_eq_true hserved)

/-- A request whose `b->disk` is set is in one place: in the ring of the driver, with the disk, or in the ring of the
disk.  A request that has been completed is in none. -/
def NoneLost [DecidableEq β] [DecidableEq τ] (step : State β τ → Event β τ → State β τ → Prop) : Prop :=
  ∀ tr s, Run step boot tr s → ∃ avail done, Ring.Queue s.avail.ring s.seen s.avail.idx avail ∧
    Ring.Queue s.used.ring s.usedIdx s.used.idx done ∧ ∀ p r idx, s.flight p = some (r, idx) →
      places avail done s idx.1 = if s.disk r.b then 1 else 0

theorem noneLost_of_exclusive [DecidableEq β] [DecidableEq τ] :
    NoneLost (restrict Exclusive (Step : State β τ → Event β τ → State β τ → Prop)) := by
  intro tr s hrun
  obtain ⟨avail, done, h⟩ := Inv.of_run hrun
  refine ⟨avail, done, h.availQueue, h.usedQueue, fun p r idx hp => ?_⟩
  have honce := h.once idx.1
  split
  · next hdisk =>
    have hsome := (h.places_iff idx.1).mpr ⟨p, r, idx, hp, rfl, hdisk⟩
    omega
  next hdisk =>
  by_contra hne
  obtain ⟨q, r', idx', hq, hhead, hdisk'⟩ := (h.places_iff idx.1).mp (by omega)
  by_cases hqp : q = p
  · rw [hqp, hp] at hq
    cases hq
    exact hdisk hdisk'
  have hmem : idx.1 ∈ idx'.list := by
    rw [← hhead]
    exact idx'.head_mem
  exact h.disjoint q p r' r idx' idx hq hp hqp hmem idx.head_mem

end Xv6.Virtio
