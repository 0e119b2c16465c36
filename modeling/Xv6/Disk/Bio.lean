import Mathlib.Data.List.FinRange
import Mathlib.Data.Finset.Card
import Mathlib.Data.Fintype.Card
import Mathlib.Logic.Function.Basic
import Xv6.Disk.Block

/-!
# The buffer cache

`kernel/bio.c`: the `NBUF` buffers, and the list that orders them by last use.  A buffer pointer is the index of the
buffer in `bcache.buf`.  A process that finds a buffer locked takes its step once the lock is free.
-/

namespace Xv6

open Function List

/-- The panics of `bio.c` and `log.c` that a caller of the cache and the log can reach. -/
inductive Panic
  | bgetNoBuffers
  | tooBigATransaction
  | logWriteOutsideOfTrans
  | logCommitting
  deriving DecidableEq, Repr

structure Buf where
  valid : Bool := false
  dev : Nat := 0
  blockno : Nat := 0
  holder : Option (Fin NPROC) := none
  refcnt : Nat := 0
  data : Block := default

def Buf.isFor (b : Buf) (dev blockno : Nat) : Prop := b.dev = dev ∧ b.blockno = blockno

instance (b : Buf) (dev blockno : Nat) : Decidable (b.isFor dev blockno) :=
  inferInstanceAs (Decidable (_ ∧ _))

/-- The cache with the disk behind it.  `lru` runs from `head.next`, the buffer used last, to
`head.prev`. -/
structure Bio where
  disk : Nat → Block
  buf : Fin NBUF → Buf
  lru : List (Fin NBUF)

namespace Bio

def binit (disk : Nat → Block) : Bio :=
  -- each buffer is put in front of the ones before it
  { disk, buf := fun _ => {}, lru := (List.finRange NBUF).reverse }

def modify (c : Bio) (i : Fin NBUF) (f : Buf → Buf) : Bio := { c with buf := update c.buf i (f (c.buf i)) }

def bget (c : Bio) (dev blockno : Nat) : Except Panic (Fin NBUF × Bio) :=
  match c.lru.find? fun i => (c.buf i).isFor dev blockno with
  | some i => .ok (i, c.modify i fun b => { b with refcnt := b.refcnt + 1 })
  | none =>
    match c.lru.reverse.find? fun i => (c.buf i).refcnt = 0 with
    | some i => .ok (i, c.modify i fun b =>
        { b with dev := dev, blockno := blockno, valid := false, refcnt := 1 })
    | none => .error .bgetNoBuffers

/-- The read half of `bread`, for a buffer whose contents are not those of its block. -/
def fill (c : Bio) (i : Fin NBUF) : Bio :=
  if (c.buf i).valid then c
  else c.modify i fun b => { b with data := c.disk b.blockno, valid := true }

def bread (c : Bio) (dev blockno : Nat) : Except Panic (Fin NBUF × Bio) := do
  let (i, c') ← c.bget dev blockno
  .ok (i, c'.fill i)

def setData (c : Bio) (i : Fin NBUF) (data : Block) : Bio := c.modify i fun b => { b with data := data }

def setHolder (c : Bio) (i : Fin NBUF) (p : Option (Fin NPROC)) : Bio := c.modify i fun b => { b with holder := p }

def bwrite (c : Bio) (i : Fin NBUF) : Bio := { c with disk := update c.disk (c.buf i).blockno (c.buf i).data }

def bpin (c : Bio) (i : Fin NBUF) : Bio := c.modify i fun b => { b with refcnt := b.refcnt + 1 }

def bunpin (c : Bio) (i : Fin NBUF) : Bio := c.modify i fun b => { b with refcnt := b.refcnt - 1 }

/-- Releasing the sleep-lock is `setHolder`; this is the part under `bcache.lock`. -/
def brelse (c : Bio) (i : Fin NBUF) : Bio :=
  -- bunpin's body: the reference count goes down by one
  if ((c.bunpin i).buf i).refcnt = 0 then { c.bunpin i with lru := i :: c.lru.erase i }
  else c.bunpin i

section Simp

variable {c : Bio} {i j : Fin NBUF} {f : Buf → Buf}

@[simp] theorem modify_disk : (c.modify i f).disk = c.disk := rfl

theorem modify_buf_self : (c.modify i f).buf i = f (c.buf i) := update_self _ _ _

theorem modify_buf_of_ne (h : j ≠ i) : (c.modify i f).buf j = c.buf j := update_of_ne h _ _

theorem modify_buf : (c.modify i f).buf j = if j = i then f (c.buf j) else c.buf j := by
  by_cases h : j = i
  · subst h
    rw [modify_buf_self, if_pos rfl]
  · rw [modify_buf_of_ne h, if_neg h]

@[simp] theorem bunpin_disk : (c.bunpin i).disk = c.disk := rfl

@[simp] theorem brelse_disk : (c.brelse i).disk = c.disk := by
  unfold brelse
  split <;> rfl

theorem brelse_buf : (c.brelse i).buf = (c.bunpin i).buf := by
  unfold brelse
  split <;> rfl

@[simp] theorem bwrite_buf : (c.bwrite i).buf = c.buf := rfl

end Simp

/-! ## What the cache guarantees -/

/-- A block as the processes see it: its buffer if it is cached, else the disk. -/
def content (c : Bio) (dev blockno : Nat) : Block :=
  match (List.finRange NBUF).find? fun i => (c.buf i).isFor dev blockno with
  | some i => (c.buf i).data
  | none => c.disk blockno

/-- The cache holds each block of the device once, the buffers of the blocks in `pins` cannot be
recycled, all the others agree with the disk, and a reference count is made of a pin, the reference
of the process that has the buffer locked, and the references `ex` of the code that is running. -/
structure Inv (dev : Nat) (pins : List Nat) (ex : Fin NBUF → Nat) (c : Bio) : Prop where
  mem_lru : ∀ i, i ∈ c.lru
  uniq : ∀ i j b, (c.buf i).isFor dev b → (c.buf j).isFor dev b → i = j
  filled : ∀ i, (c.buf i).dev = dev → (c.buf i).valid = true
  clean : ∀ i, (c.buf i).dev = dev → (c.buf i).blockno ∉ pins → (c.buf i).data = c.disk (c.buf i).blockno
  pinned : ∀ b ∈ pins, ∃ i, (c.buf i).isFor dev b
  held : ∀ i, (c.buf i).holder ≠ none → (c.buf i).dev = dev
  refcnt : ∀ i, (c.buf i).refcnt = (if (c.buf i).holder = none then 0 else 1) +
    (if (c.buf i).dev = dev ∧ (c.buf i).blockno ∈ pins then 1 else 0) + ex i

def bump (ex : Fin NBUF → Nat) (i : Fin NBUF) : Fin NBUF → Nat := update ex i (ex i + 1)

section Inv

variable {c c' : Bio} {dev b : Nat} {pins : List Nat} {ex : Fin NBUF → Nat} {i j : Fin NBUF}
  {data : Block}

theorem inv_binit (disk : Nat → Block) (hdev : dev ≠ 0) : Inv dev [] (fun _ => 0) (binit disk) where
  mem_lru i := by simp [binit]
  uniq i j b hi _ := absurd hi.1 (Ne.symm hdev)
  filled i hi := absurd hi (Ne.symm hdev)
  clean i hi _ := absurd hi (Ne.symm hdev)
  pinned b hb := by simp at hb
  held i hi := by simp [binit] at hi
  refcnt i := by simp [binit]

/-- Whatever the order of the search, it finds the one buffer of the block. -/
theorem find_isFor {l : List (Fin NBUF)} (h : Inv dev pins ex c) (hl : i ∈ l) (hi : (c.buf i).isFor dev b) :
    (l.find? fun j => decide ((c.buf j).isFor dev b)) = some i := by
  cases hfind : l.find? fun j => decide ((c.buf j).isFor dev b) with
  | none => exact absurd (decide_eq_true hi) (find?_eq_none.mp hfind i hl)
  | some j => rw [h.uniq j i b (of_decide_eq_true (find?_some hfind :)) hi]

theorem find_not_cached (hb : ∀ i, ¬ (c.buf i).isFor dev b) (l : List (Fin NBUF)) :
    (l.find? fun i => decide ((c.buf i).isFor dev b)) = none :=
  find?_eq_none.mpr fun i _ hi => hb i (of_decide_eq_true hi)

theorem content_of_isFor (h : Inv dev pins ex c) (hi : (c.buf i).isFor dev b) : c.content dev b = (c.buf i).data := by
  rw [content, find_isFor h (mem_finRange i) hi]

theorem content_of_not_mem (h : Inv dev pins ex c) (hb : b ∉ pins) : c.content dev b = c.disk b := by
  by_cases hcached : ∃ i, (c.buf i).isFor dev b
  · obtain ⟨i, hi⟩ := hcached
    rw [content_of_isFor h hi, h.clean i hi.1 (by rw [hi.2]; exact hb), hi.2]
  rw [content, find_not_cached (not_exists.mp hcached)]

theorem bump_self (ex : Fin NBUF → Nat) (i : Fin NBUF) : bump ex i i = ex i + 1 := update_self _ _ _

theorem bump_of_ne {ex : Fin NBUF → Nat} (h : j ≠ i) : bump ex i j = ex j := update_of_ne h _ _

variable {ex' : Fin NBUF → Nat}

section

variable (h : Inv dev pins ex c) (f : Buf → Buf) (hfor : (f (c.buf i)).dev = (c.buf i).dev ∧
  (f (c.buf i)).blockno = (c.buf i).blockno ∧ (f (c.buf i)).valid = (c.buf i).valid)

include h f hfor

theorem Inv.modify {pins' : List Nat} (hpins : ∀ b, b ∈ pins' → b ∈ pins ∨ (c.buf i).isFor dev b)
    (hother : ∀ j, j ≠ i → (c.buf j).dev = dev → ((c.buf j).blockno ∈ pins' ↔ (c.buf j).blockno ∈ pins))
    (hex : ∀ j, j ≠ i → ex' j = ex j)
    (hclean : (c.buf i).dev = dev → (c.buf i).blockno ∉ pins' → (f (c.buf i)).data = c.disk (c.buf i).blockno)
    (hheld : (f (c.buf i)).holder ≠ none → (c.buf i).dev = dev)
    (hcount : (f (c.buf i)).refcnt = (if (f (c.buf i)).holder = none then 0 else 1) +
      (if (c.buf i).dev = dev ∧ (c.buf i).blockno ∈ pins' then 1 else 0) + ex' i) :
    Inv dev pins' ex' (c.modify i f) := by
  obtain ⟨hdev, hblockno, hvalid⟩ := hfor
  have hisFor : ∀ j b, ((c.modify i f).buf j).isFor dev b ↔ (c.buf j).isFor dev b := by
    intro j b
    by_cases hji : j = i
    · rw [hji, modify_buf_self]
      unfold Buf.isFor
      rw [hdev, hblockno]
    · rw [modify_buf_of_ne hji]
  constructor
  case mem_lru => exact h.mem_lru
  case uniq =>
    intro j k b hj hk
    exact h.uniq j k b ((hisFor j b).mp hj) ((hisFor k b).mp hk)
  case filled =>
    intro j hj
    by_cases hji : j = i
    · rw [hji, modify_buf_self] at hj ⊢
      rw [hvalid]
      exact h.filled i (hdev ▸ hj)
    · rw [modify_buf_of_ne hji] at hj ⊢
      exact h.filled j hj
  case clean =>
    intro j hj hpin
    by_cases hji : j = i
    · rw [hji, modify_buf_self] at hj hpin ⊢
      rw [hblockno] at hpin ⊢
      exact hclean (hdev ▸ hj) hpin
    · rw [modify_buf_of_ne hji] at hj hpin ⊢
      exact h.clean j hj fun hold => hpin ((hother j hji hj).mpr hold)
  case pinned =>
    intro b hb
    rcases hpins b hb with hold | hnew
    · obtain ⟨j, hj⟩ := h.pinned b hold
      exact ⟨j, (hisFor j b).mpr hj⟩
    · exact ⟨i, (hisFor i b).mpr hnew⟩
  case held =>
    intro j hj
    by_cases hji : j = i
    · rw [hji, modify_buf_self] at hj ⊢
      rw [hdev]
      exact hheld hj
    · rw [modify_buf_of_ne hji] at hj ⊢
      exact h.held j hj
  case refcnt =>
    intro j
    by_cases hji : j = i
    · rw [hji, modify_buf_self, hdev, hblockno]
      exact hcount
    rw [modify_buf_of_ne hji, hex j hji, h.refcnt j]
    by_cases hjdev : (c.buf j).dev = dev
    · simp only [hjdev, true_and, hother j hji hjdev]
    · simp only [hjdev, false_and]

theorem Inv.modify_same (hdata : (f (c.buf i)).data = (c.buf i).data)
    (hheld : (f (c.buf i)).holder ≠ none → (c.buf i).dev = dev)
    (hex : ∀ j, j ≠ i → ex' j = ex j)
    (hcount : (f (c.buf i)).refcnt + ex i + (if (c.buf i).holder = none then 0 else 1) =
      (c.buf i).refcnt + ex' i + (if (f (c.buf i)).holder = none then 0 else 1)) :
    Inv dev pins ex' (c.modify i f) := by
  apply h.modify f hfor (fun b hb => .inl hb) (fun _ _ _ => Iff.rfl) hex
  · intro hdev hpin
    rw [hdata]
    exact h.clean i hdev hpin
  · exact hheld
  · have hold := h.refcnt i
    omega

end

theorem Inv.bpin (h : Inv dev pins ex c) (i : Fin NBUF) : Inv dev pins (bump ex i) (c.bpin i) := by
  apply h.modify_same _ ⟨rfl, rfl, rfl⟩ rfl (h.held i)
  · intro j hji
    exact bump_of_ne hji
  · rw [bump_self]
    dsimp only
    omega

theorem Inv.unref (h : Inv dev pins (bump ex i) c) : Inv dev pins ex (c.bunpin i) := by
  have hcount := h.refcnt i
  rw [bump_self] at hcount
  apply h.modify_same _ ⟨rfl, rfl, rfl⟩ rfl (h.held i)
  · intro j hji
    exact (bump_of_ne hji).symm
  · rw [bump_self]
    dsimp only
    omega

theorem Inv.brelse (h : Inv dev pins (bump ex i) c) : Inv dev pins ex (c.brelse i) := by
  have hunref := h.unref
  unfold Bio.brelse
  split
  · exact { hunref with mem_lru := fun j => (perm_cons_erase (h.mem_lru i)).mem_iff.mp (h.mem_lru j) }
  · exact hunref

theorem Inv.lock (h : Inv dev pins (bump ex i) c) (hdev : (c.buf i).dev = dev)
    (hfree : (c.buf i).holder = none) (p : Fin NPROC) : Inv dev pins ex (c.setHolder i (some p)) := by
  apply h.modify_same _ ⟨rfl, rfl, rfl⟩ rfl (fun _ => hdev)
  · intro j hji
    exact (bump_of_ne hji).symm
  · rw [bump_self, if_pos hfree, if_neg (by simp)]
    dsimp only
    omega

theorem Inv.unlock (h : Inv dev pins ex c) (hheld : (c.buf i).holder ≠ none) :
    Inv dev pins (bump ex i) (c.setHolder i none) := by
  apply h.modify_same _ ⟨rfl, rfl, rfl⟩ rfl (fun hne => absurd rfl hne)
  · intro j hji
    exact bump_of_ne hji
  · rw [bump_self, if_pos rfl, if_neg hheld]
    dsimp only
    omega

theorem bget_of_isFor (h : Inv dev pins ex c) (hi : (c.buf i).isFor dev b) : c.bget dev b = .ok (i, c.bpin i) := by
  rw [bget, find_isFor h (h.mem_lru i) hi]
  rfl

theorem bget_of_not_cached (h : Inv dev pins ex c) (hb : ∀ i, ¬ (c.buf i).isFor dev b) :
    (∃ i, (c.buf i).refcnt = 0 ∧ c.bget dev b = .ok (i, c.modify i fun d =>
        { d with dev := dev, blockno := b, valid := false, refcnt := 1 })) ∨
      (∀ i, (c.buf i).refcnt ≠ 0) ∧ c.bget dev b = .error .bgetNoBuffers := by
  rw [bget, find_not_cached hb]
  cases hfind : c.lru.reverse.find? fun i => decide ((c.buf i).refcnt = 0) with
  | none =>
    right
    refine ⟨fun i hi => ?_, rfl⟩
    exact find?_eq_none.mp hfind i (mem_reverse.mpr (h.mem_lru i)) (decide_eq_true hi)
  | some i =>
    left
    exact ⟨i, by simpa using find?_some hfind, rfl⟩

theorem Inv.refcnt_ne_zero_of_pin (h : Inv dev pins ex c) (hi : (c.buf i).isFor dev b)
    (hb : b ∈ pins) : (c.buf i).refcnt ≠ 0 := by
  have hcount := h.refcnt i
  rw [if_pos (show _ ∧ _ from ⟨hi.1, by rw [hi.2]; exact hb⟩)] at hcount
  omega

/-- `bread` of block `b` gave buffer `i`, with the reference `ex` gained, and nothing that anybody
can tell apart has changed. -/
structure Bread (dev b : Nat) (pins : List Nat) (ex : Fin NBUF → Nat) (c : Bio) (i : Fin NBUF)
    (c' : Bio) : Prop where
  inv : Inv dev pins (bump ex i) c'
  isFor : (c'.buf i).isFor dev b
  data : (c'.buf i).data = c.content dev b
  disk : c'.disk = c.disk
  keep : ∀ j, (c.buf j).refcnt ≠ 0 → c'.buf j = { c.buf j with refcnt := (c'.buf j).refcnt }
  holder : ∀ j, (c'.buf j).holder = (c.buf j).holder

theorem Bread.content (h : Bread dev b pins ex c i c') (hc : Inv dev pins ex c) (b' : Nat) :
    c'.content dev b' = c.content dev b' := by
  by_cases hb : b' ∈ pins
  · obtain ⟨j, hj⟩ := hc.pinned b' hb
    have hsame := h.keep j (hc.refcnt_ne_zero_of_pin hj hb)
    rw [content_of_isFor hc hj, content_of_isFor (i := j) h.inv (by rw [hsame]; exact hj), hsame]
  · rw [content_of_not_mem hc hb, content_of_not_mem h.inv hb, h.disk]

theorem bread_hit (h : Inv dev pins ex c) (hi : (c.buf i).isFor dev b) :
    c.bread dev b = .ok (i, c.bpin i) ∧ Bread dev b pins ex c i (c.bpin i) := by
  have hself : (c.bpin i).buf i = { c.buf i with refcnt := (c.buf i).refcnt + 1 } := modify_buf_self
  constructor
  · unfold bread
    rw [bget_of_isFor h hi]
    show Except.ok (i, (c.bpin i).fill i) = _
    unfold fill
    rw [if_pos (by rw [hself]; exact h.filled i hi.1)]
  constructor
  case inv => exact h.bpin i
  case isFor =>
    rw [hself]
    exact hi
  case data => rw [hself, content_of_isFor h hi]
  case disk => rfl
  case keep =>
    intro j _
    unfold Bio.bpin
    rw [modify_buf]
    split <;> rfl
  case holder =>
    intro j
    unfold Bio.bpin
    rw [modify_buf]
    split <;> rfl

def recycled (c : Bio) (dev b : Nat) (i : Fin NBUF) : Bio :=
  c.modify i fun d =>
    { d with dev := dev, blockno := b, valid := true, refcnt := 1, data := c.disk b }

section

variable (h : Inv dev pins ex c) (hb : ∀ i, ¬ (c.buf i).isFor dev b) (hi : (c.buf i).refcnt = 0)

include h hb hi

theorem inv_recycled : Inv dev pins (bump ex i) (c.recycled dev b i) := by
  have hcount := h.refcnt i
  have hnot : b ∉ pins := fun hpin => (h.pinned b hpin).elim fun j hj => hb j hj
  have hfree : (c.buf i).holder = none := by
    by_contra hheld
    rw [if_neg hheld] at hcount
    omega
  have hself : (c.recycled dev b i).buf i = { c.buf i with
      dev := dev, blockno := b, valid := true, refcnt := 1, data := c.disk b } := modify_buf_self
  have hother : ∀ j, j ≠ i → (c.recycled dev b i).buf j = c.buf j := fun j => modify_buf_of_ne
  constructor
  case mem_lru => exact h.mem_lru
  case uniq =>
    intro j k b' hj hk
    by_cases hji : j = i
    · by_cases hki : k = i
      · rw [hji, hki]
      rw [hji, hself] at hj
      have hb' : b = b' := hj.2
      rw [hother k hki, ← hb'] at hk
      exact absurd hk (hb k)
    by_cases hki : k = i
    · rw [hki, hself] at hk
      have hb' : b = b' := hk.2
      rw [hother j hji, ← hb'] at hj
      exact absurd hj (hb j)
    · rw [hother j hji] at hj
      rw [hother k hki] at hk
      exact h.uniq j k b' hj hk
  case filled =>
    intro j hj
    by_cases hji : j = i
    · rw [hji, hself]
    · rw [hother j hji] at hj ⊢
      exact h.filled j hj
  case clean =>
    intro j hj hpin
    by_cases hji : j = i
    · rw [hji, hself]
      rfl
    · rw [hother j hji] at hj hpin ⊢
      exact h.clean j hj hpin
  case pinned =>
    intro b' hb'
    obtain ⟨j, hj⟩ := h.pinned b' hb'
    refine ⟨j, ?_⟩
    have hji : j ≠ i := by
      rintro rfl
      exact h.refcnt_ne_zero_of_pin hj hb' hi
    rw [hother j hji]
    exact hj
  case held =>
    intro j hj
    by_cases hji : j = i
    · rw [hji, hself]
    · rw [hother j hji] at hj ⊢
      exact h.held j hj
  case refcnt =>
    intro j
    by_cases hji : j = i
    · rw [hji, hself, bump_self]
      dsimp only
      rw [if_pos hfree, if_neg (fun hpin => hnot hpin.2)]
      omega
    · rw [hother j hji, bump_of_ne hji]
      exact h.refcnt j

theorem bread_miss (hget : c.bget dev b = .ok (i, c.modify i fun d =>
      { d with dev := dev, blockno := b, valid := false, refcnt := 1 })) :
    c.bread dev b = .ok (i, c.recycled dev b i) ∧ Bread dev b pins ex c i (c.recycled dev b i) := by
  have hself : (c.recycled dev b i).buf i = { c.buf i with
      dev := dev, blockno := b, valid := true, refcnt := 1, data := c.disk b } := modify_buf_self
  have hnot : b ∉ pins := fun hpin => (h.pinned b hpin).elim fun j hj => hb j hj
  constructor
  · unfold bread
    rw [hget]
    show Except.ok (i, (c.modify i _).fill i) = _
    unfold fill
    rw [modify_buf_self, if_neg (by simp)]
    unfold recycled modify
    simp
  constructor
  case inv => exact inv_recycled h hb hi
  case isFor =>
    rw [hself]
    exact ⟨rfl, rfl⟩
  case data => rw [hself, content_of_not_mem h hnot]
  case disk => rfl
  case keep =>
    intro j hj
    have hji : j ≠ i := by
      rintro rfl
      exact hj hi
    unfold recycled
    rw [modify_buf_of_ne hji]
  case holder =>
    intro j
    unfold recycled
    rw [modify_buf]
    split <;> rfl

end

theorem bread_spec (h : Inv dev pins ex c) (b : Nat) :
    (∃ i c', c.bread dev b = .ok (i, c') ∧ Bread dev b pins ex c i c') ∨
      ((∀ i, ¬ (c.buf i).isFor dev b) ∧ (∀ i, (c.buf i).refcnt ≠ 0) ∧ c.bread dev b = .error .bgetNoBuffers) := by
  by_cases hcached : ∃ i, (c.buf i).isFor dev b
  · obtain ⟨i, hi⟩ := hcached
    exact .inl ⟨i, _, bread_hit h hi⟩
  have hb : ∀ i, ¬ (c.buf i).isFor dev b := fun i hi => hcached ⟨i, hi⟩
  rcases bget_of_not_cached h hb with ⟨i, hi, hget⟩ | ⟨hfull, hget⟩
  · exact .inl ⟨i, _, bread_miss h hb hi hget⟩
  refine .inr ⟨hb, hfull, ?_⟩
  unfold bread
  rw [hget]
  rfl

theorem Bread.of_bread (h : Inv dev pins ex c) (hread : c.bread dev b = .ok (i, c')) : Bread dev b pins ex c i c' := by
  rcases bread_spec h b with ⟨j, d, hok, hspec⟩ | ⟨_, _, herr⟩
  · rw [hread, Except.ok.injEq, Prod.mk.injEq] at hok
    obtain ⟨rfl, rfl⟩ := hok
    exact hspec
  · rw [hread] at herr
    cases herr

/-! ## Writing -/

theorem write_buf_self : ((c.setData i data).bwrite i).buf i = { c.buf i with data := data } := by
  rw [bwrite_buf]
  exact modify_buf_self

theorem write_buf_of_ne (h : j ≠ i) : ((c.setData i data).bwrite i).buf j = c.buf j := by
  rw [bwrite_buf]
  exact modify_buf_of_ne h

theorem write_disk (hi : (c.buf i).isFor dev b) (data : Block) :
    ((c.setData i data).bwrite i).disk = update c.disk b data := by
  unfold bwrite setData
  rw [modify_buf_self, modify_disk]
  dsimp only
  rw [hi.2]

theorem Inv.write (h : Inv dev pins ex c) (hi : (c.buf i).isFor dev b) (data : Block) :
    Inv dev pins ex ((c.setData i data).bwrite i) := by
  obtain ⟨d, hbuf⟩ : ∃ d : Fin NBUF → Block,
      ((c.setData i data).bwrite i).buf = fun j => { c.buf j with data := d j } := by
    refine ⟨fun j => (((c.setData i data).bwrite i).buf j).data, funext fun j => ?_⟩
    simp only [bwrite_buf, setData, modify_buf]
    split <;> rfl
  constructor
  case mem_lru => exact h.mem_lru
  case uniq =>
    rw [hbuf]
    exact h.uniq
  case filled =>
    rw [hbuf]
    exact h.filled
  case clean =>
    intro j hj hpin
    rw [write_disk hi data]
    by_cases hji : j = i
    · rw [hji, write_buf_self]
      dsimp only
      rw [hi.2, update_self]
    rw [write_buf_of_ne hji] at hj hpin ⊢
    have hne : (c.buf j).blockno ≠ b := fun hjb => hji (h.uniq j i b ⟨hj, hjb⟩ hi)
    rw [update_of_ne hne]
    exact h.clean j hj hpin
  case pinned =>
    rw [hbuf]
    exact h.pinned
  case held =>
    rw [hbuf]
    exact h.held
  case refcnt =>
    rw [hbuf]
    exact h.refcnt

theorem content_setData {c' : Bio} {pins' : List Nat}
    (h : Inv dev pins ex c) (h' : Inv dev pins' ex' c') (hi : (c.buf i).isFor dev b)
    (hself : (c'.buf i).isFor dev b ∧ (c'.buf i).data = data)
    (hother : ∀ j, j ≠ i → (c'.buf j).dev = (c.buf j).dev ∧ (c'.buf j).blockno = (c.buf j).blockno ∧
      (c'.buf j).data = (c.buf j).data) (hdisk : ∀ b', b' ≠ b → c'.disk b' = c.disk b')
    (hpins : ∀ b', b' ≠ b → (b' ∈ pins' ↔ b' ∈ pins)) : c'.content dev = update (c.content dev) b data := by
  funext b'
  by_cases hb : b' = b
  · rw [hb, update_self, content_of_isFor h' hself.1, hself.2]
  rw [update_of_ne hb]
  by_cases hpin : b' ∈ pins
  · obtain ⟨j, hj⟩ := h.pinned b' hpin
    have hji : j ≠ i := by
      rintro rfl
      exact hb (hj.2.symm.trans hi.2)
    obtain ⟨hdev, hblockno, hdata⟩ := hother j hji
    have hj' : (c'.buf j).isFor dev b' := ⟨hdev.trans hj.1, hblockno.trans hj.2⟩
    rw [content_of_isFor h hj, content_of_isFor h' hj', hdata]
  · rw [content_of_not_mem h hpin, content_of_not_mem h' (fun hin => hpin ((hpins b' hb).mp hin)), hdisk b' hb]

theorem content_congr (hdisk : c'.disk = c.disk)
    (hbuf : ∀ j, (c'.buf j).dev = (c.buf j).dev ∧ (c'.buf j).blockno = (c.buf j).blockno ∧
      (c'.buf j).data = (c.buf j).data) : c'.content dev = c.content dev := by
  funext b
  have hfor : ∀ j, (c'.buf j).isFor dev b ↔ (c.buf j).isFor dev b := by
    intro j
    unfold Buf.isFor
    rw [(hbuf j).1, (hbuf j).2.1]
  unfold content
  simp only [hfor, hdisk]
  split
  · exact (hbuf _).2.2
  · rfl

theorem bunpin_same (c : Bio) (i j : Fin NBUF) :
    (c.bunpin i).buf j = { c.buf j with refcnt := ((c.bunpin i).buf j).refcnt } := by
  unfold bunpin
  rw [modify_buf]
  split <;> rfl

@[simp] theorem content_bunpin : (c.bunpin i).content dev = c.content dev := by
  apply content_congr bunpin_disk
  intro j
  rw [bunpin_same]
  exact ⟨rfl, rfl, rfl⟩

@[simp] theorem content_brelse : (c.brelse i).content dev = c.content dev := by
  apply content_congr brelse_disk
  intro j
  rw [brelse_buf, bunpin_same]
  exact ⟨rfl, rfl, rfl⟩

@[simp] theorem holder_bunpin : ((c.bunpin i).buf j).holder = (c.buf j).holder := by
  rw [bunpin_same]

@[simp] theorem holder_brelse : ((c.brelse i).buf j).holder = (c.buf j).holder := by
  rw [brelse_buf, bunpin_same]

@[simp] theorem holder_setData : ((c.setData i data).buf j).holder = (c.buf j).holder := by
  unfold setData
  rw [modify_buf]
  split <;> rfl

section

variable (h : Inv dev pins ex c) (hi : (c.buf i).isFor dev b)

include h hi

theorem content_write (data : Block) : ((c.setData i data).bwrite i).content dev = update (c.content dev) b data := by
  apply content_setData h (h.write hi data) hi
  · rw [write_buf_self]
    exact ⟨hi, rfl⟩
  · intro j hji
    rw [write_buf_of_ne hji]
    exact ⟨rfl, rfl, rfl⟩
  · intro b' hb'
    rw [write_disk hi, update_of_ne hb']
  · exact fun _ _ => Iff.rfl

/-! ## Pinning -/

theorem Inv.pin (hb : b ∉ pins) (data : Block) : Inv dev (pins ++ [b]) ex ((c.setData i data).bpin i) := by
  have hcompose : (c.setData i data).bpin i =
      c.modify i fun d => { d with data := data, refcnt := d.refcnt + 1 } := by
    unfold Bio.bpin setData Bio.modify
    simp
  have hcount := h.refcnt i
  have hold : ¬ ((c.buf i).dev = dev ∧ (c.buf i).blockno ∈ pins) := fun hpin => hb (hi.2 ▸ hpin.2)
  rw [if_neg hold] at hcount
  have hmem : (c.buf i).blockno ∈ pins ++ [b] := by
    rw [hi.2]
    simp
  rw [hcompose]
  apply h.modify
  · exact ⟨rfl, rfl, rfl⟩
  · intro b' hb'
    rcases mem_append.mp hb' with hold | hnew
    · exact .inl hold
    · rw [mem_singleton.mp hnew]
      exact .inr hi
  · intro j hji hj
    have hne : (c.buf j).blockno ≠ b := fun hjb => hji (h.uniq j i b ⟨hj, hjb⟩ hi)
    simp [hne]
  · exact fun _ _ => rfl
  · intro _ hnot
    exact absurd hmem hnot
  · exact fun _ => hi.1
  · rw [if_pos (show _ ∧ _ from ⟨hi.1, hmem⟩)]
    dsimp only
    omega

theorem Inv.absorb (hb : b ∈ pins) (data : Block) : Inv dev pins ex (c.setData i data) := by
  apply h.modify
  · exact ⟨rfl, rfl, rfl⟩
  · exact fun _ hb' => .inl hb'
  · exact fun _ _ _ => Iff.rfl
  · exact fun _ _ => rfl
  · intro _ hnot
    exact absurd hb (hi.2 ▸ hnot)
  · exact h.held i
  · exact h.refcnt i

end

theorem Inv.unpin (h : Inv dev (b :: pins) ex c) (hi : (c.buf i).isFor dev b) (hb : b ∉ pins)
    (hdata : (c.buf i).data = c.disk b) : Inv dev pins ex (c.bunpin i) := by
  have hcount := h.refcnt i
  rw [if_pos (show _ ∧ _ from ⟨hi.1, by rw [hi.2]; exact mem_cons_self⟩)] at hcount
  apply h.modify
  · exact ⟨rfl, rfl, rfl⟩
  · exact fun _ hb' => .inl (mem_cons_of_mem _ hb')
  · intro j hji hj
    have hne : (c.buf j).blockno ≠ b := fun hjb => hji (h.uniq j i b ⟨hj, hjb⟩ hi)
    simp [hne]
  · exact fun _ _ => rfl
  · intro _ _
    rw [hi.2]
    exact hdata
  · exact h.held i
  have hgone : ¬ ((c.buf i).dev = dev ∧ (c.buf i).blockno ∈ pins) := fun hpin => hb (hi.2 ▸ hpin.2)
  rw [if_neg hgone]
  dsimp only
  omega

/-! ## How many buffers are in use -/

def heldBufs (c : Bio) : Finset (Fin NBUF) := Finset.univ.filter fun i => (c.buf i).holder ≠ none

def pinnedBufs (c : Bio) (dev : Nat) (pins : List Nat) : Finset (Fin NBUF) :=
  Finset.univ.filter fun i => (c.buf i).dev = dev ∧ (c.buf i).blockno ∈ pins

theorem injOn_blockno (h : Inv dev pins ex c) : Set.InjOn (fun i => (c.buf i).blockno) (c.pinnedBufs dev pins) := by
  intro i hi j hj hij
  have hi' := (Finset.mem_filter.mp (Finset.mem_coe.mp hi)).2
  have hj' := (Finset.mem_filter.mp (Finset.mem_coe.mp hj)).2
  exact h.uniq i j _ ⟨hi'.1, rfl⟩ ⟨hj'.1, hij.symm⟩

theorem card_pinnedBufs_le (h : Inv dev pins ex c) : (c.pinnedBufs dev pins).card ≤ pins.length := by
  calc (c.pinnedBufs dev pins).card
      ≤ pins.toFinset.card := by
        apply Finset.card_le_card_of_injOn _ _ (injOn_blockno h)
        intro i hi
        exact mem_toFinset.mpr (Finset.mem_filter.mp (Finset.mem_coe.mp hi)).2.2
    _ ≤ pins.length := pins.toFinset_card_le

theorem Inv.nbuf_le (h : Inv dev pins ex c) (hall : ∀ i, (c.buf i).refcnt ≠ 0) :
    NBUF ≤ pins.length + c.heldBufs.card + (Finset.univ.filter fun i => ex i ≠ 0).card := by
  have hcover : (Finset.univ : Finset (Fin NBUF)) ⊆
      c.pinnedBufs dev pins ∪ c.heldBufs ∪ Finset.univ.filter fun i => ex i ≠ 0 := by
    intro i _
    have hcount := h.refcnt i
    have hne := hall i
    simp only [Finset.mem_union, pinnedBufs, heldBufs, Finset.mem_filter, Finset.mem_univ, true_and]
    by_contra hnot
    simp only [not_or, not_not] at hnot
    obtain ⟨⟨hpin, hheld⟩, hex⟩ := hnot
    rw [if_pos hheld, if_neg hpin, hex] at hcount
    omega
  calc NBUF = (Finset.univ : Finset (Fin NBUF)).card := (Finset.card_fin NBUF).symm
    _ ≤ (c.pinnedBufs dev pins ∪ c.heldBufs ∪ Finset.univ.filter fun i => ex i ≠ 0).card := Finset.card_le_card hcover
    _ ≤ (c.pinnedBufs dev pins ∪ c.heldBufs).card +
          (Finset.univ.filter fun i => ex i ≠ 0).card := Finset.card_union_le _ _
    _ ≤ (c.pinnedBufs dev pins).card + c.heldBufs.card +
          (Finset.univ.filter fun i => ex i ≠ 0).card := by
        have hunion := Finset.card_union_le (c.pinnedBufs dev pins) c.heldBufs
        omega
    _ ≤ _ := by
        have hpins := card_pinnedBufs_le h
        omega

theorem Inv.mem_pins_of_full (h : Inv dev pins ex c) (hnodup : pins.Nodup)
    (hfull : pins.length = NBUF) (i : Fin NBUF) : (c.buf i).dev = dev ∧ (c.buf i).blockno ∈ pins := by
  have himage : pins.toFinset ⊆ (c.pinnedBufs dev pins).image fun i => (c.buf i).blockno := by
    intro b hb
    obtain ⟨j, hj⟩ := h.pinned b (mem_toFinset.mp hb)
    refine Finset.mem_image.mpr ⟨j, Finset.mem_filter.mpr ⟨Finset.mem_univ j, hj.1, ?_⟩, hj.2⟩
    rw [hj.2]
    exact mem_toFinset.mp hb
  have hcard : NBUF ≤ (c.pinnedBufs dev pins).card :=
    calc NBUF = pins.toFinset.card := by rw [toFinset_card_of_nodup hnodup, hfull]
      _ ≤ ((c.pinnedBufs dev pins).image fun i => (c.buf i).blockno).card := Finset.card_le_card himage
      _ ≤ (c.pinnedBufs dev pins).card := Finset.card_image_le
  have hall : c.pinnedBufs dev pins = Finset.univ := by
    apply Finset.eq_univ_of_card
    apply le_antisymm (Finset.card_le_univ _)
    rw [Fintype.card_fin]
    exact hcard
  have hi : i ∈ c.pinnedBufs dev pins := by
    rw [hall]
    exact Finset.mem_univ i
  exact (Finset.mem_filter.mp hi).2

/-! ## Copying a block -/

/-- Buffers `i` and `j` were read, one after the other, for blocks `x` and `y`. -/
structure BreadTwo (dev x y : Nat) (pins : List Nat) (ex : Fin NBUF → Nat) (c : Bio)
    (i j : Fin NBUF) (c' : Bio) : Prop where
  inv : Inv dev pins (bump (bump ex i) j) c'
  fst : (c'.buf i).isFor dev x
  fst_data : (c'.buf i).data = c.content dev x
  snd : (c'.buf j).isFor dev y
  snd_data : (c'.buf j).data = c.content dev y
  disk : c'.disk = c.disk
  content : ∀ b, c'.content dev b = c.content dev b
  holder : ∀ k, (c'.buf k).holder = (c.buf k).holder

theorem Bread.refcnt_ne_zero (h : Bread dev b pins ex c i c') : (c'.buf i).refcnt ≠ 0 := by
  have hcount := h.inv.refcnt i
  rw [bump_self] at hcount
  omega

theorem Bread.two {x y : Nat} {c₁ c₂ : Bio} (h : Inv dev pins ex c)
    (hx : Bread dev x pins ex c i c₁) (hy : Bread dev y pins (bump ex i) c₁ j c₂) :
    BreadTwo dev x y pins ex c i j c₂ := by
  -- the second read cannot recycle the first buffer
  have hkeep := hy.keep i hx.refcnt_ne_zero
  constructor
  case inv => exact hy.inv
  case fst =>
    rw [hkeep]
    exact hx.isFor
  case fst_data =>
    rw [hkeep]
    exact hx.data
  case snd => exact hy.isFor
  case snd_data =>
    rw [hy.data]
    exact hx.content h y
  case disk => rw [hy.disk, hx.disk]
  case content =>
    intro b
    rw [hy.content hx.inv, hx.content h]
  case holder =>
    intro k
    rw [hy.holder, hx.holder]

theorem bump_comm (ex : Fin NBUF → Nat) (i j : Fin NBUF) : bump (bump ex i) j = bump (bump ex j) i := by
  by_cases hij : i = j
  · rw [hij]
  · unfold bump
    rw [update_of_ne (Ne.symm hij), update_of_ne hij, update_comm hij]

/-- The code that ran wrote `data` to block `b`, in the cache and on the disk, and let go of all
buffers it had read. -/
structure Wrote (dev : Nat) (pins : List Nat) (c : Bio) (b : Nat) (data : Block) (c' : Bio) :
    Prop where
  inv : Inv dev pins (fun _ => 0) c'
  disk : c'.disk = update c.disk b data
  content : c'.content dev = update (c.content dev) b data
  holder : ∀ k, (c'.buf k).holder = (c.buf k).holder

theorem Wrote.heldBufs (h : Wrote dev pins c b data c') : c'.heldBufs = c.heldBufs := by
  unfold Bio.heldBufs
  simp only [h.holder]

end Inv

end Bio

end Xv6
