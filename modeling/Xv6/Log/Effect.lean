import Xv6.Log.Model

/-!
# What the log's code does to cache and disk

Each piece of the commit and of the recovery writes one block, and fails only if all buffers are
taken.
-/

namespace Xv6.Log

open Bio Function List

variable {s : LogState} {pins : List Nat} {tail b : Nat}

/-! ## The header block -/

theorem word_setBlocks_of_le {d : Block} {i j : Nat} {bs : List Nat} (h : j ≤ i) :
    (setBlocks d i bs).word j = d.word j := by
  induction bs generalizing d i with
  | nil => rfl
  | cons b bs ih =>
    unfold setBlocks
    rw [ih (by omega), Block.word_setWord_of_ne d (by omega)]

theorem word_setBlocks {d : Block} {i j : Nat} {bs : List Nat} (hfit : i + bs.length < 256)
    (hword : ∀ b ∈ bs, b < 2 ^ 32) (hj : j < bs.length) : (setBlocks d i bs).word (i + j + 1) = bs[j] := by
  induction bs generalizing d i j with
  | nil => simp at hj
  | cons b bs ih =>
    have hlen : (b :: bs).length = bs.length + 1 := length_cons
    unfold setBlocks
    cases j with
    | zero =>
      rw [word_setBlocks_of_le (by omega), Block.word_setWord d (by unfold BSIZE; omega) (hword b mem_cons_self)]
      rfl
    | succ j =>
      rw [show i + (j + 1) + 1 = i + 1 + j + 1 by omega,
        ih (by omega) (fun b hb => hword b (mem_cons_of_mem _ hb)) (by omega)]
      rfl

theorem readHeader_writeHeader (d : Block) {lh : List Nat} (hfit : lh.length ≤ LOGBLOCKS)
    (hword : ∀ b ∈ lh, b < 2 ^ 32) : readHeader (writeHeader d lh) = lh := by
  have hbound : lh.length ≤ 30 := hfit
  have hn : (writeHeader d lh).word 0 = lh.length := by
    unfold writeHeader
    rw [word_setBlocks_of_le (by omega), Block.word_setWord d (by decide) (by omega)]
  unfold readHeader
  rw [hn, if_pos (by omega)]
  apply ext_getElem
  · simp
  intro j _ hj
  have hword_j := word_setBlocks (d := d.setWord 0 lh.length) (i := 0) (by omega) hword hj
  rw [getElem_map, getElem_range]
  rw [Nat.zero_add] at hword_j
  exact hword_j

/-! ## One read -/

theorem card_bump (i : Fin NBUF) : (Finset.univ.filter fun j => bump (fun _ => 0) i j ≠ 0).card = 1 := by
  have hone : (Finset.univ.filter fun j => bump (fun _ => 0) i j ≠ 0) = {i} := by
    ext j
    rw [Finset.mem_filter, Finset.mem_singleton]
    by_cases hji : j = i
    · simp [hji, bump_self]
    · simp [hji, bump_of_ne hji]
  rw [hone, Finset.card_singleton]

theorem bread_first {c : Bio} {dev : Nat} (h : Inv dev pins (fun _ => 0) c) (b : Nat) :
    (∃ i c', c.bread dev b = .ok (i, c') ∧ Bread dev b pins (fun _ => 0) c i c') ∨
      (c.bread dev b = .error .bgetNoBuffers ∧ NBUF ≤ pins.length + c.heldBufs.card) := by
  rcases bread_spec h b with hok | ⟨_, hall, herr⟩
  · exact .inl hok
  · refine .inr ⟨herr, ?_⟩
    have hle := h.nbuf_le hall
    simpa using hle

theorem bread_second {c : Bio} {dev : Nat} {i : Fin NBUF} (h : Inv dev pins (bump (fun _ => 0) i) c) (b : Nat) :
    (∃ j c', c.bread dev b = .ok (j, c') ∧ Bread dev b pins (bump (fun _ => 0) i) c j c') ∨
      (c.bread dev b = .error .bgetNoBuffers ∧ b ∉ pins ∧ NBUF ≤ pins.length + c.heldBufs.card + 1) := by
  rcases bread_spec h b with hok | ⟨hmiss, hall, herr⟩
  · exact .inl hok
  refine .inr ⟨herr, ?_, ?_⟩
  · intro hpin
    obtain ⟨j, hj⟩ := h.pinned b hpin
    exact hmiss j hj
  · have hle := h.nbuf_le hall
    rw [card_bump] at hle
    exact hle

/-! ## One write -/

/-- How a piece of the log's code may end. -/
def WritesOrFails (s : LogState) (pins' : List Nat) (b : Nat) (data : Block) (spare : Nat)
    (r : Except Panic LogState) : Prop :=
  (∃ c, r = .ok { s with bio := c } ∧ Wrote s.dev pins' s.bio b data c) ∨
    (r = .error .bgetNoBuffers ∧ NBUF ≤ spare + s.bio.heldBufs.card)

theorem writeHead_effect (h : Inv s.dev pins (fun _ => 0) s.bio) (hstart : s.start ∉ pins) :
    WritesOrFails s pins s.start (writeHeader (s.bio.disk s.start) s.lh) pins.length (writeHead s) := by
  unfold writeHead
  rcases bread_first h s.start with ⟨i, c, hread, hbread⟩ | ⟨herr, hfull⟩
  · rw [hread, ← content_of_not_mem h hstart, ← hbread.data]
    refine .inl ⟨_, rfl, ?_⟩
    have hwrite := hbread.inv.write hbread.isFor (writeHeader (c.buf i).data s.lh)
    constructor
    case inv => exact hwrite.brelse
    case disk => rw [brelse_disk, write_disk hbread.isFor, hbread.disk]
    case content =>
      rw [content_brelse, content_write hbread.inv hbread.isFor]
      congr 1
      exact funext (hbread.content h)
    case holder =>
      intro k
      simp [hbread.holder]
  · rw [herr]
    exact .inr ⟨rfl, hfull⟩

theorem writeLogAt_effect (h : Inv s.dev pins (fun _ => 0) s.bio) (hb : s.lh.getD tail 0 ∈ pins) :
    WritesOrFails s pins (s.start + tail + 1) (s.bio.content s.dev (s.lh.getD tail 0)) pins.length
      (writeLogAt s tail) := by
  unfold writeLogAt
  rcases bread_first h (s.start + tail + 1) with ⟨i, c, hread, hbread⟩ | ⟨herr, hfull⟩
  · rcases bread_second hbread.inv (s.lh.getD tail 0) with ⟨j, c₂, hread₂, hbread₂⟩ | ⟨_, hno, _⟩
    · have htwo := hbread.two h hbread₂
      simp only [hread, hread₂, bind, Except.bind]
      rw [← htwo.snd_data]
      refine .inl ⟨_, rfl, ?_⟩
      have hwrite := htwo.inv.write htwo.fst (c₂.buf j).data
      constructor
      case inv => exact hwrite.brelse.brelse
      case disk => rw [brelse_disk, brelse_disk, write_disk htwo.fst, htwo.disk]
      case content =>
        rw [content_brelse, content_brelse, content_write htwo.inv htwo.fst]
        congr 1
        exact funext htwo.content
      case holder =>
        intro k
        simp [htwo.holder]
    · exact absurd hb hno
  · rw [herr]
    exact .inr ⟨rfl, hfull⟩

theorem install_write {c : Bio} {i j : Fin NBUF} (h : Inv s.dev pins (fun _ => 0) s.bio)
    (htwo : BreadTwo s.dev (s.start + tail + 1) b pins (fun _ => 0) s.bio i j c) (hlog : s.start + tail + 1 ∉ pins) :
    (c.buf i).data = s.bio.disk (s.start + tail + 1) ∧
      ((c.setData j (c.buf i).data).bwrite j).disk = update s.bio.disk b (s.bio.disk (s.start + tail + 1)) ∧
      ((c.setData j (c.buf i).data).bwrite j).content s.dev =
        update (s.bio.content s.dev) b (s.bio.disk (s.start + tail + 1)) := by
  have hdata : (c.buf i).data = s.bio.disk (s.start + tail + 1) := by
    rw [htwo.fst_data, content_of_not_mem h hlog]
  refine ⟨hdata, ?_, ?_⟩
  · rw [write_disk htwo.snd, htwo.disk, hdata]
  · rw [content_write htwo.inv htwo.snd, hdata]
    congr 1
    exact funext htwo.content

theorem installAt_effect {pins' : List Nat} (hpins : pins = s.lh.getD tail 0 :: pins')
    (h : Inv s.dev pins (fun _ => 0) s.bio) (hb : s.lh.getD tail 0 ∉ pins') (hlog : s.start + tail + 1 ∉ pins) :
    WritesOrFails s pins' (s.lh.getD tail 0) (s.bio.disk (s.start + tail + 1)) pins.length
      (installAt false s tail) := by
  unfold installAt
  rcases bread_first h (s.start + tail + 1) with ⟨i, c, hread, hbread⟩ | ⟨herr, hfull⟩
  · rcases bread_second hbread.inv (s.lh.getD tail 0) with ⟨j, c₂, hread₂, hbread₂⟩ | ⟨_, hno, _⟩
    · have htwo := hbread.two h hbread₂
      obtain ⟨_, hdisk, hcontent⟩ := install_write h htwo hlog
      simp only [hread, hread₂, bind, Except.bind, Bool.false_eq_true, if_false]
      refine .inl ⟨_, rfl, ?_⟩
      have hwrite := htwo.inv.write htwo.snd (c₂.buf i).data
      -- the block is on the disk now, so its pin can go
      have hunpin : Inv s.dev pins' (bump (bump (fun _ => 0) i) j)
          (((c₂.setData j (c₂.buf i).data).bwrite j).bunpin j) := by
        rw [hpins] at hwrite
        apply hwrite.unpin (b := s.lh.getD tail 0) _ hb
        · rw [write_buf_self, write_disk htwo.snd, update_self]
        · rw [write_buf_self]
          exact htwo.snd
      rw [bump_comm] at hunpin
      constructor
      case inv => exact hunpin.brelse.brelse
      case disk =>
        rw [brelse_disk, brelse_disk, bunpin_disk, hdisk]
      case content =>
        rw [content_brelse, content_brelse, content_bunpin, hcontent]
      case holder =>
        intro k
        simp [htwo.holder]
    · rw [hpins] at hno
      exact absurd mem_cons_self hno
  · rw [herr]
    exact .inr ⟨rfl, hfull⟩

theorem installAt_recovering (h : Inv s.dev [] (fun _ => 0) s.bio) (tail : Nat) :
    WritesOrFails s [] (s.lh.getD tail 0) (s.bio.disk (s.start + tail + 1)) 1 (installAt true s tail) := by
  unfold installAt
  rcases bread_first h (s.start + tail + 1) with ⟨i, c, hread, hbread⟩ | ⟨herr, hfull⟩
  · rcases bread_second hbread.inv (s.lh.getD tail 0) with
      ⟨j, c₂, hread₂, hbread₂⟩ | ⟨herr, _, hfull⟩
    · have htwo := hbread.two h hbread₂
      obtain ⟨_, hdisk, hcontent⟩ := install_write h htwo not_mem_nil
      simp only [hread, hread₂, bind, Except.bind, if_true]
      refine .inl ⟨_, rfl, ?_⟩
      have hwrite := htwo.inv.write htwo.snd (c₂.buf i).data
      rw [bump_comm] at hwrite
      constructor
      case inv => exact hwrite.brelse.brelse
      case disk => rw [brelse_disk, brelse_disk, hdisk]
      case content => rw [content_brelse, content_brelse, hcontent]
      case holder =>
        intro k
        simp [htwo.holder]
    simp only [hread, herr, bind, Except.bind]
    refine .inr ⟨rfl, ?_⟩
    have hheld : c.heldBufs = s.bio.heldBufs := by
      unfold heldBufs
      simp only [hbread.holder]
    rw [hheld, length_nil] at hfull
    omega
  rw [herr]
  refine .inr ⟨rfl, ?_⟩
  rw [length_nil] at hfull
  omega

theorem readHead_effect (h : Inv s.dev [] (fun _ => 0) s.bio) :
    (∃ c, readHead s = .ok { s with bio := c, lh := readHeader (s.bio.disk s.start) } ∧
      Inv s.dev [] (fun _ => 0) c ∧ c.disk = s.bio.disk ∧
      ∀ k, (c.buf k).holder = (s.bio.buf k).holder) ∨
    (readHead s = .error .bgetNoBuffers ∧ NBUF ≤ s.bio.heldBufs.card) := by
  unfold readHead
  rcases bread_first h s.start with ⟨i, c, hread, hbread⟩ | ⟨herr, hfull⟩
  · rw [hread, ← content_of_not_mem h not_mem_nil, ← hbread.data]
    refine .inl ⟨_, rfl, hbread.inv.brelse, ?_, ?_⟩
    · rw [brelse_disk, hbread.disk]
    · intro k
      simp [hbread.holder]
  rw [herr]
  refine .inr ⟨rfl, ?_⟩
  rw [length_nil] at hfull
  omega

theorem WritesOrFails.ok {n : Nat} {data : Block} {r : Except Panic LogState}
    (h : WritesOrFails s pins b data n r) (hfree : s.bio.heldBufs = ∅) (hn : n < NBUF) :
    ∃ c, r = .ok { s with bio := c } ∧ Wrote s.dev pins s.bio b data c := by
  rcases h with hok | ⟨_, hfull⟩
  · exact hok
  · rw [hfree, Finset.card_empty] at hfull
    omega

/-- A loop of which every round runs and keeps `P` runs to its end. -/
theorem forTail_ok {l : LogState} {P : Nat → Bio → Prop} {f : LogState → Nat → Except Panic LogState} {n : Nat}
    (hbody : ∀ tail c, tail < n → P tail c →
      ∃ c', f { l with bio := c } tail = .ok { l with bio := c' } ∧ P (tail + 1) c')
    (tail k : Nat) (hk : tail + k = n) {c : Bio} (h : P tail c) :
    ∃ c', forTail f tail k { l with bio := c } = .ok { l with bio := c' } ∧ P n c' := by
  induction k generalizing tail c with
  | zero => exact ⟨c, rfl, hk ▸ h⟩
  | succ k ih =>
    obtain ⟨c₁, hrun, hnext⟩ := hbody tail c (by omega) h
    obtain ⟨c', hloop, hdone⟩ := ih (tail + 1) (by omega) hnext
    refine ⟨c', ?_, hdone⟩
    unfold forTail
    rw [hrun]
    exact hloop

end Xv6.Log
