import Mathlib.Data.Finset.Card
import Xv6.Fs.Frame
import Xv6.Fs.Read
import Xv6.Lib.Traced

/-!
# Which blocks are logged

`writei` and what it calls, with a note of every block that is passed to `log_write`.  One piece of a write
must not log more than `MAXOPBLOCKS` different blocks, since that is what `begin_op` has reserved.
-/

namespace Xv6.Fs.Logged

open Hoare List Memory Traced

/-- The second part of the state holds the blocks that have been logged. -/
abbrev LogSys (α : Type) := Prog Panic (State × List Nat) α

def logWrite (b : Nat) : LogSys Unit := record b

section Code

variable (sb : Superblock)

def bblock (b : Nat) : Nat := b / BPB + sb.bmapstart

def iblock (i : Nat) : Nat := i / IPB + sb.inodestart

def bzero (bno : Nat) : LogSys Unit := do
  lift (Fs.bzero bno)
  logWrite bno

def balloc : LogSys Nat := do
  let s ← lift get
  match (List.range sb.size).find? fun b => ¬ InUse sb s.disk b with
  | none => pure 0
  | some b => do
    lift (modify fun s => s.setDisk (markUsed sb s.disk b))
    logWrite (bblock sb b)
    bzero b
    pure b

def iupdate (ip : Fin NINODE) : LogSys Unit := do
  let s ← lift get
  lift (Fs.iupdate sb ip)
  logWrite (iblock sb (s.inode ip).inum)

def orBalloc (addr : Nat) (save : Nat → LogSys Unit) : LogSys Nat :=
  if addr ≠ 0 then pure addr
  else do
    let addr ← balloc sb
    if addr = 0 then pure 0
    else do
      save addr
      pure addr

def bmap (ip : Fin NINODE) (bn : Nat) : LogSys Nat := do
  let s ← lift get
  if bn < NDIRECT then
    orBalloc sb ((s.inode ip).copy.addr bn) fun addr => lift (setCopy ip (·.setAddr bn addr))
  else if bn - NDIRECT < NINDIRECT then do
    let addr ← orBalloc sb ((s.inode ip).copy.addr NDIRECT) fun addr => lift (setCopy ip (·.setAddr NDIRECT addr))
    if addr = 0 then pure 0
    else do
      let s ← lift get
      orBalloc sb (load s.disk (entryAddr addr (bn - NDIRECT)) 4) fun a => do
        lift (modify fun s => s.setDisk (put s.disk (entryAddr addr (bn - NDIRECT)) 4 a))
        logWrite addr
  else lift (throw .bmapOutOfRange)

def writeLoop (ip : Fin NINODE) : Nat → List UInt8 → Nat → Nat → LogSys Nat
  | 0, _, _, _ => pure 0
  | k + 1, src, off, n =>
    if n = 0 then pure 0
    else do
      let addr ← bmap sb ip (off / BSIZE)
      if addr = 0 then pure 0
      else do
        let m := min n (BSIZE - off % BSIZE)
        lift (modify fun s => s.setDisk (store s.disk (addr * BSIZE + off % BSIZE) (src.take m)))
        if src.length < m then pure 0
        else do
          logWrite addr
          let rest ← writeLoop ip k (src.drop m) (off + m) (n - m)
          pure (m + rest)

def writei (ip : Fin NINODE) (src : List UInt8) (off n : Nat) : LogSys Int := do
  let s ← lift get
  let size := (s.inode ip).copy.size.toNat
  if size < off ∨ (off + n) % 2 ^ 32 < off then pure (-1)
  else if MAXFILE * BSIZE < off + n then pure (-1)
  else do
    let tot ← writeLoop sb ip n src off n
    let s ← lift get
    if (s.inode ip).copy.size.toNat < off + tot then
      lift (setCopy ip fun d => { d with size := UInt32.ofNat (off + tot) })
    else pure ()
    iupdate sb ip
    pure tot

/-- What `filewrite` does between `begin_op` and `end_op`. -/
def filewritePiece (f : Fin NFILE) (ip : Fin NINODE) (src : List UInt8) (n1 : Nat) : LogSys Int := do
  lift (ilock sb ip)
  let s ← lift get
  let r ← writei sb ip src (s.file f).off n1
  if 0 < r then lift (modify fun s => s.setFile f { s.file f with off := (s.file f).off + r.toNat })
  else pure ()
  lift (iunlock ip)
  pure r

end Code

/-! ## The same program without the notes -/

section Erasure

variable {sb : Superblock} {ip : Fin NINODE}

theorem erases_bzero (bno : Nat) : Erases (bzero bno) (Fs.bzero bno) := .record_last bno (.lift _)

theorem erases_balloc : Erases (balloc sb) (Fs.balloc sb) := by
  refine .bind (.lift _) fun s => ?_
  cases (range sb.size).find? fun b => ¬ InUse sb s.disk b with
  | none => exact .pure 0
  | some b => exact .bind (.lift _) fun _ => .record_bind _ (.bind (erases_bzero b) fun _ => .pure b)

theorem erases_iupdate : Erases (iupdate sb ip) (Fs.iupdate sb ip) := by
  intro s
  exact Erases.record_last _ (.lift (Fs.iupdate sb ip)) s

theorem erases_orBalloc {addr : Nat} {save : Nat → LogSys Unit} {save' : Nat → Sys Unit}
    (h : ∀ b, Erases (save b) (save' b)) : Erases (orBalloc sb addr save) (Fs.orBalloc sb addr save') :=
  .ite (.pure addr) (.bind erases_balloc fun b => .ite (.pure 0) (.bind (h b) fun _ => .pure b))

theorem erases_bmap (bn : Nat) : Erases (bmap sb ip bn) (Fs.bmap sb ip bn) := by
  refine .bind (.lift _) fun s => .ite (erases_orBalloc fun _ => .lift _) (.ite ?_ (.lift _))
  refine .bind (erases_orBalloc fun _ => .lift _) fun addr => .ite (.pure 0) (.bind (.lift _) fun s => ?_)
  exact erases_orBalloc fun _ => .record_last addr (.lift _)

theorem erases_writeLoop (k : Nat) (src : List UInt8) (off n : Nat) :
    Erases (writeLoop sb ip k src off n) (Fs.writeLoop sb ip k src off n) := by
  induction k generalizing src off n with
  | zero => exact .pure 0
  | succ k ih =>
    refine .ite (.pure 0) (.bind (erases_bmap _) fun addr => .ite (.pure 0) (.bind (.lift _) fun _ => .ite (.pure 0) ?_))
    exact .record_bind addr (.bind (ih _ _ _) fun _ => .pure _)

theorem erases_writei (src : List UInt8) (off n : Nat) :
    Erases (writei sb ip src off n) (Fs.writei sb ip src off n) := by
  refine .bind (.lift _) fun s => .ite (.pure _) (.ite (.pure _) (.bind (erases_writeLoop _ _ _ _) fun tot => ?_))
  have htail : Erases (do
      iupdate sb ip
      pure (tot : Int) : LogSys Int) (do
      Fs.iupdate sb ip
      pure (tot : Int) : Sys Int) := .bind erases_iupdate fun _ => .pure _
  exact .bind (.lift _) fun t => .ite (.bind (.lift _) fun _ => htail) htail

end Erasure

/-! ## Counting

The indirect block counts once, however many entries it gets, and so does its bitmap block.  While there is no
indirect block, both are counted in advance. -/

/-- The blocks logged so far, if `a` is the indirect block. -/
def weight (a : Nat) (l : List Nat) : Nat :=
  if a = 0 then l.toFinset.card + 2 else (insert a l.toFinset).card

section Weight

variable {a b c : Nat} {l : List Nat}

theorem card_le_weight : l.toFinset.card ≤ weight a l := by
  unfold weight
  split
  · omega
  · exact Finset.card_le_card (Finset.subset_insert a _)

theorem weight_nil : weight a [] ≤ 2 := by
  unfold weight
  split
  · rfl
  · show (insert a ∅ : Finset Nat).card ≤ 2
    rw [Finset.card_insert_of_notMem (Finset.notMem_empty a), Finset.card_empty]
    omega

theorem weight_cons_le : weight a (b :: l) ≤ weight a l + 1 := by
  unfold weight
  rw [toFinset_cons]
  split
  · have hcard := Finset.card_insert_le b l.toFinset
    omega
  · rw [Finset.insert_comm]
    exact Finset.card_insert_le b _

theorem weight_le_cons : weight a l ≤ weight a (b :: l) := by
  unfold weight
  rw [toFinset_cons]
  split
  · exact Nat.add_le_add_right (Finset.card_le_card (Finset.subset_insert b _)) 2
  · exact Finset.card_le_card (Finset.insert_subset_insert a (Finset.subset_insert b _))

theorem weight_cons_of_mem (h : b ∈ l) : weight a (b :: l) = weight a l := by
  unfold weight
  rw [toFinset_cons, Finset.insert_eq_of_mem (mem_toFinset.2 h)]

theorem weight_self (h : a ≠ 0) : weight a (a :: l) = weight a l := by
  unfold weight
  rw [toFinset_cons, if_neg h, if_neg h, Finset.insert_idem]

theorem weight_new (h : b ≠ 0) : weight b (b :: c :: l) ≤ weight 0 l := by
  unfold weight
  rw [toFinset_cons, toFinset_cons, if_neg h, if_pos rfl, Finset.insert_idem]
  have hfirst := Finset.card_insert_le b (insert c l.toFinset)
  have hsecond := Finset.card_insert_le c l.toFinset
  omega

end Weight

variable {sb : Superblock} {ip : Fin NINODE} {s : State} {l : List Nat} {k n off bn : Nat}

def Weight (ip : Fin NINODE) (p : State × List Nat) : Nat := weight ((p.1.inode ip).copy.addr NDIRECT) p.2

theorem balloc_cases (s : State) (l : List Nat) : balloc sb (s, l) = .ok (0, s, l) ∨
    ∃ b < sb.size, ∃ s', s'.inode = s.inode ∧ balloc sb (s, l) = .ok (b, s', b :: bblock sb b :: l) := by
  have hget : (lift get : LogSys State) (s, l) = .ok (s, s, l) := rfl
  unfold balloc
  rw [bind_of_ok hget]
  cases hfind : (range sb.size).find? fun b => ¬ InUse sb s.disk b with
  | none => exact .inl rfl
  | some b =>
    have hb : b < sb.size := mem_range.1 (mem_of_find?_eq_some hfind)
    exact .inr ⟨b, hb, s.setDisk (allocated sb s.disk b), rfl, rfl⟩

theorem orBalloc_cases (addr : Nat) (save : Nat → LogSys Unit) (s : State) (l : List Nat) :
    orBalloc sb addr save (s, l) = .ok (addr, s, l) ∨ addr = 0 ∧ ∃ b < sb.size, ∃ s', s'.inode = s.inode ∧
      (b = 0 ∧ orBalloc sb addr save (s, l) = .ok (0, s', b :: bblock sb b :: l) ∨
        b ≠ 0 ∧ orBalloc sb addr save (s, l) = (do
          save b
          pure b : LogSys Nat) (s', b :: bblock sb b :: l)) := by
  unfold orBalloc
  by_cases haddr : addr = 0
  · rw [if_neg (not_not.2 haddr)]
    rcases balloc_cases s l with hnone | ⟨b, hb, s', hinode, hsome⟩
    · refine .inl ?_
      rw [bind_of_ok hnone, haddr]
      rfl
    refine .inr ⟨haddr, b, hb, s', hinode, ?_⟩
    rw [bind_of_ok hsome]
    by_cases hzero : b = 0
    · rw [if_pos hzero]
      exact .inl ⟨hzero, rfl⟩
    · rw [if_neg hzero]
      exact .inr ⟨hzero, rfl⟩
  · rw [if_pos haddr]
    exact .inl rfl

theorem orBalloc_found {addr : Nat} {save : Nat → LogSys Unit} {p : State × List Nat} (h : addr ≠ 0) :
    orBalloc sb addr save p = .ok (addr, p) := by
  unfold orBalloc
  rw [if_pos h]
  rfl

theorem lift_get_bind {α : Type} (f : State → LogSys α) (s : State) (l : List Nat) :
    (lift get >>= f) (s, l) = f s (s, l) := rfl

theorem bmap_found (h : blockAddr s.disk (s.inode ip).copy bn ≠ 0) :
    bmap sb ip bn (s, l) = .ok (blockAddr s.disk (s.inode ip).copy bn, s, l) := by
  unfold bmap
  rw [lift_get_bind]
  rcases blockAddr_cases h with ⟨hdirect, haddr⟩ | ⟨hdirect, hind, hin, haddr⟩
  all_goals rw [haddr] at h ⊢
  · rw [if_pos hdirect]
    exact orBalloc_found h
  · rw [if_neg hdirect, if_pos hin, bind_of_ok (orBalloc_found hind), if_neg hind, lift_get_bind]
    exact orBalloc_found h

theorem weight_pair {a b c : Nat} : weight a (b :: b :: c :: l) ≤ weight a l + 2 := by
  have hfirst : weight a (b :: b :: c :: l) = weight a (b :: c :: l) := weight_cons_of_mem mem_cons_self
  have hsecond : weight a (b :: c :: l) ≤ weight a (c :: l) + 1 := weight_cons_le
  have hthird : weight a (c :: l) ≤ weight a l + 1 := weight_cons_le
  omega

theorem entry_weight {a addr j : Nat} (ha : a ≠ 0) (hcopy : (s.inode ip).copy.addr NDIRECT = a) :
    ∃ b p', orBalloc sb addr (fun b => (do
        lift (modify fun s => s.setDisk (put s.disk (entryAddr a j) 4 b))
        logWrite a : LogSys Unit)) (s, l) = .ok (b, p') ∧
      Weight ip (p'.1, b :: p'.2) ≤ weight a l + 2 := by
  rcases orBalloc_cases addr _ s l with hrun | ⟨-, b, hb, s', hinode, hcase⟩
  · refine ⟨_, _, hrun, ?_⟩
    show weight ((s.inode ip).copy.addr NDIRECT) _ ≤ _
    rw [hcopy]
    exact Nat.le_succ_of_le weight_cons_le
  have hcopy' : (s'.inode ip).copy.addr NDIRECT = a := by rw [hinode, hcopy]
  rcases hcase with ⟨hzero, hrun⟩ | ⟨-, hrun⟩
  · refine ⟨_, _, hrun, ?_⟩
    show weight ((s'.inode ip).copy.addr NDIRECT) _ ≤ _
    rw [hcopy', ← hzero]
    exact weight_pair
  refine ⟨b, _, hrun.trans rfl, ?_⟩
  show weight ((s'.inode ip).copy.addr NDIRECT) (b :: a :: b :: bblock sb b :: l) ≤ _
  rw [hcopy', weight_cons_of_mem (mem_cons_of_mem _ mem_cons_self), weight_self ha]
  have hpair : weight a (b :: b :: bblock sb b :: l) ≤ weight a l + 2 := weight_pair
  rwa [weight_cons_of_mem mem_cons_self] at hpair

theorem addr_setCopy {j b : Nat} (hj : j < NDIRECT + 1) (hb : b < sb.size) (ip : Fin NINODE) (s : State) :
    ((s.setInode ip { s.inode ip with copy := (s.inode ip).copy.setAddr j b }).inode ip).copy.addr NDIRECT =
      if NDIRECT = j then b else (s.inode ip).copy.addr NDIRECT := by
  have hlt := sb.lt_word hb
  unfold State.setInode
  simp only [Function.update_self]
  exact addr_setAddr hj hlt

theorem bmap_weight (hbn : bn < MAXFILE) (s : State) (l : List Nat) : ∃ addr p', bmap sb ip bn (s, l) = .ok (addr, p') ∧
    Weight ip (p'.1, addr :: p'.2) ≤ Weight ip (s, l) + 2 := by
  unfold bmap
  rw [lift_get_bind]
  by_cases hdirect : bn < NDIRECT
  · rw [if_pos hdirect]
    rcases orBalloc_cases ((s.inode ip).copy.addr bn) _ s l with hrun | ⟨-, b, hb, s', hinode, ⟨hzero, hrun⟩ | ⟨-, hrun⟩⟩
    · exact ⟨_, _, hrun, Nat.le_succ_of_le weight_cons_le⟩
    · refine ⟨_, _, hrun, ?_⟩
      show weight ((s'.inode ip).copy.addr NDIRECT) _ ≤ weight ((s.inode ip).copy.addr NDIRECT) l + 2
      rw [hinode, ← hzero]
      exact weight_pair
    refine ⟨b, _, hrun.trans rfl, ?_⟩
    show weight _ _ ≤ weight ((s.inode ip).copy.addr NDIRECT) l + 2
    rw [addr_setCopy (Nat.lt_succ_of_lt hdirect) hb ip s', if_neg (Nat.ne_of_gt hdirect), hinode]
    exact weight_pair
  have hj : bn - NDIRECT < NINDIRECT := by
    unfold MAXFILE at hbn
    omega
  rw [if_neg hdirect, if_pos hj]
  by_cases ha : (s.inode ip).copy.addr NDIRECT = 0
  · rcases orBalloc_cases ((s.inode ip).copy.addr NDIRECT) _ s l with
      hrun | ⟨-, b, hb, s', hinode, ⟨hzero, hrun⟩ | ⟨hne, hrun⟩⟩
    · rw [bind_of_ok hrun, if_pos ha]
      exact ⟨_, _, rfl, Nat.le_succ_of_le weight_cons_le⟩
    · rw [bind_of_ok hrun, if_pos rfl]
      refine ⟨_, _, rfl, ?_⟩
      show weight ((s'.inode ip).copy.addr NDIRECT) _ ≤ weight ((s.inode ip).copy.addr NDIRECT) l + 2
      rw [hinode, ← hzero]
      exact weight_pair
    -- A new indirect block: it and its bitmap block have been counted already.
    have hcopy := addr_setCopy (Nat.lt_succ_self NDIRECT) hb ip s'
    rw [if_pos rfl] at hcopy
    obtain ⟨e, p', hentry, hweight⟩ := @entry_weight sb ip _ (b :: bblock sb b :: l) b _ (bn - NDIRECT) hne hcopy
    rw [bind_of_ok (hrun.trans rfl), if_neg hne, lift_get_bind]
    refine ⟨e, p', hentry, ?_⟩
    have hnew : weight b (b :: bblock sb b :: l) ≤ weight 0 l := weight_new hne
    show _ ≤ weight ((s.inode ip).copy.addr NDIRECT) l + 2
    rw [ha]
    omega
  · rw [bind_of_ok (orBalloc_found ha), if_neg ha, lift_get_bind]
    exact entry_weight ha rfl

/-! ## The loop -/

/-- In how many pieces `n` bytes from `off` on are written. -/
def pieces (off n : Nat) : Nat := if n = 0 then 0 else (off % BSIZE + n + BSIZE - 1) / BSIZE

theorem pieces_step (h : n ≠ 0) :
    pieces off n = pieces (off + min n (BSIZE - off % BSIZE)) (n - min n (BSIZE - off % BSIZE)) + 1 := by
  unfold pieces BSIZE
  rw [if_neg h]
  split <;> omega

theorem writeLoop_weight (src : List UInt8) (s : State) (l : List Nat) (hoff : off + n ≤ MAXFILE * BSIZE) (hk : n ≤ k) :
    ∃ r p', writeLoop sb ip k src off n (s, l) = .ok (r, p') ∧ Weight ip p' ≤ Weight ip (s, l) + 2 * pieces off n ∧
      (n ≠ 0 → blockAddr s.disk (s.inode ip).copy (off / BSIZE) ≠ 0 →
        Weight ip p' + 1 ≤ Weight ip (s, l) + 2 * pieces off n) := by
  induction k generalizing src s l off n with
  | zero =>
    have hzero : n = 0 := Nat.le_zero.1 hk
    exact ⟨0, (s, l), rfl, Nat.le_add_right _ _, fun hn => absurd hzero hn⟩
  | succ k ih =>
    by_cases hn : n = 0
    · subst hn
      exact ⟨0, (s, l), rfl, Nat.le_add_right _ _, fun hn => absurd rfl hn⟩
    have hbn : off / BSIZE < MAXFILE := by
      unfold BSIZE at *
      omega
    -- What `bmap` and the block itself add: one if the block is there, and else two.
    obtain ⟨addr, s₁, l₁, hrun, hnew, hold⟩ : ∃ addr s₁ l₁, bmap sb ip (off / BSIZE) (s, l) = .ok (addr, s₁, l₁) ∧
        Weight ip (s₁, addr :: l₁) ≤ Weight ip (s, l) + 2 ∧
        (blockAddr s.disk (s.inode ip).copy (off / BSIZE) ≠ 0 → Weight ip (s₁, addr :: l₁) ≤ Weight ip (s, l) + 1) := by
      by_cases hfound : blockAddr s.disk (s.inode ip).copy (off / BSIZE) = 0
      · obtain ⟨addr, p', hrun, hweight⟩ := bmap_weight hbn s l
        exact ⟨addr, p'.1, p'.2, hrun, hweight, fun hne => absurd hfound hne⟩
      · exact ⟨_, _, _, bmap_found hfound, Nat.le_succ_of_le weight_cons_le, fun _ => weight_cons_le⟩
    have hstop : Weight ip (s₁, l₁) ≤ Weight ip (s₁, addr :: l₁) := weight_le_cons
    obtain ⟨c, hc⟩ : ∃ c, c = min n (BSIZE - off % BSIZE) := ⟨_, rfl⟩
    have hpos : 0 < c := by
      unfold BSIZE at hc
      omega
    have hpieces : pieces off n = pieces (off + c) (n - c) + 1 := by
      rw [hc]
      exact pieces_step hn
    unfold writeLoop
    rw [if_neg hn, bind_of_ok hrun]
    by_cases hzero : addr = 0
    · rw [if_pos hzero]
      refine ⟨0, _, rfl, by omega, fun _ hne => ?_⟩
      have hone := hold hne
      omega
    -- The inode is not changed by what is copied into the block.
    obtain ⟨s₂, hs₂⟩ : ∃ s₂, s₂ = s₁.setDisk (store s₁.disk (addr * BSIZE + off % BSIZE) (src.take c)) := ⟨_, rfl⟩
    have hcopied : (lift (modify fun s => s.setDisk (store s.disk (addr * BSIZE + off % BSIZE) (src.take c))) : LogSys Unit)
        (s₁, l₁) = .ok ((), s₂, l₁) := by
      rw [hs₂]
      rfl
    have hsame : ∀ l', Weight ip (s₂, l') = Weight ip (s₁, l') := by
      rw [hs₂]
      exact fun _ => rfl
    simp only [← hc]
    rw [if_neg hzero, bind_of_ok hcopied]
    by_cases hfault : src.length < c
    · rw [if_pos hfault]
      have hweight := hsame l₁
      refine ⟨0, _, rfl, by omega, fun _ hne => ?_⟩
      have hone := hold hne
      omega
    have hlogged : logWrite addr (s₂, l₁) = .ok ((), s₂, addr :: l₁) := rfl
    obtain ⟨r, p', hrest, hweight, -⟩ := @ih (n - c) (off + c) (src.drop c) s₂ (addr :: l₁) (by omega) (by omega)
    have hafter := hsame (addr :: l₁)
    rw [if_neg hfault, bind_of_ok hlogged, bind_of_ok hrest]
    refine ⟨c + r, p', rfl, by omega, fun _ hne => ?_⟩
    have hone := hold hne
    omega

/-! ## A piece of a write -/

theorem pieces_le (off : Nat) (hn : n ≤ maxWrite) : pieces off n ≤ 4 ∧ (off % BSIZE = 0 → pieces off n ≤ 3) := by
  have hmax : maxWrite = 3 * 1024 := by decide
  unfold pieces BSIZE
  split <;> omega

theorem writei_logged (src : List UInt8) (off : Nat) (s : State) (hn : n ≤ maxWrite)
    (hno : NoHoles s.disk (s.inode ip).copy (s.inode ip).copy.size.toNat) :
    ∃ r s' l, writei sb ip src off n (s, []) = .ok (r, s', l) ∧ l.toFinset.card ≤ MAXOPBLOCKS := by
  unfold writei
  rw [lift_get_bind]
  by_cases hguard : (s.inode ip).copy.size.toNat < off ∨ (off + n) % 2 ^ 32 < off
  · rw [if_pos hguard]
    exact ⟨_, _, _, rfl, by decide⟩
  rw [if_neg hguard]
  by_cases hmax : MAXFILE * BSIZE < off + n
  · rw [if_pos hmax]
    exact ⟨_, _, _, rfl, by decide⟩
  obtain ⟨tot, ⟨s₁, l₁⟩, hrun, hbound, hfirst⟩ :=
    @writeLoop_weight sb ip n n off src s [] (Nat.le_of_not_lt hmax) (Nat.le_refl n)
  have hstart : Weight ip (s, []) ≤ 2 := weight_nil
  have hcard : l₁.toFinset.card ≤ Weight ip (s₁, l₁) := card_le_weight
  have hpieces := pieces_le off hn
  -- A write that does not start with a block starts inside of one that is there.
  have hnine : l₁.toFinset.card ≤ 9 := by
    by_cases haligned : off % BSIZE = 0
    · have hthree := hpieces.2 haligned
      omega
    by_cases hzero : n = 0
    · have hnone : pieces off n = 0 := if_pos hzero
      omega
    have hblock : off / BSIZE * BSIZE < (s.inode ip).copy.size.toNat := by
      unfold BSIZE at *
      omega
    have hone := hfirst hzero (hno _ hblock)
    omega
  have hten : ∀ b, (b :: l₁).toFinset.card ≤ MAXOPBLOCKS := by
    intro b
    have hinsert := Finset.card_insert_le b l₁.toFinset
    rw [toFinset_cons]
    show _ ≤ 10
    omega
  rw [if_neg hmax, bind_of_ok hrun, lift_get_bind]
  by_cases hgrow : (s₁.inode ip).copy.size.toNat < off + tot
  · rw [if_pos hgrow]
    exact ⟨_, _, _, rfl, hten _⟩
  · rw [if_neg hgrow]
    exact ⟨_, _, _, rfl, hten _⟩

/-- Between `begin_op` and `end_op`, `filewrite` logs no more than what is reserved. -/
theorem filewritePiece_logged {f : Fin NFILE} {n1 : Nat} (href : 0 < (s.inode ip).ref)
    (hlock : (s.inode ip).locked = false) (htype : (inodeOf sb s ip).type ≠ 0)
    (hno : NoHoles s.disk (inodeOf sb s ip) (inodeOf sb s ip).size.toNat) (hn : n1 ≤ maxWrite) (src : List UInt8) :
    ∃ r s' l, filewritePiece sb f ip src n1 (s, []) = .ok (r, s', l) ∧ l.toFinset.card ≤ MAXOPBLOCKS := by
  obtain ⟨s₁, hs₁⟩ : ∃ s₁, s₁ = s.setInode ip
    { s.inode ip with locked := true, valid := true, copy := inodeOf sb s ip } := ⟨_, rfl⟩
  have hself : s₁.inode ip = { s.inode ip with locked := true, valid := true, copy := inodeOf sb s ip } := by
    rw [hs₁, setInode_self]
  have hilock : ilock sb ip s = .ok ((), s₁) := by
    rw [ilock_run href hlock htype, hs₁]
  have hno₁ : NoHoles s₁.disk (s₁.inode ip).copy (s₁.inode ip).copy.size.toNat := by
    rw [hself, hs₁]
    exact hno
  obtain ⟨r, s₂, l, hrun, hcard⟩ := @writei_logged sb ip n1 src (s₁.file f).off s₁ hn hno₁
  -- The lock is still held, since the plain `writei` leaves it alone.
  have hplain : Fs.writei sb ip src (s₁.file f).off n1 s₁ = .ok (r, s₂) := by
    have herase := @erases_writei sb ip src (s₁.file f).off n1 (s₁, [])
    rw [hrun] at herase
    exact herase.symm
  have hentry := ((stable_entry (s.inode ip).ref true).writei src).ok (s := s₁) ⟨by rw [hself], by rw [hself]⟩ hplain
  have htail : ∀ t : State, t.inode = s₂.inode → (do
      lift (iunlock ip)
      pure r : LogSys Int) (t, l) = .ok (r, t.setInode ip { t.inode ip with locked := false }, l) := by
    intro t ht
    have hunlock : iunlock ip t = .ok ((), t.setInode ip { t.inode ip with locked := false }) := by
      unfold iunlock
      rw [get_bind, if_neg]
      · rfl
      rw [ht, hentry.1, hentry.2]
      rintro (hnot | hlt)
      · exact Bool.noConfusion hnot
      · omega
    rw [bind_of_ok (lift_of_ok hunlock)]
    rfl
  unfold filewritePiece
  rw [bind_of_ok (lift_of_ok hilock), lift_get_bind, bind_of_ok hrun]
  by_cases hpos : 0 < r
  · rw [if_pos hpos]
    exact ⟨r, _, l, htail (s₂.setFile f { s₂.file f with off := (s₂.file f).off + r.toNat }) rfl, hcard⟩
  · rw [if_neg hpos]
    exact ⟨r, _, l, htail s₂ rfl, hcard⟩

theorem filewritePiece_logged_twoBytes : ∃ m r s' l,
    filewritePiece Mkfs.sb ⟨0, by decide⟩ ⟨0, by decide⟩ [120, 121, 122] 3 (reading m 2, []) = .ok (r, s', l) ∧
      l.toFinset.card ≤ MAXOPBLOCKS := by
  obtain ⟨m, hm, hheld, -⟩ := exists_twoBytes
  have hopen := openInode_reading hm hheld.lt hheld.type
  have hinode := hopen.coherent.inodeOf hopen.ref
  obtain ⟨r, s', l, hrun, hcard⟩ := @filewritePiece_logged Mkfs.sb ⟨0, by decide⟩ (reading m 2) ⟨0, by decide⟩ 3 hopen.ref
    hopen.unlocked (hinode ▸ hheld.type) (hinode ▸ hm.noHoles 2 hheld.lt hheld.type) (by decide) [120, 121, 122]
  exact ⟨m, r, s', l, hrun, hcard⟩

end Xv6.Fs.Logged
