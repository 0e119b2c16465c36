import Mathlib.Data.UInt
import Xv6.Fs.Model
import Xv6.Lib.Runs

/-!
# One offset for several processes

`fileread` and `filewrite` of `kernel/file.c` on a `struct file` of type `FD_INODE` that any number of processes
share.  The offset is read and advanced with the inode locked, and a long write lets go of the lock after each piece.
What `bmap` finds, how far a copy from or to user memory gets and what others do to the inode is part of the action.
-/

namespace Xv6.Offset

open Fs Function List Runs

/-- What happens to the block of a round. -/
inductive Fate where
  | copied
  /-- `bmap` returns 0. -/
  | noBlock
  /-- The copy fails, after some bytes. -/
  | fault (k : Nat)

/-- A `uint` returned as an `int`. -/
def toInt (tot : Nat) : Int := (BitVec.ofNat 32 tot).toInt

/-- An `int` passed as a `uint`. -/
def toUint (n : Int) : UInt32 := UInt32.ofNat (n % 2 ^ 32).toNat

def piece (off n tot : Nat) : Nat := min (n - tot) (BSIZE - off % BSIZE)

/-- The loop of `readi`.  Every round copies a byte at least. -/
def readLoop (fate : Nat → Fate) : Nat → Nat → Nat → Nat → Int
  | 0, _, _, tot => toInt tot
  | fuel + 1, off, n, tot =>
    if tot < n then
      match fate tot with
      | .noBlock => toInt tot
      | .fault _ => -1
      | .copied => readLoop fate fuel (off + piece off n tot) n (tot + piece off n tot)
    else toInt tot

/-- `n`, or as much as the file has. -/
def limit (size off n : UInt32) : UInt32 := if off + n > size then size - off else n

def readi (size off n : UInt32) (fate : Nat → Fate) : Int :=
  if off > size ∨ off + n < off then 0
  else readLoop fate (limit size off n).toNat off.toNat (limit size off n).toNat 0

abbrev Data : Type := Nat → UInt8

def Data.overwrite (data : Data) (off m : Nat) (src : Nat → UInt8) : Data :=
  fun a => if off ≤ a ∧ a < off + m then src (a - off) else data a

/-- The loop of `writei`: the data, `off` and `tot` at its end. -/
def writeLoop (fate : Nat → Fate) (src : Nat → UInt8) : Nat → Data → Nat → Nat → Nat → Data × Nat × Nat
  | 0, data, off, _, tot => (data, off, tot)
  | fuel + 1, data, off, n, tot =>
    let m := piece off n tot
    if tot < n then
      match fate tot with
      | .noBlock => (data, off, tot)
      | .fault k => (data.overwrite off (min k m) (fun j => src (tot + j)), off, tot)
      | .copied => writeLoop fate src fuel (data.overwrite off m (fun j => src (tot + j))) (off + m) n (tot + m)
    else (data, off, tot)

def writei (size : UInt32) (data : Data) (off n : UInt32) (fate : Nat → Fate) (src : Nat → UInt8) :
    Int × UInt32 × Data :=
  if off > size ∨ off + n < off then (-1, size, data)
  else if (off + n).toNat > MAXFILE * BSIZE then (-1, size, data)
  else
    let w := writeLoop fate src n.toNat data off.toNat n.toNat 0
    (toInt w.2.2, if w.2.1 > size.toNat then UInt32.ofNat w.2.1 else size, w.1)

def pieceOf (n : Int) (i : Nat) : Int := if n - i > maxWrite then maxWrite else n - i

/-- Where a process is in `fileread(f, addr, n)` or `filewrite(f, addr, n)`. -/
inductive Pc where
  | user
  /-- In `ilock`. -/
  | rLock (n : Int)
  /-- Before the arguments of `readi` are evaluated. -/
  | rCall (n : Int)
  /-- In `readi`. -/
  | rBody (n : Int) (off : UInt32)
  /-- `readi` has returned. -/
  | rRet (off : UInt32) (r : Int)
  /-- Before `iunlock`. -/
  | rUnlock (r : Int)
  /-- Before `i < n`. -/
  | wLoop (n : Int) (i : Nat)
  | wLock (n : Int) (i : Nat)
  | wCall (n : Int) (i : Nat)
  | wBody (n : Int) (i : Nat) (off : UInt32)
  | wRet (n : Int) (i : Nat) (off : UInt32) (r : Int)
  | wUnlock (n : Int) (i : Nat) (r : Int)
  /-- Before `r != n1`. -/
  | wTest (n : Int) (i : Nat) (r : Int)
  deriving DecidableEq, Repr

structure State (τ : Type) where
  readable : Bool
  writable : Bool
  off : UInt32
  size : UInt32
  data : Data
  lock : Option τ
  pc : τ → Pc

/-- The bytes that a call of `readi` or `writei` has dealt with. -/
structure Chunk where
  write : Bool
  off : Nat
  len : Nat
  deriving DecidableEq, Repr

inductive Ret where
  | none
  | chunk (c : Chunk)
  | returned (value : Int)
  deriving DecidableEq, Repr

inductive Act (τ : Type) where
  | read (p : τ) (n : Int)
  | write (p : τ) (n : Int)
  | step (p : τ) (fate : Nat → Fate) (src : Nat → UInt8)
  /-- The inode is used in another way. -/
  | other (size : UInt32) (data : Data)

abbrev Event (τ : Type) := Act τ × Ret

section System

variable {τ : Type} [DecidableEq τ]

def State.goto (s : State τ) (p : τ) (pc : Pc) : State τ := { s with pc := update s.pc p pc }

/-- `if(r > 0) f->off += r` -/
def State.advance (s : State τ) (write : Bool) (off : UInt32) (r : Int) : State τ × Ret :=
  if 0 < r then ({ s with off := s.off + toUint r }, .chunk { write := write, off := off.toNat, len := r.toNat })
  else (s, .none)

def run (s : State τ) (p : τ) (fate : Nat → Fate) (src : Nat → UInt8) : Option (State τ × Ret) :=
  match s.pc p with
  | .user => none
  | .rLock n => if s.lock = none then some ({ s.goto p (.rCall n) with lock := some p }, .none) else none
  | .rCall n => some (s.goto p (.rBody n s.off), .none)
  | .rBody n off => some (s.goto p (.rRet off (readi s.size off (toUint n) fate)), .none)
  | .rRet off r =>
    let u := s.advance false off r
    some (u.1.goto p (.rUnlock r), u.2)
  | .rUnlock r => some ({ s.goto p .user with lock := none }, .returned r)
  | .wLoop n i =>
    if i < n then some (s.goto p (.wLock n i), .none)
    else some (s.goto p .user, .returned (if i = n then n else -1))
  | .wLock n i => if s.lock = none then some ({ s.goto p (.wCall n i) with lock := some p }, .none) else none
  | .wCall n i => some (s.goto p (.wBody n i s.off), .none)
  | .wBody n i off =>
    let w := writei s.size s.data off (toUint (pieceOf n i)) fate fun j => src (i + j)
    some ({ s.goto p (.wRet n i off w.1) with size := w.2.1, data := w.2.2 }, .none)
  | .wRet n i off r =>
    let u := s.advance true off r
    some (u.1.goto p (.wUnlock n i r), u.2)
  | .wUnlock n i r => some ({ s.goto p (.wTest n i r) with lock := none }, .none)
  | .wTest n i r =>
    if r ≠ pieceOf n i then some (s.goto p .user, .returned (if i = n then n else -1))
    else some (s.goto p (.wLoop n (i + r.toNat)), .none)

def exec (s : State τ) : Act τ → Option (State τ × Ret)
  | .read p n =>
    if s.pc p = .user then
      if s.readable = false then some (s, .returned (-1)) else some (s.goto p (.rLock n), .none)
    else none
  | .write p n =>
    if s.pc p = .user then
      if s.writable = false then some (s, .returned (-1)) else some (s.goto p (.wLoop n 0), .none)
    else none
  | .step p fate src => run s p fate src
  | .other size data => if s.lock = none then some ({ s with size := size, data := data }, .none) else none

variable (τ) in
abbrev Step : State τ → Event τ → State τ → Prop := Exec exec

omit [DecidableEq τ] in
/-- The file is open, and nobody is in `fileread` or `filewrite`. -/
def opened (readable writable : Bool) (off size : UInt32) (data : Data) : State τ where
  readable := readable
  writable := writable
  off := off
  size := size
  data := data
  lock := none
  pc _ := .user

/-! ## What is meant to hold -/

def Ret.chunks : Ret → List Chunk
  | .chunk c => [c]
  | _ => []

/-- The chunks, in the order in which they ran. -/
def chunks (tr : List (Event τ)) : List Chunk := tr.flatMap fun ev => ev.2.chunks

/-- Each chunk begins where the one before it ends. -/
def Consecutive : Nat → List Chunk → Prop
  | _, [] => True
  | off, c :: cs => c.off = off ∧ 0 < c.len ∧ Consecutive (off + c.len) cs

variable (τ) in
/-- The offset hands out consecutive ranges, and no step of a process changes a byte of a range that has been
handed out. -/
def SharedOffset : Prop :=
  ∀ readable writable off size data tr s, Run (Step τ) (opened readable writable off size data) tr s →
    Consecutive off.toNat (chunks tr) ∧
    (chunks tr).Pairwise (fun c d => c.off + c.len ≤ d.off) ∧
    s.off.toNat = off.toNat + ((chunks tr).map Chunk.len).sum ∧
    ∀ p fate src ret t, Step τ s (.step p fate src, ret) t → ∀ a, t.data a ≠ s.data a →
      ∀ c ∈ chunks tr, c.off + c.len ≤ a

end System

/-! ## What `readi` and `writei` return -/

theorem toInt_le (tot : Nat) : toInt tot ≤ tot := by
  unfold toInt
  rw [BitVec.toInt_eq_toNat_cond, BitVec.toNat_ofNat]
  split <;> omega

theorem piece_le (off n tot : Nat) : piece off n tot ≤ n - tot := Nat.min_le_left _ _

theorem readLoop_le (fate : Nat → Fate) (fuel off n tot : Nat) (htot : tot ≤ n) : readLoop fate fuel off n tot ≤ n := by
  induction fuel generalizing off tot with
  | zero =>
    have hle := toInt_le tot
    rw [readLoop]
    omega
  | succ fuel ih =>
    have hle := toInt_le tot
    rw [readLoop]
    split
    · split
      · omega
      · omega
      · have hpiece := piece_le off n tot
        exact ih _ _ (by omega)
    · omega

variable {size off n : UInt32} {fate : Nat → Fate} {src : Nat → UInt8} {data : Data}

theorem add_of_guard (hguard : ¬ (off > size ∨ off + n < off)) :
    off.toNat ≤ size.toNat ∧ (off + n).toNat = off.toNat + n.toNat ∧ off.toNat + n.toNat < 2 ^ 32 := by
  rw [not_or, gt_iff_lt, UInt32.lt_iff_toNat_lt, UInt32.lt_iff_toNat_lt, UInt32.toNat_add] at hguard
  rw [UInt32.toNat_add]
  have hoff := off.toNat_lt
  have hn := n.toNat_lt
  omega

theorem toNat_limit (hguard : ¬ (off > size ∨ off + n < off)) : (limit size off n).toNat =
    if size.toNat < off.toNat + n.toNat then size.toNat - off.toNat else n.toNat := by
  obtain ⟨hoff, hadd, -⟩ := add_of_guard hguard
  unfold limit
  simp only [gt_iff_lt, UInt32.lt_iff_toNat_lt, hadd, apply_ite UInt32.toNat, UInt32.toNat_sub_of_le _ _ hoff]

theorem readi_le (hpos : 0 < readi size off n fate) : off.toNat + (readi size off n fate).toNat ≤ size.toNat := by
  unfold readi at hpos ⊢
  split at hpos
  · omega
  rename_i hguard
  have hlimit : off.toNat + (limit size off n).toNat ≤ size.toNat := by
    have hoff := (add_of_guard hguard).1
    rw [toNat_limit hguard]
    split <;> omega
  have hloop := readLoop_le fate (limit size off n).toNat off.toNat (limit size off n).toNat 0 (Nat.zero_le _)
  rw [if_neg hguard]
  omega

theorem overwrite_before (data : Data) {off a : Nat} (m : Nat) (src : Nat → UInt8) (ha : a < off) :
    data.overwrite off m src a = data a :=
  if_neg fun h => absurd h.1 (Nat.not_le.mpr ha)

theorem writeLoop_before (fate : Nat → Fate) (src : Nat → UInt8) (fuel : Nat) (data : Data) (off n tot : Nat)
    {a : Nat} (ha : a < off) : (writeLoop fate src fuel data off n tot).1 a = data a := by
  induction fuel generalizing data off tot with
  | zero => rfl
  | succ fuel ih =>
    rw [writeLoop]
    split
    · split
      · rfl
      · dsimp only
        rw [overwrite_before data _ _ ha]
      · rw [ih _ _ _ (Nat.lt_add_right _ ha), overwrite_before data _ _ ha]
    · rfl

theorem writeLoop_le (fate : Nat → Fate) (src : Nat → UInt8) (fuel : Nat) (data : Data) (off n tot : Nat)
    (htot : tot ≤ n) : (writeLoop fate src fuel data off n tot).2.2 ≤ n := by
  induction fuel generalizing data off tot with
  | zero => exact htot
  | succ fuel ih =>
    rw [writeLoop]
    split
    · split
      · exact htot
      · exact htot
      · have hpiece := piece_le off n tot
        exact ih _ _ _ (by omega)
    · exact htot

theorem writei_le
    (hpos : 0 < (writei size data off n fate src).1) :
    off.toNat + (writei size data off n fate src).1.toNat < 2 ^ 32 := by
  unfold writei at hpos ⊢
  split at hpos
  · exact absurd (show (0 : Int) < -1 from hpos) (by decide)
  rename_i hguard
  obtain ⟨hoff, hadd, hlt⟩ := add_of_guard hguard
  split at hpos
  · exact absurd (show (0 : Int) < -1 from hpos) (by decide)
  rename_i hmax
  rw [if_neg hguard, if_neg hmax]
  have hloop := writeLoop_le fate src n.toNat data off.toNat n.toNat 0 (Nat.zero_le _)
  have hle := toInt_le (writeLoop fate src n.toNat data off.toNat n.toNat 0).2.2
  show off.toNat + (toInt (writeLoop fate src n.toNat data off.toNat n.toNat 0).2.2).toNat < 2 ^ 32
  omega

theorem writei_before {a : Nat} (ha : a < off.toNat) : (writei size data off n fate src).2.2 a = data a := by
  unfold writei
  split
  · rfl
  · split
    · rfl
    · exact writeLoop_before fate src _ data _ _ _ ha

/-! ## The invariant -/

/-- Whether the inode is locked by the process. -/
def Pc.locked : Pc → Bool
  | .rCall .. | .rBody .. | .rRet .. | .rUnlock .. | .wCall .. | .wBody .. | .wRet .. | .wUnlock .. => true
  | .user | .rLock .. | .wLoop .. | .wLock .. | .wTest .. => false

/-- The offset that has been read, until `f->off` is advanced. -/
def Pc.arg : Pc → Option UInt32
  | .rBody _ off | .rRet off _ | .wBody _ _ off | .wRet _ _ off _ => some off
  | _ => none

/-- What will be added to the offset. -/
def Pc.result : Pc → Int
  | .rRet _ r | .wRet _ _ _ r => r
  | _ => 0

section Invariant

variable {τ : Type} [DecidableEq τ]

/-- A process that has read the offset holds the lock, and the offset is still the same. -/
structure Inv (off : Nat) (tr : List (Event τ)) (s : State τ) : Prop where
  lock : ∀ p, (s.pc p).locked = true ↔ s.lock = some p
  arg : ∀ p o, (s.pc p).arg = some o → o = s.off
  result : ∀ p, 0 < (s.pc p).result → s.off.toNat + (s.pc p).result.toNat < 2 ^ 32
  consecutive : Consecutive off (chunks tr)
  sum : s.off.toNat = off + ((chunks tr).map Chunk.len).sum

variable {cs : List Chunk} {pc : Pc}

theorem consecutive_snoc {off : Nat} {c : Chunk} (h : Consecutive off cs)
    (hoff : c.off = off + (cs.map Chunk.len).sum) (hpos : 0 < c.len) : Consecutive off (cs ++ [c]) := by
  induction cs generalizing off with
  | nil => exact ⟨hoff, hpos, trivial⟩
  | cons d cs ih =>
    refine ⟨h.1, h.2.1, ih h.2.2 ?_⟩
    rw [hoff, map_cons, sum_cons]
    omega

theorem Consecutive.end_le {off : Nat} (h : Consecutive off cs) :
    ∀ c ∈ cs, c.off + c.len ≤ off + (cs.map Chunk.len).sum := by
  induction cs generalizing off with
  | nil => exact nofun
  | cons d cs ih =>
    intro c hc
    rw [map_cons, sum_cons]
    rcases mem_cons.mp hc with rfl | hc
    · rw [h.1]
      omega
    · have hend := ih h.2.2 c hc
      omega

theorem Consecutive.le_off {off : Nat} (h : Consecutive off cs) : ∀ c ∈ cs, off ≤ c.off := by
  induction cs generalizing off with
  | nil => exact nofun
  | cons d cs ih =>
    intro c hc
    rcases mem_cons.mp hc with rfl | hc
    · exact h.1.ge
    · have hle := ih h.2.2 c hc
      omega

theorem Consecutive.pairwise {off : Nat} (h : Consecutive off cs) : cs.Pairwise fun c d => c.off + c.len ≤ d.off := by
  induction cs generalizing off with
  | nil => exact List.Pairwise.nil
  | cons c cs ih =>
    refine List.Pairwise.cons (fun d hd => ?_) (ih h.2.2)
    rw [h.1]
    exact h.2.2.le_off d hd

variable {off : Nat} {tr : List (Event τ)} {s t : State τ} {p : τ} {ret : Ret} {a : Act τ}

omit [DecidableEq τ] in
theorem chunks_snoc (tr : List (Event τ)) (a : Act τ) (ret : Ret) :
    chunks (tr ++ [(a, ret)]) = chunks tr ++ ret.chunks := by
  unfold chunks
  rw [flatMap_append, flatMap_singleton]

omit [DecidableEq τ] in
theorem opened_inv (readable writable : Bool) (off size : UInt32) (data : Data) :
    Inv off.toNat [] (opened readable writable off size data : State τ) where
  lock _ := ⟨nofun, nofun⟩
  arg _ _ h := absurd h nofun
  result _ h := absurd h (Int.lt_irrefl 0)
  consecutive := trivial
  sum := rfl

section

variable (hinv : Inv off tr s) (hret : ret.chunks = [])

include hinv hret

variable {size : UInt32}

omit [DecidableEq τ] in
theorem Inv.stay : Inv off (tr ++ [(a, ret)]) { s with size := size, data := data } := by
  have hchunks : chunks (tr ++ [(a, ret)]) = chunks tr := by
    rw [chunks_snoc, hret, append_nil]
  refine ⟨hinv.lock, hinv.arg, hinv.result, ?_, ?_⟩
  · rw [hchunks]
    exact hinv.consecutive
  · rw [hchunks]
    exact hinv.sum

theorem Inv.goto {lock : Option τ} (hmine : pc.locked = true ↔ lock = some p)
    (hothers : ∀ q, q ≠ p → (lock = some q ↔ s.lock = some q)) (harg : ∀ o, pc.arg = some o → o = s.off)
    (hresult : 0 < pc.result → s.off.toNat + pc.result.toNat < 2 ^ 32) :
    Inv off (tr ++ [(a, ret)]) { s.goto p pc with lock := lock, size := size, data := data } := by
  have hstay : Inv off (tr ++ [(a, ret)]) s := hinv.stay hret
  refine ⟨?_, ?_, ?_, hstay.consecutive, hstay.sum⟩
  · intro q
    show (update s.pc p pc q).locked = true ↔ lock = some q
    by_cases hq : q = p
    · rw [hq, update_self]
      exact hmine
    · rw [update_of_ne hq, hinv.lock, hothers q hq]
  · intro q o
    show (update s.pc p pc q).arg = some o → o = s.off
    by_cases hq : q = p
    · rw [hq, update_self]
      exact harg o
    · rw [update_of_ne hq]
      exact hinv.arg q o
  intro q
  show 0 < (update s.pc p pc q).result → s.off.toNat + (update s.pc p pc q).result.toNat < 2 ^ 32
  by_cases hq : q = p
  · rw [hq, update_self]
    exact hresult
  · rw [update_of_ne hq]
    exact hinv.result q

theorem Inv.goto_same (hsame : pc.locked = (s.pc p).locked) (harg : ∀ o, pc.arg = some o → o = s.off)
    (hresult : 0 < pc.result → s.off.toNat + pc.result.toNat < 2 ^ 32) :
    Inv off (tr ++ [(a, ret)]) { s.goto p pc with size := size, data := data } :=
  hinv.goto hret (hsame ▸ hinv.lock p) (fun _ _ => Iff.rfl) harg hresult

end

theorem Inv.acquire (hinv : Inv off tr s) (hfree : s.lock = none) (hlocked : pc.locked = true)
    (harg : pc.arg = none) (hresult : pc.result = 0) :
    Inv off (tr ++ [(a, .none)]) { s.goto p pc with lock := some p } := by
  refine hinv.goto rfl ⟨fun _ => rfl, fun _ => hlocked⟩ (fun q hq => ?_) (fun o ho => ?_) fun hpos => ?_
  · rw [hfree]
    exact ⟨fun h => absurd (Option.some.inj h).symm hq, nofun⟩
  · rw [harg] at ho
    exact absurd ho nofun
  · omega

theorem Inv.release (hinv : Inv off tr s) (hret : ret.chunks = []) (hheld : (s.pc p).locked = true)
    (hunlocked : pc.locked = false) (harg : pc.arg = none) (hresult : pc.result = 0) :
    Inv off (tr ++ [(a, ret)]) { s.goto p pc with lock := none } := by
  have hlock := (hinv.lock p).mp hheld
  refine hinv.goto hret ⟨fun h => ?_, nofun⟩ (fun q hq => ?_) (fun o ho => ?_) fun hpos => ?_
  · rw [hunlocked] at h
    exact absurd h Bool.false_ne_true
  · rw [hlock]
    exact ⟨nofun, fun h => absurd (Option.some.inj h).symm hq⟩
  · rw [harg] at ho
    exact absurd ho nofun
  · omega

theorem Pc.locked_of_arg {o : UInt32} (h : pc.arg = some o) : pc.locked = true := by
  cases pc <;> first | rfl | cases h

theorem Pc.locked_of_result (h : 0 < pc.result) : pc.locked = true := by
  cases pc <;> first | rfl | exact absurd h (Int.lt_irrefl 0)

theorem toNat_toUint {r : Int} (h0 : 0 ≤ r) (hr : r.toNat < 2 ^ 32) : (toUint r).toNat = r.toNat := by
  unfold toUint
  rw [Int.emod_eq_of_lt (by omega) (by omega), UInt32.toNat_ofNat_of_lt' hr]

theorem Inv.advance {o : UInt32} {r : Int} {write : Bool} (hinv : Inv off tr s)
    (hold : (s.pc p).arg = some o ∧ (s.pc p).result = r) (hlocked : pc.locked = true) (harg : pc.arg = none)
    (hresult : pc.result = 0) :
    Inv off (tr ++ [(a, (s.advance write o r).2)]) ((s.advance write o r).1.goto p pc) := by
  have hheld := Pc.locked_of_arg hold.1
  have ho := hinv.arg p o hold.1
  unfold State.advance
  split
  · rename_i hpos
    have hwrap : s.off.toNat + r.toNat < 2 ^ 32 := by
      have hres := hinv.result p
      rw [hold.2] at hres
      exact hres hpos
    have hoff : (s.off + toUint r).toNat = s.off.toNat + r.toNat := by
      rw [UInt32.toNat_add, toNat_toUint (Int.le_of_lt hpos) (by omega), Nat.mod_eq_of_lt hwrap]
    -- nobody else holds the lock, so that nobody else has read the offset
    have hother : ∀ q, q ≠ p → (s.pc q).locked ≠ true := by
      intro q hq hlq
      have heq := ((hinv.lock q).mp hlq).symm.trans ((hinv.lock p).mp hheld)
      exact hq (Option.some.inj heq)
    refine ⟨?_, ?_, ?_, ?_, ?_⟩
    · intro q
      show (update s.pc p pc q).locked = true ↔ s.lock = some q
      by_cases hq : q = p
      · rw [hq, update_self, hlocked, ← hinv.lock p, hheld]
      · rw [update_of_ne hq, hinv.lock]
    · intro q o' hq'
      by_cases hq : q = p
      · rw [hq] at hq'
        have hself : (update s.pc p pc p).arg = some o' := hq'
        rw [update_self, harg] at hself
        exact absurd hself nofun
      · have hself : (update s.pc p pc q).arg = some o' := hq'
        rw [update_of_ne hq] at hself
        exact absurd (Pc.locked_of_arg hself) (hother q hq)
    · intro q hpos'
      by_cases hq : q = p
      · rw [hq] at hpos'
        have hself : 0 < (update s.pc p pc p).result := hpos'
        rw [update_self, hresult] at hself
        exact absurd hself (Int.lt_irrefl 0)
      · have hself : 0 < (update s.pc p pc q).result := hpos'
        rw [update_of_ne hq] at hself
        exact absurd (Pc.locked_of_result hself) (hother q hq)
    · rw [chunks_snoc]
      refine consecutive_snoc hinv.consecutive ?_ (by show 0 < r.toNat; omega)
      show o.toNat = _
      rw [ho, hinv.sum]
    · rw [chunks_snoc]
      show (s.off + toUint r).toNat = off + ((chunks tr ++ [_]).map Chunk.len).sum
      rw [hoff, hinv.sum, map_append, sum_append, map_singleton, sum_singleton, Nat.add_assoc]
  refine hinv.goto_same rfl (by rw [hlocked, hheld]) (fun o ho => ?_) fun hpos => ?_
  · rw [harg] at ho
    exact absurd ho nofun
  · omega

theorem Inv.run (hinv : Inv off tr s)
    (hrun : Offset.run s p fate src = some (t, ret)) : Inv off (tr ++ [(.step p fate src, ret)]) t := by
  unfold Offset.run at hrun
  split at hrun
  case h_1 => cases hrun
  case h_2 | h_8 =>
    split_ifs at hrun with hfree
    cases hrun
    exact hinv.acquire hfree rfl rfl rfl
  case h_3 hpc | h_9 hpc =>
    cases hrun
    exact hinv.goto_same rfl (by rw [hpc]; rfl) (fun o ho => (Option.some.inj ho).symm) nofun
  case h_4 hpc | h_10 hpc =>
    cases hrun
    have ho := hinv.arg p _ (by rw [hpc]; rfl)
    refine hinv.goto_same rfl (by rw [hpc]; rfl) (fun o' ho' => ?_) fun hpos => ?_
    · rw [← Option.some.inj ho', ho]
    rw [← ho]
    first
    | exact Nat.lt_of_le_of_lt (readi_le hpos) (UInt32.toNat_lt _)
    | exact writei_le hpos
  case h_5 hpc | h_11 hpc =>
    cases hrun
    exact hinv.advance (by rw [hpc]; exact ⟨rfl, rfl⟩) rfl rfl rfl
  case h_6 hpc | h_12 hpc =>
    cases hrun
    exact hinv.release rfl (by rw [hpc]; rfl) rfl rfl rfl
  case h_7 hpc | h_13 hpc =>
    split_ifs at hrun
    all_goals cases hrun
    all_goals exact hinv.goto_same rfl (by rw [hpc]; rfl) nofun nofun

theorem Inv.step {ev : Event τ} (hinv : Inv off tr s) (hstep : Step τ s ev t) : Inv off (tr ++ [ev]) t := by
  obtain ⟨a, ret⟩ := ev
  cases a with
  | read | write =>
    simp only [Step, Exec, exec] at hstep
    split_ifs at hstep with hpc hflag
    all_goals cases hstep
    · exact hinv.stay rfl
    · exact hinv.goto_same rfl (by rw [hpc]; rfl) nofun nofun
  | step => exact hinv.run hstep
  | other =>
    simp only [Step, Exec, exec] at hstep
    split_ifs at hstep with hfree
    cases hstep
    exact hinv.stay rfl

omit [DecidableEq τ] in
theorem advance_data (s : State τ) (write : Bool) (o : UInt32) (r : Int) : (s.advance write o r).1.data = s.data := by
  unfold State.advance
  split <;> rfl

theorem Inv.data_of_run {x : Nat} (hinv : Inv off tr s)
    (hrun : Offset.run s p fate src = some (t, ret)) (hx : x < s.off.toNat) : t.data x = s.data x := by
  unfold Offset.run at hrun
  split at hrun
  all_goals rename_i hpc
  case h_10 =>
    cases hrun
    rw [← hinv.arg p _ (by rw [hpc]; rfl)] at hx
    exact writei_before hx
  case h_5 | h_11 =>
    cases hrun
    exact congrFun (advance_data s _ _ _) x
  all_goals try split_ifs at hrun
  all_goals cases hrun
  all_goals rfl

end Invariant

/-- Reads and writes through one `struct file` deal with consecutive ranges, whichever processes they belong to;
a write does not change a byte that has been dealt with. -/
theorem sharedOffset_of_lock (τ : Type) [DecidableEq τ] : SharedOffset τ := by
  intro readable writable off size data tr s hrun
  have hinv : Inv off.toNat tr s :=
    hrun.invariant_trace (P := Inv off.toNat) (fun _ _ _ _ hinv hstep => hinv.step hstep) (opened_inv ..)
  refine ⟨hinv.consecutive, hinv.consecutive.pairwise, hinv.sum, ?_⟩
  intro p fate src ret t hstep x hx c hc
  have hle : s.off.toNat ≤ x := by
    by_contra hlt
    exact hx (hinv.data_of_run hstep (Nat.lt_of_not_le hlt))
  have hend := hinv.consecutive.end_le c hc
  rw [← hinv.sum] at hend
  exact Nat.le_trans hend hle

/-- Two processes write, the second while the first is between two pieces; then a third reads. -/
theorem sharedOffset_of_lock_three : SharedOffset (Fin 3) ∧
    ∃ s tr, Run (Step (Fin 3)) (opened true true 0 5000 0) tr s ∧
      chunks tr = [⟨true, 0, 3072⟩, ⟨true, 3072, 10⟩, ⟨true, 3082, 928⟩, ⟨false, 4010, 990⟩] := by
  refine ⟨sharedOffset_of_lock (Fin 3), ?_⟩
  let go (p : Fin 3) : Act (Fin 3) := .step p (fun _ => .copied) (fun _ => 7)
  let acts : List (Act (Fin 3)) :=
    [.write 0 4000, .write 1 10, .read 2 2000] ++ replicate 7 (go 0) ++ replicate 7 (go 1) ++
      replicate 6 (go 0) ++ replicate 5 (go 2)
  have hcheck : (execs (guarded (fun _ _ => True) exec) (opened true true 0 5000 0) acts).any (fun r =>
      chunks r.2 == [⟨true, 0, 3072⟩, ⟨true, 3072, 10⟩, ⟨true, 3082, 928⟩, ⟨false, 4010, 990⟩]) = true := by
    decide +kernel
  obtain ⟨s, tr, hrun, htr⟩ := Run.of_any_execs hcheck
  exact ⟨s, tr, hrun.mono fun _ _ _ hstep => hstep.2, eq_of_beq htr⟩

end Xv6.Offset
