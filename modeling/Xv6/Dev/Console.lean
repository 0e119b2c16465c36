import Xv6.Lib.Ring
import Xv6.Lib.Runs
import Xv6.Proc.Sleep

/-!
# Console input

`consoleintr` and `consoleread` of `kernel/console.c`.  The interrupt handler holds `cons.lock` from its
beginning to its end, so that it is one step; a reader can be met between any two bytes.  Echoing and the
process list that control-P prints are output, and not modelled.  Whether `either_copyout` succeeds is part of
the action.
-/

namespace Xv6.Console

open Function List Option Runs

def newline : UInt8 := 10
def carriageReturn : UInt8 := 13
/-- `C('D')` -/
def ctrlD : UInt8 := 4
/-- `C('H')` -/
def ctrlH : UInt8 := 8
/-- `C('P')` -/
def ctrlP : UInt8 := 16
/-- `C('U')` -/
def ctrlU : UInt8 := 21
def delete : UInt8 := 127

/-- `cons`, less its lock. -/
structure Cons where
  buf : Fin INPUT_BUF_SIZE → UInt8
  r : BitVec 32
  w : BitVec 32
  e : BitVec 32

/-- `cons.buf[i % INPUT_BUF_SIZE]` -/
def Cons.byte (k : Cons) (i : BitVec 32) : UInt8 := k.buf (Ring.cell INPUT_BUF_SIZE i)

/-! ## The interrupt handler -/

/-- The loop of control-U.  Every round brings `e` nearer to `w`. -/
def killLoop : Nat → Cons → Cons
  | 0, k => k
  | n + 1, k => if k.e ≠ k.w ∧ k.byte (k.e - 1) ≠ newline then killLoop n { k with e := k.e - 1 } else k

inductive Ret where
  | none
  /-- The handler has acted on a character; the flag says that it has filled the buffer. -/
  | key (c : UInt8) (full : Bool)
  /-- A byte has reached the user, and the call has returned if there is a value. -/
  | delivered (c : UInt8) (value : Option Int)
  /-- A control-D has been used up. -/
  | eof (value : Int)
  /-- A byte has been taken from the buffer and could not be copied out. -/
  | lost (c : UInt8) (value : Int)
  | returned (value : Int)
  deriving DecidableEq, Repr

/-- Store a character for consumption by `consoleread`; the flag says that it calls `wakeup`. -/
def accept (k : Cons) (c : UInt8) : Cons × Bool × Ret :=
  let k := { k with buf := update k.buf (Ring.cell INPUT_BUF_SIZE k.e) c, e := k.e + 1 }
  let full := decide ((k.e - k.r).toNat = INPUT_BUF_SIZE)
  if c = newline ∨ c = ctrlD ∨ full = true then ({ k with w := k.e }, true, .key c full)
  else (k, false, .key c full)

def consoleintr (k : Cons) (c : UInt8) : Cons × Bool × Ret :=
  if c = ctrlP then (k, false, .none)
  else if c = ctrlU then (killLoop (k.e - k.w).toNat k, false, .key c false)
  else if c = ctrlH ∨ c = delete then
    if k.e ≠ k.w then ({ k with e := k.e - 1 }, false, .key c false) else (k, false, .key c false)
  else if c ≠ 0 ∧ (k.e - k.r).toNat < INPUT_BUF_SIZE then
    accept k (if c = carriageReturn then newline else c)
  else (k, false, .none)

/-! ## The readers -/

/-- Where a process is in `consoleread`.  `n` and `target` are its variables. -/
inductive Pc where
  | user
  /-- Before `acquire(&cons.lock)`. -/
  | enter (n : BitVec 32)
  /-- Before `n > 0`, with the lock. -/
  | loop (target n : BitVec 32)
  /-- In `sleep`, without the lock. -/
  | asleep (target n : BitVec 32)
  deriving DecidableEq, Repr

structure State where
  cons : Cons
  lock : Option (Fin NPROC)
  proc : Fin NPROC → Thread Unit Pc

def State.setPc (s : State) (p : Fin NPROC) (pc : Pc) : State :=
  { s with proc := update s.proc p { s.proc p with pc := pc } }

/-- `release(&cons.lock)`, and back to the caller. -/
def State.leave (s : State) (p : Fin NPROC) : State := { s.setPc p .user with lock := none }

def advance (s : State) (p : Fin NPROC) (target n : BitVec 32) (copied : Bool) : State × Ret :=
  if n.toInt ≤ 0 then (s.leave p, .returned (target - n).toInt)
  else if s.cons.r = s.cons.w then
    if (s.proc p).killed then (s.leave p, .returned (-1))
    else
      ({ s with proc := update s.proc p ((s.proc p).sleep () (.asleep target n)), lock := none }, .none)
  else
    let c := s.cons.byte s.cons.r
    let s := { s with cons := { s.cons with r := s.cons.r + 1 } }
    if c = ctrlD then
      if n < target then
        -- Save ^D for next time, to make sure caller gets a 0-byte result.
        (({ s with cons := { s.cons with r := s.cons.r - 1 } } : State).leave p, .returned (target - n).toInt)
      else (s.leave p, .eof (target - n).toInt)
    else if copied = false then (s.leave p, .lost c (target - n).toInt)
    else if c = newline then (s.leave p, .delivered c (some (target - (n - 1)).toInt))
    else (s.setPc p (.loop target (n - 1)), .delivered c none)

/-! ## The transition system -/

inductive Act where
  | intr (c : UInt8)
  | read (p : Fin NPROC) (n : BitVec 32)
  | acquire (p : Fin NPROC)
  | advance (p : Fin NPROC) (copied : Bool)
  /-- The scheduler has picked the process again, and it gets the lock. -/
  | resume (p : Fin NPROC)
  | kill (p : Fin NPROC)
  deriving DecidableEq, Repr

abbrev Event := Act × Ret

def exec (s : State) : Act → Option (State × Ret)
  | .intr c =>
    if s.lock = none then
      let r := consoleintr s.cons c
      some ({ s with cons := r.1, proc := if r.2.1 then fun p => (s.proc p).wake () else s.proc }, r.2.2)
    else none
  | .read p n => if (s.proc p).pc = .user then some (s.setPc p (.enter n), .none) else none
  | .acquire p =>
    match (s.proc p).pc with
    | .enter n => if s.lock = none then some ({ s.setPc p (.loop n n) with lock := some p }, .none) else none
    | _ => none
  | .advance p copied =>
    match (s.proc p).pc with
    | .loop target n => some (advance s p target n copied)
    | _ => none
  | .resume p =>
    match (s.proc p).pc with
    | .asleep target n =>
      if s.lock = none ∧ (s.proc p).state ≠ .sleeping then
        some ({ s with proc := update s.proc p ((s.proc p).resume (.loop target n)), lock := some p }, .none)
      else none
    | _ => none
  | .kill p => some ({ s with proc := update s.proc p (s.proc p).kill }, .none)

abbrev Step : State → Event → State → Prop := Exec exec

/-- After `consoleinit`, with no process in the console code. -/
def boot : State where
  cons := { buf := fun _ => 0, r := 0, w := 0, e := 0 }
  lock := none
  proc := fun _ => { state := .running, chan := none, killed := false, pc := .user }

/-! ## A line editor

What the console is meant to be.  The line that is being typed can be edited; with its end it is committed, and
from then on nothing changes it.
-/

structure Editor where
  out : List UInt8
  line : List UInt8
  deriving DecidableEq, Repr

/-- `full` says that there is no room for another character, so that the line has to end here. -/
def Editor.key (ed : Editor) (c : UInt8) (full : Bool) : Editor :=
  if c = ctrlU then { ed with line := [] }
  else if c = ctrlH ∨ c = delete then { ed with line := ed.line.dropLast }
  else if c = newline ∨ c = ctrlD ∨ full = true then { out := ed.out ++ (ed.line ++ [c]), line := [] }
  else { ed with line := ed.line ++ [c] }

def Ret.edit : Ret → Editor → Editor
  | .key c full, ed => ed.key c full
  | _, ed => ed

def edited (tr : List Event) : Editor := tr.foldl (fun ed ev => ev.2.edit ed) { out := [], line := [] }

def Ret.bytes : Ret → List UInt8
  | .delivered c _ => [c]
  | .eof _ => [ctrlD]
  | _ => []

def delivered (tr : List Event) : List UInt8 := tr.flatMap fun ev => ev.2.bytes

/-- The bytes in `[i, j)`. -/
def Cons.between (k : Cons) (i j : BitVec 32) : List UInt8 := Ring.window k.buf i (j - i).toNat

/-- The characters that only remove others. -/
def erases (c : UInt8) : Prop := c = ctrlU ∨ c = ctrlH ∨ c = delete

/-- What console input is meant to be, in runs of `step`. -/
def InputDiscipline (step : State → Event → State → Prop) : Prop :=
  ∀ tr s, Run step boot tr s →
    ((s.cons.w - s.cons.r).toNat ≤ (s.cons.e - s.cons.r).toNat ∧ (s.cons.e - s.cons.r).toNat ≤ INPUT_BUF_SIZE) ∧
    (∀ c ret s', erases c → step s (.intr c, ret) s' →
      s'.cons.r = s.cons.r ∧ s'.cons.w = s.cons.w ∧ s'.cons.buf = s.cons.buf ∧
        s'.cons.between s'.cons.w s'.cons.e <+: s.cons.between s.cons.w s.cons.e) ∧
    delivered tr ++ s.cons.between s.cons.r s.cons.w = (edited tr).out ∧
    (∀ p copied value s', step s (.advance p copied, .eof value) s' → value = 0) ∧
    ∀ p copied c value s', step s (.advance p copied, .delivered c value) s' → c ≠ ctrlD

/-! ## The buffer holds the editor's text -/

/-- The bytes `taken` have left the buffer; what remains is the rest of the committed text and the line. -/
structure Holds (k : Cons) (ed : Editor) (taken : List UInt8) : Prop where
  ring : Ring.Represents k.buf k.r k.e (ed.out ++ ed.line) taken.length
  write : k.w = BitVec.ofNat 32 ed.out.length
  taken_out : taken <+: ed.out
  line_open : newline ∉ ed.line

theorem size_dvd : INPUT_BUF_SIZE ∣ 2 ^ 32 := by decide

theorem size_lt : INPUT_BUF_SIZE < 2 ^ 32 := by decide

variable {c : UInt8} {copied : Bool}

section Holds

variable {k : Cons} {ed : Editor} {taken : List UInt8}

section

variable (h : Holds k ed taken)

include h

theorem Holds.length_le :
    taken.length ≤ ed.out.length ∧ ed.out.length + ed.line.length ≤ taken.length + INPUT_BUF_SIZE := by
  have hput := h.ring.put_le
  rw [length_append] at hput
  exact ⟨h.taken_out.length_le, hput⟩

theorem Holds.edit : k.e = BitVec.ofNat 32 (ed.out.length + ed.line.length) := by
  rw [h.ring.put_eq, length_append]

theorem Holds.edit_sub_read : (k.e - k.r).toNat = ed.out.length + ed.line.length - taken.length := by
  rw [h.ring.toNat_sub size_lt, length_append]

theorem Holds.write_sub_read : (k.w - k.r).toNat = ed.out.length - taken.length := by
  have hlen := h.length_le
  have hsize := size_lt
  rw [h.write, h.ring.taken_eq]
  exact Ring.toNat_ofNat_sub hlen.1 (by omega)

theorem Holds.edit_sub_write : (k.e - k.w).toNat = ed.line.length := by
  have hlen := h.length_le
  have hsize := size_lt
  rw [h.edit, h.write, Ring.toNat_ofNat_sub (by omega) (by omega)]
  omega

theorem Holds.edit_eq_write_iff : k.e = k.w ↔ ed.line = [] := by
  have hlen := h.length_le
  have hsize := size_lt
  rw [eq_comm, h.edit, h.write, Ring.ofNat_inj_of_le (by omega) (by omega), ← length_eq_zero_iff]
  omega

theorem Holds.read_eq_write_iff : k.r = k.w ↔ taken = ed.out := by
  have hlen := h.length_le
  have hsize := size_lt
  rw [h.ring.taken_eq, h.write, Ring.ofNat_inj_of_le hlen.1 (by omega)]
  constructor
  · exact h.taken_out.eq_of_length
  · intro heq
    rw [heq]

theorem Holds.ring_open (hroom : (k.e - k.r).toNat < INPUT_BUF_SIZE) : k.e ≠ k.r + BitVec.ofNat 32 INPUT_BUF_SIZE := by
  have hlen := h.length_le
  rw [h.edit_sub_read] at hroom
  rw [Ne, h.ring.isFull_iff size_lt, length_append]
  omega

theorem Holds.between_read_write : taken ++ k.between k.r k.w = ed.out := by
  obtain ⟨rest, hrest⟩ := h.taken_out
  have hlen : ed.out.length = taken.length + rest.length := by
    rw [← hrest, length_append]
  have hwindow : k.between k.r k.w = rest := by
    rw [Cons.between, h.write_sub_read, h.ring.taken_eq,
      h.ring.window_eq size_dvd (Nat.le_refl _) (by rw [length_append]; omega), ← hrest,
      append_assoc, drop_left, length_append, Nat.add_sub_cancel_left, take_left]
  rw [hwindow, hrest]

theorem Holds.between_write_edit : k.between k.w k.e = ed.line := by
  rw [Cons.between, h.edit_sub_write, h.write,
    h.ring.window_eq size_dvd h.length_le.1 (by rw [length_append]), drop_left, take_length]

theorem Holds.erase {l : List UInt8} {x : UInt8} (hline : ed.line = l ++ [x]) :
    Holds { k with e := k.e - 1 } { ed with line := l } taken where
  ring := by
    have hring := h.ring
    rw [hline, ← append_assoc] at hring
    exact hring.unput (by rw [length_append]; have hlen := h.length_le; omega)
  write := h.write
  taken_out := h.taken_out
  line_open hmem := h.line_open (by rw [hline]; exact mem_append_left _ hmem)

theorem Holds.byte_last {l : List UInt8} {x : UInt8} (hline : ed.line = l ++ [x]) : k.byte (k.e - 1) = x := by
  have hring := h.ring
  rw [hline, ← append_assoc] at hring
  exact hring.last size_dvd (by rw [length_append]; have hlen := h.length_le; omega)

end

theorem killLoop_frame (n : Nat) (k : Cons) :
    (killLoop n k).buf = k.buf ∧ (killLoop n k).r = k.r ∧ (killLoop n k).w = k.w := by
  induction n generalizing k with
  | zero => exact ⟨rfl, rfl, rfl⟩
  | succ n ih =>
    rw [killLoop]
    split
    · exact ih _
    · exact ⟨rfl, rfl, rfl⟩

section

variable (h : Holds k ed taken)

include h

theorem Holds.killLoop : Holds (killLoop (k.e - k.w).toNat k) { ed with line := [] } taken := by
  rw [h.edit_sub_write]
  -- Over the length of the line; the last character goes first.
  generalize hn : ed.line.length = n
  induction n generalizing k ed with
  | zero =>
    have hnil : ed.line = [] := length_eq_zero_iff.1 hn
    rw [← hnil]
    exact h
  | succ n ih =>
    rcases eq_nil_or_concat ed.line with hnil | ⟨l, x, hline⟩
    · rw [hnil] at hn
      cases hn
    rw [concat_eq_append] at hline
    have hopen : x ≠ newline := by
      intro heq
      apply h.line_open
      rw [hline, heq]
      simp
    have hne : k.e ≠ k.w := by
      rw [Ne, h.edit_eq_write_iff, hline]
      simp
    rw [Console.killLoop, if_pos ⟨hne, by rw [h.byte_last hline]; exact hopen⟩]
    apply ih (h.erase hline)
    rw [hline, length_append, length_singleton] at hn
    exact Nat.succ.inj hn

theorem Holds.type (hroom : (k.e - k.r).toNat < INPUT_BUF_SIZE)
    (hc : c ≠ newline) : Holds { k with buf := update k.buf (Ring.cell INPUT_BUF_SIZE k.e) c, e := k.e + 1 }
      { ed with line := ed.line ++ [c] } taken where
  ring := by
    rw [← append_assoc]
    exact h.ring.put size_dvd size_lt (h.ring_open hroom) c
  write := h.write
  taken_out := h.taken_out
  line_open := by
    rw [mem_append, mem_singleton]
    rintro (hmem | rfl)
    · exact h.line_open hmem
    · exact hc rfl

theorem Holds.commit (hroom : (k.e - k.r).toNat < INPUT_BUF_SIZE) :
    Holds { k with buf := update k.buf (Ring.cell INPUT_BUF_SIZE k.e) c, e := k.e + 1, w := k.e + 1 }
      { out := ed.out ++ (ed.line ++ [c]), line := [] } taken where
  ring := by
    rw [append_nil, ← append_assoc]
    exact h.ring.put size_dvd size_lt (h.ring_open hroom) c
  write := by
    show k.e + 1 = _
    rw [h.edit, length_append, length_append, length_singleton, ← Nat.add_assoc]
    exact (BitVec.ofNat_add _ _).symm
  taken_out := h.taken_out.trans (prefix_append _ _)
  line_open := not_mem_nil

theorem Holds.accept (hroom : (k.e - k.r).toNat < INPUT_BUF_SIZE)
    (hu : c ≠ ctrlU) (hh : ¬ (c = ctrlH ∨ c = delete)) : Holds (accept k c).1 ((accept k c).2.2.edit ed) taken := by
  unfold Console.accept
  dsimp only
  split
  · rename_i hend
    rw [Ret.edit, Editor.key, if_neg hu, if_neg hh, if_pos hend]
    exact h.commit hroom
  · rename_i hopen
    rw [Ret.edit, Editor.key, if_neg hu, if_neg hh, if_neg hopen]
    exact h.type hroom fun heq => hopen (.inl heq)

theorem Holds.intr (c : UInt8) : Holds (consoleintr k c).1 ((consoleintr k c).2.2.edit ed) taken := by
  unfold consoleintr
  split_ifs with hp hu hh hne hroom hcr
  · exact h
  · rw [Ret.edit, Editor.key, if_pos hu]
    exact h.killLoop
  · rcases eq_nil_or_concat ed.line with hnil | ⟨l, x, hline⟩
    · exact absurd (h.edit_eq_write_iff.2 hnil) hne
    · rw [concat_eq_append] at hline
      rw [Ret.edit, Editor.key, if_neg hu, if_pos hh, hline, dropLast_concat]
      exact h.erase hline
  · have hnil : ed.line = [] := h.edit_eq_write_iff.1 (not_not.1 hne)
    rw [Ret.edit, Editor.key, if_neg hu, if_pos hh, hnil, dropLast_nil, ← hnil]
    exact h
  -- A newline in place of a carriage return erases nothing either.
  · exact h.accept hroom.2 (by decide) (by decide)
  · exact h.accept hroom.2 hu hh
  · exact h

theorem Holds.take (hne : k.r ≠ k.w) : Holds { k with r := k.r + 1 } ed (taken ++ [k.byte k.r]) := by
  obtain ⟨rest, hrest⟩ := h.taken_out
  have hpos : rest ≠ [] := by
    intro hnil
    rw [hnil, append_nil] at hrest
    exact hne (h.read_eq_write_iff.2 hrest)
  have hedit : k.r ≠ k.e := by
    rw [Ne, h.ring.isEmpty_iff size_lt, ← hrest]
    have hlen := length_pos_of_ne_nil hpos
    simp only [length_append]
    omega
  obtain ⟨hbyte, hring⟩ := h.ring.take size_dvd size_lt hedit
  obtain ⟨x, tail, rfl⟩ := exists_cons_of_ne_nil hpos
  rw [← hrest, append_assoc, getElem?_append_right (Nat.le_refl _), Nat.sub_self] at hbyte
  have hx : x = k.byte k.r := some.inj hbyte
  refine ⟨?_, h.write, ?_, h.line_open⟩
  · rw [length_append, length_singleton]
    exact hring
  · rw [← hrest, hx]
    exact (prefix_append_right_inj taken).2 (prefix_append [k.byte k.r] tail)

end

end Holds

/-! ## Rounds of the readers -/

section Advance

variable {s : State} {p : Fin NPROC} {target n : BitVec 32} {ed : Editor} {taken : List UInt8}

theorem edit_advance (copied : Bool) : (advance s p target n copied).2.edit ed = ed := by
  unfold advance
  dsimp only
  split_ifs <;> rfl

theorem Holds.advance (h : Holds s.cons ed taken) :
    Holds (advance s p target n true).1.cons ed (taken ++ (advance s p target n true).2.bytes) := by
  have hnone : Holds s.cons ed (taken ++ []) := by rwa [append_nil]
  unfold Console.advance
  dsimp only
  -- Three exits take nothing, and the fourth puts the control-D back.
  split_ifs with hdone hempty hkilled hd hmore hfault hnl
  · exact hnone
  · exact hnone
  · exact hnone
  · show Holds { s.cons with r := s.cons.r + 1 - 1 } ed (taken ++ [])
    rw [BitVec.add_sub_cancel]
    exact hnone
  · have hbyte : Holds { s.cons with r := s.cons.r + 1 } ed (taken ++ [ctrlD]) := by
      rw [← hd]
      exact h.take hempty
    exact hbyte
  · exact hfault.elim
  · exact h.take hempty
  · exact h.take hempty

def Pc.Counts : Pc → Prop
  | .loop target n => n.toNat ≤ target.toNat
  | .asleep target n => n.toNat ≤ target.toNat
  | _ => True

theorem counts_advance (copied : Bool) (h : ∀ q, (s.proc q).pc.Counts) (hn : n.toNat ≤ target.toNat) (q : Fin NPROC) :
    ((advance s p target n copied).1.proc q).pc.Counts := by
  have hset : ∀ th : Thread Unit Pc, th.pc.Counts → (update s.proc p th q).pc.Counts := by
    intro th hth
    rw [update_apply]
    split
    · exact hth
    · exact h q
  unfold advance
  dsimp only
  split_ifs with hdone hempty hkilled hd hmore hfault hnl
  · exact hset _ trivial
  · exact hset _ trivial
  · exact hset _ hn
  · exact hset _ trivial
  · exact hset _ trivial
  · exact hset _ trivial
  · exact hset _ trivial
  apply hset
  show (n - 1).toNat ≤ target.toNat
  have hpos : n ≠ 0 := by
    rintro rfl
    exact hdone (by decide)
  bv_omega

theorem eof_advance {v : Int} (hn : n.toNat ≤ target.toNat) (h : (advance s p target n copied).2 = .eof v) : v = 0 := by
  unfold advance at h
  dsimp only at h
  split_ifs at h with hdone hempty hkilled hd hmore hfault hnl
  injection h with h
  rw [← h]
  have hall : target - n = 0 := by bv_omega
  rw [hall]
  rfl

theorem delivered_advance {v : Option Int} (h : (advance s p target n copied).2 = .delivered c v) : c ≠ ctrlD := by
  unfold advance at h
  dsimp only at h
  split_ifs at h with hdone hempty hkilled hd hmore hfault hnl
  all_goals
    injection h with hc
    rwa [← hc]

end Advance

/-! ## Runs -/

structure Inv (tr : List Event) (s : State) : Prop where
  holds : Holds s.cons (edited tr) (delivered tr)
  counts : ∀ p, (s.proc p).pc.Counts

/-- The readers' buffers can be written to. -/
def Writable (_ : State) (ev : Event) : Prop :=
  match ev.1 with
  | .advance _ copied => copied = true
  | _ => True

instance (s : State) (ev : Event) : Decidable (Writable s ev) := by
  unfold Writable
  split <;> infer_instance

section Inv

variable {tr : List Event} {s t : State} {ev : Event}

theorem Inv.boot : Inv [] boot where
  holds := {
    ring := Ring.Represents.empty _
    write := rfl
    taken_out := prefix_rfl
    line_open := not_mem_nil }
  counts _ := trivial

theorem edited_snoc : edited (tr ++ [ev]) = ev.2.edit (edited tr) := by
  rw [edited, foldl_append]
  rfl

theorem delivered_snoc : delivered (tr ++ [ev]) = delivered tr ++ ev.2.bytes := by
  rw [delivered, flatMap_append, flatMap_singleton]
  rfl

theorem bytes_consoleintr (k : Cons) (c : UInt8) : (consoleintr k c).2.2.bytes = [] := by
  have haccept : ∀ c, (accept k c).2.2.bytes = [] := by
    intro c
    unfold accept
    dsimp only
    split <;> rfl
  unfold consoleintr
  split_ifs
  · rfl
  · rfl
  · rfl
  · rfl
  · exact haccept _
  · exact haccept _
  · rfl

theorem Inv.quiet (h : Inv tr s) (hret : ev.2 = .none) (hcons : t.cons = s.cons)
    (hpc : ∀ p, (t.proc p).pc.Counts) : Inv (tr ++ [ev]) t where
  holds := by
    rw [edited_snoc, delivered_snoc, hret, hcons]
    show Holds s.cons (edited tr) (delivered tr ++ [])
    rw [append_nil]
    exact h.holds
  counts := hpc

theorem counts_update (h : ∀ p, (s.proc p).pc.Counts) {p : Fin NPROC} {th : Thread Unit Pc} (hth : th.pc.Counts)
    (q : Fin NPROC) : (update s.proc p th q).pc.Counts := by
  rw [update_apply]
  split
  · exact hth
  · exact h q

theorem Inv.step (h : Inv tr s) (hstep : restrict Writable Step s ev t) : Inv (tr ++ [ev]) t := by
  obtain ⟨a, ret⟩ := ev
  obtain ⟨hgood, hexec⟩ := hstep
  change exec s a = some (t, ret) at hexec
  cases a with
  | intr c =>
    simp only [exec, ite_none_right_eq_some, some.injEq, Prod.mk.injEq] at hexec
    obtain ⟨-, rfl, rfl⟩ := hexec
    constructor
    · rw [edited_snoc, delivered_snoc, bytes_consoleintr, append_nil]
      exact h.holds.intr c
    intro p
    dsimp only
    split
    · rw [Thread.wake_pc]
      exact h.counts p
    · exact h.counts p
  | read =>
    simp only [exec, ite_none_right_eq_some, some.injEq, Prod.mk.injEq] at hexec
    obtain ⟨-, rfl, rfl⟩ := hexec
    exact h.quiet rfl rfl (counts_update h.counts trivial)
  | acquire =>
    simp only [exec] at hexec
    split at hexec
    · simp only [ite_none_right_eq_some, some.injEq, Prod.mk.injEq] at hexec
      obtain ⟨-, rfl, rfl⟩ := hexec
      exact h.quiet rfl rfl (counts_update h.counts (Nat.le_refl _))
    · cases hexec
  | advance p =>
    simp only [exec] at hexec
    split at hexec
    · rename_i target n hpc
      have hn : n.toNat ≤ target.toNat := by
        have hcounts := h.counts p
        rw [hpc] at hcounts
        exact hcounts
      cases hgood
      simp only [some.injEq] at hexec
      have ht : t = (Console.advance s p target n true).1 := by rw [hexec]
      have hr : ret = (Console.advance s p target n true).2 := by rw [hexec]
      constructor
      · rw [edited_snoc, delivered_snoc, hr, edit_advance, ht]
        exact h.holds.advance
      · rw [ht]
        exact counts_advance true h.counts hn
    · cases hexec
  | resume p =>
    simp only [exec] at hexec
    split at hexec
    · rename_i target n hpc
      simp only [ite_none_right_eq_some, some.injEq, Prod.mk.injEq] at hexec
      obtain ⟨-, rfl, rfl⟩ := hexec
      have hn : n.toNat ≤ target.toNat := by
        have hcounts := h.counts p
        rw [hpc] at hcounts
        exact hcounts
      exact h.quiet rfl rfl (counts_update h.counts hn)
    · cases hexec
  | kill p =>
    simp only [exec, some.injEq, Prod.mk.injEq] at hexec
    obtain ⟨rfl, rfl⟩ := hexec
    exact h.quiet rfl rfl (counts_update h.counts (h.counts p))

theorem Inv.of_run (h : Run (restrict Writable Step) Console.boot tr s) : Inv tr s :=
  h.invariant_trace (fun _ _ _ _ h hstep => h.step hstep) .boot

theorem consoleintr_backspace (k : Cons) (hc : c = ctrlH ∨ c = delete) :
    consoleintr k c = (if k.e ≠ k.w then { k with e := k.e - 1 } else k, false, .key c false) := by
  have hother : c ≠ ctrlP ∧ c ≠ ctrlU := by
    rcases hc with rfl | rfl <;> decide
  rw [consoleintr, if_neg hother.1, if_neg hother.2, if_pos hc]
  split <;> rfl

theorem consoleintr_erases {k : Cons} (hc : erases c) :
    (consoleintr k c).1.buf = k.buf ∧ (consoleintr k c).1.r = k.r ∧ (consoleintr k c).1.w = k.w := by
  rcases hc with rfl | hc
  · exact killLoop_frame _ _
  rw [consoleintr_backspace k hc]
  dsimp only
  split <;> exact ⟨rfl, rfl, rfl⟩

theorem line_consoleintr {k : Cons} {ed : Editor} (hc : erases c) :
    ((consoleintr k c).2.2.edit ed).line <+: ed.line := by
  rcases hc with rfl | hc
  · exact nil_prefix
  have hu : c ≠ ctrlU := by
    rcases hc with rfl | rfl <;> decide
  rw [consoleintr_backspace k hc]
  show (ed.key c false).line <+: ed.line
  rw [Editor.key, if_neg hu, if_pos hc]
  exact dropLast_prefix _

theorem Inv.erases {ret : Ret} (h : Inv tr s) (hc : erases c) (hstep : Step s (.intr c, ret) t) :
    t.cons.r = s.cons.r ∧ t.cons.w = s.cons.w ∧ t.cons.buf = s.cons.buf ∧
      t.cons.between t.cons.w t.cons.e <+: s.cons.between s.cons.w s.cons.e := by
  change exec s (.intr c) = some (t, ret) at hstep
  simp only [exec, ite_none_right_eq_some, some.injEq, Prod.mk.injEq] at hstep
  obtain ⟨-, rfl, -⟩ := hstep
  obtain ⟨hbuf, hr, hw⟩ := consoleintr_erases (k := s.cons) hc
  refine ⟨hr, hw, hbuf, ?_⟩
  rw [(h.holds.intr c).between_write_edit, h.holds.between_write_edit]
  exact line_consoleintr hc

theorem Inv.advance {p : Fin NPROC} {ret : Ret} (h : Inv tr s)
    (hstep : Step s (.advance p copied, ret) t) :
    ∃ target n : BitVec 32, n.toNat ≤ target.toNat ∧ (advance s p target n copied).2 = ret := by
  change exec s (.advance p copied) = some (t, ret) at hstep
  simp only [exec] at hstep
  split at hstep
  · rename_i target n hpc
    have hcounts := h.counts p
    rw [hpc] at hcounts
    injection hstep with hstep
    exact ⟨target, n, hcounts, by rw [hstep]⟩
  · cases hstep

end Inv

/-- While the readers' buffers can be written to, the console is the line editor. -/
theorem inputDiscipline_of_writable (step : State → Event → State → Prop)
    (hsub : ∀ s ev t, step s ev t → restrict Writable Step s ev t) : InputDiscipline step := by
  intro tr s hrun
  have hinv : Inv tr s := Inv.of_run (hrun.mono hsub)
  have hlen := hinv.holds.length_le
  refine ⟨⟨?_, ?_⟩, ?_, hinv.holds.between_read_write, ?_, ?_⟩
  · rw [hinv.holds.write_sub_read, hinv.holds.edit_sub_read]
    omega
  · rw [hinv.holds.edit_sub_read]
    omega
  · intro c ret s' hc hstep
    exact hinv.erases hc (hsub _ _ _ hstep).2
  · intro p copied value s' hstep
    obtain ⟨target, n, hn, hret⟩ := hinv.advance (hsub _ _ _ hstep).2
    exact eof_advance hn hret
  · intro p copied c value s' hstep
    obtain ⟨target, n, -, hret⟩ := hinv.advance (hsub _ _ _ hstep).2
    exact delivered_advance hret

theorem inputDiscipline_of_writable_steps : InputDiscipline (restrict Writable Step) ∧
    ∃ s tr, Run (restrict Writable Step) boot tr s ∧ (delivered tr == [97, newline, ctrlD]) = true := by
  refine ⟨inputDiscipline_of_writable _ fun _ _ _ h => h, ?_⟩
  have hcheck : (execs (guarded Writable exec) boot
      [.intr 98, .intr ctrlH, .intr 97, .read 0 5, .acquire 0, .advance 0 true, .intr carriageReturn, .intr ctrlD,
        .resume 0, .advance 0 true, .advance 0 true, .read 0 5, .acquire 0, .advance 0 true]).any
      (fun r => delivered r.2 == [97, newline, ctrlD]) = true := by
    decide +kernel
  exact Run.of_any_execs hcheck

/-- A line is typed and read into a buffer that is not mapped: the byte has left the console and has not
arrived. -/
theorem not_inputDiscipline : ¬ InputDiscipline Step := by
  intro h
  let acts : List Act := [.intr 97, .intr newline, .read 0 5, .acquire 0, .advance 0 false]
  have hcheck : (execs (guarded (fun _ _ => True) exec) boot acts).any (fun r =>
      delivered r.2 ++ r.1.cons.between r.1.cons.r r.1.cons.w != (edited r.2).out) = true := by
    decide +kernel
  obtain ⟨s, tr, hrun, hne⟩ := Run.of_any_execs hcheck
  have heq := (h tr s (hrun.mono fun _ _ _ hstep => hstep.2)).2.2.1
  simp only [heq, bne_self_eq_false, Bool.false_eq_true] at hne

end Xv6.Console
