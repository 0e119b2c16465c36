import Mathlib.Data.List.Basic
import Mathlib.Logic.Function.Basic
import Mathlib.Tactic.Common

/-!
# `custom_cp`

`cmd_cp` of `custom_cp.c` opens the destination, which empties it, while it has the source open, and looks at no result
of `fwrite` and `fclose`.  The copy is the source if the two are different files and every byte that is read is written.
-/

namespace Xv6.Cp

open Function List

variable {π ι : Type}

/-- What the paths name, and what is in the files.  A file may have several names. -/
structure Files (π ι : Type) where
  inode : π → Option ι
  data : ι → List UInt8

/-- What the machine answers: which files can be opened, the file that a new name gets, what the user types, how many
bytes every `fread` and `fwrite` can move, and how many bytes of the stream there is room for on the disk. -/
structure Host (π ι : Type) where
  readable : ι → Bool
  writable : ι → Bool
  create : π → Option ι
  choice : Char
  delivers : Nat → Nat
  accepts : Nat → Nat
  flushes : Nat

inductive Message where
  | usage
  | cannotOpen
  | cancelled
  | cannotCreate
  | copied
  deriving DecidableEq

def Files.contents (fs : Files π ι) (p : π) : Option (List UInt8) := (fs.inode p).map fs.data

/-- `fopen(p, "rb")` -/
def openRead (h : Host π ι) (fs : Files π ι) (p : π) : Option ι := (fs.inode p).filter h.readable

/-- The file that `fopen(p, "wb")` opens. -/
def target (h : Host π ι) (fs : Files π ι) (p : π) : Option ι :=
  match fs.inode p with
  | some i => if h.writable i then some i else none
  | none => h.create p

/-- `fopen(p, "wb")` makes file `i` empty. -/
def truncate [DecidableEq π] [DecidableEq ι] (fs : Files π ι) (p : π) (i : ι) : Files π ι :=
  ⟨update fs.inode p (some i), update fs.data i []⟩

/-- `fread(buffer, 1, 1024, src)` at offset `pos`; it is call number `k`. -/
def fread (h : Host π ι) (fs : Files π ι) (src : ι) (k pos : Nat) : List UInt8 :=
  ((fs.data src).drop pos).take (min 1024 (h.delivers k))

/-- `fwrite(buffer, 1, bytes, dest)`: `stream` is what has been given to `dest` before. -/
def fwrite (h : Host π ι) (k : Nat) (stream buffer : List UInt8) : List UInt8 := stream ++ buffer.take (h.accepts k)

/-- `fclose(dest)`: what the stream still has in its buffer goes to the disk, as far as there is room.  Which bytes have gone
there before makes no difference, since nobody reads them meanwhile. -/
def fclose [DecidableEq ι] (h : Host π ι) (fs : Files π ι) (dest : ι) (stream : List UInt8) : Files π ι :=
  { fs with data := update fs.data dest (stream.take h.flushes) }

-- Every round reads a byte of the source, so that its length bounds the rounds.  The second result is, for every
-- `fwrite`, how many bytes it was given and how many it took.
def copyLoop (h : Host π ι) (fs : Files π ι) (src : ι) : Nat → Nat → Nat → List UInt8 → List UInt8 × List (Nat × Nat)
  | 0, _, _, stream => (stream, [])
  | fuel + 1, k, pos, stream =>
    let buffer := fread h fs src k pos
    if buffer = [] then (stream, [])
    else
      let r := copyLoop h fs src fuel (k + 1) (pos + buffer.length) (fwrite h k stream buffer)
      (r.1, (buffer.length, min buffer.length (h.accepts k)) :: r.2)

/-- What `cmd_cp` returns, the message that it ends with, the files, and the results of `fwrite`. -/
structure Outcome (π ι : Type) where
  ret : Int
  msg : Message
  files : Files π ι
  writes : List (Nat × Nat)

def cmdCp [DecidableEq π] [DecidableEq ι] (h : Host π ι) (args : List π) (fs : Files π ι) : Outcome π ι :=
  match args with
  | [source, destination] =>
    match openRead h fs source with
    | none => ⟨1, .cannotOpen, fs, []⟩
    | some src =>
      if (openRead h fs destination).isSome ∧ h.choice ≠ 'y' ∧ h.choice ≠ 'Y' then ⟨0, .cancelled, fs, []⟩
      else
        match target h fs destination with
        | none => ⟨1, .cannotCreate, fs, []⟩
        | some dest =>
          let fs := truncate fs destination dest
          let r := copyLoop h fs src (fs.data src).length 0 0 []
          ⟨0, .copied, fclose h fs dest r.1, r.2⟩
  | _ => ⟨1, .usage, fs, []⟩

/-- A reported success means a copy, and short writes are reported. -/
structure Preserves (fs : Files π ι) (source destination : π) (o : Outcome π ι) : Prop where
  copy : o.ret = 0 → o.msg = .copied →
    o.files.contents destination = fs.contents source ∧ o.files.contents source = fs.contents source
  short : (∃ w ∈ o.writes, w.2 < w.1) → o.ret ≠ 0

/-- How far the first `k` calls of `fread` get in a file that is long enough. -/
def offset (h : Host π ι) : Nat → Nat
  | 0 => 0
  | k + 1 => offset h k + min 1024 (h.delivers k)

/-- The `k`th round moves bytes of a file of length `len`, and all that it reads, if it gets to read something. -/
def Moves (h : Host π ι) (len k : Nat) : Prop :=
  offset h k < len → 0 < h.delivers k ∧ min (min 1024 (h.delivers k)) (len - offset h k) ≤ h.accepts k

/-- If there is something to copy, the two paths name different files, no `fread` fails, every `fwrite` takes all the bytes
it is given, and all of them find room on the disk. -/
def Lossless (h : Host π ι) (fs : Files π ι) (source destination : π) : Prop :=
  ∀ src dest, openRead h fs source = some src →
    ¬ ((openRead h fs destination).isSome ∧ h.choice ≠ 'y' ∧ h.choice ≠ 'Y') → target h fs destination = some dest →
    fs.data src = [] ∨ src ≠ dest ∧ (∀ k, Moves h (fs.data src).length k) ∧ (fs.data src).length ≤ h.flushes

section Loop

variable {h : Host π ι} {src : ι} {fs : Files π ι} {fuel k pos len : Nat} {l stream : List UInt8}

theorem offset_mono {j : Nat} (hkj : k ≤ j) : offset h k ≤ offset h j := by
  induction hkj with
  | refl => exact Nat.le_refl _
  | step _ ih => exact Nat.le_trans ih (Nat.le_add_right _ _)

theorem moves_of_le (hpos : pos = min len (offset h k)) (hle : len ≤ pos) : ∀ j ≥ k, Moves h len j := by
  intro j hj hlt
  have hmono : offset h k ≤ offset h j := offset_mono hj
  omega

-- By induction on the rounds: `pos` is as far as the first `k` reads have got.
theorem copyLoop_moves (hlen : len = (fs.data src).length) (hpos : pos = min len (offset h k)) (hfuel : len ≤ pos + fuel) :
    ∃ l w, copyLoop h fs src fuel k pos stream = (stream ++ l, w) ∧ l.length ≤ len - pos ∧
      (l = (fs.data src).drop pos ∧ (∀ x ∈ w, x.1 ≤ x.2) ↔ ∀ j ≥ k, Moves h len j) := by
  have hdone : ∀ {k pos : Nat}, pos = min len (offset h k) → len ≤ pos →
      ([] = (fs.data src).drop pos ∧ (∀ x ∈ ([] : List (Nat × Nat)), x.1 ≤ x.2) ↔ ∀ j ≥ k, Moves h len j) := fun hpos hle =>
    iff_of_true ⟨(drop_eq_nil_of_le (hlen ▸ hle)).symm, fun _ hx => absurd hx not_mem_nil⟩ (moves_of_le hpos hle)
  induction fuel generalizing k pos stream with
  | zero => exact ⟨[], [], by rw [append_nil]; rfl, Nat.zero_le _, hdone hpos hfuel⟩
  | succ fuel ih =>
    have hread : fread h fs src k pos = ((fs.data src).drop pos).take (min 1024 (h.delivers k)) := rfl
    unfold copyLoop
    dsimp only
    by_cases hle : len ≤ pos
    · have hnil : fread h fs src k pos = [] := by rw [hread, drop_eq_nil_of_le (hlen ▸ hle), take_nil]
      rw [if_pos hnil]
      exact ⟨[], [], by rw [append_nil], Nat.zero_le _, hdone hpos hle⟩
    have hlength : (fread h fs src k pos).length = min (min 1024 (h.delivers k)) (len - pos) := by
      rw [hread, length_take, length_drop, hlen]
    have hhere : pos = offset h k := by omega
    by_cases hnil : fread h fs src k pos = []
    · -- The read fails before the end of the file.
      rw [hnil, length_nil] at hlength
      rw [if_pos hnil]
      refine ⟨[], [], by rw [append_nil], Nat.zero_le _, iff_of_false (fun hall => ?_) fun hall => ?_⟩
      · have hdrop := congrArg length hall.1
        rw [length_nil, length_drop] at hdrop
        omega
      · have hmoves := (hall k (Nat.le_refl k) (by omega)).1
        omega
    have hsome := length_pos_iff.mpr hnil
    have hsplit : fread h fs src k pos ++ (fs.data src).drop (pos + (fread h fs src k pos).length) =
        (fs.data src).drop pos := by
      rw [← drop_drop]
      exact prefix_iff_eq_append.mp ( take_prefix _ _)
    have hnext : pos + (fread h fs src k pos).length = min len (offset h (k + 1)) := by
      rw [offset]
      omega
    obtain ⟨l, w, hrun, hl, hiff⟩ := @ih _ _ (fwrite h k stream (fread h fs src k pos)) hnext (by omega)
    rw [if_neg hnil, hrun, fwrite, append_assoc]
    refine ⟨_, _, rfl, ?_, ?_⟩
    · rw [length_append, length_take]
      omega
    have hhead : (∀ j ≥ k, Moves h len j) ↔ (fread h fs src k pos).length ≤ h.accepts k ∧ ∀ j ≥ k + 1, Moves h len j := by
      rw [hlength, hhere]
      refine ⟨fun hall => ⟨(hall k (Nat.le_refl k) (by omega)).2, fun j hj => hall j (by omega)⟩, fun ⟨hacc, hrest⟩ j hj => ?_⟩
      obtain rfl | hlt := Nat.eq_or_lt_of_le hj
      · exact fun _ => ⟨by omega, hacc⟩
      · exact hrest j hlt
    rw [hhead, ← hiff, ← hsplit, forall_mem_cons]
    constructor
    · rintro ⟨heq, hfirst, hrest⟩
      have hacc : (fread h fs src k pos).length ≤ h.accepts k := by omega
      rw [take_of_length_le hacc, append_cancel_left_eq] at heq
      exact ⟨hacc, heq, hrest⟩
    · rintro ⟨hacc, heq, hrest⟩
      rw [take_of_length_le hacc, heq]
      exact ⟨rfl, by omega, hrest⟩

end Loop

section Files

variable [DecidableEq π] [DecidableEq ι] {h : Host π ι} {fs : Files π ι} {source destination : π} {src dest : ι}

theorem inode_truncate (hname : fs.inode source = some src) (hdest : target h fs destination = some dest) :
    (truncate fs destination dest).inode source = some src := by
  by_cases hsame : source = destination
  · subst hsame
    unfold target at hdest
    rw [hname] at hdest
    dsimp only at hdest
    split_ifs at hdest
    rw [hdest]
    exact update_self ..
  · rw [← hname]
    exact update_of_ne hsame _ _

/-- What the two paths lead to after the copy. -/
theorem contents_fclose (stream : List UInt8) (hname : fs.inode source = some src) (hdest : target h fs destination = some dest) :
    (fclose h (truncate fs destination dest) dest stream).contents destination = some (stream.take h.flushes) ∧
      (fclose h (truncate fs destination dest) dest stream).contents source =
        some (if src = dest then stream.take h.flushes else fs.data src) := by
  have hsource : (fclose h (truncate fs destination dest) dest stream).inode source = some src := inode_truncate hname hdest
  unfold Files.contents
  rw [hsource]
  refine ⟨?_, congrArg some ?_⟩
  · simp [fclose, truncate]
  show update (update fs.data dest []) dest _ src = _
  by_cases hsame : src = dest
  · rw [if_pos hsame, hsame, update_self]
  · rw [if_neg hsame, update_of_ne hsame, update_of_ne hsame]

/-- The end of a call that copies. -/
theorem copied_preserves_iff (hname : fs.inode source = some src) (hdest : target h fs destination = some dest) :
    let r := copyLoop h (truncate fs destination dest) src ((truncate fs destination dest).data src).length 0 0 []
    Preserves fs source destination ⟨0, .copied, fclose h (truncate fs destination dest) dest r.1, r.2⟩ ↔
      (fs.data src = [] ∨ src ≠ dest ∧ (∀ k, Moves h (fs.data src).length k) ∧ (fs.data src).length ≤ h.flushes) := by
  obtain ⟨l, w, hrun, hl, hiff⟩ := @copyLoop_moves _ _ h src (truncate fs destination dest)
    ((truncate fs destination dest).data src).length 0 0 _ [] rfl (Nat.min_zero _).symm (Nat.le_add_left _ _)
  obtain ⟨hcopy, hsource⟩ := contents_fclose l hname hdest
  have hbefore : fs.contents source = some (fs.data src) := by
    rw [Files.contents, hname]
    rfl
  have hpres : Preserves fs source destination ⟨0, .copied, fclose h (truncate fs destination dest) dest l, w⟩ ↔
      (l.take h.flushes = fs.data src ∧ (if src = dest then l.take h.flushes else fs.data src) = fs.data src) ∧
        ∀ x ∈ w, x.1 ≤ x.2 := by
    rw [← Option.some.injEq (l.take _), ← Option.some.injEq (ite ..), ← hcopy, ← hsource, ← hbefore]
    refine ⟨fun hp => ⟨hp.copy rfl rfl, fun x hx => Nat.le_of_not_lt fun hlt => hp.short ⟨x, hx, hlt⟩ rfl⟩,
      fun ⟨hboth, hw⟩ => ⟨fun _ _ => hboth, fun ⟨x, hx, hlt⟩ => absurd (hw x hx) (Nat.not_le_of_lt hlt)⟩⟩
  have hempty : ∀ j ≥ 0, Moves h 0 j := fun j _ hlt => absurd hlt (Nat.not_lt_zero _)
  dsimp only
  rw [hrun, nil_append, hpres]
  by_cases hsame : src = dest
  · have hdata : (truncate fs destination dest).data src = [] := by
      rw [hsame]
      exact update_self ..
    rw [hdata] at hl hiff
    obtain rfl : l = [] := length_eq_zero_iff.mp (Nat.le_zero.mp hl)
    rw [take_nil, if_pos hsame, and_self, or_iff_left fun hp => hp.1 hsame]
    exact ⟨fun hp => hp.1.symm, fun hp => ⟨hp.symm, (hiff.mpr hempty).2⟩⟩
  have hdata : (truncate fs destination dest).data src = fs.data src := update_of_ne hsame _ _
  rw [hdata] at hl hiff
  rw [if_neg hsame]
  constructor
  · rintro ⟨⟨htake, -⟩, hw⟩
    have hlen := congrArg length htake
    rw [length_take] at hlen
    rw [take_of_length_le (by omega)] at htake
    exact .inr ⟨hsame, fun k => hiff.mp ⟨htake, hw⟩ k (Nat.zero_le k), by omega⟩
  intro hp
  have hgood : (∀ j ≥ 0, Moves h (fs.data src).length j) ∧ (fs.data src).length ≤ h.flushes := by
    obtain hnil | ⟨-, hmoves, hle⟩ := hp
    · rw [hnil]
      exact ⟨hempty, Nat.zero_le _⟩
    · exact ⟨fun j _ => hmoves j, hle⟩
  obtain ⟨heq, hw⟩ := hiff.mpr hgood.1
  rw [heq, drop_zero, take_of_length_le hgood.2]
  exact ⟨⟨rfl, rfl⟩, hw⟩

/-- A reported copy is a copy, and no short write goes unreported, if and only if nothing can be lost. -/
theorem cmdCp_preserves_iff (h : Host π ι) (fs : Files π ι) (source destination : π) :
    Preserves fs source destination (cmdCp h [source, destination] fs) ↔ Lossless h fs source destination := by
  have hfails : ∀ {ret msg}, msg ≠ Message.copied → Preserves fs source destination ⟨ret, msg, fs, []⟩ :=
    fun hmsg => ⟨fun _ hcopied => absurd hcopied hmsg, fun ⟨_, hw, _⟩ => absurd hw not_mem_nil⟩
  unfold cmdCp
  dsimp only
  split
  · next hnone =>
    refine iff_of_true (hfails (by decide)) fun _ _ hsrc => ?_
    rw [hnone] at hsrc
    cases hsrc
  next src hsrc =>
  split
  · next hcancel => exact iff_of_true (hfails (by decide)) fun _ _ _ hgo => absurd hcancel hgo
  next hgo =>
  split
  · next hnone =>
    refine iff_of_true (hfails (by decide)) fun _ _ _ _ hdest => ?_
    rw [hnone] at hdest
    cases hdest
  next dest hdest =>
  refine (copied_preserves_iff (Option.filter_eq_some_iff.mp hsrc).1 hdest).trans ⟨fun hp src' dest' hsrc' _ hdest' => ?_,
    fun hall => hall src dest hsrc hgo hdest⟩
  obtain rfl := Option.some.inj (hsrc.symm.trans hsrc')
  obtain rfl := Option.some.inj (hdest.symm.trans hdest')
  exact hp

end Files

/-- A machine whose user answers `y`, with room for so many bytes in every write and on the disk. -/
def obliging (room disk : Nat) : Host Nat Nat :=
  ⟨fun _ => true, fun _ => true, some, 'y', fun _ => 1024, fun _ => room, disk⟩

/-- A file that is copied to itself is empty afterwards, and nobody hears of a write that is short, or of a disk that has no
room for what the stream has taken. -/
theorem copies_lose_data :
    ¬ Preserves ⟨fun _ => some 0, fun _ => [97]⟩ 0 1 (cmdCp (obliging 1024 1024) [0, 1] ⟨fun _ => some 0, fun _ => [97]⟩) ∧
    ¬ Preserves ⟨some, fun _ => [97]⟩ 0 1 (cmdCp (obliging 0 1024) [0, 1] ⟨some, fun _ => [97]⟩) ∧
    ¬ Preserves ⟨some, fun _ => [97]⟩ 0 1 (cmdCp (obliging 1024 0) [0, 1] ⟨some, fun _ => [97]⟩) := by
  refine ⟨fun hpres => ?_, fun hpres => ?_, fun hpres => ?_⟩
  · exact absurd (hpres.copy rfl rfl).1 (by decide)
  · exact hpres.short ⟨(1, 0), by decide, by decide⟩ rfl
  · exact absurd (hpres.copy rfl rfl).1 (by decide)

end Xv6.Cp
