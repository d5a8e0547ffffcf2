/-
Neoip/FileSys.lean

Open files.

A directory gives a node to the paths which have a file, and a node holds the
content.  What is opened is a node: once the path of it is unlinked, a descriptor
still reads and writes the node, which no path leads to any more.  Two paths never
lead to one node, which is a field of the system.

`byte` is the content seen through the paths, with zeros past the end of a file
and where there is no file.  A write through a descriptor changes the bytes it is
about and no other one (`byte_pwrite`), as the hole it may leave was zeros already;
a file which is created changes none (`byte_openCreate`).
-/
import Mathlib.Data.List.GetD
import Mathlib.Logic.Function.Basic
import Mathlib.Tactic.Common
import Neoip.FileTree

namespace Neoip

variable {π α : Type*}

theorem getD_takeD {n i : ℕ} {l : List α} (a : α) (hi : i < n) :
    (l.takeD n a).getD i a = l.getD i a := by
  induction n generalizing i l with
  | zero => omega
  | succ n ih =>
    cases i with
    | zero => cases l <;> rfl
    | succ i =>
      rw [List.takeD_succ, List.getD_cons_succ, ih (by omega)]
      cases l <;> rfl

/-- What an updated table has. -/
theorem update_eq_some {ι : Type*} [DecidableEq ι] {f : ι → Option α} {i j : ι} {a : Option α}
    {b : α} (h : Function.update f i a j = some b) : j = i ∧ a = some b ∨ j ≠ i ∧ f j = some b := by
  by_cases hj : j = i
  · rw [hj, Function.update_self] at h
    exact .inl ⟨hj, h⟩
  · rw [Function.update_of_ne hj] at h
    exact .inr ⟨hj, h⟩

/-- A byte of a content which was written at an offset. -/
theorem getD_writeAt [Zero α] (off : ℕ) (buf data : List α) (i : ℕ) :
    (writeAt off buf data).getD i 0 =
      if off ≤ i ∧ i < off + buf.length then buf.getD (i - off) 0 else data.getD i 0 := by
  by_cases hbuf : buf = []
  · subst hbuf
    rw [writeAt, if_pos rfl, if_neg]
    show ¬ (off ≤ i ∧ i < off + 0)
    omega
  · rw [writeAt, if_neg hbuf, List.append_assoc]
    have hlen : (data.takeD off 0).length = off := List.takeD_length off data 0
    rcases Nat.lt_or_ge i off with hi | hi
    · -- before the write, what was there or the hole
      rw [List.getD_append _ _ _ _ (by omega), if_neg (by omega), getD_takeD 0 hi]
    · rw [List.getD_append_right _ _ _ _ (by omega), hlen]
      rcases Nat.lt_or_ge i (off + buf.length) with hb | hb
      · rw [List.getD_append _ _ _ _ (by omega), if_pos ⟨hi, hb⟩]
      · rw [List.getD_append_right _ _ _ _ (by omega), if_neg (by omega),
          List.getD_eq_getElem?_getD, List.getD_eq_getElem?_getD, List.getElem?_drop]
        congr 2
        omega

/-- The files of a system. -/
structure FileSys (π α : Type*) where
  dir : π → Option ℕ
  node : ℕ → List α
  next : ℕ
  dir_lt : ∀ {p ino}, dir p = some ino → ino < next
  dir_inj : ∀ {p q ino}, dir p = some ino → dir q = some ino → p = q

namespace FileSys

variable {fs : FileSys π α} {p q : π} {ino ino' : ℕ}

/-- The system without a file. -/
def empty : FileSys π α where
  dir _ := none
  node _ := []
  next := 0
  dir_lt := by rintro p ino ⟨⟩
  dir_inj := by rintro p q ino ⟨⟩

/-! ### System calls -/

/-- `open(2)` of a file which is there. -/
def openFile (fs : FileSys π α) (p : π) : Option ℕ := fs.dir p

/-- The system with a new empty file at `p`. -/
def create [DecidableEq π] (fs : FileSys π α) (p : π) : FileSys π α where
  dir := Function.update fs.dir p (some fs.next)
  node := Function.update fs.node fs.next []
  next := fs.next + 1
  dir_lt := by
    intro q ino hq
    obtain ⟨-, ⟨⟩⟩ | ⟨-, hq⟩ := update_eq_some hq
    · exact Nat.lt_succ_self _
    · exact Nat.lt_succ_of_lt (fs.dir_lt hq)
  dir_inj := by
    -- the node is new, so no other path leads to it
    have hnew : ∀ {q}, fs.dir q ≠ some fs.next := fun h => Nat.lt_irrefl _ (fs.dir_lt h)
    intro q q' ino hq hq'
    obtain ⟨hp, ha⟩ | ⟨-, hq⟩ := update_eq_some hq <;>
      obtain ⟨hp', ha'⟩ | ⟨-, hq'⟩ := update_eq_some hq'
    · rw [hp, hp']
    · exact absurd (hq'.trans ha.symm) hnew
    · exact absurd (hq.trans ha'.symm) hnew
    · exact fs.dir_inj hq hq'

/-- `open(2)` which creates the file if it is not there, and does not truncate it. -/
def openCreate [DecidableEq π] (fs : FileSys π α) (p : π) : FileSys π α × ℕ :=
  match fs.dir p with
  | some ino => (fs, ino)
  | none => (fs.create p, fs.next)

/-- `lseek(2)` and `read(2)`. -/
def pread (fs : FileSys π α) (ino off len : ℕ) : List α := ((fs.node ino).drop off).take len

/-- `lseek(2)` and `write(2)`. -/
def pwrite [Zero α] (fs : FileSys π α) (ino off : ℕ) (buf : List α) : FileSys π α :=
  { fs with node := Function.update fs.node ino (writeAt off buf (fs.node ino)) }

/-- The system without the path `p`. -/
def delete [DecidableEq π] (fs : FileSys π α) (p : π) : FileSys π α :=
  { fs with
    dir := Function.update fs.dir p none
    dir_lt := by
      intro q ino hq
      obtain ⟨-, ⟨⟩⟩ | ⟨-, hq⟩ := update_eq_some hq
      exact fs.dir_lt hq
    dir_inj := by
      intro q q' ino hq hq'
      obtain ⟨-, ⟨⟩⟩ | ⟨-, hq⟩ := update_eq_some hq
      obtain ⟨-, ⟨⟩⟩ | ⟨-, hq'⟩ := update_eq_some hq'
      exact fs.dir_inj hq hq' }

/-- `unlink(2)`. -/
def unlink [DecidableEq π] (fs : FileSys π α) (p : π) : Option (FileSys π α) :=
  if fs.dir p = none then none else some (fs.delete p)

/-- The byte of a path at an offset. -/
def byte [Zero α] (fs : FileSys π α) (p : π) (off : ℕ) : α :=
  match fs.dir p with
  | none => 0
  | some ino => (fs.node ino).getD off 0

theorem byte_of_some [Zero α] {off : ℕ} (h : fs.dir p = some ino) :
    fs.byte p off = (fs.node ino).getD off 0 := by
  rw [byte, h]

theorem byte_of_none [Zero α] {off : ℕ} (h : fs.dir p = none) : fs.byte p off = 0 := by
  rw [byte, h]

/-! ### What is opened -/

section openCreate

variable [DecidableEq π]

omit [DecidableEq π] in
theorem ne_next (h : fs.dir q = some ino) : ino ≠ fs.next := Nat.ne_of_lt (fs.dir_lt h)

theorem openCreate_of_some (h : fs.dir p = some ino) : fs.openCreate p = (fs, ino) := by
  rw [openCreate, h]

theorem openCreate_of_none (h : fs.dir p = none) :
    fs.openCreate p = (fs.create p, fs.next) := by
  rw [openCreate, h]

/-- The path leads to what was opened. -/
theorem dir_openCreate_self : (fs.openCreate p).1.dir p = some (fs.openCreate p).2 := by
  cases h : fs.dir p with
  | some ino =>
    rw [openCreate_of_some h]
    exact h
  | none =>
    rw [openCreate_of_none h]
    exact Function.update_self p _ _

theorem dir_openCreate_of_ne (hne : q ≠ p) : (fs.openCreate p).1.dir q = fs.dir q := by
  cases h : fs.dir p with
  | some ino => rw [openCreate_of_some h]
  | none =>
    rw [openCreate_of_none h]
    exact Function.update_of_ne hne _ _

/-- The paths which had a file lead to it as before. -/
theorem dir_openCreate_of_some (h : fs.dir q = some ino) :
    (fs.openCreate p).1.dir q = some ino := by
  rcases eq_or_ne q p with rfl | hne
  · rw [openCreate_of_some h]
    exact h
  · rw [dir_openCreate_of_ne hne, h]

theorem node_openCreate (hino : ino < fs.next) : (fs.openCreate p).1.node ino = fs.node ino := by
  cases h : fs.dir p with
  | some ino' => rw [openCreate_of_some h]
  | none =>
    rw [openCreate_of_none h]
    exact Function.update_of_ne (Nat.ne_of_lt hino) _ _

theorem le_next_openCreate : fs.next ≤ (fs.openCreate p).1.next := by
  cases h : fs.dir p with
  | some ino => rw [openCreate_of_some h]
  | none =>
    rw [openCreate_of_none h]
    exact Nat.le_succ fs.next

/-- A new file is empty, as was no file. -/
theorem byte_openCreate [Zero α] (off : ℕ) : (fs.openCreate p).1.byte q off = fs.byte q off := by
  cases h : fs.dir p with
  | some ino => rw [openCreate_of_some h]
  | none =>
    rw [openCreate_of_none h]
    by_cases hne : q = p
    · have hdir : (fs.create p).dir p = some fs.next := Function.update_self p _ _
      rw [hne, byte_of_some hdir, byte_of_none h]
      show (Function.update fs.node fs.next [] fs.next).getD off 0 = 0
      rw [Function.update_self]
      rfl
    · have hdir : (fs.create p).dir q = fs.dir q := Function.update_of_ne hne _ _
      cases hq : fs.dir q with
      | none => rw [byte_of_none (hdir.trans hq), byte_of_none hq]
      | some ino =>
        rw [byte_of_some (hdir.trans hq), byte_of_some hq]
        show (Function.update fs.node fs.next [] ino).getD off 0 = _
        rw [Function.update_of_ne (ne_next hq)]

end openCreate

/-! ### Bytes through a descriptor -/

section byte

variable [Zero α] {off i : ℕ} {buf : List α}

/-- A write through a descriptor changes the bytes it is about, and no other. -/
theorem byte_pwrite [DecidableEq π] (h : fs.dir p = some ino) :
    (fs.pwrite ino off buf).byte q i =
      if q = p ∧ off ≤ i ∧ i < off + buf.length then buf.getD (i - off) 0 else fs.byte q i := by
  by_cases hq : q = p
  · have hdir : (fs.pwrite ino off buf).dir p = some ino := h
    rw [hq, byte_of_some hdir, byte_of_some h]
    show (Function.update fs.node ino (writeAt off buf (fs.node ino)) ino).getD i 0 = _
    rw [Function.update_self, getD_writeAt]
    simp only [true_and]
  · rw [if_neg fun h => hq h.1]
    cases hd : fs.dir q with
    | none =>
      have hdir : (fs.pwrite ino off buf).dir q = none := hd
      rw [byte_of_none hdir, byte_of_none hd]
    | some ino' =>
      have hdir : (fs.pwrite ino off buf).dir q = some ino' := hd
      have hne : ino' ≠ ino := by
        rintro rfl
        exact hq (fs.dir_inj hd h)
      rw [byte_of_some hdir, byte_of_some hd]
      show (Function.update fs.node ino (writeAt off buf (fs.node ino)) ino').getD i 0 = _
      rw [Function.update_of_ne hne]

/-- What is read through a descriptor. -/
theorem getElem?_pread {len : ℕ} (h : fs.dir p = some ino)
    (hi : i < (fs.pread ino off len).length) :
    (fs.pread ino off len)[i]? = some (fs.byte p (off + i)) := by
  rw [pread, List.length_take, List.length_drop] at hi
  rw [pread, List.getElem?_take, if_pos (by omega), List.getElem?_drop, byte_of_some h,
    List.getD_eq_getElem?_getD, List.getElem?_eq_getElem (by omega)]
  rfl

end byte

theorem length_pread_le {off len : ℕ} : (fs.pread ino off len).length ≤ len := by
  rw [pread, List.length_take]
  exact Nat.min_le_left _ _

/-! ### What is unlinked -/

section unlink

variable [DecidableEq π] {fs' : FileSys π α}

theorem unlink_spec (h : fs.unlink p = some fs') : fs.dir p ≠ none ∧ fs' = fs.delete p := by
  rw [unlink] at h
  split_ifs at h with hp
  exact ⟨hp, (Option.some.inj h).symm⟩

/-- An error of it is ignored. -/
theorem dir_getD_unlink : ((fs.unlink p).getD fs).dir q = if q = p then none else fs.dir q := by
  rw [unlink]
  split_ifs with hp hq hq
  · rw [hq]
    exact hp
  · rfl
  · rw [hq]
    exact Function.update_self _ _ _
  · exact Function.update_of_ne hq _ _

theorem byte_unlink [Zero α] {off : ℕ} (h : fs.unlink p = some fs') :
    fs'.byte q off = if q = p then 0 else fs.byte q off := by
  rw [(unlink_spec h).2]
  split_ifs with hq
  · have hdir : (fs.delete p).dir q = none := by
      rw [hq]
      exact Function.update_self p _ _
    exact byte_of_none hdir
  · have hdir : (fs.delete p).dir q = fs.dir q := Function.update_of_ne hq _ _
    cases hd : fs.dir q with
    | none => rw [byte_of_none (hdir.trans hd), byte_of_none hd]
    | some ino => rw [byte_of_some (hdir.trans hd), byte_of_some hd]; rfl

end unlink

end FileSys

end Neoip
