/-
Neoip/FileTree.lean

File trees: which locations hold a directory or a file.

The locations are any type, with the location of the directory each of them is in.
Whatever holds an entry is in a directory, which is a field of the tree: nothing is
made outside a directory, and only an empty directory is removed.  Each operation
takes effect or fails; one which fails leaves the tree alone.

`Adds t k e t'` says that `t'` is `t` with an entry more, and `Built key t₀ paths t` that
`t` is made from `t₀` by adding an entry where each of the paths leads, in turn.

Main results: a directory or a file which was added is removed by its operation, which
gives the tree before it back (`Adds.rmdir`, `Adds.unlink`), so that what is built is
undone from the last entry to the first (`Built.undo`); the entries which were there
stay as they were (`Built.stat_of_some`).
-/
import Mathlib.Data.Finmap
import Mathlib.Data.List.TakeDrop
import Mathlib.Tactic.Common

namespace Neoip

variable {κ α : Type*}

/-! ### Contents -/

/-- The content `data` after `buf` is written at `off`: a hole is filled with zeros. -/
def writeAt [Zero α] (off : ℕ) (buf data : List α) : List α :=
  if buf = [] then data else data.takeD off 0 ++ buf ++ data.drop (off + buf.length)

theorem length_writeAt [Zero α] {off : ℕ} {buf data : List α} (hbuf : buf ≠ [])
    (hoff : data.length ≤ off) : (writeAt off buf data).length = off + buf.length := by
  have hdrop : data.drop (off + buf.length) = [] := List.drop_eq_nil_of_le (by omega)
  rw [writeAt, if_neg hbuf, hdrop, List.append_nil, List.length_append, List.takeD_length]

/-- What a path names. -/
inductive Entry (α : Type*)
  | dir
  | file (data : List α)
  deriving DecidableEq, Repr

def Entry.isDir : Entry α → Bool
  | .dir => true
  | .file _ => false

theorem Entry.isDir_iff {e : Entry α} : e.isDir = true ↔ e = .dir := by
  cases e with
  | dir => exact iff_of_true rfl rfl
  | file data => exact iff_of_false nofun nofun

/-- A tree of entries, whose locations are in the directories `parent` says. -/
@[ext]
structure FileTree (α : Type*) (parent : κ → Option κ) [DecidableEq κ] where
  entries : Finmap fun _ : κ => Entry α
  parent_dir : ∀ {k k' : κ}, k ∈ entries → parent k = some k' → entries.lookup k' = some .dir

namespace FileTree

variable [DecidableEq κ] {parent : κ → Option κ} {t t' : FileTree α parent} {k k' : κ}
  {e e' : Entry α}

def stat (t : FileTree α parent) (k : κ) : Option (Entry α) := t.entries.lookup k

/-- The location is in a directory. -/
def InDir (t : FileTree α parent) (k : κ) : Prop :=
  ((parent k).bind t.stat).any Entry.isDir = true

instance (t : FileTree α parent) (k : κ) : Decidable (t.InDir k) :=
  inferInstanceAs (Decidable (_ = true))

theorem inDir_iff : t.InDir k ↔ ∃ k', parent k = some k' ∧ t.stat k' = some .dir := by
  rw [InDir, Option.any_eq_true]
  constructor
  · rintro ⟨e, he, hdir⟩
    obtain ⟨k', hk', hstat⟩ := Option.bind_eq_some_iff.1 he
    rw [Entry.isDir_iff.1 hdir] at hstat
    exact ⟨k', hk', hstat⟩
  · rintro ⟨k', hk', hstat⟩
    exact ⟨.dir, Option.bind_eq_some_iff.2 ⟨k', hk', hstat⟩, rfl⟩

/-! ### Operations -/

/-- The tree with `e` at `k`, where there is no directory. -/
def put (t : FileTree α parent) (k : κ) (e : Entry α)
    (hdir : ∀ k', parent k = some k' → t.stat k' = some .dir) (hk : t.stat k ≠ some .dir) :
    FileTree α parent where
  entries := t.entries.insert k e
  parent_dir := by
    intro c k' hc hparent
    have hne : k' ≠ k := by
      rintro rfl
      rcases Finmap.mem_insert.1 hc with rfl | hc
      · exact hk (hdir _ hparent)
      · exact hk (t.parent_dir hc hparent)
    rw [Finmap.lookup_insert_of_ne _ hne]
    rcases Finmap.mem_insert.1 hc with rfl | hc
    · exact hdir _ hparent
    · exact t.parent_dir hc hparent

/-- The tree without what is at `k`, which holds nothing. -/
def remove (t : FileTree α parent) (k : κ) (hk : ∀ c ∈ t.entries, parent c ≠ some k) :
    FileTree α parent where
  entries := t.entries.erase k
  parent_dir := by
    intro c k' hc hparent
    have hmem := (Finmap.mem_erase.1 hc).2
    have hne : k' ≠ k := by
      rintro rfl
      exact hk c hmem hparent
    rw [Finmap.lookup_erase_ne hne]
    exact t.parent_dir hmem hparent

theorem parent_ne_of_not_dir (hk : t.stat k ≠ some .dir) : ∀ c ∈ t.entries, parent c ≠ some k :=
  fun _ hc hparent => hk (t.parent_dir hc hparent)

theorem stat_parent (hk : t.stat k = some e) : ∀ k', parent k = some k' → t.stat k' = some .dir :=
  fun _ hparent => t.parent_dir (Finmap.mem_of_lookup_eq_some hk) hparent

theorem InDir.stat_parent (h : t.InDir k) :
    ∀ k', parent k = some k' → t.stat k' = some .dir := by
  intro k' hk'
  obtain ⟨k'', hk'', hstat⟩ := inDir_iff.1 h
  obtain rfl := Option.some.inj (hk'.symm.trans hk'')
  exact hstat

/-- `mkdir(2)`. -/
def mkdir (t : FileTree α parent) (k : κ) : Option (FileTree α parent) :=
  if h : t.InDir k ∧ t.stat k = none then some (t.put k .dir h.1.stat_parent (by simp [h.2]))
  else none

/-- `open(2)` to write, with the creation of the file but not its truncation. -/
def openCreate (t : FileTree α parent) (k : κ) : Option (FileTree α parent) :=
  match h : t.stat k with
  | none => if hdir : t.InDir k then some (t.put k (.file []) hdir.stat_parent (by simp [h])) else none
  | some .dir => none
  | some (.file _) => some t

/-- `write(2)` at an offset of the file. -/
def write [Zero α] (t : FileTree α parent) (k : κ) (off : ℕ) (buf : List α) :
    Option (FileTree α parent) :=
  match h : t.stat k with
  | some (.file data) =>
    some (t.put k (.file (writeAt off buf data)) (stat_parent h) (by simp [h]))
  | _ => none

/-- `rmdir(2)`. -/
def rmdir (t : FileTree α parent) (k : κ) : Option (FileTree α parent) :=
  match t.stat k with
  | some .dir =>
    if h : ∀ c ∈ t.entries.keys, parent c ≠ some k then
      some (t.remove k fun c hc => h c (Finmap.mem_keys.2 hc))
    else none
  | _ => none

/-- `unlink(2)`. -/
def unlink (t : FileTree α parent) (k : κ) : Option (FileTree α parent) :=
  match h : t.stat k with
  | some (.file _) => some (t.remove k (parent_ne_of_not_dir (by simp [h])))
  | _ => none

/-! ### An entry more -/

/-- `t'` is `t` with `e` at `k`, where there was nothing. -/
structure Adds (t : FileTree α parent) (k : κ) (e : Entry α) (t' : FileTree α parent) : Prop where
  stat_none : t.stat k = none
  inDir : t.InDir k
  entries_eq : t'.entries = t.entries.insert k e

namespace Adds

theorem stat_self (h : Adds t k e t') : t'.stat k = some e := by
  rw [stat, h.entries_eq, Finmap.lookup_insert]

theorem stat_of_ne (h : Adds t k e t') (hne : k' ≠ k) : t'.stat k' = t.stat k' := by
  rw [stat, h.entries_eq, Finmap.lookup_insert_of_ne _ hne, stat]

theorem ne_of_some (h : Adds t k e t') (hk' : t.stat k' = some e') : k' ≠ k := by
  rintro rfl
  rw [h.stat_none] at hk'
  cases hk'

theorem stat_of_some (h : Adds t k e t') (hk' : t.stat k' = some e') : t'.stat k' = some e' :=
  (h.stat_of_ne (h.ne_of_some hk')).trans hk'

theorem erase_eq (h : Adds t k e t') : t'.entries.erase k = t.entries := by
  apply Finmap.ext_lookup
  intro k'
  by_cases hne : k' = k
  · rw [hne, Finmap.lookup_erase]
    exact h.stat_none.symm
  · rw [Finmap.lookup_erase_ne hne]
    exact h.stat_of_ne hne

/-- There is nothing yet in what was just added. -/
theorem parent_ne (h : Adds t k e t') : ∀ c ∈ t'.entries, parent c ≠ some k := by
  intro c hc hparent
  rw [h.entries_eq, Finmap.mem_insert] at hc
  have hdir : t.stat k = some .dir := by
    rcases hc with rfl | hc
    · exact h.inDir.stat_parent _ hparent
    · exact t.parent_dir hc hparent
  rw [h.stat_none] at hdir
  cases hdir

theorem rmdir (h : Adds t k .dir t') : t'.rmdir k = some t := by
  rw [FileTree.rmdir, h.stat_self]
  show (if h' : _ then _ else _) = _
  rw [dif_pos fun c hc => h.parent_ne c (Finmap.mem_keys.1 hc)]
  exact congrArg some (FileTree.ext h.erase_eq)

theorem unlink {data : List α} (h : Adds t k (.file data) t') : t'.unlink k = some t := by
  have hstat := h.stat_self
  unfold FileTree.unlink
  split
  · exact congrArg some (FileTree.ext h.erase_eq)
  · next hnot => exact absurd hstat (hnot data)

theorem write [Zero α] {data : List α} (h : Adds t k (.file data) t') (off : ℕ) (buf : List α) :
    ∃ t'', t'.write k off buf = some t'' ∧ Adds t k (.file (writeAt off buf data)) t'' := by
  have hstat := h.stat_self
  unfold FileTree.write
  split
  · next data' hdata' =>
      obtain rfl : data' = data := by
        rw [hstat] at hdata'
        exact (Entry.file.inj (Option.some.inj hdata')).symm
      refine ⟨_, rfl, h.stat_none, h.inDir, ?_⟩
      show t'.entries.insert k _ = _
      rw [h.entries_eq, Finmap.insert_insert]
  · next hnot => exact absurd hstat (hnot data)

end Adds

theorem adds_mkdir (h : t.mkdir k = some t') : Adds t k .dir t' := by
  rw [mkdir] at h
  split_ifs at h with hk
  obtain rfl := Option.some.inj h
  exact ⟨hk.2, hk.1, rfl⟩

theorem adds_openCreate (hk : t.stat k = none) (h : t.openCreate k = some t') :
    Adds t k (.file []) t' := by
  unfold openCreate at h
  split at h
  · split_ifs at h with hdir
    obtain rfl := Option.some.inj h
    exact ⟨hk, hdir, rfl⟩
  · cases h
  · next data hdata =>
      rw [hk] at hdata
      cases hdata

/-! ### Trees which are built -/

variable {ι : Type*} {key : ι → κ}

/-- `t` is `t₀` with an entry more at the location of each of the paths, added in turn. -/
inductive Built (key : ι → κ) (t₀ : FileTree α parent) : List ι → FileTree α parent → Prop
  | nil : Built key t₀ [] t₀
  | snoc {paths t path e t'} :
      Built key t₀ paths t → Adds t (key path) e t' → Built key t₀ (paths ++ [path]) t'

namespace Built

variable {t₀ : FileTree α parent} {paths : List ι}

theorem stat_of_some (h : Built key t₀ paths t) (hk : t₀.stat k = some e) : t.stat k = some e := by
  induction h with
  | nil => exact hk
  | snoc _ hadds ih => exact hadds.stat_of_some ih

/-- **Undo**: what takes an entry which was just added back, takes all that was built
back, from the last entry to the first. -/
theorem undo {f : ι → FileTree α parent → FileTree α parent}
    (hf : ∀ {t path e t'}, Adds t (key path) e t' → f path t' = t) (h : Built key t₀ paths t) :
    paths.foldr f t = t₀ := by
  induction h with
  | nil => rfl
  | snoc _ hadds ih => rw [List.foldr_append, List.foldr_cons, List.foldr_nil, hf hadds, ih]

end Built

end FileTree

end Neoip
