/-
Neoip/BtAllocRun.lean

Runs of an allocation.

A run all of whose turns proceed keeps the invariant and comes to its notification in a
bounded number of turns.  A turn which meets an assertion is the last one, and a write of
no length is launched again for ever: neither is followed by a notification (`Hung`).

Main results: `BtAlloc.atomic_iff`, and `BtAlloc.atomic_of_placed`: an allocation is
atomic where the local paths are set and the lengths are those of an `off_t`.
-/
import Neoip.BtAllocInv
import Neoip.MetainfoInit

namespace Neoip

namespace BtAlloc

variable {κ : Type} [DecidableEq κ] {parent : κ → Option κ} {cfg : AllocCfg κ}
  {fs₀ : FileTree UInt8 parent} {s : BtAlloc parent} {outcomes : Outcomes} {evs : List Outcomes}

/-! ### Turns -/

theorem step_of_turn (s' : BtAlloc parent) (h : turn cfg s outcomes = some s') :
    step cfg s outcomes = s' := by
  rw [step, h]
  rfl

theorem step_notified {bt_err : Option AllocErr} (hcall : s.call = .notified bt_err) :
    step cfg s outcomes = s := by
  apply step_of_turn s
  rw [turn, hcall]

/-- What a turn which proceeds does. -/
theorem step_spec (outcomes : Outcomes) (h : Inv cfg fs₀ s) (hproceeds : Proceeds cfg s) :
    (∃ bt_err, s.call = .notified bt_err) ∨
      Inv cfg fs₀ (step cfg s outcomes) ∧ turns cfg (step cfg s outcomes) < turns cfg s := by
  cases hcall : s.call with
  | launchNextFile =>
    obtain ⟨s', heq, hspec⟩ := launchNextFile_spec outcomes hcall h hproceeds
    rw [step_of_turn s' (by rw [turn, hcall]; exact heq)]
    exact .inr hspec
  | launchNextWrite =>
    obtain ⟨s', heq, hspec⟩ := launchNextWrite_spec hcall h hproceeds
    rw [step_of_turn s' (by rw [turn, hcall]; exact heq)]
    exact .inr hspec
  | awriteExpire =>
    obtain ⟨s', heq, hspec⟩ := awriteExpire_spec outcomes hcall h hproceeds
    rw [step_of_turn s' (by rw [turn, hcall]; exact heq)]
    exact .inr hspec
  | notified bt_err => exact .inl ⟨bt_err, rfl⟩
  | aborted =>
    rw [Inv, hcall] at h
    exact h.elim

theorem inv_step (h : Inv cfg fs₀ s) (hproceeds : Proceeds cfg s) :
    Inv cfg fs₀ (step cfg s outcomes) := by
  rcases step_spec outcomes h hproceeds with ⟨bt_err, hcall⟩ | ⟨hinv, -⟩
  · rw [step_notified hcall]
    exact h
  · exact hinv

/-! ### Runs which proceed -/

/-- Every turn of the run proceeds. -/
abbrev Goes (cfg : AllocCfg κ) (s : BtAlloc parent) (evs : List Outcomes) : Prop :=
  Guarded (step cfg) (fun s _ => Proceeds cfg s) s evs

theorem inv_run (h : Inv cfg fs₀ s) (hgoes : Goes cfg s evs) : Inv cfg fs₀ (run (step cfg) s evs) :=
  (Guarded.always (P := Inv cfg fs₀) (fun _ _ hinv hproceeds => inv_step hinv hproceeds) h hgoes).run

theorem call_run_notified {bt_err : Option AllocErr} (hcall : s.call = .notified bt_err)
    (evs : List Outcomes) : (run (step cfg) s evs).call = .notified bt_err := by
  induction evs with
  | nil => exact hcall
  | cons outcomes evs ih => rwa [run_cons, step_notified hcall]

/-- A run which proceeds is over when its turns are. -/
theorem notified_run (h : Inv cfg fs₀ s) (hgoes : Goes cfg s evs)
    (hturns : turns cfg s < evs.length) :
    ∃ bt_err, (run (step cfg) s evs).call = .notified bt_err := by
  induction evs generalizing s with
  | nil => exact absurd hturns (Nat.not_lt_zero _)
  | cons outcomes evs ih =>
    rcases step_spec outcomes h hgoes.1 with ⟨bt_err, hcall⟩ | ⟨hinv, hlt⟩
    · exact ⟨bt_err, call_run_notified hcall _⟩
    · rw [List.length_cons] at hturns
      exact ih hinv hgoes.2 (by omega)

theorem atomic_of_goes (h : ∀ evs, Goes cfg (start fs₀) evs) : Atomic cfg fs₀ where
  terminates := by
    refine ⟨turns cfg (start fs₀) + 1, fun evs hturns => ?_⟩
    exact notified_run (inv_start fs₀) (h evs) hturns
  failed := by
    intro evs bt_err hcall
    have hinv := inv_run (inv_start fs₀) (h evs)
    rw [Inv, hcall] at hinv
    exact hinv
  succeeded := by
    intro evs hcall
    have hinv := inv_run (inv_start fs₀) (h evs)
    rw [Inv, hcall] at hinv
    refine ⟨fun mfile_subfile hmem => hinv.allocated _ ?_, fun k e => hinv.built.stat_of_some⟩
    rwa [List.take_length]

/-! ### Runs which do not -/

/-- Everything takes effect. -/
def allDone : Outcomes := ⟨fun _ => true, true, none⟩

/-- The process is gone, or it writes nothing for ever. -/
def Hung (cfg : AllocCfg κ) (fs₀ : FileTree UInt8 parent) (s : BtAlloc parent) : Prop :=
  s.call = .aborted ∨ cfg.write_chunk_maxlen = 0 ∧ ∃ mfile_subfile data,
    cfg.subfile_arr[s.cur_file_idx]? = some mfile_subfile ∧
    Opened cfg fs₀ s mfile_subfile data ∧ s.cur_file_off < mfile_subfile.len ∧
    (s.call = .launchNextWrite ∧ s.file_awrite = none ∨
      s.call = .awriteExpire ∧ s.file_awrite = some ⟨s.cur_file_off, [], 0⟩)

theorem Hung.not_notified (h : Hung cfg fs₀ s) (bt_err : Option AllocErr) :
    s.call ≠ .notified bt_err := by
  intro hcall
  rw [Hung, hcall] at h
  simp at h

theorem step_aborted (h : turn cfg s outcomes = none) :
    (step cfg s outcomes).call = .aborted := by
  rw [step, h]
  rfl

theorem hung_of_turn (h : turn cfg s outcomes = none) : Hung cfg fs₀ (step cfg s outcomes) :=
  .inl (step_aborted h)

/-- The write of no length which was launched again. -/
theorem awriteIter_nil {path : UnxPath} {mfile_subfile : AllocSubfile} {data : Datum}
    (hopened : Opened cfg fs₀ s mfile_subfile data) (hfile_aio : s.file_aio = some path) :
    ∃ fs, awriteIter cfg allDone ⟨s.cur_file_off, [], 0⟩ path s =
        { s with fs, file_awrite := none, call := .launchNextWrite } ∧
      Opened cfg fs₀ { s with fs } mfile_subfile data := by
  obtain ⟨fs, hwrite, hopened'⟩ := hopened.write hfile_aio (s.cur_file_off + 0).toNat []
  refine ⟨fs, ?_, hopened'⟩
  rw [awriteIter]
  dsimp only [allDone]
  rw [List.drop_nil, List.take_nil, hwrite]
  rfl

theorem hung_step (h : Hung cfg fs₀ s) : Hung cfg fs₀ (step cfg s allDone) := by
  rcases h with hcall | ⟨hmaxlen, mfile_subfile, data, hidx, hopened, hoff, hcall⟩
  · rw [step_of_turn s (by rw [turn, hcall])]
    exact .inl hcall
  · rcases hcall with ⟨hcall, hawrite⟩ | ⟨hcall, hawrite⟩
    -- nothing is to be written, and the offset stays
    · have hmin : min (mfile_subfile.len - s.cur_file_off) cfg.write_chunk_maxlen = 0 := by
        rw [hmaxlen, ← UInt64.toNat_inj, toNat_min]
        exact Nat.min_zero _
      have heq := launchNextWrite_eq hidx hopened hawrite hoff
      have hlaunch : launchAwrite cfg mfile_subfile s =
          { s with file_awrite := some ⟨s.cur_file_off, [], 0⟩, call := .awriteExpire } := by
        rw [launchAwrite, hmin, UInt64.add_zero]
        rfl
      rw [step_of_turn (launchAwrite cfg mfile_subfile s) (by rw [turn, hcall]; exact heq),
        hlaunch]
      exact .inr ⟨hmaxlen, mfile_subfile, data, hidx, hopened, hoff, .inr ⟨rfl, rfl⟩⟩
    -- it is written at once, and the write is launched again
    · obtain ⟨path, -, -, -, hfile_aio, -⟩ := id hopened
      obtain ⟨fs, hiter, hopened'⟩ := awriteIter_nil hopened hfile_aio
      by_cases hproceeds : Proceeds cfg s
      · rw [Proceeds, hcall] at hproceeds
        have heq := awriteExpire_eq cfg allDone hawrite hfile_aio (hproceeds _ hawrite)
        rw [step_of_turn _ (by rw [turn, hcall]; exact heq), hiter]
        exact .inr ⟨hmaxlen, mfile_subfile, data, hidx, hopened', hoff, .inl ⟨rfl, rfl⟩⟩
      · exact hung_of_turn (by rw [turn, hcall]; exact awriteExpire_eq_none hcall hproceeds)

theorem hung_run (h : Hung cfg fs₀ s) (n : ℕ) :
    Hung cfg fs₀ (run (step cfg) s (List.replicate n allDone)) := by
  induction n generalizing s with
  | zero => exact h
  | succ n ih => exact ih (hung_step h)

/-- A turn which does not proceed. -/
theorem hung_of_not_proceeds (h : Inv cfg fs₀ s) (hproceeds : ¬Proceeds cfg s) :
    Hung cfg fs₀ (step cfg s allDone) := by
  cases hcall : s.call with
  | launchNextFile =>
    exact hung_of_turn (by rw [turn, hcall]; exact launchNextFile_eq_none hcall hproceeds)
  | launchNextWrite =>
    apply hung_step
    rw [Proceeds, hcall] at hproceeds
    push Not at hproceeds
    obtain ⟨mfile_subfile, hidx, hoff, hmaxlen⟩ := hproceeds
    rw [Inv, hcall] at h
    obtain ⟨hawrite, mfile_subfile', data, hidx', hopened, -⟩ := h
    obtain rfl := Option.some.inj (hidx'.symm.trans hidx)
    exact .inr ⟨hmaxlen, _, data, hidx, hopened, hoff, .inl ⟨hcall, hawrite⟩⟩
  | awriteExpire =>
    exact hung_of_turn (by rw [turn, hcall]; exact awriteExpire_eq_none hcall hproceeds)
  | notified bt_err =>
    rw [Proceeds, hcall] at hproceeds
    exact (hproceeds trivial).elim
  | aborted =>
    rw [Inv, hcall] at h
    exact h.elim

theorem not_terminates_of_hung (h : Hung cfg fs₀ (run (step cfg) s evs)) : ¬Terminates cfg s := by
  rintro ⟨n, hn⟩
  obtain ⟨bt_err, hcall⟩ := hn (evs ++ List.replicate n allDone) (by simp)
  rw [run_append] at hcall
  exact (hung_run h n).not_notified bt_err hcall

theorem goes_of_terminates (h : Inv cfg fs₀ s) (hterm : Terminates cfg s) (evs : List Outcomes) :
    Goes cfg s evs := by
  induction evs generalizing s with
  | nil => exact guarded_nil s
  | cons outcomes evs ih =>
    have hproceeds : Proceeds cfg s := by
      by_contra hnot
      have hhung : Hung cfg fs₀ (run (step cfg) s [allDone]) := hung_of_not_proceeds h hnot
      exact not_terminates_of_hung hhung hterm
    obtain ⟨n, hn⟩ := hterm
    refine ⟨hproceeds, ih (inv_step h hproceeds) ⟨n, fun evs' hlen => ?_⟩⟩
    exact hn (outcomes :: evs') (by rw [List.length_cons]; omega)

/-- **Allocations**: they end in a notification, and are atomic, exactly when no turn of any run
meets an assertion or a write of no length. -/
theorem atomic_iff (cfg : AllocCfg κ) (fs₀ : FileTree UInt8 parent) :
    Atomic cfg fs₀ ↔ ∀ evs, Goes cfg (start fs₀) evs :=
  ⟨fun h => goes_of_terminates (inv_start fs₀) h.terminates, atomic_of_goes⟩

/-! ### Torrents -/

/-- The locations of a unix filesystem are the names from the root, the last one first. -/
def parentDir : List Datum → Option (List Datum)
  | [] => none
  | _ :: dirs => some dirs

/-- Where a pathname leads from the directory `cwd`. -/
def resolve (cwd : List Datum) (pathname : Datum) : List Datum :=
  (splitSepa pathname).foldl
    (fun dirs name =>
      if name = [] ∨ name = dirPlaceholder then dirs
      else if name = dirParent then dirs.tail
      else name :: dirs)
    (if pathname.head? = some 47 then [] else cwd)

/-- The filesystem which holds nothing but the root. -/
def rootTree : FileTree UInt8 parentDir where
  entries := Finmap.singleton [] .dir
  parent_dir := by
    intro k k' hk hparent
    rw [(Finmap.mem_singleton k [] Entry.dir).1 hk] at hparent
    cases hparent

end BtAlloc

namespace Metainfo

/-- The allocation of a torrent whose subfiles have these local paths. -/
def alloc (m : Metainfo) (local_paths : List FilePath) (alloc_policy : AllocPolicy) :
    AllocCfg (List Datum) where
  subfile_arr := List.zipWith (fun local_path subfile => ⟨local_path, subfile.len⟩)
    local_paths m.subfile_arr
  alloc_policy
  write_chunk_maxlen := WRITE_CHUNK_MAXLEN
  locate := BtAlloc.resolve []

/-- A torrent of one subfile, whose length is the integer `1 - 2 ^ 63`. -/
def sampleHuge : Metainfo :=
  { sampleOne with
    piecelen := 0x4000000000000000
    subfile_arr := [⟨FilePath.ofString [97], 0x8000000000000001⟩]
    piecehash_arr := List.replicate 3 ⟨List.replicate 20 1, length_ones⟩ }

end Metainfo

open BtAlloc Metainfo in
/-- Both torrents are initialised.  The only write of the first one is at an offset which is not
an `off_t`; the subfile of the second one has no local path. -/
theorem Metainfo.not_atomic :
    (sampleHuge.completeInit.isSome = true ∧
      ¬Atomic (sampleHuge.alloc [FilePath.ofString [47, 97]] .HOLE) rootTree) ∧
    sampleOne.completeInit.isSome = true ∧ ¬Atomic (sampleOne.alloc [.null] .FULL) rootTree := by
  refine ⟨⟨by decide, fun h => ?_⟩, by decide, fun h => ?_⟩
  · have hhung : Hung (sampleHuge.alloc [FilePath.ofString [47, 97]] .HOLE) rootTree
      (run (step (sampleHuge.alloc [FilePath.ofString [47, 97]] .HOLE)) (start rootTree)
        [allDone, allDone, allDone]) := .inl rfl
    exact not_terminates_of_hung hhung h.terminates
  · have hhung : Hung (sampleOne.alloc [.null] .FULL) rootTree
      (run (step (sampleOne.alloc [.null] .FULL)) (start rootTree) [allDone]) := .inl rfl
    exact not_terminates_of_hung hhung h.terminates

end Neoip
