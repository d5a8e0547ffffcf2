/-
Neoip/Check.lean

Checking the pieces of a shared file: `bt_check_t`.

The pieces to check are the set bits of a bitfield.  A cursor goes from one to
the next (`next_set`), with one hash running at a time; when it is at the end
the result is notified.  `BtCheck` is what the check was started with, and
`CheckState` its fields; `launched` remembers the hashes which were launched.

`next_set` begins with the bit it is given, and the cursor is given where it is,
so it stays on the first piece (`iterate_hashed`).  For the partial pieces there
is not even a first one: the loop which looks for them takes out of the saved
interval what is not in it (`getPartavailPieceBitfield_eq_none`).  And what is
compared with the pieces declared available is whether there is a difference,
in either direction.

Main result: `never_checks`.
-/
import Neoip.Bitfield
import Neoip.Unit
import Neoip.Metainfo
import Mathlib.Logic.Function.Iterate

namespace Neoip

/-! ### `next_set` -/

namespace Bitfield

def nextSetLoop (bf : Bitfield) : ℕ → ℕ → ℕ
  | 0, idx => idx
  | n + 1, idx => if bf.get idx then idx else nextSetLoop bf n (idx + 1)

/-- `next_set`: the first set bit which is not before `idx`, or `size()`. -/
def nextSet (bf : Bitfield) (idx : ℕ) : ℕ := nextSetLoop bf (bf.length - idx) idx

/-- `operator |`. -/
def or (bf other : Bitfield) : Bitfield := bf.mapIdx fun i b => b || other.get i

variable {bf other : Bitfield} {i idx : ℕ}

/-- The bit it begins with is not left out. -/
theorem nextSet_of_get (h : bf.get idx = true) : bf.nextSet idx = idx := by
  obtain ⟨n, hn⟩ : ∃ n, bf.length - idx = n + 1 :=
    ⟨bf.length - idx - 1, by have := lt_of_get h; omega⟩
  rw [nextSet, hn, nextSetLoop, if_pos h]

theorem get_nextSetLoop {n : ℕ} (hle : idx ≤ i) (hlt : i < idx + n) (h : bf.get i = true) :
    bf.get (bf.nextSetLoop n idx) = true := by
  induction n generalizing idx with
  | zero => omega
  | succ n ih =>
    rw [nextSetLoop]
    split_ifs with hidx
    · exact hidx
    · have hne : idx ≠ i := by
        rintro rfl
        exact hidx h
      exact ih (by omega) (by omega)

theorem get_nextSet (hle : idx ≤ i) (h : bf.get i = true) : bf.get (bf.nextSet idx) = true :=
  get_nextSetLoop hle (by have := lt_of_get h; omega) h

end Bitfield

/-! ### The check -/

/-- `bt_check_policy_t`. -/
inductive CheckPolicy
  | everyPiece
  | partialPiece
  | subfileExist
deriving DecidableEq, Repr

/-- What the check reads of `bt_swarm_resumedata_t`. -/
structure SwarmResumedata where
  bt_mfile : Mfile
  pieceavail_local : Pieceavail
  partavail_piece_inval : FileSizeInval

/-- What a check is started with.  `caller_resumedata` may be null. -/
structure BtCheck where
  check_policy : CheckPolicy
  bt_mfile : Mfile
  piecehash_arr : List BtId
  caller_resumedata : Option SwarmResumedata

/-- The fields of a check which change.  An error is its text; none is `bt_err_t::OK`. -/
structure CheckState where
  tocheck_bfield : Bitfield
  isavail_bfield : Bitfield
  cur_pieceidx : ℕ
  /-- The piece which `piece_cpuhash` is for.  It is null at first. -/
  piece_cpuhash : Option ℕ
  /-- The pieces a hash was launched for. -/
  launched : List ℕ
  /-- No launch has found `piece_cpuhash` not null, as it asserts. -/
  nullAsserted : Bool
  /-- What the callback was notified of. -/
  notified : Option (Option String × Option SwarmResumedata)

namespace SwarmResumedata

/-- The loop of `get_partavail_piece_bitfield`, as far as `fuel` goes. -/
def partavailLoop (mfile : Mfile) : ℕ → FileSizeInval → Bitfield → Option Bitfield
  | 0, current_inval, bf => if current_inval.isEmpty then some bf else none
  | fuel + 1, current_inval, bf =>
    match current_inval.first? with
    | none => some bf
    | some item =>
      let piece_idx := totfileToPieceidx mfile item.min_val
      let piece_range := pieceidxToTotfileRange mfile piece_idx
      let piece_isavail_inval :=
        (FileSizeInval.ofItem piece_range.toInvalItem).sub current_inval
      if piece_isavail_inval.isEmpty then partavailLoop mfile fuel current_inval bf
      else partavailLoop mfile fuel (current_inval.sub piece_isavail_inval) (bf.set piece_idx)

def getPartavailPieceBitfield (rd : SwarmResumedata) (fuel : ℕ) : Option Bitfield :=
  partavailLoop rd.bt_mfile fuel rd.partavail_piece_inval (.ofSize rd.bt_mfile.nb_piece)

/-- The loop takes nothing out of the interval, and so does not end if there is anything in it. -/
theorem partavailLoop_eq_none {mfile : Mfile} {fuel : ℕ} {current_inval : FileSizeInval}
    {bf : Bitfield} (h : ¬ current_inval.isEmpty) :
    partavailLoop mfile fuel current_inval bf = none := by
  induction fuel generalizing current_inval bf with
  | zero => rw [partavailLoop, if_neg h]
  | succ fuel ih =>
    rw [partavailLoop]
    cases hfirst : current_inval.first? with
    | none => exact absurd (FileSizeInval.isEmpty_of_first? hfirst) h
    | some item =>
      dsimp only
      split_ifs
      · exact ih h
      · apply ih
        rw [FileSizeInval.isEmpty_iff] at h ⊢
        intro hempty
        apply h
        intro x hx
        refine hempty x (FileSizeInval.mem_sub.2 ⟨hx, fun hx' => ?_⟩)
        exact (FileSizeInval.mem_sub.1 hx').2 hx

/-- There is no end to looking for the partial pieces, if there are any. -/
theorem getPartavailPieceBitfield_eq_none {rd : SwarmResumedata}
    (h : ¬ rd.partavail_piece_inval.isEmpty) (fuel : ℕ) :
    rd.getPartavailPieceBitfield fuel = none :=
  partavailLoop_eq_none h

end SwarmResumedata

namespace BtCheck

variable (chk : BtCheck)

/-- What is notified when the cursor is at the end. -/
def result (isavail_bfield : Bitfield) : Option String × SwarmResumedata :=
  let bt_err := match chk.caller_resumedata with
    | some caller_resumedata =>
      if chk.check_policy = .everyPiece
          ∧ (caller_resumedata.pieceavail_local.xor isavail_bfield).isAnySet then
        some "piece declared available in swarm_resumdata but is not in practice"
      else none
    | none => none
  let result_resumedata := match chk.caller_resumedata with
    | some caller_resumedata => caller_resumedata
    | none => ⟨chk.bt_mfile, [], .null⟩
  if chk.check_policy = .everyPiece then
    (bt_err, { result_resumedata with pieceavail_local := isavail_bfield })
  else
    (bt_err, { result_resumedata with
      pieceavail_local := isavail_bfield.or result_resumedata.pieceavail_local })

/-- `launch_piece_cpuhash`. -/
def launchPieceCpuhash (s : CheckState) : CheckState :=
  let s := { s with nullAsserted := s.nullAsserted && s.piece_cpuhash.isNone }
  if s.cur_pieceidx ≠ s.tocheck_bfield.length then
    { s with
      piece_cpuhash := some s.cur_pieceidx
      launched := s.launched ++ [s.cur_pieceidx] }
  else
    let (bt_err, result_resumedata) := chk.result s.isavail_bfield
    { s with notified := some (bt_err, some result_resumedata) }

/-- `neoip_bt_piece_cpuhash_cb`. -/
def pieceCpuhashCb (s : CheckState) (cpuhash_err : Option String) (piecehash : BtId) :
    CheckState :=
  match cpuhash_err with
  | some err => { s with notified := some (some err, none) }
  | none =>
    let s :=
      if chk.piecehash_arr[s.cur_pieceidx]? = some piecehash then
        { s with isavail_bfield := s.isavail_bfield.set s.cur_pieceidx }
      else s
    chk.launchPieceCpuhash { s with cur_pieceidx := s.tocheck_bfield.nextSet s.cur_pieceidx }

/-- The end of the callback of the timer, with the pieces which are to be checked. -/
def start (tocheck_bfield : Bitfield) : CheckState :=
  chk.launchPieceCpuhash
    { tocheck_bfield := tocheck_bfield
      isavail_bfield := .ofSize chk.bt_mfile.nb_piece
      cur_pieceidx := tocheck_bfield.nextSet 0
      piece_cpuhash := none
      launched := []
      nullAsserted := true
      notified := none }

/-- A check which notifies at once. -/
def notifyNow (bt_err : Option String) (resumedata : Option SwarmResumedata) : CheckState where
  tocheck_bfield := []
  isavail_bfield := []
  cur_pieceidx := 0
  piece_cpuhash := none
  launched := []
  nullAsserted := true
  notified := some (bt_err, resumedata)

/-- `neoip_zerotimer_expire_cb`, with what `check_all_file_access` returned; nothing when it has
not come back within `fuel`. -/
def zerotimerExpireCb (access_err : Option String) (fuel : ℕ) : Option CheckState :=
  match access_err with
  | some err => some (notifyNow (some err) none)
  | none =>
    match chk.check_policy with
    | .subfileExist => some (notifyNow none chk.caller_resumedata)
    | .partialPiece =>
      match chk.caller_resumedata with
      -- the caller must have given one
      | none => none
      | some caller_resumedata =>
        (caller_resumedata.getPartavailPieceBitfield fuel).map chk.start
    | .everyPiece => some (chk.start (List.replicate chk.bt_mfile.nb_piece true))

/-- The hash which runs, if there is one, completes with what the pieces hash to. -/
def hashed (hash : ℕ → BtId) (s : CheckState) : CheckState :=
  match s.notified, s.piece_cpuhash with
  | none, some piece_idx => chk.pieceCpuhashCb s none (hash piece_idx)
  | _, _ => s

/-! ### What is claimed of it -/

/-- A piece is to be checked, and hashes to what the metainfo says. -/
def Matches (tocheck_bfield : Bitfield) (hash : ℕ → BtId) (i : ℕ) : Prop :=
  tocheck_bfield.get i = true ∧ chk.piecehash_arr[i]? = some (hash i)

/-- The state of a check which is done, and was done right: a hash for each piece to check, one at
a time; available are the pieces which match, and for the partial pieces those which were; and it
has failed if, and only if, it was for every piece and one which was declared available does
not match. -/
structure Done (tocheck_bfield : Bitfield) (hash : ℕ → BtId) (s : CheckState)
    (bt_err : Option String) (resumedata : SwarmResumedata) : Prop where
  notified : s.notified = some (bt_err, some resumedata)
  launched : ∀ i, s.launched.count i = if tocheck_bfield.get i then 1 else 0
  one : s.nullAsserted
  avail : ∀ i, resumedata.pieceavail_local.isAvail i ↔ chk.Matches tocheck_bfield hash i
    ∨ (chk.check_policy = .partialPiece
      ∧ ∃ rd, chk.caller_resumedata = some rd ∧ rd.pieceavail_local.isAvail i)
  err : bt_err.isSome ↔ chk.check_policy = .everyPiece ∧ ∃ rd, chk.caller_resumedata = some rd
    ∧ ∃ i, rd.pieceavail_local.isAvail i ∧ ¬ chk.Matches tocheck_bfield hash i

/-- The check ends, and is done right. -/
def Checks (tocheck_bfield : Bitfield) (hash : ℕ → BtId) : Prop :=
  ∃ n bt_err resumedata,
    chk.Done tocheck_bfield hash ((chk.hashed hash)^[n] (chk.start tocheck_bfield))
      bt_err resumedata

/-! ### The cursor stays -/

section Stays

variable {chk} {tocheck_bfield : Bitfield} {hash : ℕ → BtId}

/-- A check whose cursor is on the piece `i`, for which `n` hashes were launched. -/
structure Stays (tocheck_bfield : Bitfield) (i n : ℕ) (s : CheckState) : Prop where
  tocheck : s.tocheck_bfield = tocheck_bfield
  cur : s.cur_pieceidx = i
  cpuhash : s.piece_cpuhash = some i
  launched : s.launched = List.replicate n i
  notified : s.notified = none

theorem stays_launch {s : CheckState} {i n : ℕ} (hget : tocheck_bfield.get i = true)
    (htocheck : s.tocheck_bfield = tocheck_bfield) (hcur : s.cur_pieceidx = i)
    (hlaunched : s.launched = List.replicate n i) (hnotified : s.notified = none) :
    Stays tocheck_bfield i (n + 1) (chk.launchPieceCpuhash s) := by
  have hne : s.cur_pieceidx ≠ s.tocheck_bfield.length := by
    rw [hcur, htocheck]
    exact (Bitfield.lt_of_get hget).ne
  rw [launchPieceCpuhash]
  dsimp only
  rw [if_pos hne]
  refine ⟨htocheck, hcur, ?_, ?_, hnotified⟩
  · show some s.cur_pieceidx = some i
    rw [hcur]
  · show s.launched ++ [s.cur_pieceidx] = _
    rw [hlaunched, hcur, List.replicate_succ']

/-- Whatever a piece hashes to, the next hash is for that piece again. -/
theorem Stays.hashed {s : CheckState} {i n : ℕ} (h : Stays tocheck_bfield i n s)
    (hget : tocheck_bfield.get i = true) :
    Stays tocheck_bfield i (n + 1) (chk.hashed hash s) := by
  have hnext : s.tocheck_bfield.nextSet s.cur_pieceidx = i := by
    rw [h.tocheck, h.cur, Bitfield.nextSet_of_get hget]
  rw [BtCheck.hashed, h.notified, h.cpuhash]
  dsimp only [pieceCpuhashCb]
  split_ifs
  · exact stays_launch hget h.tocheck hnext h.launched h.notified
  · exact stays_launch hget h.tocheck hnext h.launched h.notified

/-- **The same piece again**: after any number of hashes, each was for the first piece. -/
theorem iterate_hashed (h : tocheck_bfield.isAnySet) (n : ℕ) :
    Stays tocheck_bfield (tocheck_bfield.nextSet 0) (n + 1)
      ((chk.hashed hash)^[n] (chk.start tocheck_bfield)) := by
  obtain ⟨i, hi⟩ := Bitfield.isAnySet_iff.1 h
  have hget := Bitfield.get_nextSet (Nat.zero_le i) hi
  induction n with
  | zero => exact stays_launch hget rfl rfl rfl rfl
  | succ n ih =>
    rw [Function.iterate_succ_apply']
    exact ih.hashed hget

theorem not_checks (h : tocheck_bfield.isAnySet) : ¬ chk.Checks tocheck_bfield hash := by
  rintro ⟨n, bt_err, resumedata, hdone⟩
  have hnotified := hdone.notified
  rw [(iterate_hashed h n).notified] at hnotified
  cases hnotified

end Stays

/-- **No check ends right.**  From whatever pieces there are to check, and whatever they hash to,
the check does not come to an end; and the partial pieces are not even found. -/
theorem never_checks (hash : ℕ → BtId) :
    (∀ tocheck_bfield : Bitfield, tocheck_bfield.isAnySet → ¬ chk.Checks tocheck_bfield hash)
    ∧ ∀ rd, chk.check_policy = .partialPiece → chk.caller_resumedata = some rd →
      ¬ rd.partavail_piece_inval.isEmpty → ∀ fuel, chk.zerotimerExpireCb none fuel = none := by
  refine ⟨fun tocheck_bfield h => not_checks h, fun rd hpolicy hrd hpart fuel => ?_⟩
  rw [zerotimerExpireCb, hpolicy]
  dsimp only
  rw [hrd]
  dsimp only
  rw [SwarmResumedata.getPartavailPieceBitfield_eq_none hpart]
  rfl

/-- Two pieces of two bytes, whose hashes are `0…` and `1…`; the caller has the first byte of the
first piece. -/
def sample (check_policy : CheckPolicy) : BtCheck where
  check_policy := check_policy
  bt_mfile := ⟨4, 2, true, by decide⟩
  piecehash_arr :=
    [⟨List.replicate 20 0, length_zeros⟩, ⟨List.replicate 20 1, length_ones⟩]
  caller_resumedata := some ⟨⟨4, 2, true, by decide⟩, [false, false], .ofItem ⟨⟨0, 0⟩, by decide⟩⟩

/-- What the pieces hash to when they are as they should be. -/
def sampleHash (i : ℕ) : BtId := ⟨List.replicate 20 (.ofNat i), List.length_replicate⟩

theorem never_checks_sample :
    ¬ (sample .partialPiece).Checks [true, false] sampleHash
    ∧ ∀ fuel, (sample .partialPiece).zerotimerExpireCb none fuel = none :=
  have h := never_checks (sample .partialPiece) sampleHash
  ⟨h.1 _ (by decide), h.2 _ rfl rfl (by decide)⟩

/-- Both pieces are as they should be; the first one is hashed again and again. -/
theorem not_checks_sample :
    (sample .everyPiece).zerotimerExpireCb none 0 = some ((sample .everyPiece).start [true, true])
    ∧ (((sample .everyPiece).hashed sampleHash)^[3]
        ((sample .everyPiece).start [true, true])).launched = [0, 0, 0, 0]
    ∧ ¬ (sample .everyPiece).Checks [true, true] sampleHash :=
  ⟨rfl, by decide, not_checks (by decide)⟩

end BtCheck

end Neoip
