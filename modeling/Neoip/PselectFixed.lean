/-
Neoip/PselectFixed.lean

The selector for precedences which seldom change: `bt_pselect_fixed_t`.

The pieces which can be selected are kept in `selectable_db`, under their
precedence and their wish, their goub.  An update takes the piece out of the
database under its old keys and puts it back under the new ones.  The selection
starts at a random place of each set.

Main results: `Indexed` is kept by every handler (`PselectFixed.step_indexed`),
and in every run each selection returns a best candidate
(`PselectFixed.run_correct`).
-/
import Mathlib.Data.List.Rotate
import Neoip.Buckets
import Neoip.Pselect
import Neoip.Run

namespace Neoip

/-- `bt_pselect_fixed_t`. -/
structure PselectFixed (n : ℕ) extends PieceState n where
  pieceprecArr : Fin n → Pieceprec
  selectable_db : Buckets UInt64 UInt64 (Fin n)

namespace PselectFixed

variable {n : ℕ}

def remotePgoub (s : PselectFixed n) (pieceidx : Fin n) : UInt64 := s.remote_pwish pieceidx

/-! ### Maintenance of `selectable_db` -/

def selectableDbInsert (s : PselectFixed n) (pieceidx : Fin n) : PselectFixed n :=
  if s.pieceprecArr pieceidx = Pieceprec.notneeded then s
  else { s with
    selectable_db :=
      s.selectable_db.insert (s.pieceprecArr pieceidx) (s.remotePgoub pieceidx) pieceidx }

def selectableDbDelete (s : PselectFixed n) (pieceidx : Fin n) : PselectFixed n :=
  if s.pieceprecArr pieceidx = Pieceprec.notneeded then s
  else { s with
    selectable_db :=
      s.selectable_db.erase (s.pieceprecArr pieceidx) (s.remotePgoub pieceidx) pieceidx }

/-- `upd_selectable` of one piece. -/
def updSelectable (s : PselectFixed n) (pieceidx : Fin n) (upd : PieceState n → PieceState n) :
    PselectFixed n :=
  let s := if s.maySelect pieceidx then s.selectableDbDelete pieceidx else s
  let s := { s with toPieceState := upd s.toPieceState }
  if s.maySelect pieceidx then s.selectableDbInsert pieceidx else s

/-- `upd_selectable` of the pieces of a bitfield. -/
def updSelectableAll (s : PselectFixed n) (extfield : Fin n → Bool)
    (upd : Fin n → PieceState n → PieceState n) : PselectFixed n :=
  (List.finRange n).foldl
    (fun s pieceidx => if extfield pieceidx then s.updSelectable pieceidx (upd pieceidx) else s) s

/-- `pieceprec_arr`: the database is built again. -/
def setPieceprecArr (s : PselectFixed n) (pieceprec_arr : Fin n → Pieceprec) : PselectFixed n :=
  (List.finRange n).foldl
    (fun s pieceidx =>
      if s.cantSelect pieceidx then s
      else if pieceprec_arr pieceidx = Pieceprec.notneeded then s
      else { s with
        selectable_db :=
          s.selectable_db.insert (pieceprec_arr pieceidx) (s.remotePgoub pieceidx) pieceidx })
    { s with pieceprecArr := pieceprec_arr, selectable_db := ∅ }

/-- The constructor. -/
def init (n : ℕ) : PselectFixed n :=
  setPieceprecArr ⟨.empty, fun _ => Pieceprec.notneeded, ∅⟩ fun _ => Pieceprec.default

/-! ### Handlers -/

/-- The handlers which change the state. -/
inductive Event (n : ℕ)
  | pieceprecArr (pieceprec_arr : Fin n → Pieceprec)
  | incRemotePfreq (pieceidx : Fin n)
  | decRemotePfreq (pieceidx : Fin n)
  | incRemotePfreqAll (bitfield : Fin n → Bool)
  | decRemotePfreqAll (bitfield : Fin n → Bool)
  | incRemotePwish (pieceidx : Fin n)
  | decRemotePwish (pieceidx : Fin n)
  | incRemotePwishAll (bitfield : Fin n → Bool)
  | decRemotePwishAll (bitfield : Fin n → Bool)
  | enterDling (pieceidx : Fin n)
  | leaveDling (pieceidx : Fin n)
  | markIsavail (pieceidx : Fin n)
  | markUnavail (pieceidx : Fin n)
  | markIsavailAll (ext_pavail : Fin n → Bool)

def step (s : PselectFixed n) : Event n → PselectFixed n
  | .pieceprecArr pieceprec_arr => s.setPieceprecArr pieceprec_arr
  | .incRemotePfreq pieceidx => { s with toPieceState := s.toPieceState.incPfreq pieceidx }
  | .decRemotePfreq pieceidx => { s with toPieceState := s.toPieceState.decPfreq pieceidx }
  | .incRemotePfreqAll bitfield =>
    { s with toPieceState := s.toPieceState.updAll PieceState.incPfreq bitfield }
  | .decRemotePfreqAll bitfield =>
    { s with toPieceState := s.toPieceState.updAll PieceState.decPfreq bitfield }
  | .incRemotePwish pieceidx => s.updSelectable pieceidx (PieceState.incPwish pieceidx)
  | .decRemotePwish pieceidx => s.updSelectable pieceidx (PieceState.decPwish pieceidx)
  | .incRemotePwishAll bitfield => s.updSelectableAll bitfield PieceState.incPwish
  | .decRemotePwishAll bitfield => s.updSelectableAll bitfield PieceState.decPwish
  | .enterDling pieceidx => s.updSelectable pieceidx (PieceState.setPdling true pieceidx)
  | .leaveDling pieceidx => s.updSelectable pieceidx (PieceState.setPdling false pieceidx)
  | .markIsavail pieceidx => s.updSelectable pieceidx (PieceState.setPavail true pieceidx)
  | .markUnavail pieceidx => s.updSelectable pieceidx (PieceState.setPavail false pieceidx)
  | .markIsavailAll ext_pavail => s.updSelectableAll ext_pavail (PieceState.setPavail true)

/-! ### Selection -/

/-- `next_piece_to_select_nohint`.  `rand` gives what `rand()` returns at the set under the two
keys; the loop goes once around the set from there. -/
def nextPieceToSelectNohint (s : PselectFixed n) (remote_pieceavail : Fin n → Bool)
    (rand : UInt64 → UInt64 → ℕ) : Option (Fin n) :=
  s.selectable_db.findDesc fun piece_prec piece_goub piece_db =>
    (piece_db.toList.rotate (rand piece_prec piece_goub % piece_db.toList.length)).find?
      fun pieceidx => remote_pieceavail pieceidx

def nextPieceToSelect (s : PselectFixed n) (remote_pieceavail : Fin n → Bool)
    (pieceidx_hint : Option (Fin n)) (rand : UInt64 → UInt64 → ℕ) : Option (Fin n) :=
  s.followHint s.pieceprecArr remote_pieceavail pieceidx_hint
    (s.nextPieceToSelectNohint remote_pieceavail rand)

/-- `has_selectable`. -/
def hasSelectable (s : PselectFixed n) : Bool := !s.selectable_db.isEmpty

/-! ### The invariant -/

/-- The piece is needed, it is not there and it is not being downloaded. -/
def Selectable (s : PselectFixed n) (pieceidx : Fin n) : Prop :=
  s.pieceprecArr pieceidx ≠ Pieceprec.notneeded ∧ s.maySelect pieceidx = true

theorem selectable_iff {s : PselectFixed n} {pieceidx : Fin n} : s.Selectable pieceidx ↔
    s.pieceprecArr pieceidx ≠ Pieceprec.notneeded ∧ s.local_pavail pieceidx = false ∧
      s.local_pdling pieceidx = false := by
  constructor
  · rintro ⟨hneeded, hmay⟩
    simp only [PieceState.maySelect, PieceState.cantSelect, Bool.not_or, Bool.and_eq_true,
      Bool.not_eq_true'] at hmay
    exact ⟨hneeded, hmay.2, hmay.1⟩
  · rintro ⟨hneeded, havail, hdling⟩
    exact ⟨hneeded, by simp [PieceState.maySelect, PieceState.cantSelect, havail, hdling]⟩

/-- The pieces of `selectable_db`, but for one, are under their keys. -/
structure IndexedBut (but : Fin n → Prop) (s : PselectFixed n) : Prop where
  mem_bucket : ∀ prec goub pieceidx, pieceidx ∈ s.selectable_db.bucket prec goub ↔
    ¬but pieceidx ∧ s.Selectable pieceidx ∧ prec = s.pieceprecArr pieceidx ∧
      goub = s.remote_pwish pieceidx
  no_empty : s.selectable_db.NoEmpty

/-- A piece is in `selectable_db` exactly when it can be selected, under its precedence and its
wish, and there is no empty map. -/
abbrev Indexed (s : PselectFixed n) : Prop := IndexedBut (fun _ => False) s

variable {s : PselectFixed n} {i : Fin n} {but : Fin n → Prop}

theorem Selectable.congr {t : PieceState n} {j : Fin n} (hj : j ≠ i)
    (h : PieceState.SameElsewhere i s.toPieceState t) :
    Selectable { s with toPieceState := t } j ↔ s.Selectable j := by
  rw [selectable_iff, selectable_iff]
  show _ ∧ t.local_pavail j = _ ∧ t.local_pdling j = _ ↔ _
  rw [h.local_pavail j hj, h.local_pdling j hj]

/-! ### One update -/

/-- The piece which is updated is taken out under its old keys. -/
theorem Indexed.delete (h : s.Indexed) (i : Fin n) :
    IndexedBut (· = i) (if s.maySelect i then s.selectableDbDelete i else s) := by
  have hout : ¬s.Selectable i → IndexedBut (· = i) s := by
    refine fun hnot => ⟨fun prec goub j => ?_, h.no_empty⟩
    rw [h.mem_bucket, not_false_eq_true, true_and]
    refine ⟨fun hj => ⟨?_, hj⟩, And.right⟩
    rintro rfl
    exact hnot hj.1
  split_ifs with hmay
  · unfold selectableDbDelete
    split_ifs with hneeded
    · exact hout fun hsel => hsel.1 hneeded
    · refine ⟨fun prec goub j => ?_, Buckets.noEmpty_erase h.no_empty⟩
      rw [Buckets.mem_bucket_erase, h.mem_bucket, not_false_eq_true, true_and]
      constructor
      · rintro ⟨hj, hother⟩
        refine ⟨?_, hj⟩
        rintro rfl
        exact hother ⟨hj.2.1.symm, hj.2.2.symm, rfl⟩
      · rintro ⟨hne, hj⟩
        exact ⟨hj, fun hother => hne hother.2.2.symm⟩
  · exact hout fun hsel => hmay hsel.2

/-- The other pieces stay where they are. -/
theorem IndexedBut.update {t : PieceState n} (h : IndexedBut (· = i) s)
    (ht : PieceState.SameElsewhere i s.toPieceState t) :
    IndexedBut (· = i) { s with toPieceState := t } := by
  refine ⟨fun prec goub j => ?_, h.no_empty⟩
  rw [h.mem_bucket]
  refine and_congr_right fun hj => ?_
  rw [Selectable.congr hj ht, ht.remote_pwish j hj]

/-- It is put back under its new ones. -/
theorem IndexedBut.insert (h : IndexedBut (fun j => j = i ∨ but j) s) (hi : ¬but i) :
    IndexedBut but (if s.maySelect i then s.selectableDbInsert i else s) := by
  have hout : ¬s.Selectable i → IndexedBut but s := by
    refine fun hnot => ⟨fun prec goub j => ?_, h.no_empty⟩
    rw [h.mem_bucket, not_or]
    constructor
    · rintro ⟨⟨-, hbut⟩, hj⟩
      exact ⟨hbut, hj⟩
    · rintro ⟨hbut, hj⟩
      refine ⟨⟨?_, hbut⟩, hj⟩
      rintro rfl
      exact hnot hj.1
  split_ifs with hmay
  · unfold selectableDbInsert
    split_ifs with hneeded
    · exact hout fun hsel => hsel.1 hneeded
    · have hsel : s.Selectable i := ⟨hneeded, hmay⟩
      refine ⟨fun prec goub j => ?_, Buckets.noEmpty_insert h.no_empty⟩
      rw [Buckets.mem_bucket_insert, h.mem_bucket, not_or]
      constructor
      · rintro (⟨rfl, rfl, rfl⟩ | ⟨⟨-, hbut⟩, hj⟩)
        · exact ⟨hi, hsel, rfl, rfl⟩
        · exact ⟨hbut, hj⟩
      · rintro ⟨hbut, hj⟩
        by_cases hji : j = i
        · subst hji
          exact .inl ⟨hj.2.1.symm, hj.2.2.symm, rfl⟩
        · exact .inr ⟨⟨hji, hbut⟩, hj⟩
  · exact hout fun hsel => hmay hsel.2

theorem IndexedBut.insert_self (h : IndexedBut (· = i) s) :
    Indexed (if s.maySelect i then s.selectableDbInsert i else s) :=
  IndexedBut.insert (by simpa only [or_false] using h) not_false

/-- **An update keeps the database.** -/
theorem Indexed.updSelectable {upd : PieceState n → PieceState n} (h : s.Indexed)
    (hupd : ∀ t, PieceState.SameElsewhere i t (upd t)) : (s.updSelectable i upd).Indexed := by
  have hupdated := (h.delete i).update (hupd _)
  exact hupdated.insert_self

theorem Indexed.updSelectableAll {upd : Fin n → PieceState n → PieceState n} (h : s.Indexed)
    (hupd : ∀ i t, PieceState.SameElsewhere i t (upd i t)) (extfield : Fin n → Bool) :
    (s.updSelectableAll extfield upd).Indexed := by
  unfold PselectFixed.updSelectableAll
  induction List.finRange n generalizing s with
  | nil => exact h
  | cons i l ih =>
    rw [List.foldl_cons]
    split_ifs
    · exact ih (h.updSelectable (hupd i))
    · exact ih h

/-- The database is built of the pieces one after the other. -/
theorem indexed_setPieceprecArr (s : PselectFixed n) (pieceprec_arr : Fin n → Pieceprec) :
    (s.setPieceprecArr pieceprec_arr).Indexed := by
  -- the pieces which are still to come are not in the database
  have hloop : ∀ (l : List (Fin n)), l.Nodup → ∀ s : PselectFixed n,
      s.pieceprecArr = pieceprec_arr → IndexedBut (· ∈ l) s → Indexed (l.foldl
        (fun s pieceidx =>
          if s.cantSelect pieceidx then s
          else if pieceprec_arr pieceidx = Pieceprec.notneeded then s
          else { s with
            selectable_db :=
              s.selectable_db.insert (pieceprec_arr pieceidx) (s.remotePgoub pieceidx) pieceidx })
        s) := by
    intro l hl
    induction l with
    | nil =>
      intro s _ h
      rw [List.foldl_nil]
      simpa only [List.not_mem_nil] using h
    | cons i l ih =>
      intro s hs h
      obtain ⟨hi, hl⟩ := List.nodup_cons.1 hl
      have hturn : IndexedBut (· ∈ l) (if s.maySelect i then s.selectableDbInsert i else s) := by
        refine IndexedBut.insert ?_ hi
        simpa only [List.mem_cons] using h
      rw [List.foldl_cons]
      subst hs
      unfold PieceState.maySelect selectableDbInsert at hturn
      cases hcant : s.cantSelect i
      · rw [hcant] at hturn
        simp only [Bool.not_false, if_true] at hturn
        rw [if_neg Bool.false_ne_true]
        split_ifs at hturn ⊢ with hneeded
        · exact ih hl s rfl hturn
        · exact ih hl _ rfl hturn
      · rw [hcant] at hturn
        exact ih hl s rfl hturn
  refine hloop (List.finRange n) (List.nodup_finRange n) _ rfl ⟨fun prec goub i => ?_, ?_⟩
  · simp
  · exact Buckets.noEmpty_empty

theorem indexed_init (n : ℕ) : (init n).Indexed := indexed_setPieceprecArr _ _

/-- **Step**: every handler keeps the database. -/
theorem step_indexed (s : PselectFixed n) (e : Event n) (h : s.Indexed) : (s.step e).Indexed := by
  have hpfreq : ∀ t : PieceState n, t.remote_pwish = s.remote_pwish →
      t.local_pdling = s.local_pdling → t.local_pavail = s.local_pavail →
        Indexed { s with toPieceState := t } := by
    intro t hwish hdling havail
    refine ⟨fun prec goub i => ?_, h.no_empty⟩
    rw [h.mem_bucket, selectable_iff, selectable_iff, ← hwish, ← hdling, ← havail]
  cases e with
  | pieceprecArr pieceprec_arr => exact indexed_setPieceprecArr s pieceprec_arr
  | incRemotePfreq i => exact hpfreq _ rfl rfl rfl
  | decRemotePfreq i => exact hpfreq _ rfl rfl rfl
  | incRemotePfreqAll bitfield =>
    obtain ⟨hwish, hdling, havail⟩ :=
      PieceState.updAll_pfreq PieceState.incPfreq bitfield (fun _ _ => ⟨rfl, rfl, rfl⟩) s.toPieceState
    exact hpfreq _ hwish hdling havail
  | decRemotePfreqAll bitfield =>
    obtain ⟨hwish, hdling, havail⟩ :=
      PieceState.updAll_pfreq PieceState.decPfreq bitfield (fun _ _ => ⟨rfl, rfl, rfl⟩) s.toPieceState
    exact hpfreq _ hwish hdling havail
  | incRemotePwish i => exact h.updSelectable fun t => t.sameElsewhere_incPwish i
  | decRemotePwish i => exact h.updSelectable fun t => t.sameElsewhere_decPwish i
  | incRemotePwishAll bitfield =>
    exact h.updSelectableAll (fun i t => t.sameElsewhere_incPwish i) bitfield
  | decRemotePwishAll bitfield =>
    exact h.updSelectableAll (fun i t => t.sameElsewhere_decPwish i) bitfield
  | enterDling i => exact h.updSelectable fun t => t.sameElsewhere_setPdling i true
  | leaveDling i => exact h.updSelectable fun t => t.sameElsewhere_setPdling i false
  | markIsavail i => exact h.updSelectable fun t => t.sameElsewhere_setPavail i true
  | markUnavail i => exact h.updSelectable fun t => t.sameElsewhere_setPavail i false
  | markIsavailAll ext_pavail =>
    exact h.updSelectableAll (fun i t => t.sameElsewhere_setPavail i true) ext_pavail

/-! ### Selections -/

/-- The piece can be selected and the peer has it. -/
def Candidate (s : PselectFixed n) (remote_pieceavail : Fin n → Bool) (pieceidx : Fin n) : Prop :=
  s.Selectable pieceidx ∧ remote_pieceavail pieceidx = true

/-- A best piece by precedence and then by wish. -/
abbrev BestPiece (s : PselectFixed n) (remote_pieceavail : Fin n → Bool) :
    Option (Fin n) → Prop :=
  Best (s.Candidate remote_pieceavail) (LessWished s.pieceprecArr s.remote_pwish)

variable {remote_pieceavail : Fin n → Bool} {rand : UInt64 → UInt64 → ℕ}

/-- The pieces of the set under their keys, from any place of it on. -/
theorem Indexed.mem_rotate (h : s.Indexed) {prec goub : UInt64} {sub : Std.TreeMap UInt64 _}
    {piece_db : Std.TreeSet (Fin n)} (hsub : s.selectable_db[prec]? = some sub)
    (hset : sub[goub]? = some piece_db) (k : ℕ) : i ∈ piece_db.toList.rotate k ↔
      s.Selectable i ∧ prec = s.pieceprecArr i ∧ goub = s.remote_pwish i := by
  rw [List.mem_rotate, Std.TreeSet.mem_toList, ← Buckets.bucket_eq hsub hset, h.mem_bucket,
    not_false_eq_true, true_and]

/-- A candidate is found under its keys. -/
theorem Indexed.find_ne_none (h : s.Indexed) (hi : s.Candidate remote_pieceavail i) (k : ℕ → ℕ) :
    ∃ (sub : Std.TreeMap UInt64 (Std.TreeSet (Fin n))) (piece_db : Std.TreeSet (Fin n)),
      s.selectable_db[s.pieceprecArr i]? = some sub ∧ sub[s.remote_pwish i]? = some piece_db ∧
        (piece_db.toList.rotate (k piece_db.toList.length)).find?
          (fun pieceidx => remote_pieceavail pieceidx) ≠ none := by
  obtain ⟨hsel, hremote⟩ := hi
  have hmem := (h.mem_bucket _ _ i).2 ⟨not_false, hsel, rfl, rfl⟩
  obtain ⟨sub, piece_db, hsub, hset, -⟩ := Buckets.exists_of_mem_bucket hmem
  refine ⟨sub, piece_db, hsub, hset, fun hnone => ?_⟩
  rw [List.find?_eq_none] at hnone
  exact hnone i ((h.mem_rotate hsub hset _).2 ⟨hsel, rfl, rfl⟩) hremote

theorem Indexed.bestPiece_nohint (h : s.Indexed) (remote_pieceavail : Fin n → Bool)
    (rand : UInt64 → UInt64 → ℕ) :
    s.BestPiece remote_pieceavail (s.nextPieceToSelectNohint remote_pieceavail rand) := by
  have hfound : ∀ i, s.nextPieceToSelectNohint remote_pieceavail rand = some i →
      s.Candidate remote_pieceavail i ∧ ∀ j, s.Candidate remote_pieceavail j →
        ¬LessWished s.pieceprecArr s.remote_pwish i j := by
    intro i hi
    obtain ⟨prec, goub, sub, piece_db, hsub, hset, hfind, hmax⟩ := Buckets.findDesc_eq_some hi
    obtain ⟨hsel, rfl, rfl⟩ := (h.mem_rotate hsub hset _).1 (List.mem_of_find?_eq_some hfind)
    refine ⟨⟨hsel, List.find?_some hfind⟩, fun j hj hless => ?_⟩
    obtain ⟨sub', piece_db', hsub', hset', hsome⟩ := h.find_ne_none hj
      fun len => rand (s.pieceprecArr j) (s.remote_pwish j) % len
    rcases hmax _ _ _ _ hsub' hset' hsome with hlt | ⟨heq, hlt | heq'⟩
    · rcases hless with hlt' | ⟨heq', -⟩
      · exact UInt64.lt_asymm hlt' (compareOfLessAndEq_eq_lt.1 hlt)
      · exact UInt64.ne_of_lt (compareOfLessAndEq_eq_lt.1 hlt) heq'.symm
    · rcases hless with hlt' | ⟨-, hlt'⟩
      · exact UInt64.ne_of_lt hlt' heq.symm
      · exact UInt64.lt_asymm hlt' (compareOfLessAndEq_eq_lt.1 hlt)
    · rcases hless with hlt' | ⟨-, hlt'⟩
      · exact UInt64.ne_of_lt hlt' heq.symm
      · exact UInt64.ne_of_lt hlt' heq'.symm
  refine ⟨⟨fun hnone i hi => ?_, fun hno => ?_⟩, fun i hi => (hfound i hi).1,
    fun i hi => (hfound i hi).2⟩
  · obtain ⟨sub, piece_db, hsub, hset, hsome⟩ := h.find_ne_none hi
      fun len => rand (s.pieceprecArr i) (s.remote_pwish i) % len
    exact hsome (Buckets.findDesc_eq_none.1 hnone _ _ _ _ hsub hset)
  · rcases hr : s.nextPieceToSelectNohint remote_pieceavail rand with _ | i
    · rfl
    · exact absurd (hfound i hr).1 (hno i)

/-- **A hint is followed only to a best piece.** -/
theorem Indexed.bestPiece (h : s.Indexed) (pieceidx_hint : Option (Fin n)) :
    s.BestPiece remote_pieceavail (s.nextPieceToSelect remote_pieceavail pieceidx_hint rand) := by
  have hbest := h.bestPiece_nohint remote_pieceavail rand
  unfold nextPieceToSelect
  rcases s.followHint_cases s.pieceprecArr remote_pieceavail pieceidx_hint
    (s.nextPieceToSelectNohint remote_pieceavail rand) with
    heq | ⟨hint, normal, hnormal, heq, hmay, hremote, hprec, hwish⟩
  · rw [heq]
    exact hbest
  -- the hint is a candidate which is not less than a best one: it has the same rank
  have hcand := hbest.mem normal hnormal
  have hneeded : s.pieceprecArr hint ≠ Pieceprec.notneeded := by
    intro hzero
    rw [hzero] at hprec
    exact hcand.1.1 (UInt64.le_antisymm hprec UInt64.zero_le)
  have hhint : s.Candidate remote_pieceavail hint := ⟨⟨hneeded, hmay⟩, hremote⟩
  have hmax := hbest.maximal normal hnormal hint hhint
  rw [LessWished, not_or, not_and] at hmax
  have hprec' := UInt64.le_antisymm (UInt64.not_lt.1 hmax.1) hprec
  have hwish' := UInt64.le_antisymm (UInt64.not_lt.1 (hmax.2 hprec'.symm)) hwish
  rw [heq]
  refine ⟨⟨nofun, fun hno => absurd hhint (hno hint)⟩, ?_, ?_⟩
  · intro i hi
    obtain rfl := Option.some.inj hi
    exact hhint
  · intro i hi j hj
    obtain rfl := Option.some.inj hi
    rw [LessWished, hprec', hwish']
    exact hbest.maximal normal hnormal j hj

/-- **Runs**: whatever the handlers are called for, a piece is in `selectable_db` exactly when it
is needed, not there and not being downloaded, under its precedence and its wish, and each
selection returns a best candidate. -/
theorem run_correct (n : ℕ) (evs : List (Event n)) :
    Always step (fun s => s.selectable_db.NoEmpty ∧
      (∀ prec goub pieceidx, pieceidx ∈ s.selectable_db.bucket prec goub ↔
        (s.pieceprecArr pieceidx ≠ Pieceprec.notneeded ∧ s.local_pavail pieceidx = false ∧
          s.local_pdling pieceidx = false) ∧
        prec = s.pieceprecArr pieceidx ∧ goub = s.remote_pwish pieceidx) ∧
      ∀ remote_pieceavail pieceidx_hint rand, s.BestPiece remote_pieceavail
        (s.nextPieceToSelect remote_pieceavail pieceidx_hint rand)) (init n) evs := by
  refine (always_invariant step_indexed (indexed_init n) evs).mono fun s h => ⟨h.no_empty, ?_, ?_⟩
  · intro prec goub pieceidx
    rw [h.mem_bucket, not_false_eq_true, true_and, selectable_iff]
  · exact fun remote_pieceavail pieceidx_hint rand => h.bestPiece pieceidx_hint

end PselectFixed

end Neoip
