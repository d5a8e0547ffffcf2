/-
Neoip/KadRec.lean

The records of Kademlia: `kad_rec_t`, and `kad_recdups_t`, the records which
have one key.

A `KadRecdups` never has two records of one record id, which is a field.  The
lengths are those of the serialized form: the number of the records and the
key, then for each record its id, its payload with its length, and its ttl.
-/
import Neoip.BestOf
import Neoip.Kbucket

namespace Neoip

/-- `kad_rec_t`; `recid` and `keyid` are a `kad_recid_t` and a `kad_keyid_t`. -/
structure KadRec where
  recid : KadId
  keyid : KadId
  ttl : ℕ
  payload : Datum
deriving DecidableEq, Repr

/-- The record stays when another one has its record id. -/
def KadRec.isTieWinnerAgainst (rec other : KadRec) : Bool :=
  if rec.ttl < other.ttl then false else true

/-- `recval_t`: a record but for its key. -/
structure Recval where
  recid : KadId
  payload : Datum
  ttl : ℕ
deriving DecidableEq, Repr

def Recval.ofRec (rec : KadRec) : Recval := ⟨rec.recid, rec.payload, rec.ttl⟩

def Recval.toRec (keyid : KadId) (recval : Recval) : KadRec :=
  ⟨recval.recid, keyid, recval.ttl, recval.payload⟩

/-- `kad_recdups_t`. -/
structure KadRecdups where
  keyid : KadId
  recval_db : List Recval
  nodup : (recval_db.map Recval.recid).Nodup

namespace KadRecdups

def empty : KadRecdups := ⟨0, [], List.nodup_nil⟩

def size (dups : KadRecdups) : ℕ := dups.recval_db.length

/-- What `operator []` returns for each index. -/
def recs (dups : KadRecdups) : List KadRec := dups.recval_db.map (Recval.toRec dups.keyid)

theorem nodup_recs (dups : KadRecdups) : (dups.recs.map KadRec.recid).Nodup := by
  rw [recs, List.map_map]
  exact dups.nodup

theorem keyid_of_mem {dups : KadRecdups} {rec : KadRec} (h : rec ∈ dups.recs) :
    rec.keyid = dups.keyid := by
  obtain ⟨recval, -, rfl⟩ := List.mem_map.1 h
  rfl

@[simp] theorem length_recs (dups : KadRecdups) : dups.recs.length = dups.size :=
  List.length_map _

theorem map_ofRec_recs (dups : KadRecdups) : dups.recs.map .ofRec = dups.recval_db := by
  rw [recs, List.map_map]
  exact List.map_id _

/-! ### `update` -/

/-- `get_by_recid`. -/
def getByRecid (dups : KadRecdups) (recid : KadId) : Option Recval :=
  dups.recval_db.find? fun recval => recval.recid = recid

def eraseRecid (recid : KadId) (l : List Recval) : List Recval :=
  l.eraseP fun recval => recval.recid = recid

theorem eraseRecid_eq_filter {l : List Recval} (h : (l.map Recval.recid).Nodup) (recid : KadId) :
    eraseRecid recid l = l.filter fun recval => recval.recid ≠ recid :=
  eraseP_eq_filter h recid

/-- `push_back`, after another record with its id has been erased. -/
def push (dups : KadRecdups) (rec : KadRec) : KadRecdups where
  keyid := if dups.keyid = 0 then rec.keyid else dups.keyid
  recval_db := eraseRecid rec.recid dups.recval_db ++ [.ofRec rec]
  nodup := by
    rw [eraseRecid_eq_filter dups.nodup, List.map_append, List.nodup_append]
    refine ⟨dups.nodup.sublist (List.filter_sublist.map _), List.nodup_singleton _, ?_⟩
    rintro recid hmem _ hsing rfl
    obtain ⟨recval, hrecval, rfl⟩ := List.mem_map.1 hmem
    exact of_decide_eq_true (List.mem_filter.1 hrecval).2 (List.mem_singleton.1 hsing)

/-- `update` with a record: of two records with one id the one with the longer ttl stays.  The
record has the key of the others, as the source asserts. -/
def update (dups : KadRecdups) (rec : KadRec) : KadRecdups :=
  match dups.getByRecid rec.recid with
  | some recval =>
    if (recval.toRec dups.keyid).isTieWinnerAgainst rec then dups else dups.push rec
  | none => dups.push rec

/-- `update` with the records of another one. -/
def updateAll (dups : KadRecdups) (recs : List KadRec) : KadRecdups := recs.foldl update dups

theorem getByRecid_eq_none {dups : KadRecdups} {recid : KadId} :
    dups.getByRecid recid = none ↔ ∀ recval ∈ dups.recval_db, recval.recid ≠ recid := by
  rw [getByRecid, List.find?_eq_none]
  simp only [decide_eq_true_eq, ne_eq]

/-- A record with a new id is put at the end. -/
theorem recval_db_update {dups : KadRecdups} {rec : KadRec}
    (h : ∀ recval ∈ dups.recval_db, recval.recid ≠ rec.recid) :
    (dups.update rec).recval_db = dups.recval_db ++ [.ofRec rec] := by
  rw [update, getByRecid_eq_none.2 h]
  show eraseRecid _ _ ++ _ = _
  rw [eraseRecid, List.eraseP_of_forall_not]
  intro recval hrecval
  simpa using h recval hrecval

/-- `update` keeps the copy with the longest ttl. -/
theorem recval_db_update_eq (dups : KadRecdups) (rec : KadRec) :
    (dups.update rec).recval_db
      = keepBest Recval.recid Recval.ttl (.ofRec rec) dups.recval_db := by
  have hfind : (dups.recval_db.find? fun recval => recval.recid = (Recval.ofRec rec).recid)
      = dups.getByRecid rec.recid := rfl
  rw [update, keepBest, hfind]
  cases dups.getByRecid rec.recid with
  | none => rfl
  | some recval =>
    show KadRecdups.recval_db (if (if recval.ttl < rec.ttl then false else true) = true then dups
      else dups.push rec) = if recval.ttl < rec.ttl then _ else _
    by_cases hlt : recval.ttl < rec.ttl
    · rw [if_pos hlt, if_pos hlt]
      rfl
    · rw [if_neg hlt, if_neg hlt]
      rfl

theorem bestOf_updateAll {dups : KadRecdups} {l : List Recval}
    (h : BestOf Recval.recid Recval.ttl l dups.recval_db) (recs : List KadRec) :
    BestOf Recval.recid Recval.ttl (l ++ recs.map .ofRec) (dups.updateAll recs).recval_db := by
  induction recs generalizing dups l with
  | nil => simpa [updateAll] using h
  | cons rec recs ih =>
    have hrec : BestOf Recval.recid Recval.ttl (l ++ [.ofRec rec]) (dups.update rec).recval_db := by
      rw [recval_db_update_eq]
      exact h.keepBest _
    simpa [updateAll] using ih hrec

/-! ### The order and the lengths -/

def sortByRecid (dups : KadRecdups) : KadRecdups where
  keyid := dups.keyid
  recval_db := dups.recval_db.mergeSort fun a b => a.recid ≤ b.recid
  nodup := ((List.mergeSort_perm _ _).map _).nodup_iff.2 dups.nodup

/-- `truncate_at_tail`. -/
def truncateAtTail (dups : KadRecdups) (nb_rec_to_del : ℕ) : KadRecdups where
  keyid := dups.keyid
  recval_db := dups.recval_db.take (dups.size - nb_rec_to_del)
  nodup := dups.nodup.sublist ((List.take_sublist _ _).map _)

/-- `get_serial_hd_main`. -/
def SERIAL_HD_MAIN : ℕ := 4 + 20

/-- `get_serial_hd_per_rec`. -/
def SERIAL_HD_PER_REC : ℕ := 20 + 4 + 8

/-- The loop of `nb_serialized_rec_in_size`. -/
def nbRecInSize (max_len : ℕ) : ℕ → List Recval → ℕ
  | _, [] => 0
  | cur_len, recval :: recvals =>
    let rec_len := SERIAL_HD_PER_REC + recval.payload.length
    if max_len ≠ 0 ∧ max_len < cur_len + rec_len then 0
    else nbRecInSize max_len (cur_len + rec_len) recvals + 1

/-- How many of the first records do fit in `max_len` bytes; 0 is no limit.  Another limit is at
least `SERIAL_HD_MAIN`, as the source asserts. -/
def nbSerializedRecInSize (dups : KadRecdups) (max_len : ℕ) : ℕ :=
  nbRecInSize max_len SERIAL_HD_MAIN dups.recval_db

theorem nbRecInSize_le {max_len : ℕ} (cur_len : ℕ) (l : List Recval) :
    nbRecInSize max_len cur_len l ≤ l.length := by
  induction l generalizing cur_len with
  | nil => exact le_refl _
  | cons recval l ih =>
    rw [nbRecInSize]
    split_ifs
    · exact Nat.zero_le _
    · exact Nat.succ_le_succ (ih _)

end KadRecdups

end Neoip
