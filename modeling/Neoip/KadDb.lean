/-
Neoip/KadDb.lean

The record database of Kademlia: `kad_db_t`, with its records `rec_t`.

A record is in two maps, by its id in `recid_db` and by the distance of its key
in `distid_db`, which is a multimap; `db_size` is kept beside them.  A `DbRec`
is the object, with a pointer as its name: the maps have the same objects in
them.

`checked` is false once an assertion has failed.  What may happen to a database
is an event: a STORE request, a store of the peer itself, a kad_recdups which
`may_accept` and `update` are called with, a removal, an expiration.

The two indexes and the size are right in every state (`Linked`).  But where a
key may have one record only, `may_accept` looks whether the database has the
key before any of the records is in it, and so accepts several records of one
key, which `update` then refuses one by one.

Main result: `keeps_sound_iff`.
-/
import Neoip.KadRec

namespace Neoip

/-- What a database reads of its profile and of its peer. -/
structure KadDbCfg where
  local_peerid : KadId
  is_remote_db : Bool
  keyid_nodups_ok : Bool
  rec_max_ttl : ℕ
  rec_max_len : ℕ
  db_max_len : ℕ

/-- `rec_t`.  `expire_date` is when its timeout expires, if it does. -/
structure DbRec where
  ptr : ℕ
  kad_rec : KadRec
  expire_date : Option ℕ
deriving DecidableEq, Repr

namespace DbRec

def recid (rec : DbRec) : KadId := rec.kad_rec.recid

def keyid (rec : DbRec) : KadId := rec.kad_rec.keyid

def len (rec : DbRec) : ℕ := rec.kad_rec.payload.length

end DbRec

/-- `kad_db_t`. -/
structure KadDb where
  distid_db : List (KadId × DbRec)
  recid_db : List (KadId × DbRec)
  db_size : ℕ
  present : ℕ
  next_ptr : ℕ
  checked : Bool
deriving DecidableEq, Repr

/-- `delay_t::INFINITE_VAL`. -/
def INFINITE_VAL : ℕ := 0xFFFFFFFFFFFFFFE

/-- The requests of the peers and of the local one, and time. -/
inductive KadDbEv
  | store (dups : KadRecdups)
  | storeLocal (dups : KadRecdups)
  | update (dups : KadRecdups)
  | remove (recid : KadId)
  | expire (recid : KadId)
  | elapse (delay : ℕ)

namespace KadDb

variable (cfg : KadDbCfg)

def start : KadDb := ⟨[], [], 0, 0, 0, true⟩

/-- A `DBG_ASSERT`. -/
def assert (ok : Bool) (s : KadDb) : KadDb := { s with checked := s.checked && ok }

def getDistid (keyid : KadId) : KadId := cfg.local_peerid ^^^ keyid

/-! ### Linking -/

/-- `get_iter_from_ptr`. -/
def isIterOf (rec : DbRec) (e : KadId × DbRec) : Bool :=
  e.1 = getDistid cfg rec.keyid && e.2.ptr = rec.ptr

def recDolink (rec : DbRec) (s : KadDb) : KadDb :=
  assert (Omap.find rec.recid s.recid_db).isNone { s with
    db_size := s.db_size + rec.len
    distid_db := Omap.place ltKadId (getDistid cfg rec.keyid) rec s.distid_db
    recid_db := Omap.insert ltKadId rec.recid rec s.recid_db }

def recUnlink (rec : DbRec) (s : KadDb) : KadDb :=
  assert (rec.len ≤ s.db_size && s.distid_db.any (isIterOf cfg rec)) { s with
    db_size := s.db_size - rec.len
    recid_db := Omap.erase rec.recid s.recid_db
    distid_db := s.distid_db.eraseP (isIterOf cfg rec) }

/-- `cpu_expire_delay`, from now on. -/
def expireDate (rec : KadRec) (s : KadDb) : Option ℕ :=
  if cfg.is_remote_db ∧ rec.ttl ≠ INFINITE_VAL then some (s.present + rec.ttl) else none

/-- The constructor of `rec_t`. -/
def newRec (rec : KadRec) (s : KadDb) : KadDb :=
  recDolink cfg ⟨s.next_ptr, rec, expireDate cfg rec s⟩ { s with next_ptr := s.next_ptr + 1 }

/-- `get_kad_rec`: in the remote database the ttl is what is left of it, and zero when the timeout is
late, where the difference of the source wraps around. -/
def getKadRec (rec : DbRec) (s : KadDb) : KadRec :=
  if cfg.is_remote_db then
    { rec.kad_rec with
      ttl := match rec.expire_date with
        | some expire_date => expire_date - s.present
        | none => INFINITE_VAL }
  else rec.kad_rec

/-! ### The database -/

def containRecid (recid : KadId) (s : KadDb) : Bool := (Omap.find recid s.recid_db).isSome

def containKeyid (keyid : KadId) (s : KadDb) : Bool :=
  s.distid_db.any fun e => e.1 = getDistid cfg keyid

/-- `may_accept` of a record. -/
def mayAccept (rec : KadRec) (s : KadDb) : Bool :=
  if cfg.keyid_nodups_ok && s.containKeyid cfg rec.keyid then false
  else if cfg.rec_max_ttl < rec.ttl then false
  else if cfg.rec_max_len ≠ 0 ∧ cfg.rec_max_len < rec.payload.length then false
  else if cfg.db_max_len ≠ 0 ∧ cfg.db_max_len < s.db_size + rec.payload.length then false
  else true

/-- The payloads of some records. -/
def lenOf (recs : List KadRec) : ℕ := (recs.map fun rec => rec.payload.length).sum

/-- `may_accept` of a `kad_recdups_t`. -/
def mayAcceptDups (dups : KadRecdups) (s : KadDb) : Bool :=
  if cfg.db_max_len ≠ 0 ∧ cfg.db_max_len < s.db_size + lenOf dups.recs then false
  else dups.recs.all fun rec => s.mayAccept cfg rec

/-- `update` with a record. -/
def update (rec : KadRec) (s : KadDb) : KadDb :=
  let s := assert (s.mayAccept cfg rec) s
  match Omap.find rec.recid s.recid_db with
  | some old =>
    if (s.getKadRec cfg old).isTieWinnerAgainst rec then s
    else newRec cfg rec (recUnlink cfg old s)
  | none => newRec cfg rec s

/-- `update` with a `kad_recdups_t`. -/
def updateDups (recs : List KadRec) (s : KadDb) : KadDb :=
  recs.foldl (fun s rec => update cfg rec s) s

def remove (recid : KadId) (s : KadDb) : KadDb :=
  match Omap.find recid s.recid_db with
  | none => s
  | some rec => recUnlink cfg rec s

/-- `expire_timeout_cb` of a record whose time has come. -/
def expireTimeoutCb (recid : KadId) (s : KadDb) : KadDb :=
  match Omap.find recid s.recid_db with
  | none => s
  | some rec => if rec.expire_date.any (· ≤ s.present) then recUnlink cfg rec s else s

/-- `handle_store_request`, on the remote database. -/
def storeRequest : List KadRec → KadDb → KadDb
  | [], s => s
  | rec :: recs, s => if s.mayAccept cfg rec then storeRequest recs (update cfg rec s) else s

/-- `store_local_db`, on the local one. -/
def storeLocalDb (dups : KadRecdups) (s : KadDb) : KadDb :=
  if s.mayAcceptDups cfg dups then
    updateDups cfg dups.recs (dups.recs.foldl (fun s rec =>
      if s.containRecid rec.recid then remove cfg rec.recid s else s) s)
  else s

def step (s : KadDb) : KadDbEv → KadDb
  | .store dups => storeRequest cfg dups.recs s
  | .storeLocal dups => storeLocalDb cfg dups s
  | .update dups => if s.mayAcceptDups cfg dups then updateDups cfg dups.recs s else s
  | .remove recid => remove cfg recid s
  | .expire recid => expireTimeoutCb cfg recid s
  | .elapse delay => { s with present := s.present + delay }

/-! ### The two indexes -/

/-- The two maps have the same records in them, each of them once, under its id and under the
distance of its key, and the size is that of their payloads. -/
structure Linked (s : KadDb) : Prop where
  same : (s.distid_db.map Prod.snd).Perm (s.recid_db.map Prod.snd)
  distid : ∀ e ∈ s.distid_db, e.1 = getDistid cfg e.2.keyid
  sorted : s.distid_db.Pairwise fun a b => a.1 ≤ b.1
  recid : ∀ e ∈ s.recid_db, e.1 = e.2.recid
  keyed : Omap.Keyed s.recid_db
  fresh : ∀ e ∈ s.distid_db, e.2.ptr < s.next_ptr
  ptrs : (s.distid_db.map fun e => e.2.ptr).Nodup
  size : s.db_size = (s.distid_db.map fun e => e.2.len).sum

variable {cfg} {s : KadDb} {rec old : DbRec} {new : KadRec} {recid : KadId}

theorem linked_start : Linked cfg start :=
  ⟨.refl _, nofun, .nil, nofun, List.nodup_nil, nofun, List.nodup_nil, rfl⟩

theorem sorted_place {α : Type*} {l : List (KadId × α)} {k : KadId} {a : α}
    (h : l.Pairwise fun a b => a.1 ≤ b.1) :
    (Omap.place ltKadId k a l).Pairwise fun a b => a.1 ≤ b.1 := by
  refine Omap.pairwise_place_of (fun hlt => ?_) (fun hlt hle => ?_) (fun e _ hnot => ?_) h
  · exact BitVec.le_of_lt (of_decide_eq_true hlt)
  · exact BitVec.le_trans (BitVec.le_of_lt (of_decide_eq_true hlt)) hle
  · exact BitVec.not_lt.1 (of_decide_eq_false hnot)

/-- A record which is found by its id. -/
theorem Linked.recid_of_find (h : Linked cfg s) (hfind : Omap.find recid s.recid_db = some old) :
    old.recid = recid := (h.recid _ (Omap.mem_of_find hfind)).symm

theorem Linked.mem_distid (h : Linked cfg s) (hfind : Omap.find recid s.recid_db = some old) :
    (getDistid cfg old.keyid, old) ∈ s.distid_db := by
  have hmem : old ∈ s.distid_db.map Prod.snd :=
    h.same.mem_iff.2 (List.mem_map.2 ⟨_, Omap.mem_of_find hfind, rfl⟩)
  obtain ⟨⟨distid, rec⟩, he, rfl⟩ := List.mem_map.1 hmem
  rwa [← h.distid _ he]

/-- A new record is linked. -/
theorem Linked.newRec (h : Linked cfg s) (hnew : Omap.find new.recid s.recid_db = none) :
    Linked cfg (newRec cfg new s) := by
  set rec : DbRec := ⟨s.next_ptr, new, expireDate cfg new s⟩ with hrec
  -- the identifier is not in use, so nothing is overwritten
  have hinsert : Omap.insert ltKadId rec.recid rec s.recid_db
      = Omap.place ltKadId rec.recid rec s.recid_db := Omap.insert_of_find hnew
  have hperm : (Omap.place ltKadId (getDistid cfg rec.keyid) rec s.distid_db).Perm _ :=
    Omap.place_perm
  constructor
  · show ((Omap.place _ _ rec s.distid_db).map Prod.snd).Perm
      ((Omap.insert _ _ rec s.recid_db).map Prod.snd)
    rw [hinsert]
    exact (hperm.map _).trans ((h.same.cons rec).trans (Omap.place_perm.map Prod.snd).symm)
  · intro e he
    rcases Omap.mem_place.1 he with rfl | he
    · rfl
    · exact h.distid e he
  · exact sorted_place h.sorted
  · show ∀ e ∈ Omap.insert _ _ rec s.recid_db, e.1 = e.2.recid
    rw [hinsert]
    intro e he
    rcases Omap.mem_place.1 he with rfl | he
    · rfl
    · exact h.recid e he
  · show Omap.Keyed (Omap.insert _ _ rec s.recid_db)
    rw [hinsert]
    exact Omap.keyed_place h.keyed hnew
  · intro e he
    show e.2.ptr < s.next_ptr + 1
    rcases Omap.mem_place.1 he with rfl | he
    · exact Nat.lt_succ_self _
    · exact Nat.lt_succ_of_lt (h.fresh e he)
  · refine (hperm.map fun e => e.2.ptr).nodup_iff.2 ?_
    rw [List.map_cons, List.nodup_cons]
    refine ⟨fun hmem => ?_, h.ptrs⟩
    obtain ⟨e, he, hptr⟩ := List.mem_map.1 hmem
    exact absurd hptr (h.fresh e he).ne
  · show s.db_size + rec.len = ((Omap.place _ _ rec s.distid_db).map fun e => e.2.len).sum
    rw [Omap.sum_place, h.size, Nat.add_comm]

/-- Unlinking takes the record, and no other one, out of both maps. -/
theorem Linked.erase_distid (h : Linked cfg s) (hfind : Omap.find recid s.recid_db = some old) :
    s.distid_db.Perm
      ((getDistid cfg old.keyid, old) :: s.distid_db.eraseP (isIterOf cfg old)) := by
  have hmem := h.mem_distid hfind
  have hiter : isIterOf cfg old (getDistid cfg old.keyid, old) = true := by simp [isIterOf]
  obtain ⟨e, l, l', -, he, hl, herase⟩ := List.exists_of_eraseP hmem hiter
  have hptr : e.2.ptr = old.ptr := by
    rw [isIterOf, Bool.and_eq_true, decide_eq_true_iff, decide_eq_true_iff] at he
    exact he.2
  have hmem' : e ∈ s.distid_db := by
    rw [hl]
    exact List.mem_append_right _ List.mem_cons_self
  have heq : e = (getDistid cfg old.keyid, old) := List.inj_on_of_nodup_map h.ptrs hmem' hmem hptr
  rw [herase, ← heq]
  rw [hl]
  exact List.perm_middle

theorem Linked.recUnlink (h : Linked cfg s) (hfind : Omap.find recid s.recid_db = some old) :
    Linked cfg (recUnlink cfg old s) := by
  have hdist := h.erase_distid hfind
  have hrecid := h.recid_of_find hfind
  have hperm := Omap.perm_erase h.keyed (Omap.mem_of_find hfind)
  have hsub : (s.distid_db.eraseP (isIterOf cfg old)).Sublist s.distid_db := List.eraseP_sublist
  have hsub' : (Omap.erase old.recid s.recid_db).Sublist s.recid_db := List.filter_sublist
  constructor
  · show ((s.distid_db.eraseP _).map Prod.snd).Perm ((Omap.erase old.recid s.recid_db).map Prod.snd)
    rw [hrecid]
    have hboth := ((hdist.map Prod.snd).symm.trans h.same).trans (hperm.map Prod.snd)
    exact hboth.cons_inv
  · exact fun e he => h.distid e (hsub.subset he)
  · exact h.sorted.sublist hsub
  · exact fun e he => h.recid e (hsub'.subset he)
  · exact Omap.keyed_erase h.keyed
  · exact fun e he => h.fresh e (hsub.subset he)
  · exact h.ptrs.sublist (hsub.map _)
  · show s.db_size - old.len = ((s.distid_db.eraseP _).map fun e => e.2.len).sum
    rw [h.size, (hdist.map fun e => e.2.len).sum_eq, List.map_cons, List.sum_cons]
    exact Nat.add_sub_cancel_left _ _

/-! ### What is claimed of a database -/

variable (cfg) in
/-- A database which is as it should be: its indexes are right, it is not too long, no two records
have one key where that is not allowed, and no check has failed. -/
structure Sound (s : KadDb) : Prop extends Linked cfg s where
  le_max : cfg.db_max_len ≠ 0 → s.db_size ≤ cfg.db_max_len
  nodups : cfg.keyid_nodups_ok = true → (s.distid_db.map fun e => e.2.keyid).Nodup
  checked : s.checked = true

theorem sound_start : Sound cfg start := ⟨linked_start, fun _ => Nat.zero_le _, fun _ => .nil, rfl⟩

theorem assert_true {ok : Bool} (hok : ok = true) : assert ok s = s := by
  subst hok
  rw [assert, Bool.and_true]

theorem Linked.containKeyid_iff (h : Linked cfg s) {keyid : KadId} :
    s.containKeyid cfg keyid = true ↔ ∃ e ∈ s.distid_db, e.2.keyid = keyid := by
  rw [containKeyid, List.any_eq_true]
  apply exists_congr
  intro e
  apply and_congr_right
  intro he
  rw [decide_eq_true_iff, h.distid e he]
  exact BitVec.xor_right_inj _

theorem mayAccept_iff : s.mayAccept cfg new = true ↔
    (cfg.keyid_nodups_ok = true → s.containKeyid cfg new.keyid = false)
    ∧ new.ttl ≤ cfg.rec_max_ttl
    ∧ (cfg.rec_max_len ≠ 0 → new.payload.length ≤ cfg.rec_max_len)
    ∧ (cfg.db_max_len ≠ 0 → s.db_size + new.payload.length ≤ cfg.db_max_len) := by
  rw [mayAccept]
  split_ifs with hkey httl hlen hmax
  · simp only [Bool.and_eq_true] at hkey
    refine iff_of_false nofun fun h => ?_
    have := h.1 hkey.1
    rw [hkey.2] at this
    cases this
  · exact iff_of_false nofun fun h => absurd h.2.1 (Nat.not_le.2 httl)
  · exact iff_of_false nofun fun h => absurd (h.2.2.1 hlen.1) (Nat.not_le.2 hlen.2)
  · exact iff_of_false nofun fun h => absurd (h.2.2.2 hmax.1) (Nat.not_le.2 hmax.2)
  · refine iff_of_true rfl ⟨fun hnodups => ?_, Nat.not_lt.1 httl, fun h0 => ?_, fun h0 => ?_⟩
    · rw [hnodups, Bool.true_and] at hkey
      exact Bool.eq_false_iff.2 hkey
    · exact Nat.not_lt.1 fun hlt => hlen ⟨h0, hlt⟩
    · exact Nat.not_lt.1 fun hlt => hmax ⟨h0, hlt⟩

/-! ### Removing a record -/

theorem Linked.db_size_recUnlink (h : Linked cfg s)
    (hfind : Omap.find recid s.recid_db = some old) :
    (KadDb.recUnlink cfg old s).db_size + old.len = s.db_size := by
  have hsum := ((h.erase_distid hfind).map fun e => e.2.len).sum_eq
  rw [List.map_cons, List.sum_cons, ← h.size] at hsum
  exact Nat.sub_add_cancel (hsum ▸ Nat.le_add_right _ _)

theorem Sound.recUnlink (h : Sound cfg s) (hfind : Omap.find recid s.recid_db = some old) :
    Sound cfg (KadDb.recUnlink cfg old s) := by
  have hsize := h.db_size_recUnlink hfind
  have hsub : (s.distid_db.eraseP (isIterOf cfg old)).Sublist s.distid_db := List.eraseP_sublist
  refine ⟨h.toLinked.recUnlink hfind, fun hmax => ?_, fun hnodups => ?_, ?_⟩
  · exact le_trans (hsize ▸ Nat.le_add_right _ _) (h.le_max hmax)
  · exact (h.nodups hnodups).sublist (hsub.map _)
  · show (s.checked && (old.len ≤ s.db_size && s.distid_db.any (isIterOf cfg old))) = true
    rw [h.checked, Bool.true_and, Bool.and_eq_true, decide_eq_true_iff, List.any_eq_true]
    refine ⟨hsize ▸ Nat.le_add_left _ _, _, h.mem_distid hfind, ?_⟩
    simp [isIterOf]

/-- What removing a record does to the records which stay. -/
theorem Linked.remove (h : Linked cfg s) (recid : KadId) :
    (∀ e ∈ (remove cfg recid s).distid_db, e ∈ s.distid_db)
    ∧ (remove cfg recid s).db_size ≤ s.db_size
    ∧ (∀ other, Omap.find other (remove cfg recid s).recid_db
        = if other = recid then none else Omap.find other s.recid_db) := by
  rw [KadDb.remove]
  cases hfind : Omap.find recid s.recid_db with
  | none =>
    refine ⟨fun e he => he, le_refl _, fun other => ?_⟩
    split_ifs with heq
    · rw [heq, hfind]
    · rfl
  | some old =>
    refine ⟨fun e he => List.eraseP_sublist.subset he, Nat.sub_le _ _, fun other => ?_⟩
    show Omap.find other (Omap.erase old.recid s.recid_db) = _
    rw [h.recid_of_find hfind, Omap.find_erase]

theorem Linked.remove_linked (h : Linked cfg s) (recid : KadId) :
    Linked cfg (KadDb.remove cfg recid s) := by
  rw [KadDb.remove]
  cases hfind : Omap.find recid s.recid_db with
  | none => exact h
  | some old => exact h.recUnlink hfind

theorem Sound.remove (h : Sound cfg s) (recid : KadId) : Sound cfg (KadDb.remove cfg recid s) := by
  rw [KadDb.remove]
  cases hfind : Omap.find recid s.recid_db with
  | none => exact h
  | some old => exact h.recUnlink hfind

/-! ### Updating one record -/

variable (cfg) in
/-- The record is not taken, as one with its id has at least its ttl. -/
def discards (new : KadRec) (s : KadDb) : Bool :=
  (Omap.find new.recid s.recid_db).any fun old => (s.getKadRec cfg old).isTieWinnerAgainst new

theorem update_eq : update cfg new s =
    if s.discards cfg new then assert (s.mayAccept cfg new) s
    else newRec cfg new (remove cfg new.recid (assert (s.mayAccept cfg new) s)) := by
  have hsame : (assert (s.mayAccept cfg new) s).recid_db = s.recid_db := rfl
  rw [update, discards, remove, hsame]
  cases Omap.find new.recid s.recid_db with
  | none => rfl
  | some old => rfl

theorem Sound.newRec (h : Sound cfg s) (hnew : Omap.find new.recid s.recid_db = none)
    (hmax : cfg.db_max_len ≠ 0 → s.db_size + new.payload.length ≤ cfg.db_max_len)
    (hkey : cfg.keyid_nodups_ok = true → s.containKeyid cfg new.keyid = false) :
    Sound cfg (newRec cfg new s) := by
  refine ⟨h.toLinked.newRec hnew, hmax, fun hnodups => ?_, ?_⟩
  · show ((Omap.place _ _ _ s.distid_db).map fun e : KadId × DbRec => e.2.keyid).Nodup
    rw [(Omap.place_perm.map _).nodup_iff, List.map_cons, List.nodup_cons]
    refine ⟨fun hmem => ?_, h.nodups hnodups⟩
    obtain ⟨e, he, heq⟩ := List.mem_map.1 hmem
    have hno := hkey hnodups
    have hyes : s.containKeyid cfg new.keyid = true := h.containKeyid_iff.2 ⟨e, he, heq⟩
    rw [hyes] at hno
    cases hno
  · show (s.checked && (Omap.find new.recid s.recid_db).isNone) = true
    rw [h.checked, hnew]
    rfl

theorem Sound.update (h : Sound cfg s) (hacc : s.mayAccept cfg new = true) :
    Sound cfg (update cfg new s) := by
  obtain ⟨hkey, -, -, hmax⟩ := mayAccept_iff.1 hacc
  obtain ⟨hsub, hsize, hfind⟩ := h.toLinked.remove new.recid
  rw [update_eq, assert_true hacc]
  split_ifs
  · exact h
  · apply (h.remove new.recid).newRec
    · rw [hfind, if_pos rfl]
    · exact fun h0 => le_trans (Nat.add_le_add_right hsize _) (hmax h0)
    · intro hnodups
      rw [Bool.eq_false_iff, Ne, (h.toLinked.remove_linked new.recid).containKeyid_iff]
      rintro ⟨e, he, heq⟩
      have hno := hkey hnodups
      rw [h.containKeyid_iff.2 ⟨e, hsub e he, heq⟩] at hno
      cases hno

/-- A record which is put in is there, and its key is. -/
theorem Linked.containKeyid_newRec (h : Linked cfg s)
    (hnew : Omap.find new.recid s.recid_db = none) :
    (KadDb.newRec cfg new s).containKeyid cfg new.keyid = true :=
  (h.newRec hnew).containKeyid_iff.2
    ⟨_, Omap.mem_place.2 (.inl rfl), rfl⟩

/-! A check which has failed has failed. -/

theorem checked_remove_of_not (h : s.checked = false) :
    (remove cfg recid s).checked = false := by
  rw [remove]
  cases Omap.find recid s.recid_db with
  | none => exact h
  | some rec => exact (congrArg (· && _) h).trans (Bool.false_and _)

theorem checked_newRec_of_not (h : s.checked = false) : (newRec cfg new s).checked = false :=
  (congrArg (· && _) h).trans (Bool.false_and _)

theorem checked_update_of_assert (h : (assert (s.mayAccept cfg new) s).checked = false) :
    (update cfg new s).checked = false := by
  rw [update_eq]
  split_ifs
  · exact h
  · exact checked_newRec_of_not (checked_remove_of_not h)

/-- An update with a record of which there is one of the same key fails its check. -/
theorem checked_update_of_containKeyid (hnodups : cfg.keyid_nodups_ok = true)
    (hkey : s.containKeyid cfg new.keyid = true) : (update cfg new s).checked = false := by
  have hacc : s.mayAccept cfg new = false := by
    rw [mayAccept, hnodups, hkey]
    rfl
  apply checked_update_of_assert
  rw [assert, hacc, Bool.and_false]

theorem checked_update_of_not (h : s.checked = false) : (update cfg new s).checked = false := by
  apply checked_update_of_assert
  rw [assert, h, Bool.false_and]

theorem checked_updateDups_of_not {recs : List KadRec} (h : s.checked = false) :
    (updateDups cfg recs s).checked = false := by
  induction recs generalizing s with
  | nil => exact h
  | cons rec recs ih => exact ih (checked_update_of_not h)

/-! ### Updating several records -/

theorem mayAcceptDups_iff {dups : KadRecdups} : s.mayAcceptDups cfg dups = true ↔
    (cfg.db_max_len ≠ 0 → s.db_size + lenOf dups.recs ≤ cfg.db_max_len)
    ∧ ∀ rec ∈ dups.recs, s.mayAccept cfg rec = true := by
  rw [mayAcceptDups]
  split_ifs with hmax
  · exact iff_of_false nofun fun h => absurd (h.1 hmax.1) (Nat.not_le.2 hmax.2)
  · rw [List.all_eq_true, iff_and_self]
    intro _ h0
    exact Nat.not_lt.1 fun hlt => hmax ⟨h0, hlt⟩

theorem db_size_update_le (h : Linked cfg s) :
    (update cfg new s).db_size ≤ s.db_size + new.payload.length := by
  have hle := (h.remove new.recid).2.1
  rw [update_eq]
  split_ifs
  · exact Nat.le_add_right _ _
  · have hsame (ok : Bool) :
        (remove cfg new.recid (assert ok s)).db_size = (remove cfg new.recid s).db_size := by
      rw [remove, remove]
      show KadDb.db_size (match Omap.find new.recid s.recid_db with
        | none => _
        | some rec => _) = _
      cases Omap.find new.recid s.recid_db <;> rfl
    show (remove cfg new.recid (assert _ s)).db_size + _ ≤ _
    rw [hsame]
    exact Nat.add_le_add_right hle _

/-- Where a key may have several records, what was accepted as a whole is accepted one after the
other: an update adds no more than its payload. -/
theorem Sound.updateDups_of_dups (h : Sound cfg s) (hdups : cfg.keyid_nodups_ok = false)
    {recs : List KadRec}
    (hmax : cfg.db_max_len ≠ 0 → s.db_size + lenOf recs ≤ cfg.db_max_len)
    (hrec : ∀ rec ∈ recs, rec.ttl ≤ cfg.rec_max_ttl
      ∧ (cfg.rec_max_len ≠ 0 → rec.payload.length ≤ cfg.rec_max_len)) :
    Sound cfg (updateDups cfg recs s) := by
  induction recs generalizing s with
  | nil => exact h
  | cons rec recs ih =>
    obtain ⟨httl, hlen⟩ := hrec rec List.mem_cons_self
    have hsum : lenOf (rec :: recs) = rec.payload.length + lenOf recs := by
      rw [lenOf, List.map_cons, List.sum_cons, lenOf]
    have hacc : s.mayAccept cfg rec = true := by
      refine mayAccept_iff.2 ⟨fun hnodups => ?_, httl, hlen, fun h0 => ?_⟩
      · rw [hdups] at hnodups
        cases hnodups
      · have := hmax h0
        omega
    refine ih (h.update hacc) (fun h0 => ?_) fun r hr => hrec r (List.mem_cons_of_mem _ hr)
    have hbound := hmax h0
    have hgrow : (KadDb.update cfg rec s).db_size ≤ s.db_size + rec.payload.length :=
      db_size_update_le h.toLinked
    show (KadDb.update cfg rec s).db_size + lenOf recs ≤ cfg.db_max_len
    omega

/-- Where a key has one record only, the records of one key which were accepted as a whole are
accepted one after the other if, and only if, none but the last is taken. -/
theorem Sound.updateDups_iff_of_nodups (h : Sound cfg s) (hnodups : cfg.keyid_nodups_ok = true)
    {recs : List KadRec} {keyid : KadId} (hkeyid : ∀ rec ∈ recs, rec.keyid = keyid)
    (hacc : ∀ rec ∈ recs, s.mayAccept cfg rec = true) :
    Sound cfg (updateDups cfg recs s) ↔ ∀ rec ∈ recs.dropLast, s.discards cfg rec = true := by
  induction recs with
  | nil => exact iff_of_true h nofun
  | cons rec recs ih =>
    have haccept := hacc rec List.mem_cons_self
    cases recs with
    | nil => exact iff_of_true (h.update haccept) nofun
    | cons next recs =>
      rw [List.dropLast_cons_cons, List.forall_mem_cons]
      by_cases hdiscards : s.discards cfg rec = true
      · have hsame : KadDb.update cfg rec s = s := by
          rw [update_eq, if_pos hdiscards, assert_true haccept]
        rw [← ih (fun r hr => hkeyid r (List.mem_cons_of_mem _ hr))
          fun r hr => hacc r (List.mem_cons_of_mem _ hr)]
        show Sound cfg (KadDb.updateDups cfg (next :: recs) (KadDb.update cfg rec s)) ↔ _
        rw [hsame, and_iff_right hdiscards]
      · -- the first one is taken, so that its key is there when the next one comes
        refine iff_of_false (fun hsound => ?_) fun hall => hdiscards hall.1
        have htaken : (KadDb.update cfg rec s).containKeyid cfg next.keyid = true := by
          rw [hkeyid next (List.mem_cons_of_mem _ List.mem_cons_self),
            ← hkeyid rec List.mem_cons_self, update_eq, if_neg hdiscards, assert_true haccept]
          apply (h.toLinked.remove_linked rec.recid).containKeyid_newRec
          rw [(h.toLinked.remove rec.recid).2.2, if_pos rfl]
        have hfailed : (KadDb.updateDups cfg recs
            (KadDb.update cfg next (KadDb.update cfg rec s))).checked = false :=
          checked_updateDups_of_not (checked_update_of_containKeyid hnodups htaken)
        have hsound' : (KadDb.updateDups cfg recs
            (KadDb.update cfg next (KadDb.update cfg rec s))).checked = true := hsound.checked
        rw [hsound'] at hfailed
        cases hfailed

theorem Sound.updateDups_iff (h : Sound cfg s) {dups : KadRecdups}
    (hacc : s.mayAcceptDups cfg dups = true) : Sound cfg (updateDups cfg dups.recs s) ↔
      (cfg.keyid_nodups_ok = true → ∀ rec ∈ dups.recs.dropLast, s.discards cfg rec = true) := by
  obtain ⟨hmax, hrec⟩ := mayAcceptDups_iff.1 hacc
  cases hnodups : cfg.keyid_nodups_ok with
  | true =>
    rw [h.updateDups_iff_of_nodups hnodups (fun _ => KadRecdups.keyid_of_mem) hrec]
    exact ⟨fun hall _ => hall, fun hall => hall rfl⟩
  | false =>
    refine iff_of_true (h.updateDups_of_dups hnodups hmax fun rec hmem => ?_) nofun
    obtain ⟨-, httl, hlen, -⟩ := mayAccept_iff.1 (hrec rec hmem)
    exact ⟨httl, hlen⟩

/-! ### What may happen -/

theorem Sound.storeRequest (h : Sound cfg s) (recs : List KadRec) :
    Sound cfg (storeRequest cfg recs s) := by
  induction recs generalizing s with
  | nil => exact h
  | cons rec recs ih =>
    rw [KadDb.storeRequest]
    split_ifs with hacc
    · exact ih (h.update hacc)
    · exact h

/-- The local store removes what has one of the record ids first. -/
theorem Sound.removeAll (h : Sound cfg s) (recs : List KadRec) :
    let s' := recs.foldl (fun s rec =>
      if s.containRecid rec.recid then KadDb.remove cfg rec.recid s else s) s
    Sound cfg s' ∧ (∀ e ∈ s'.distid_db, e ∈ s.distid_db) ∧ s'.db_size ≤ s.db_size
      ∧ ∀ recid, Omap.find recid s'.recid_db
        = if recid ∈ recs.map KadRec.recid then none else Omap.find recid s.recid_db := by
  intro s'
  induction recs generalizing s with
  | nil => exact ⟨h, fun e he => he, le_refl _, fun recid => rfl⟩
  | cons rec recs ih =>
    have hremove : (if s.containRecid rec.recid then KadDb.remove cfg rec.recid s else s)
        = KadDb.remove cfg rec.recid s := by
      rw [containRecid, KadDb.remove]
      cases Omap.find rec.recid s.recid_db <;> rfl
    obtain ⟨hsub, hsize, hfind⟩ := h.toLinked.remove rec.recid
    obtain ⟨hsound, hsub', hsize', hfind'⟩ := ih (h.remove rec.recid)
    have hs' : s' = recs.foldl (fun s rec =>
        if s.containRecid rec.recid then KadDb.remove cfg rec.recid s else s)
        (KadDb.remove cfg rec.recid s) := by
      rw [← hremove]
      rfl
    rw [hs']
    refine ⟨hsound, fun e he => hsub e (hsub' e he), le_trans hsize' hsize, fun recid => ?_⟩
    rw [hfind', hfind, List.map_cons]
    by_cases heq : recid = rec.recid
    · simp [heq]
    · simp [heq]

/-- What the local store accepts it takes, the first one of it at least. -/
theorem Sound.storeLocalDb_iff (h : Sound cfg s) {dups : KadRecdups} :
    Sound cfg (storeLocalDb cfg dups s) ↔
      (cfg.keyid_nodups_ok = true → s.mayAcceptDups cfg dups = true → dups.size ≤ 1) := by
  rw [storeLocalDb]
  split_ifs with hacc
  · obtain ⟨hsound, hsub, hsize, hfind⟩ := h.removeAll dups.recs
    generalize dups.recs.foldl _ s = s' at hsound hsub hsize hfind
    -- removing the old records keeps what was accepted acceptable
    obtain ⟨hmax, hrec⟩ := mayAcceptDups_iff.1 hacc
    have hacc' : s'.mayAcceptDups cfg dups = true := by
      refine mayAcceptDups_iff.2 ⟨fun h0 => ?_, fun rec hmem => ?_⟩
      · exact le_trans (Nat.add_le_add_right hsize _) (hmax h0)
      · obtain ⟨hkey, httl, hlen, hmax'⟩ := mayAccept_iff.1 (hrec rec hmem)
        refine mayAccept_iff.2 ⟨fun hnodups => ?_, httl, hlen, fun h0 => ?_⟩
        · rw [Bool.eq_false_iff, Ne, hsound.toLinked.containKeyid_iff]
          rintro ⟨e, he, heq⟩
          have hno := hkey hnodups
          rw [h.toLinked.containKeyid_iff.2 ⟨e, hsub e he, heq⟩] at hno
          cases hno
        · exact le_trans (Nat.add_le_add_right hsize _) (hmax' h0)
    rw [hsound.updateDups_iff hacc']
    apply forall_congr'
    intro hnodups
    rw [forall_prop_of_true hacc]
    -- the records of the same identifiers are all gone, so none is discarded for one of them
    have hdiscards : ∀ rec ∈ dups.recs.dropLast, s'.discards cfg rec = false := by
      intro rec hmem
      rw [discards, hfind, if_pos (List.mem_map_of_mem (List.dropLast_subset _ hmem))]
      rfl
    rw [← KadRecdups.length_recs]
    constructor
    · intro hall
      by_contra hlong
      obtain ⟨rec, hmem⟩ := List.exists_mem_of_ne_nil dups.recs.dropLast fun hnil => by
        have := congrArg List.length hnil
        rw [List.length_dropLast, List.length_nil] at this
        omega
      have := hall rec hmem
      rw [hdiscards rec hmem] at this
      cases this
    · intro hshort rec hmem
      have := List.length_pos_of_mem hmem
      rw [List.length_dropLast] at this
      omega
  · exact iff_of_true h fun _ hacc' => absurd hacc' hacc

variable (cfg) in
/-- Where a key has one record only, a store of several records does not put in any of them but
the last.  The local store puts all of them in. -/
def OneAtMost (s : KadDb) : KadDbEv → Prop
  | .storeLocal dups =>
    cfg.keyid_nodups_ok = true → s.mayAcceptDups cfg dups = true → dups.size ≤ 1
  | .update dups => cfg.keyid_nodups_ok = true → s.mayAcceptDups cfg dups = true →
      ∀ rec ∈ dups.recs.dropLast, s.discards cfg rec = true
  | _ => True

theorem Sound.step_iff (h : Sound cfg s) (ev : KadDbEv) :
    Sound cfg (step cfg s ev) ↔ OneAtMost cfg s ev := by
  cases ev with
  | store dups => exact iff_of_true (h.storeRequest _) trivial
  | storeLocal dups => exact h.storeLocalDb_iff
  | update dups =>
    rw [step, OneAtMost]
    split_ifs with hacc
    · rw [h.updateDups_iff hacc]
      exact ⟨fun hall hnodups _ => hall hnodups, fun hall hnodups => hall hnodups hacc⟩
    · exact iff_of_true h fun _ hacc' => absurd hacc' hacc
  | remove recid => exact iff_of_true (h.remove recid) trivial
  | expire recid =>
    refine iff_of_true ?_ trivial
    rw [step, expireTimeoutCb]
    cases hfind : Omap.find recid s.recid_db with
    | none => exact h
    | some old =>
      dsimp only
      split_ifs
      · exact h.recUnlink hfind
      · exact h
  | elapse delay =>
    refine iff_of_true ?_ trivial
    obtain ⟨hlinked, hmax, hnodups, hchecked⟩ := h
    exact ⟨⟨hlinked.1, hlinked.2, hlinked.3, hlinked.4, hlinked.5, hlinked.6, hlinked.7,
      hlinked.8⟩, hmax, hnodups, hchecked⟩

/-- **A record database is as it should be** in every state of a run, and fails no check on the
way, exactly when, where a key may have one record only, no store puts in several of one key. -/
theorem keeps_sound_iff (cfg : KadDbCfg) (evs : List KadDbEv) :
    Always (step cfg) (Sound cfg) start evs ↔ Guarded (step cfg) (OneAtMost cfg) start evs :=
  always_iff_guarded (Q := fun _ => True) (fun _ _ _ _ => trivial)
    (fun _ ev _ h => h.step_iff ev) sound_start trivial

/-- Two records of one key, for a database in which a key may have one. -/
def sampleCfg : KadDbCfg := ⟨0, false, true, 100, 0, 0⟩

def sampleDups : KadRecdups :=
  ⟨5, [⟨1, [], 10⟩, ⟨2, [], 10⟩], by decide⟩

theorem not_keeps_sound :
    start.mayAcceptDups sampleCfg sampleDups = true
    ∧ ¬ Always (step sampleCfg) (Sound sampleCfg) start [.update sampleDups] := by
  refine ⟨by decide, not_always_of_run fun h => ?_⟩
  have hfailed : (run (step sampleCfg) start [.update sampleDups]).checked = false := by decide
  rw [h.checked] at hfailed
  cases hfailed

/-! ### In every state -/

theorem Linked.assert (h : Linked cfg s) (ok : Bool) : Linked cfg (assert ok s) :=
  ⟨h.1, h.2, h.3, h.4, h.5, h.6, h.7, h.8⟩

theorem Linked.update (h : Linked cfg s) (new : KadRec) : Linked cfg (update cfg new s) := by
  have hassert := h.assert (s.mayAccept cfg new)
  rw [update_eq]
  split_ifs
  · exact hassert
  · apply (hassert.remove_linked new.recid).newRec
    rw [(hassert.remove new.recid).2.2, if_pos rfl]

theorem Linked.updateDups (h : Linked cfg s) (recs : List KadRec) :
    Linked cfg (updateDups cfg recs s) := by
  induction recs generalizing s with
  | nil => exact h
  | cons rec recs ih => exact ih (h.update rec)

/-- The indexes are right in every state, whether a check has failed or not. -/
theorem Linked.step (h : Linked cfg s) (ev : KadDbEv) : Linked cfg (step cfg s ev) := by
  have hremoveAll (recs : List KadRec) (s : KadDb) (h : Linked cfg s) :
      Linked cfg (recs.foldl (fun s rec =>
        if s.containRecid rec.recid then KadDb.remove cfg rec.recid s else s) s) := by
    induction recs generalizing s with
    | nil => exact h
    | cons rec recs ih =>
      apply ih
      dsimp only
      split_ifs
      · exact h.remove_linked _
      · exact h
  cases ev with
  | store dups =>
    rw [KadDb.step]
    -- the loop stops at the first record which is refused
    generalize dups.recs = recs
    induction recs generalizing s with
    | nil => exact h
    | cons rec recs ih =>
      rw [KadDb.storeRequest]
      split_ifs
      · exact ih (h.update rec)
      · exact h
  | storeLocal dups =>
    rw [KadDb.step, storeLocalDb]
    split_ifs
    · exact (hremoveAll _ s h).updateDups _
    · exact h
  | update dups =>
    rw [KadDb.step]
    split_ifs
    · exact h.updateDups _
    · exact h
  | remove recid => exact h.remove_linked recid
  | expire recid =>
    rw [KadDb.step, expireTimeoutCb]
    cases hfind : Omap.find recid s.recid_db with
    | none => exact h
    | some old =>
      dsimp only
      split_ifs
      · exact h.recUnlink hfind
      · exact h
  | elapse delay => exact ⟨h.1, h.2, h.3, h.4, h.5, h.6, h.7, h.8⟩

theorem linked_run (evs : List KadDbEv) : Linked cfg (run (step cfg) start evs) :=
  run_invariant (fun _ ev h => h.step ev) linked_start evs

end KadDb

end Neoip
