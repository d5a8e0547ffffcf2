/-
Neoip/KadDump.lean

Dumping the records of a remote database with FINDALLVAL requests.

A request has a key and a record id.  The reply has the records of the key
whose ids are greater, in their order, or, when there is none and the request
says so, the records of the key which is the next one by its distance.  There
are as many of them as fit in a packet, and no more than were asked for.  The
peer which dumps goes on from the last record it was given, until it is given
none (`Dump`).

The dump starts from the peer id of the other peer, which is the key at no
distance.  The null key is where `get_next_keyid` says that there is no other
key, and the null record id is no bound: a record with one of them may be given
again.

Main result: `dumps_iff`.
-/
import Neoip.KadDb
import Neoip.Paging
import Mathlib.Data.Prod.Lex
import Mathlib.Logic.Function.Iterate

namespace Neoip

namespace KadRecdups

variable {keyid : KadId} {recs : List KadRec}

/-- Records of one key, with distinct ids, are put in as they come. -/
theorem recs_updateAll_empty (hkeyid : ∀ rec ∈ recs, rec.keyid = keyid)
    (hnodup : (recs.map KadRec.recid).Nodup) : (empty.updateAll recs).recs = recs := by
  -- by induction on the records, over what was put in before them
  have hfold (recs : List KadRec) : ∀ dups : KadRecdups,
      (∀ rec ∈ recs, rec.keyid = keyid) →
      (dups.recval_db.map Recval.recid ++ recs.map KadRec.recid).Nodup →
      (dups.keyid = keyid ∨ (dups.keyid = 0 ∧ dups.recval_db = [])) →
      (dups.updateAll recs).recval_db = dups.recval_db ++ recs.map .ofRec
      ∧ ((dups.updateAll recs).keyid = keyid ∨ (dups.updateAll recs).recval_db = []) := by
    induction recs with
    | nil =>
      intro dups _ _ hdups
      exact ⟨(List.append_nil _).symm, hdups.imp_right And.right⟩
    | cons rec recs ih =>
      intro dups hkeyid hnodup hdups
      rw [List.map_cons, List.nodup_append'] at hnodup
      obtain ⟨hold, hnew, hdisj⟩ := hnodup
      have hfresh : ∀ recval ∈ dups.recval_db, recval.recid ≠ rec.recid := by
        intro recval hrecval heq
        exact hdisj (List.mem_map_of_mem hrecval) (heq ▸ List.mem_cons_self)
      have hpush := recval_db_update hfresh
      have hkey : (dups.update rec).keyid = keyid := by
        rw [update, getByRecid_eq_none.2 hfresh]
        show (if dups.keyid = 0 then rec.keyid else dups.keyid) = keyid
        split_ifs with h0
        · exact hkeyid rec List.mem_cons_self
        · exact hdups.resolve_right fun hd => h0 hd.1
      obtain ⟨hrest, hrest'⟩ := ih (dups.update rec)
        (fun r hr => hkeyid r (List.mem_cons_of_mem _ hr)) (by
          rw [hpush, List.map_append, List.append_assoc]
          exact List.nodup_append'.2 ⟨hold, hnew, hdisj⟩) (.inl hkey)
      refine ⟨?_, hrest'⟩
      show ((dups.update rec).updateAll recs).recval_db = _
      rw [hrest, hpush, List.append_assoc]
      rfl
  obtain ⟨hdb, hkey⟩ := hfold recs empty hkeyid hnodup (.inr ⟨rfl, rfl⟩)
  have hdb : (empty.updateAll recs).recval_db = recs.map .ofRec := hdb
  rw [KadRecdups.recs]
  rcases hkey with hkey | hnil
  · rw [hdb, hkey, List.map_map]
    refine (List.map_congr_left fun rec hrec => ?_).trans (List.map_id _)
    show (⟨rec.recid, keyid, rec.ttl, rec.payload⟩ : KadRec) = rec
    rw [← hkeyid rec hrec]
  · rw [hnil] at hdb ⊢
    rw [List.map_eq_nil_iff.1 hdb.symm]
    rfl

end KadRecdups

/-- What a FINDALLVAL request asks for. -/
structure Findallval where
  recid_gt : KadId
  keyid : KadId
  keyid_ge : Bool
  requested_nb_rec : ℕ

namespace KadDb

variable (cfg : KadDbCfg)

/-! ### The request -/

/-- The records which `find_by_keyid` goes through: from the `lower_bound` on, those of the key. -/
def scanKeyid (keyid : KadId) (s : KadDb) : List (KadId × DbRec) :=
  (s.distid_db.dropWhile fun e => ltKadId e.1 (getDistid cfg keyid)).takeWhile
    fun e => e.1 = getDistid cfg keyid

def findByKeyid (keyid recid_gt : KadId) (s : KadDb) : KadRecdups :=
  (s.scanKeyid cfg keyid).foldl (fun result e =>
    if recid_gt ≠ 0 ∧ e.2.recid ≤ recid_gt then result
    else result.update (s.getKadRec cfg e.2)) .empty

def getNextKeyid (keyid : KadId) (s : KadDb) : KadId :=
  match s.distid_db.find? fun e => ltKadId (getDistid cfg keyid) e.1 with
  | none => 0
  | some e => e.2.keyid

/-- `handle_findallval_request`, where the rpc is allowed: whether there are more records, and
the ones which are replied. -/
def handleFindallvalRequest (replypkt_maxlen : ℕ) (request : Findallval) (s : KadDb) :
    Bool × KadRecdups :=
  let kad_recdups := s.findByKeyid cfg request.keyid request.recid_gt
  let kad_recdups :=
    if kad_recdups.size = 0 ∧ request.keyid_ge then
      s.findByKeyid cfg (s.getNextKeyid cfg request.keyid) 0
    else kad_recdups
  let kad_recdups := kad_recdups.sortByRecid
  let max_nb_rec_pkt := kad_recdups.nbSerializedRecInSize replypkt_maxlen
  let max_nb_rec_pkt :=
    if request.requested_nb_rec ≠ 0 ∧ request.requested_nb_rec < max_nb_rec_pkt then
      request.requested_nb_rec
    else max_nb_rec_pkt
  let nb_rec_to_del := kad_recdups.size - max_nb_rec_pkt
  (nb_rec_to_del ≠ 0, kad_recdups.truncateAtTail nb_rec_to_del)

/-! ### The dump -/

/-- A dump: where it goes on, what it has got, and whether it is at its end. -/
structure Dump where
  recid_gt : KadId
  keyid : KadId
  got : List KadRec
  done : Bool

def Dump.start : Dump := ⟨0, cfg.local_peerid, [], false⟩

/-- A request, and its reply. -/
def Dump.ask (replypkt_maxlen requested_nb_rec : ℕ) (s : KadDb) (d : Dump) : Dump :=
  if d.done then d
  else
    let reply := (s.handleFindallvalRequest cfg replypkt_maxlen
      ⟨d.recid_gt, d.keyid, true, requested_nb_rec⟩).2
    match reply.recval_db.getLast? with
    | none => { d with done := true }
    | some last =>
      { d with recid_gt := last.recid, keyid := reply.keyid, got := d.got ++ reply.recs }

/-- The records of a database. -/
def records (s : KadDb) : List KadRec := s.distid_db.map fun e => s.getKadRec cfg e.2

/-- What is claimed: after some requests the reply is empty, and each record was got once. -/
def Dumps (replypkt_maxlen requested_nb_rec : ℕ) (s : KadDb) : Prop :=
  ∃ n, let d := (Dump.ask cfg replypkt_maxlen requested_nb_rec s)^[n] (Dump.start cfg)
    d.done = true ∧ d.got.Perm (s.records cfg)

/-! ### What is found -/

variable {cfg} {s : KadDb} {keyid recid_gt : KadId} {rec : KadRec}

@[simp] theorem recid_getKadRec (rec : DbRec) (s : KadDb) :
    (s.getKadRec cfg rec).recid = rec.recid := by
  rw [getKadRec]
  split_ifs <;> rfl

@[simp] theorem keyid_getKadRec (rec : DbRec) (s : KadDb) :
    (s.getKadRec cfg rec).keyid = rec.keyid := by
  rw [getKadRec]
  split_ifs <;> rfl

theorem Linked.nodup_records (h : Linked cfg s) : ((s.records cfg).map KadRec.recid).Nodup := by
  have hrecid : (s.records cfg).map KadRec.recid = (s.distid_db.map Prod.snd).map DbRec.recid := by
    rw [records, List.map_map, List.map_map]
    exact List.map_congr_left fun e _ => recid_getKadRec e.2 s
  have hkeys : (s.recid_db.map Prod.snd).map DbRec.recid = s.recid_db.map Prod.fst := by
    rw [List.map_map]
    exact List.map_congr_left fun e he => (h.recid e he).symm
  rw [hrecid, (h.same.map _).nodup_iff, hkeys]
  exact h.keyed

/-- In a sorted list what has a key stands together. -/
theorem takeWhile_dropWhile_eq_filter {α : Type*} {l : List (KadId × α)} {k : KadId}
    (h : l.Pairwise fun a b => a.1 ≤ b.1) :
    (l.dropWhile fun e => ltKadId e.1 k).takeWhile (fun e => e.1 = k)
      = l.filter fun e => e.1 = k := by
  induction l with
  | nil => rfl
  | cons e l ih =>
    obtain ⟨hhead, htail⟩ := List.pairwise_cons.1 h
    by_cases hlt : e.1 < k
    · have hpos : ltKadId e.1 k = true := decide_eq_true hlt
      rw [List.dropWhile_cons, if_pos hpos, ih htail,
        List.filter_cons_of_neg (by simpa using (BitVec.ne_of_lt hlt))]
    · have hneg : ¬ ltKadId e.1 k = true := fun hpos => hlt (of_decide_eq_true hpos)
      rw [List.dropWhile_cons, if_neg hneg]
      by_cases heq : e.1 = k
      · rw [List.takeWhile_cons_of_pos (by simpa using heq),
          List.filter_cons_of_pos (by simpa using heq), ← ih htail]
        congr 2
        cases l with
        | nil => rfl
        | cons b l =>
          have hle := hhead b List.mem_cons_self
          rw [heq] at hle
          have hneg' : ¬ ltKadId b.1 k = true := fun hpos =>
            BitVec.not_lt.2 hle (of_decide_eq_true hpos)
          rw [List.dropWhile_cons, if_neg hneg']
      · -- everything which follows is greater
        have hgt (b : KadId × α) (hb : b ∈ e :: l) : b.1 ≠ k := by
          rcases List.mem_cons.1 hb with rfl | hb
          · exact heq
          · rintro rfl
            exact heq (BitVec.le_antisymm (hhead b hb) (BitVec.not_lt.1 hlt))
        rw [List.takeWhile_cons_of_neg (by simpa using heq), List.filter_eq_nil_iff.2]
        intro b hb
        simpa using hgt b hb

/-- A record is found by its key when its id is greater than the bound, which null is not. -/
theorem Linked.findByKeyid (h : Linked cfg s) (keyid recid_gt : KadId) :
    ((s.findByKeyid cfg keyid recid_gt).recs.map KadRec.recid).Nodup
    ∧ (∀ rec, rec ∈ (s.findByKeyid cfg keyid recid_gt).recs ↔ rec ∈ s.records cfg
      ∧ rec.keyid = keyid ∧ (recid_gt = 0 ∨ recid_gt < rec.recid)) := by
  refine ⟨KadRecdups.nodup_recs _, fun rec => ?_⟩
  set found := (s.distid_db.filter fun e => e.1 = getDistid cfg keyid).filter
    fun e => ¬(recid_gt ≠ 0 ∧ e.2.recid ≤ recid_gt) with hfound
  have hfold : s.findByKeyid cfg keyid recid_gt
      = KadRecdups.empty.updateAll (found.map fun e => s.getKadRec cfg e.2) := by
    rw [KadDb.findByKeyid, scanKeyid, takeWhile_dropWhile_eq_filter h.sorted,
      KadRecdups.updateAll, List.foldl_map, List.foldl_ite_right]
  have hsub : found.Sublist s.distid_db := List.filter_sublist.trans List.filter_sublist
  have hmem (e : KadId × DbRec) : e ∈ found ↔ e ∈ s.distid_db ∧ e.2.keyid = keyid
      ∧ (recid_gt = 0 ∨ recid_gt < e.2.recid) := by
    rw [hfound, List.mem_filter, List.mem_filter, and_assoc]
    apply and_congr_right
    intro he
    rw [h.distid e he, decide_eq_true_iff]
    apply and_congr
    · exact BitVec.xor_right_inj _
    · by_cases h0 : recid_gt = 0
      · simp [h0]
      · simp [BitVec.not_le]
  have hkeyid : ∀ rec ∈ found.map fun e => s.getKadRec cfg e.2, rec.keyid = keyid := by
    intro rec hrec
    obtain ⟨e, he, rfl⟩ := List.mem_map.1 hrec
    rw [keyid_getKadRec]
    exact ((hmem e).1 he).2.1
  have hnodup : ((found.map fun e => s.getKadRec cfg e.2).map KadRec.recid).Nodup :=
    h.nodup_records.sublist ((hsub.map _).map _)
  rw [hfold, KadRecdups.recs_updateAll_empty hkeyid hnodup, List.mem_map, records]
  constructor
  · rintro ⟨e, he, rfl⟩
    rw [keyid_getKadRec, recid_getKadRec]
    exact ⟨List.mem_map_of_mem ((hmem e).1 he).1, ((hmem e).1 he).2⟩
  · rintro ⟨hrec, hkey⟩
    obtain ⟨e, he, rfl⟩ := List.mem_map.1 hrec
    rw [keyid_getKadRec, recid_getKadRec] at hkey
    exact ⟨e, (hmem e).2 ⟨he, hkey⟩, rfl⟩

/-- The next key is null when there is none, and else the nearest one of those which are farther
away than the key. -/
theorem Linked.getNextKeyid (h : Linked cfg s) (keyid : KadId) :
    (s.getNextKeyid cfg keyid = 0
      ∧ ∀ rec ∈ s.records cfg, ¬ getDistid cfg keyid < getDistid cfg rec.keyid)
    ∨ (getDistid cfg keyid < getDistid cfg (s.getNextKeyid cfg keyid)
      ∧ (∃ rec ∈ s.records cfg, rec.keyid = s.getNextKeyid cfg keyid)
      ∧ ∀ rec ∈ s.records cfg, getDistid cfg keyid < getDistid cfg rec.keyid →
        getDistid cfg (s.getNextKeyid cfg keyid) ≤ getDistid cfg rec.keyid) := by
  have hrecord (rec : KadRec) (hrec : rec ∈ s.records cfg) :
      ∃ e ∈ s.distid_db, e.1 = getDistid cfg rec.keyid := by
    obtain ⟨e, he, rfl⟩ := List.mem_map.1 hrec
    exact ⟨e, he, by rw [keyid_getKadRec, h.distid e he]⟩
  rw [KadDb.getNextKeyid]
  cases hfind : s.distid_db.find? fun e => ltKadId (getDistid cfg keyid) e.1 with
  | none =>
    left
    refine ⟨rfl, fun rec hrec hlt => ?_⟩
    obtain ⟨e, he, heq⟩ := hrecord rec hrec
    rw [← heq] at hlt
    exact List.find?_eq_none.1 hfind e he (decide_eq_true hlt)
  | some e =>
    right
    dsimp only
    obtain ⟨hlt, before, after, hsplit, hbefore⟩ := List.find?_eq_some_iff_append.1 hfind
    have hlt : getDistid cfg keyid < e.1 := of_decide_eq_true hlt
    have hmem : e ∈ s.distid_db := by
      rw [hsplit]
      exact List.mem_append_right _ List.mem_cons_self
    rw [← h.distid e hmem]
    refine ⟨hlt, ⟨_, List.mem_map_of_mem hmem, keyid_getKadRec e.2 s⟩, fun rec hrec hgt => ?_⟩
    obtain ⟨e', he', heq⟩ := hrecord rec hrec
    rw [← heq] at hgt ⊢
    rw [hsplit] at he'
    rcases List.mem_append.1 he' with he' | he'
    · have hno := hbefore e' he'
      rw [Bool.not_eq_true'] at hno
      exact absurd hgt (of_decide_eq_false hno)
    · rcases List.mem_cons.1 he' with rfl | he'
      · exact BitVec.le_refl _
      · have hsorted := h.sorted
        rw [hsplit] at hsorted
        exact (List.pairwise_cons.1 (List.pairwise_append.1 hsorted).2.1).1 e' he'

/-! ### The reply -/

/-- How many of the records, which are sorted, are replied. -/
def pageLen (replypkt_maxlen requested_nb_rec : ℕ) (recs : List KadRec) : ℕ :=
  let max_nb_rec_pkt :=
    KadRecdups.nbRecInSize replypkt_maxlen KadRecdups.SERIAL_HD_MAIN (recs.map .ofRec)
  if requested_nb_rec ≠ 0 ∧ requested_nb_rec < max_nb_rec_pkt then requested_nb_rec
  else max_nb_rec_pkt

theorem pairwise_sortByRecid (dups : KadRecdups) :
    dups.sortByRecid.recs.Pairwise fun a b => a.recid < b.recid := by
  have hle : dups.sortByRecid.recval_db.Pairwise fun a b => a.recid ≤ b.recid := by
    have hsort : dups.sortByRecid.recval_db.Pairwise
        fun a b => decide (a.recid ≤ b.recid) = true := by
      apply List.pairwise_mergeSort
      · intro a b c hab hbc
        exact decide_eq_true (BitVec.le_trans (of_decide_eq_true hab) (of_decide_eq_true hbc))
      · intro a b
        rw [Bool.or_eq_true, decide_eq_true_iff, decide_eq_true_iff]
        exact BitVec.le_total _ _
    exact hsort.imp of_decide_eq_true
  have hne : dups.sortByRecid.recval_db.Pairwise fun a b => a.recid ≠ b.recid :=
    List.pairwise_map.1 dups.sortByRecid.nodup
  rw [KadRecdups.recs, List.pairwise_map]
  exact (hle.and hne).imp fun h => BitVec.not_le.1 fun hge => h.2 (BitVec.le_antisymm h.1 hge)

theorem mem_sortByRecid {dups : KadRecdups} : rec ∈ dups.sortByRecid.recs ↔ rec ∈ dups.recs :=
  ((List.mergeSort_perm _ _).map _).mem_iff

variable {replypkt_maxlen requested_nb_rec : ℕ}

/-- The key a reply is about, and the bound of its record ids. -/
def replyFrom (cfg : KadDbCfg) (s : KadDb) (keyid recid_gt : KadId) : KadId × KadId :=
  if (s.findByKeyid cfg keyid recid_gt).size = 0 then (s.getNextKeyid cfg keyid, 0)
  else (keyid, recid_gt)

/-- The records which may be replied: those of the key above the bound, sorted. -/
def replyRecs (cfg : KadDbCfg) (s : KadDb) (keyid recid_gt : KadId) : List KadRec :=
  (s.findByKeyid cfg (replyFrom cfg s keyid recid_gt).1
    (replyFrom cfg s keyid recid_gt).2).sortByRecid.recs

theorem recs_reply : (s.handleFindallvalRequest cfg replypkt_maxlen
    ⟨recid_gt, keyid, true, requested_nb_rec⟩).2.recs
      = (replyRecs cfg s keyid recid_gt).take
          (pageLen replypkt_maxlen requested_nb_rec (replyRecs cfg s keyid recid_gt)) := by
  have hfrom : (if (s.findByKeyid cfg keyid recid_gt).size = 0 ∧ true = true then
        s.findByKeyid cfg (s.getNextKeyid cfg keyid) 0 else s.findByKeyid cfg keyid recid_gt)
      = s.findByKeyid cfg (replyFrom cfg s keyid recid_gt).1
          (replyFrom cfg s keyid recid_gt).2 := by
    rw [replyFrom]
    by_cases hnone : (s.findByKeyid cfg keyid recid_gt).size = 0
    · rw [if_pos ⟨hnone, rfl⟩, if_pos hnone]
    · rw [if_neg fun hboth => hnone hboth.1, if_neg hnone]
  rw [handleFindallvalRequest]
  dsimp only
  rw [hfrom, replyRecs]
  generalize (s.findByKeyid cfg (replyFrom cfg s keyid recid_gt).1
    (replyFrom cfg s keyid recid_gt).2).sortByRecid = dups
  have hdb : dups.recs.map .ofRec = dups.recval_db := by
    rw [KadRecdups.recs, List.map_map]
    exact List.map_id _
  have hle : KadRecdups.nbRecInSize replypkt_maxlen _ _ ≤ _ :=
    KadRecdups.nbRecInSize_le KadRecdups.SERIAL_HD_MAIN dups.recval_db
  rw [pageLen, hdb, ← KadRecdups.nbSerializedRecInSize]
  rw [← KadRecdups.nbSerializedRecInSize, ← KadRecdups.size] at hle
  generalize dups.nbSerializedRecInSize replypkt_maxlen = max_nb at hle
  have hpage : (if requested_nb_rec ≠ 0 ∧ requested_nb_rec < max_nb then requested_nb_rec
      else max_nb) ≤ dups.size := by
    split_ifs with hlt
    · exact hlt.2.le.trans hle
    · exact hle
  show (dups.recval_db.take _).map _ = _
  rw [List.map_take, Nat.sub_sub_self hpage]
  rfl

/-- The request which the dump goes on with is for the last record. -/
theorem ask_eq (d : Dump) : d.ask cfg replypkt_maxlen requested_nb_rec s =
    if d.done then d
    else
      let page := (replyRecs cfg s d.keyid d.recid_gt).take
        (pageLen replypkt_maxlen requested_nb_rec (replyRecs cfg s d.keyid d.recid_gt))
      match page.getLast? with
      | none => { d with done := true }
      | some last =>
        { d with recid_gt := last.recid, keyid := last.keyid, got := d.got ++ page } := by
  rw [Dump.ask]
  dsimp only
  rw [← recs_reply]
  generalize (s.handleFindallvalRequest cfg replypkt_maxlen _).2 = reply
  rw [KadRecdups.recs, List.getLast?_map]
  cases reply.recval_db.getLast? with
  | none => rfl
  | some last => rfl

/-! ### The order of the records -/

/-- Records are got in the order of the distances of their keys, then in that of their ids. -/
def rank (cfg : KadDbCfg) (rec : KadRec) : ℕ ×ₗ ℕ :=
  toLex ((getDistid cfg rec.keyid).toNat, rec.recid.toNat)

theorem rank_lt {a b : KadRec} : rank cfg a < rank cfg b ↔
    getDistid cfg a.keyid < getDistid cfg b.keyid
      ∨ (a.keyid = b.keyid ∧ a.recid < b.recid) := by
  rw [rank, rank, Prod.Lex.toLex_lt_toLex, BitVec.lt_def, BitVec.lt_def, ← BitVec.toNat_eq,
    getDistid, getDistid, BitVec.xor_right_inj]

theorem rank_le {a b : KadRec} : rank cfg a ≤ rank cfg b ↔
    getDistid cfg a.keyid < getDistid cfg b.keyid
      ∨ (a.keyid = b.keyid ∧ a.recid ≤ b.recid) := by
  rw [rank, rank, Prod.Lex.toLex_le_toLex, BitVec.lt_def, BitVec.le_def, ← BitVec.toNat_eq,
    getDistid, getDistid, BitVec.xor_right_inj]

theorem getDistid_local : getDistid cfg cfg.local_peerid = 0 := BitVec.xor_self

/-- What is no farther than the peer itself has its id as its key. -/
theorem eq_local_of_not_lt (h : ¬ getDistid cfg cfg.local_peerid < getDistid cfg keyid) :
    keyid = cfg.local_peerid := by
  rw [getDistid_local] at h
  have hzero : getDistid cfg keyid = getDistid cfg cfg.local_peerid := by
    rw [getDistid_local]
    exact BitVec.le_antisymm (BitVec.not_lt.1 h) (BitVec.le_def.2 (Nat.zero_le _))
  exact (BitVec.xor_right_inj _).1 hzero

/-! ### The records which may be replied -/

theorem Linked.size_findByKeyid (h : Linked cfg s) :
    (s.findByKeyid cfg keyid recid_gt).size = 0 ↔ ∀ rec ∈ s.records cfg,
      rec.keyid = keyid → recid_gt ≠ 0 ∧ rec.recid ≤ recid_gt := by
  rw [← KadRecdups.length_recs, List.length_eq_zero_iff, List.eq_nil_iff_forall_not_mem]
  simp only [(h.findByKeyid keyid recid_gt).2, not_and, not_or, BitVec.not_lt, ne_eq]

theorem Linked.mem_replyRecs (h : Linked cfg s) : rec ∈ replyRecs cfg s keyid recid_gt ↔
    rec ∈ s.records cfg ∧ rec.keyid = (replyFrom cfg s keyid recid_gt).1
      ∧ ((replyFrom cfg s keyid recid_gt).2 = 0
        ∨ (replyFrom cfg s keyid recid_gt).2 < rec.recid) := by
  rw [replyRecs, mem_sortByRecid, (h.findByKeyid _ _).2]

theorem Linked.pairwise_replyRecs (h : Linked cfg s) :
    (replyRecs cfg s keyid recid_gt).Pairwise fun a b => rank cfg a < rank cfg b := by
  apply (pairwise_sortByRecid _).imp_of_mem
  intro a b ha hb hlt
  have ha := (h.mem_replyRecs.1 ha).2.1
  have hb := (h.mem_replyRecs.1 hb).2.1
  exact rank_lt.2 (.inr ⟨ha.trans hb.symm, hlt⟩)

/-! ### The lengths -/

/-- A reply with the record alone is not too long. -/
def Fits (replypkt_maxlen : ℕ) (rec : KadRec) : Prop :=
  replypkt_maxlen = 0 ∨ KadRecdups.SERIAL_HD_MAIN
    + (KadRecdups.SERIAL_HD_PER_REC + rec.payload.length) ≤ replypkt_maxlen

/-- A reply with the two records is not too long. -/
def FitTogether (replypkt_maxlen : ℕ) (rec next : KadRec) : Prop :=
  replypkt_maxlen = 0 ∨ KadRecdups.SERIAL_HD_MAIN
    + (KadRecdups.SERIAL_HD_PER_REC + rec.payload.length)
    + (KadRecdups.SERIAL_HD_PER_REC + next.payload.length) ≤ replypkt_maxlen

theorem nbRecInSize_cons_pos {max_len cur_len : ℕ} {recval : Recval} {l : List Recval} :
    0 < KadRecdups.nbRecInSize max_len cur_len (recval :: l) ↔ max_len = 0
      ∨ cur_len + (KadRecdups.SERIAL_HD_PER_REC + recval.payload.length) ≤ max_len := by
  rw [KadRecdups.nbRecInSize]
  split_ifs with hlong
  · refine iff_of_false (lt_irrefl 0) ?_
    rintro (h0 | hle)
    · exact hlong.1 h0
    · exact absurd hle (Nat.not_le.2 hlong.2)
  · refine iff_of_true (Nat.succ_pos _) ?_
    by_cases h0 : max_len = 0
    · exact .inl h0
    · exact .inr (Nat.not_lt.1 fun hlt => hlong ⟨h0, hlt⟩)

theorem fits_of_mem_take {max_len cur_len : ℕ} {l : List Recval} {recval : Recval}
    (h : recval ∈ l.take (KadRecdups.nbRecInSize max_len cur_len l)) : max_len = 0
      ∨ cur_len + (KadRecdups.SERIAL_HD_PER_REC + recval.payload.length) ≤ max_len := by
  induction l generalizing cur_len with
  | nil => cases h
  | cons first l ih =>
    rw [KadRecdups.nbRecInSize] at h
    split_ifs at h with hlong
    · cases h
    · rw [List.take_succ_cons] at h
      rcases List.mem_cons.1 h with rfl | hmem
      · by_cases h0 : max_len = 0
        · exact .inl h0
        · exact .inr (Nat.not_lt.1 fun hlt => hlong ⟨h0, hlt⟩)
      · exact (ih hmem).imp_right fun hle => le_trans (by omega) hle

variable (requested_nb_rec) in
theorem pageLen_pos {l : List KadRec} (h : ∀ rec ∈ l, Fits replypkt_maxlen rec) (hl : l ≠ []) :
    0 < pageLen replypkt_maxlen requested_nb_rec l := by
  cases l with
  | nil => exact absurd rfl hl
  | cons first l =>
    have hpos : 0 < KadRecdups.nbRecInSize replypkt_maxlen KadRecdups.SERIAL_HD_MAIN
        ((first :: l).map .ofRec) := nbRecInSize_cons_pos.2 (h first List.mem_cons_self)
    rw [pageLen]
    split_ifs with hless
    · exact Nat.pos_of_ne_zero hless.1
    · exact hpos

/-- Two records are replied, when there are two, they fit, and not one only was asked for. -/
theorem one_lt_pageLen {first next : KadRec} {l : List KadRec} :
    1 < pageLen replypkt_maxlen requested_nb_rec (first :: next :: l) ↔
      requested_nb_rec ≠ 1 ∧ FitTogether replypkt_maxlen first next := by
  have htwo : 1 < KadRecdups.nbRecInSize replypkt_maxlen KadRecdups.SERIAL_HD_MAIN
      ((first :: next :: l).map .ofRec) ↔ FitTogether replypkt_maxlen first next := by
    rw [List.map_cons, List.map_cons, KadRecdups.nbRecInSize]
    split_ifs with hlong
    · refine iff_of_false (by omega) ?_
      rintro (h0 | hle)
      · exact hlong.1 h0
      · have := hlong.2
        simp only [Recval.ofRec] at this
        omega
    · rw [Nat.lt_add_left_iff_pos, nbRecInSize_cons_pos]
      rfl
  rw [← htwo, pageLen]
  split_ifs with hless
  · refine ⟨fun hlt => ⟨by omega, by omega⟩, fun h => ?_⟩
    have := hless.1
    omega
  · exact ⟨fun hlt => ⟨by omega, hlt⟩, And.right⟩

theorem fits_of_mem_page {l : List KadRec}
    (h : rec ∈ l.take (pageLen replypkt_maxlen requested_nb_rec l)) :
    Fits replypkt_maxlen rec := by
  have hle : pageLen replypkt_maxlen requested_nb_rec l
      ≤ KadRecdups.nbRecInSize replypkt_maxlen KadRecdups.SERIAL_HD_MAIN (l.map .ofRec) := by
    rw [pageLen]
    split_ifs with hless
    · exact hless.2.le
    · exact le_refl _
  have hmem := List.mem_map_of_mem (f := Recval.ofRec) ((List.take_subset_take_left l hle) h)
  rw [List.map_take] at hmem
  exact fits_of_mem_take hmem

/-! ### A dump which is right -/

/-- There is another record of its key, and no less than two are asked for: the next one fits in a
reply with it. -/
def WithNext (cfg : KadDbCfg) (replypkt_maxlen requested_nb_rec : ℕ) (s : KadDb)
    (rec : KadRec) : Prop :=
  requested_nb_rec ≠ 1 ∧ ∃ next ∈ s.records cfg, next.keyid = rec.keyid ∧ next.recid ≠ 0
    ∧ (∀ other ∈ s.records cfg, other.keyid = rec.keyid → other.recid ≠ 0 →
      next.recid ≤ other.recid)
    ∧ FitTogether replypkt_maxlen rec next

/-- No record has the null key; each record fits in a reply; and one with the null id does so with
the next one. -/
structure Dumpable (cfg : KadDbCfg) (replypkt_maxlen requested_nb_rec : ℕ) (s : KadDb) :
    Prop where
  keyid : ∀ rec ∈ s.records cfg, rec.keyid ≠ 0
  fits : ∀ rec ∈ s.records cfg, Fits replypkt_maxlen rec
  recid : ∀ rec ∈ s.records cfg, rec.recid = 0 →
    WithNext cfg replypkt_maxlen requested_nb_rec s rec

/-- Where a dump is which goes on from a key and a record id. -/
def cursor (cfg : KadDbCfg) (keyid recid_gt : KadId) : Option (ℕ ×ₗ ℕ) :=
  if recid_gt = 0 then none else some (toLex ((getDistid cfg keyid).toNat, recid_gt.toNat))

theorem isAfter_cursor (hne : recid_gt ≠ 0) :
    Paging.isAfter (cursor cfg keyid recid_gt) (rank cfg rec) = true
      ↔ getDistid cfg keyid < getDistid cfg rec.keyid
        ∨ (keyid = rec.keyid ∧ recid_gt < rec.recid) := by
  rw [cursor, if_neg hne, Paging.isAfter_some, decide_eq_true_iff]
  exact rank_lt (a := ⟨recid_gt, keyid, 0, []⟩)

/-- What comes after the cursor is what has its key, above the bound, or is farther away. -/
theorem after_cursor (hfirst : recid_gt = 0 → keyid = cfg.local_peerid)
    (hafter : Paging.isAfter (cursor cfg keyid recid_gt) (rank cfg rec) = true) :
    getDistid cfg keyid < getDistid cfg rec.keyid
      ∨ (rec.keyid = keyid ∧ (recid_gt = 0 ∨ recid_gt < rec.recid)) := by
  by_cases h0 : recid_gt = 0
  · obtain rfl := hfirst h0
    by_cases hlt : getDistid cfg cfg.local_peerid < getDistid cfg rec.keyid
    · exact .inl hlt
    · exact .inr ⟨eq_local_of_not_lt hlt, .inl h0⟩
  · exact ((isAfter_cursor h0).1 hafter).imp_right fun ha => ⟨ha.1.symm, .inr ha.2⟩

/-- **A reply is a page** of what comes after the cursor. -/
theorem isPage_reply (h : Linked cfg s)
    (hgood : Dumpable cfg replypkt_maxlen requested_nb_rec s)
    (hfirst : recid_gt = 0 → keyid = cfg.local_peerid) :
    Paging.IsPage (rank cfg) (s.records cfg) (cursor cfg keyid recid_gt)
      ((replyRecs cfg s keyid recid_gt).take
        (pageLen replypkt_maxlen requested_nb_rec (replyRecs cfg s keyid recid_gt))) := by
  have hmem (rec : KadRec) : rec ∈ replyRecs cfg s keyid recid_gt ↔ _ := h.mem_replyRecs
  by_cases hnone : (s.findByKeyid cfg keyid recid_gt).size = 0
  · -- the reply is about the next key
    have hpast := h.size_findByKeyid.1 hnone
    have hfrom : replyFrom cfg s keyid recid_gt = (s.getNextKeyid cfg keyid, 0) := by
      rw [replyFrom, if_pos hnone]
    have hfar {rec : KadRec} (hrec : rec ∈ s.records cfg)
        (hafter : Paging.isAfter (cursor cfg keyid recid_gt) (rank cfg rec) = true) :
        getDistid cfg keyid < getDistid cfg rec.keyid := by
      refine (after_cursor hfirst hafter).resolve_right fun hsame => ?_
      obtain ⟨hne, hle⟩ := hpast rec hrec hsame.1
      rcases hsame.2 with h0 | hlt
      · exact hne h0
      · exact BitVec.not_lt.2 hle hlt
    rw [hfrom] at hmem
    rcases h.getNextKeyid keyid with ⟨hnull, hlast⟩ | ⟨hnext, ⟨first, hfirst', hkey⟩, hleast⟩
    -- after the last key comes the null one, which has no record
    · have hnil : replyRecs cfg s keyid recid_gt = [] := by
        rw [List.eq_nil_iff_forall_not_mem]
        intro rec hrec
        obtain ⟨hrec, hkey, -⟩ := (hmem rec).1 hrec
        exact hgood.keyid rec hrec (hkey.trans hnull)
      rw [hnil, List.take_nil]
      refine ⟨.nil, nofun, fun _ _ _ _ hb => (nomatch hb), fun _ a ha => ?_⟩
      exact Bool.eq_false_iff.2 fun hafter => hlast a ha (hfar ha hafter)
    · apply Paging.isPage_take h.pairwise_replyRecs
      · intro a ha
        obtain ⟨hrec, hkey', -⟩ := (hmem a).1 ha
        refine ⟨hrec, ?_⟩
        by_cases h0 : recid_gt = 0
        · rw [cursor, if_pos h0]
          rfl
        · rw [isAfter_cursor h0, hkey']
          exact .inl hnext
      -- what comes between the cursor and the reply is in it, as the key is the least
      · intro a ha hafter b hb hle
        obtain ⟨-, hkey', -⟩ := (hmem b).1 hb
        refine (hmem a).2 ⟨ha, ?_, .inl rfl⟩
        have hge := hleast a ha (hfar ha hafter)
        rcases rank_le.1 hle with hlt | heq
        · rw [hkey'] at hlt
          exact absurd hlt (BitVec.not_lt.2 hge)
        · exact heq.1.trans hkey'
      · intro hnil
        have hl : replyRecs cfg s keyid recid_gt ≠ [] :=
          List.ne_nil_of_mem ((hmem first).2 ⟨hfirst', hkey, .inl rfl⟩)
        have hpos := pageLen_pos requested_nb_rec
          (fun rec hrec => hgood.fits rec ((hmem rec).1 hrec).1) hl
        rcases List.take_eq_nil_iff.1 hnil with hzero | hnil
        · exact absurd hzero hpos.ne'
        · exact absurd hnil hl
  · -- the reply is about the key itself
    have hfrom : replyFrom cfg s keyid recid_gt = (keyid, recid_gt) := by
      rw [replyFrom, if_neg hnone]
    rw [hfrom] at hmem
    apply Paging.isPage_take h.pairwise_replyRecs
    · intro a ha
      obtain ⟨hrec, hkey, hbound⟩ := (hmem a).1 ha
      refine ⟨hrec, ?_⟩
      by_cases h0 : recid_gt = 0
      · rw [cursor, if_pos h0]
        rfl
      · exact (isAfter_cursor h0).2 (.inr ⟨hkey.symm, hbound.resolve_left h0⟩)
    · intro a ha hafter b hb hle
      obtain ⟨-, hkey, -⟩ := (hmem b).1 hb
      rcases after_cursor hfirst hafter with hfar | hsame
      · rcases rank_le.1 hle with hlt | heq
        · rw [hkey] at hlt
          exact absurd (BitVec.lt_trans hfar hlt) (BitVec.lt_irrefl _)
        · rw [heq.1, hkey] at hfar
          exact absurd hfar (BitVec.lt_irrefl _)
      · exact (hmem a).2 ⟨ha, hsame⟩
    · intro hnil
      have hl : replyRecs cfg s keyid recid_gt ≠ [] := by
        intro hl
        apply hnone
        rw [h.size_findByKeyid]
        intro rec hrec hkey
        by_contra hbound
        have hin := (hmem rec).2 ⟨hrec, hkey, by
          by_cases h0 : recid_gt = 0
          · exact .inl h0
          · exact .inr (BitVec.not_le.1 fun hle => hbound ⟨h0, hle⟩)⟩
        rw [hl] at hin
        cases hin
      have hpos := pageLen_pos requested_nb_rec
          (fun rec hrec => hgood.fits rec ((hmem rec).1 hrec).1) hl
      rcases List.take_eq_nil_iff.1 hnil with hzero | hnil
      · exact absurd hzero hpos.ne'
      · exact absurd hnil hl

/-- A page never ends with the null record id. -/
theorem last_recid_ne_zero (h : Linked cfg s)
    (hgood : Dumpable cfg replypkt_maxlen requested_nb_rec s) {last : KadRec}
    (hlast : ((replyRecs cfg s keyid recid_gt).take
      (pageLen replypkt_maxlen requested_nb_rec (replyRecs cfg s keyid recid_gt))).getLast?
        = some last) : last.recid ≠ 0 := by
  intro hnull
  have hmem (rec : KadRec) : rec ∈ replyRecs cfg s keyid recid_gt ↔ _ := h.mem_replyRecs
  have hsorted := pairwise_sortByRecid (s.findByKeyid cfg (replyFrom cfg s keyid recid_gt).1
    (replyFrom cfg s keyid recid_gt).2)
  rw [← replyRecs] at hsorted
  generalize replyRecs cfg s keyid recid_gt = l at hlast hmem hsorted
  have hin := List.mem_of_mem_take (List.mem_of_getLast? hlast)
  obtain ⟨hrec, hkey, hbound⟩ := (hmem last).1 hin
  have h0 : (replyFrom cfg s keyid recid_gt).2 = 0 := by
    apply hbound.resolve_right
    rw [hnull]
    exact BitVec.not_lt.2 (BitVec.le_def.2 (Nat.zero_le _))
  obtain ⟨hone, next, hnext, hsame, hne, hleast, hfit⟩ := hgood.recid last hrec hnull
  have hnext' : next ∈ l := (hmem next).2 ⟨hnext, hsame.trans hkey, .inl h0⟩
  have hlow (rec : KadRec) : ¬ rec.recid < last.recid := by
    rw [hnull]
    exact BitVec.not_lt.2 (BitVec.le_def.2 (Nat.zero_le _))
  -- the record is the first one, and the next one is the second
  cases l with
  | nil => cases hin
  | cons first l =>
    obtain ⟨hhead, htail⟩ := List.pairwise_cons.1 hsorted
    rcases List.mem_cons.1 hin with rfl | hin
    · have hnextl : next ∈ l := (List.mem_cons.1 hnext').resolve_left fun heq =>
        hne (heq ▸ hnull)
      cases l with
      | nil => cases hnextl
      | cons second l =>
        have hsecond : second = next := by
          rcases List.mem_cons.1 hnextl with heq | hnextl
          · exact heq.symm
          · obtain ⟨hrec', hkey', -⟩ :=
              (hmem second).1 (List.mem_cons_of_mem _ List.mem_cons_self)
            have hlt := (List.pairwise_cons.1 htail).1 next hnextl
            have hpos := hhead second List.mem_cons_self
            rw [hnull] at hpos
            have hle := hleast second hrec' (hkey'.trans hkey.symm) fun heq => by
              rw [heq] at hpos
              exact BitVec.lt_irrefl _ hpos
            exact absurd hlt (BitVec.not_lt.2 hle)
        have hpage : 1 < pageLen replypkt_maxlen requested_nb_rec (last :: second :: l) :=
          one_lt_pageLen.2 ⟨hone, hsecond ▸ hfit⟩
        -- so the page goes on after the first one
        obtain ⟨n, hn⟩ := Nat.exists_eq_add_of_lt hpage
        rw [hn, show 1 + n + 1 = n + 2 by omega, List.take_succ_cons, List.take_succ_cons,
          List.getLast?_cons_cons] at hlast
        have hlater := List.mem_of_getLast? hlast
        have hin' : last ∈ second :: l := by
          rcases List.mem_cons.1 hlater with heq | hlater
          · exact heq ▸ List.mem_cons_self
          · exact List.mem_cons_of_mem _ (List.mem_of_mem_take hlater)
        exact BitVec.lt_irrefl _ (hhead last hin')
    · exact hlow first (hhead last hin)

/-- A dump on its way: what it has got is what is not after its cursor. -/
structure Reading (cfg : KadDbCfg) (s : KadDb) (d : Dump) : Prop where
  done : d.done = false
  first : d.recid_gt = 0 → d.keyid = cfg.local_peerid
  got : d.got.Perm (Paging.upTo (rank cfg) (s.records cfg) (cursor cfg d.keyid d.recid_gt))

theorem reading_start : Reading cfg s (Dump.start cfg) := by
  refine ⟨rfl, fun _ => rfl, ?_⟩
  rw [Dump.start, cursor, if_pos rfl, Paging.upTo_none]

/-- A request gets some more records, or there are none left. -/
theorem Reading.ask (h : Linked cfg s) (hgood : Dumpable cfg replypkt_maxlen requested_nb_rec s)
    {d : Dump} (hd : Reading cfg s d) :
    ((d.ask cfg replypkt_maxlen requested_nb_rec s).done = true
      ∧ (d.ask cfg replypkt_maxlen requested_nb_rec s).got.Perm (s.records cfg))
    ∨ (Reading cfg s (d.ask cfg replypkt_maxlen requested_nb_rec s)
      ∧ d.got.length < (d.ask cfg replypkt_maxlen requested_nb_rec s).got.length) := by
  have hnodup : (s.records cfg).Nodup := h.nodup_records.of_map _
  have hpage := isPage_reply h hgood hd.first
  have hnull (last : KadRec) (hlast : ((replyRecs cfg s d.keyid d.recid_gt).take
      (pageLen replypkt_maxlen requested_nb_rec (replyRecs cfg s d.keyid d.recid_gt))).getLast?
        = some last) : last.recid ≠ 0 := last_recid_ne_zero h hgood hlast
  rw [ask_eq, hd.done]
  dsimp only
  generalize (replyRecs cfg s d.keyid d.recid_gt).take _ = page at hpage hnull
  cases hlast : page.getLast? with
  | none =>
    rw [List.getLast?_eq_none_iff.1 hlast] at hpage
    exact .inl ⟨rfl, hpage.perm_of_nil hd.got⟩
  | some last =>
    refine .inr ⟨⟨rfl, fun h0 => absurd h0 (hnull last hlast), ?_⟩, ?_⟩
    · have hperm := hpage.perm hnodup hlast hd.got
      show (d.got ++ page).Perm (Paging.upTo _ _ (cursor cfg last.keyid last.recid))
      rw [cursor, if_neg (hnull last hlast)]
      exact hperm
    · show d.got.length < (d.got ++ page).length
      rw [List.length_append]
      exact Nat.lt_add_of_pos_right (List.length_pos_of_mem (List.mem_of_getLast? hlast))

theorem dumps_of_dumpable (h : Linked cfg s)
    (hgood : Dumpable cfg replypkt_maxlen requested_nb_rec s) :
    s.Dumps cfg replypkt_maxlen requested_nb_rec := by
  have hrun (n : ℕ) : s.Dumps cfg replypkt_maxlen requested_nb_rec
      ∨ (Reading cfg s ((Dump.ask cfg replypkt_maxlen requested_nb_rec s)^[n] (Dump.start cfg))
        ∧ n ≤ ((Dump.ask cfg replypkt_maxlen requested_nb_rec s)^[n]
          (Dump.start cfg)).got.length) := by
    induction n with
    | zero => exact .inr ⟨reading_start, Nat.zero_le _⟩
    | succ n ih =>
      rcases ih with hdone | ⟨hread, hlen⟩
      · exact .inl hdone
      · rcases hread.ask h hgood with hdone | ⟨hread', hlen'⟩
        · refine .inl ⟨n + 1, ?_⟩
          rw [Function.iterate_succ_apply']
          exact hdone
        · right
          rw [Function.iterate_succ_apply']
          exact ⟨hread', Nat.lt_of_le_of_lt hlen hlen'⟩
  -- it cannot get more records than there are
  refine (hrun ((s.records cfg).length + 1)).resolve_right fun hread => ?_
  have hle := Paging.length_le_of_perm hread.1.got
  exact absurd hread.2 (Nat.not_le.2 (Nat.lt_succ_of_le hle))

/-! ### A dump which goes wrong -/

variable (cfg s replypkt_maxlen requested_nb_rec) in
/-- What a request may do to a dump. -/
theorem ask_cases (d : Dump) : d.ask cfg replypkt_maxlen requested_nb_rec s = d
    ∨ (d.done = false ∧ d.ask cfg replypkt_maxlen requested_nb_rec s = { d with done := true }
      ∧ (replyRecs cfg s d.keyid d.recid_gt).take
        (pageLen replypkt_maxlen requested_nb_rec (replyRecs cfg s d.keyid d.recid_gt)) = [])
    ∨ ∃ page last, d.done = false ∧ page = (replyRecs cfg s d.keyid d.recid_gt).take
        (pageLen replypkt_maxlen requested_nb_rec (replyRecs cfg s d.keyid d.recid_gt))
      ∧ page.getLast? = some last
      ∧ d.ask cfg replypkt_maxlen requested_nb_rec s
        = { d with recid_gt := last.recid, keyid := last.keyid, got := d.got ++ page } := by
  rw [ask_eq]
  cases hdone : d.done with
  | true => exact .inl rfl
  | false =>
    right
    generalize (replyRecs cfg s d.keyid d.recid_gt).take _ = page
    cases hlast : page.getLast? with
    | none =>
      refine .inl ⟨rfl, ?_, List.getLast?_eq_none_iff.1 hlast⟩
      dsimp only
      rw [hlast]
      rfl
    | some last =>
      refine .inr ⟨page, last, rfl, rfl, hlast, ?_⟩
      dsimp only
      rw [hlast]
      rfl

/-- What has been got does fit. -/
theorem fits_of_mem_got (n : ℕ) :
    ∀ rec ∈ ((Dump.ask cfg replypkt_maxlen requested_nb_rec s)^[n] (Dump.start cfg)).got,
      Fits replypkt_maxlen rec := by
  induction n with
  | zero => exact nofun
  | succ n ih =>
    rw [Function.iterate_succ_apply']
    generalize (Dump.ask cfg replypkt_maxlen requested_nb_rec s)^[n] (Dump.start cfg) = d at ih
    rcases ask_cases cfg s replypkt_maxlen requested_nb_rec d with
      heq | ⟨-, heq, -⟩ | ⟨page, last, -, hpage, -, heq⟩
    · rwa [heq]
    · rwa [heq]
    · rw [heq]
      intro rec hrec
      rcases List.mem_append.1 hrec with hrec | hrec
      · exact ih rec hrec
      · rw [hpage] at hrec
        exact fits_of_mem_page hrec

/-- Where a record has the null key, there is always something to reply. -/
theorem Linked.replyRecs_ne_nil (h : Linked cfg s) (hrec : rec ∈ s.records cfg)
    (hnull : rec.keyid = 0) : replyRecs cfg s keyid recid_gt ≠ [] := by
  have hmem (rec : KadRec) : rec ∈ replyRecs cfg s keyid recid_gt ↔ _ := h.mem_replyRecs
  by_cases hnone : (s.findByKeyid cfg keyid recid_gt).size = 0
  · have hfrom : replyFrom cfg s keyid recid_gt = (s.getNextKeyid cfg keyid, 0) := by
      rw [replyFrom, if_pos hnone]
    rw [hfrom] at hmem
    rcases h.getNextKeyid keyid with ⟨hend, -⟩ | ⟨-, ⟨next, hnext, hkey⟩, -⟩
    · exact List.ne_nil_of_mem ((hmem rec).2 ⟨hrec, hnull.trans hend.symm, .inl rfl⟩)
    · exact List.ne_nil_of_mem ((hmem next).2 ⟨hnext, hkey, .inl rfl⟩)
  · have hfrom : replyFrom cfg s keyid recid_gt = (keyid, recid_gt) := by
      rw [replyFrom, if_neg hnone]
    rw [hfrom] at hmem
    intro hnil
    apply hnone
    rw [h.size_findByKeyid]
    intro other hother hkey
    by_contra hbound
    have hin := (hmem other).2 ⟨hother, hkey, by
      by_cases h0 : recid_gt = 0
      · exact .inl h0
      · exact .inr (BitVec.not_le.1 fun hle => hbound ⟨h0, hle⟩)⟩
    rw [hnil] at hin
    cases hin

/-- A dump which always gets something is never done. -/
theorem Linked.not_done (h : Linked cfg s)
    (hfits : ∀ rec ∈ s.records cfg, Fits replypkt_maxlen rec) (hrec : rec ∈ s.records cfg)
    (hnull : rec.keyid = 0) (n : ℕ) :
    ((Dump.ask cfg replypkt_maxlen requested_nb_rec s)^[n] (Dump.start cfg)).done = false := by
  induction n with
  | zero => rfl
  | succ n ih =>
    rw [Function.iterate_succ_apply']
    generalize (Dump.ask cfg replypkt_maxlen requested_nb_rec s)^[n] (Dump.start cfg) = d at ih
    rcases ask_cases cfg s replypkt_maxlen requested_nb_rec d with
      heq | ⟨-, -, hnil⟩ | ⟨page, last, -, -, -, heq⟩
    · rwa [heq]
    · have hne : replyRecs cfg s d.keyid d.recid_gt ≠ [] := h.replyRecs_ne_nil hrec hnull
      have hpos := pageLen_pos requested_nb_rec
        (fun rec hrec => hfits rec (h.mem_replyRecs.1 hrec).1) hne
      rcases List.take_eq_nil_iff.1 hnil with hzero | hnil
      · exact absurd hzero hpos.ne'
      · exact absurd hnil hne
    · rw [heq]
      exact ih

/-- Whatever the request is, a reply with a record of the null id which is not with the next one
has this record only. -/
theorem Linked.page_of_alone (h : Linked cfg s)
    (hfits : ∀ rec ∈ s.records cfg, Fits replypkt_maxlen rec) {z : KadRec} (hnull : z.recid = 0)
    (halone : ¬ WithNext cfg replypkt_maxlen requested_nb_rec s z)
    (hin : z ∈ replyRecs cfg s keyid recid_gt) : (replyRecs cfg s keyid recid_gt).take
      (pageLen replypkt_maxlen requested_nb_rec (replyRecs cfg s keyid recid_gt)) = [z] := by
  have hnone (id : KadId) : ¬ id < 0 := BitVec.not_lt.2 (BitVec.le_def.2 (Nat.zero_le _))
  have hmem (rec : KadRec) : rec ∈ replyRecs cfg s keyid recid_gt ↔ _ := h.mem_replyRecs
  have hsorted := pairwise_sortByRecid (s.findByKeyid cfg (replyFrom cfg s keyid recid_gt).1
    (replyFrom cfg s keyid recid_gt).2)
  rw [← replyRecs] at hsorted
  have hpos := pageLen_pos requested_nb_rec
          (fun rec hrec => hfits rec ((hmem rec).1 hrec).1) (List.ne_nil_of_mem hin)
  obtain ⟨-, hkey, hbound⟩ := (hmem z).1 hin
  have h0 : (replyFrom cfg s keyid recid_gt).2 = 0 :=
    hbound.resolve_right fun hlt => hnone _ (hnull ▸ hlt)
  generalize replyRecs cfg s keyid recid_gt = l at hin hmem hsorted hpos
  cases l with
  | nil => cases hin
  | cons first l =>
    obtain ⟨hhead, htail⟩ := List.pairwise_cons.1 hsorted
    obtain rfl : first = z := by
      rcases List.mem_cons.1 hin with heq | hin
      · exact heq.symm
      · exact absurd (hnull ▸ hhead z hin) (hnone _)
    -- a second record in the page would make `z` one which is sent with its next
    have hone : pageLen replypkt_maxlen requested_nb_rec (first :: l) = 1 := by
      refine le_antisymm (Nat.not_lt.1 fun hlt => halone ?_) hpos
      cases l with
      | nil =>
        have hle : KadRecdups.nbRecInSize replypkt_maxlen _ _ ≤ _ :=
          KadRecdups.nbRecInSize_le KadRecdups.SERIAL_HD_MAIN ([first].map .ofRec)
        rw [pageLen] at hlt
        rw [List.map_cons, List.map_nil, List.length_singleton] at hle
        split_ifs at hlt with hless
        · exact absurd (hlt.trans (hless.2.trans_le hle)) (lt_irrefl _)
        · exact absurd (hlt.trans_le hle) (lt_irrefl _)
      | cons second l =>
        obtain ⟨hone, hfit⟩ := one_lt_pageLen.1 hlt
        obtain ⟨hrec, hkey', -⟩ :=
          (hmem second).1 (List.mem_cons_of_mem _ List.mem_cons_self)
        have hgt := hhead second List.mem_cons_self
        refine ⟨hone, second, hrec, hkey'.trans hkey.symm, fun hzero => ?_, ?_, hfit⟩
        · rw [hzero] at hgt
          exact hnone _ hgt
        · intro other hother hokey hone'
          have hin' := (hmem other).2 ⟨hother, hokey.trans hkey, .inl h0⟩
          rcases List.mem_cons.1 hin' with rfl | hin'
          · exact absurd hnull hone'
          · rcases List.mem_cons.1 hin' with rfl | hin'
            · exact BitVec.le_refl _
            · exact BitVec.le_of_lt ((List.pairwise_cons.1 htail).1 other hin')
    rw [hone, List.take_succ_cons, List.take_zero]

/-- A record with the null id which is replied alone is replied again and again. -/
theorem Linked.trapped (h : Linked cfg s)
    (hfits : ∀ rec ∈ s.records cfg, Fits replypkt_maxlen rec) {z : KadRec}
    (hz : z ∈ s.records cfg) (hnull : z.recid = 0)
    (halone : ¬ WithNext cfg replypkt_maxlen requested_nb_rec s z) (n : ℕ) :
    let d := (Dump.ask cfg replypkt_maxlen requested_nb_rec s)^[n] (Dump.start cfg)
    z ∉ d.got ∨ (d.done = false ∧ d.recid_gt = 0 ∧ d.keyid = z.keyid) := by
  intro d
  have hpage (keyid recid_gt : KadId) (hin : z ∈ replyRecs cfg s keyid recid_gt) :=
    h.page_of_alone hfits hnull halone hin
  -- where it is trapped the record is found
  have hfound (d : Dump) (h0 : d.recid_gt = 0) (hkey : d.keyid = z.keyid) :
      z ∈ replyRecs cfg s d.keyid d.recid_gt := by
    have hsome : ¬ (s.findByKeyid cfg d.keyid d.recid_gt).size = 0 := fun hsize =>
      (h.size_findByKeyid.1 hsize z hz hkey.symm).1 h0
    rw [h.mem_replyRecs, replyFrom, if_neg hsome]
    exact ⟨hz, hkey.symm, .inl h0⟩
  induction n with
  | zero => exact .inl nofun
  | succ n ih =>
    have hd : d = Dump.ask cfg replypkt_maxlen requested_nb_rec s
        ((Dump.ask cfg replypkt_maxlen requested_nb_rec s)^[n] (Dump.start cfg)) :=
      Function.iterate_succ_apply' _ _ _
    rw [hd]
    dsimp only at ih
    generalize (Dump.ask cfg replypkt_maxlen requested_nb_rec s)^[n] (Dump.start cfg) = d at ih
    rcases ask_cases cfg s replypkt_maxlen requested_nb_rec d with
      heq | ⟨-, heq, hnil⟩ | ⟨page, last, hdone, heqpage, hlast, heq⟩
    · rwa [heq]
    · rw [heq]
      refine ih.imp_right fun ⟨_, h0, hkey⟩ => ?_
      rw [hpage _ _ (hfound d h0 hkey)] at hnil
      cases hnil
    · rw [heq]
      by_cases hin : z ∈ replyRecs cfg s d.keyid d.recid_gt
      · rw [hpage _ _ hin] at heqpage
        rw [heqpage, List.getLast?_singleton, Option.some.injEq] at hlast
        exact .inr ⟨hdone, hlast ▸ hnull, hlast ▸ rfl⟩
      · left
        have hnot : z ∉ d.got := ih.resolve_right fun htrap =>
          hin (hfound d htrap.2.1 htrap.2.2)
        intro hgot
        rcases List.mem_append.1 hgot with hgot | hgot
        · exact hnot hgot
        · rw [heqpage] at hgot
          exact hin (List.mem_of_mem_take hgot)

theorem dumpable_of_dumps (h : Linked cfg s)
    (hdumps : s.Dumps cfg replypkt_maxlen requested_nb_rec) :
    Dumpable cfg replypkt_maxlen requested_nb_rec s := by
  obtain ⟨n, hdone, hperm⟩ := hdumps
  have hfits : ∀ rec ∈ s.records cfg, Fits replypkt_maxlen rec :=
    fun rec hrec => fits_of_mem_got n rec (hperm.mem_iff.2 hrec)
  refine ⟨fun rec hrec hnull => ?_, hfits, fun rec hrec hnull => ?_⟩
  · rw [h.not_done hfits hrec hnull] at hdone
    cases hdone
  · by_contra halone
    rcases h.trapped hfits hrec hnull halone n with hnot | ⟨hopen, -⟩
    · exact hnot (hperm.mem_iff.2 hrec)
    · rw [hdone] at hopen
      cases hopen

/-- **Dumping a database**: after any run of a database, a dump gets each record once, and then an
empty reply, exactly when no record has the null key, each record fits in a reply, and one with
the null id is replied with the next one of its key. -/
theorem dumps_iff (cfg : KadDbCfg) (evs : List KadDbEv) (replypkt_maxlen requested_nb_rec : ℕ) :
    (run (step cfg) start evs).Dumps cfg replypkt_maxlen requested_nb_rec
      ↔ Dumpable cfg replypkt_maxlen requested_nb_rec (run (step cfg) start evs) :=
  ⟨dumpable_of_dumps (linked_run evs), dumps_of_dumpable (linked_run evs)⟩

/-- A record which a database takes and which is too long for a reply. -/
def sampleRemote : KadDbCfg := ⟨16, true, false, 100, 0, 0⟩

def sampleLong : KadRecdups := ⟨21, [⟨1, List.replicate 5 0, 10⟩], by decide⟩

theorem not_dumps :
    ¬ (run (step sampleRemote) start [.store sampleLong]).Dumps sampleRemote 60 0 := by
  intro hdumps
  have hfits := (dumpable_of_dumps (linked_run _) hdumps).fits
    ⟨1, 21, 10, List.replicate 5 0⟩ (by decide)
  rcases hfits with h0 | hle
  · cases h0
  · exact absurd hle (by decide)

end KadDb

end Neoip
