/-
Neoip/KadQuery.lean

The query of Kademlia: `kad_query_t`, which collects the records of a key.

Once the closest nodes are known, a FINDALLVAL request is sent to each of them.
The records of the replies are merged, and a node which has more of them is
asked again, from the last one it gave.  The caller is notified when there are
enough records, or when no request is in flight; it deletes the query then.

What may happen to a query is an event: the nodes are found, one of its
requests ends, its own timer expires.  `sent`, `replies` and `nclosest` are not
fields of the source: they are what the query did, with the number of records
it had when it sent a request.

The records of a reply are those of the key, and they are always merged as they
should.  But the number of records to
ask for is subtracted the wrong way round, a query without a limit asserts that
there is one, and a node which fails after it replied is counted as one which
did not reply.

Main result: `collects_iff`.
-/
import Neoip.KadRec
import Neoip.Run

namespace Neoip

/-- `kad_findallval_rpc_t`, with what its request says. -/
structure FindallvalRpc where
  remote_addr : KadAddr
  recid_gt : KadId
  max_nb_record : UInt64

/-- `uint32_t(max_nb_record)`, which is what the packet has; 0 asks for all of them. -/
def FindallvalRpc.requestedNbRec (rpc : FindallvalRpc) : ℕ := rpc.max_nb_record.toUInt32.toNat

/-- The `kad_event_t` which a request ends with, or the query. -/
inductive KadEvent
  | timedout
  | recdups (dups : KadRecdups) (has_more_record : Bool)

/-- How far a query is. -/
inductive QueryPhase
  /-- the closest nodes are not known -/
  | searching
  | querying
  /-- the caller was notified -/
  | notified (ev : KadEvent)
  /-- an assertion failed -/
  | aborted

/-- `kad_query_t`. -/
structure KadQuery where
  max_nb_record : UInt64
  result_recdups : KadRecdups
  findallval_rpc_db : List FindallvalRpc
  nb_queried_peer : ℕ
  nb_unreach_peer : ℕ
  phase : QueryPhase
  nclosest : List KadAddr
  sent : List (FindallvalRpc × ℕ)
  replies : List (KadAddr × KadRecdups)

/-- A Boolean says whether the request which comes of the event can be started. -/
inductive KadQueryEv
  | closestnode (nclosest_node : List (KadAddr × Bool))
  | findallvalRpc (idx : ℕ) (ev : KadEvent) (starts : Bool)
  | expire

namespace KadQuery

def start (max_nb_record : UInt64) : KadQuery :=
  ⟨max_nb_record, .empty, [], 0, 0, .searching, [], [], []⟩

/-- The caller deletes the query, with its requests. -/
def notifyCallback (ev : KadEvent) (q : KadQuery) : KadQuery :=
  { q with phase := .notified ev, findallval_rpc_db := [] }

/-- `kad_findallval_rpc_t::start`: linked to the database if it did not fail. -/
def startRpc (rpc : FindallvalRpc) (starts : Bool) (q : KadQuery) : KadQuery :=
  if starts then
    { q with
      findallval_rpc_db := q.findallval_rpc_db ++ [rpc]
      sent := q.sent ++ [(rpc, q.result_recdups.size)] }
  else q

/-- The first request to a node. -/
def firstRpc (max_nb_record : UInt64) (addr : KadAddr) : FindallvalRpc := ⟨addr, 0, max_nb_record⟩

def closestnodeCb (nclosest_node : List (KadAddr × Bool)) (q : KadQuery) : KadQuery :=
  let q := nclosest_node.foldl
    (fun q node => q.startRpc (firstRpc q.max_nb_record node.1) node.2)
    { q with nclosest := nclosest_node.map Prod.fst }
  if q.findallval_rpc_db = [] then q.notifyCallback .timedout
  else { q with nb_queried_peer := q.findallval_rpc_db.length, phase := .querying }

/-- There are as many records as the caller wants. -/
def isFull (q : KadQuery) : Prop :=
  q.max_nb_record ≠ 0 ∧ q.max_nb_record.toNat ≤ q.result_recdups.size

instance (q : KadQuery) : Decidable q.isFull := inferInstanceAs (Decidable (_ ∧ _))

/-- The records are merged with those there are. -/
def merge (remote_addr : KadAddr) (kad_recdups : KadRecdups) (q : KadQuery) : KadQuery :=
  { q with
    result_recdups := q.result_recdups.updateAll kad_recdups.recs
    replies := q.replies ++ [(remote_addr, kad_recdups)] }

/-- The request for the records after those which the node has just given. -/
def nextRpc (remote_addr : KadAddr) (kad_recdups : KadRecdups) (q : KadQuery) : FindallvalRpc where
  remote_addr := remote_addr
  recid_gt := (kad_recdups.recs.getLast?.map KadRec.recid).getD 0
  -- `size() - max_nb_record`, where the number still missing would be the opposite
  max_nb_record := UInt64.ofNat q.result_recdups.size - q.max_nb_record

/-- What `handle_recved_recdups` does after the merge. -/
def handleMerged (remote_addr : KadAddr) (kad_recdups : KadRecdups) (has_more_record starts : Bool)
    (q : KadQuery) : KadQuery :=
  if q.isFull then
    if q.max_nb_record.toNat < q.result_recdups.size then
      q.notifyCallback (.recdups
        (q.result_recdups.truncateAtTail (q.result_recdups.size - q.max_nb_record.toNat)) true)
    else q.notifyCallback (.recdups q.result_recdups has_more_record)
  else if has_more_record then
    if q.max_nb_record ≠ 0 ∧ q.result_recdups.size ≤ q.max_nb_record.toNat
        ∧ kad_recdups.size ≠ 0 then
      q.startRpc (q.nextRpc remote_addr kad_recdups) starts
    else { q with phase := .aborted }
  else q

def handleRecvedRecdups (remote_addr : KadAddr) (kad_recdups : KadRecdups)
    (has_more_record starts : Bool) (q : KadQuery) : KadQuery :=
  (q.merge remote_addr kad_recdups).handleMerged remote_addr kad_recdups has_more_record starts

/-- When no request is in flight, the result is notified. -/
def notifyIfDone (q : KadQuery) : KadQuery :=
  match q.phase with
  | .querying =>
    if q.findallval_rpc_db = [] then
      if q.nb_queried_peer = q.nb_unreach_peer then q.notifyCallback .timedout
      else q.notifyCallback (.recdups q.result_recdups false)
    else q
  | _ => q

def findallvalRpcCb (idx : ℕ) (ev : KadEvent) (starts : Bool) (q : KadQuery) : KadQuery :=
  match q.findallval_rpc_db[idx]? with
  | none => q
  | some rpc =>
    let q := { q with findallval_rpc_db := q.findallval_rpc_db.eraseIdx idx }
    match ev with
    | .timedout => notifyIfDone { q with nb_unreach_peer := q.nb_unreach_peer + 1 }
    | .recdups dups has_more_record =>
      (q.handleRecvedRecdups rpc.remote_addr dups has_more_record starts).notifyIfDone

def step (q : KadQuery) : KadQueryEv → KadQuery
  | .closestnode nclosest_node =>
    match q.phase with
    | .searching => q.closestnodeCb nclosest_node
    | _ => q
  | .findallvalRpc idx ev starts =>
    match q.phase with
    | .querying => q.findallvalRpcCb idx ev starts
    | _ => q
  | .expire =>
    match q.phase with
    | .searching | .querying => q.notifyCallback .timedout
    | _ => q

/-! ### Sound queries -/

variable {q : KadQuery}

/-- The node did not reply. -/
def Failed (q : KadQuery) (addr : KadAddr) : Prop := ∀ reply ∈ q.replies, reply.1 ≠ addr

/-- The records of all the replies. -/
def received (q : KadQuery) : List Recval := q.replies.flatMap fun reply => reply.2.recval_db

/-- With `size` records, a request asks for no more than are missing. -/
def AsksWithin (max_nb_record : UInt64) (size : ℕ) (rpc : FindallvalRpc) : Prop :=
  max_nb_record = 0
    ∨ rpc.requestedNbRec ≠ 0 ∧ rpc.requestedNbRec ≤ max_nb_record.toNat - size

instance (max_nb_record : UInt64) (size : ℕ) (rpc : FindallvalRpc) :
    Decidable (AsksWithin max_nb_record size rpc) := inferInstanceAs (Decidable (_ ∨ _))

/-- What a query owes to its caller. -/
structure Sound (q : KadQuery) : Prop where
  asks : ∀ e ∈ q.sent, AsksWithin q.max_nb_record e.2 e.1
  in_flight : q.phase = .querying → q.findallval_rpc_db ≠ []
  unaborted : q.phase ≠ .aborted
  failure : ∀ ev, q.phase = .notified ev →
    (ev = .timedout ↔ ∀ addr ∈ q.nclosest, q.Failed addr)
  result : ∀ dups has_more_record, q.phase = .notified (.recdups dups has_more_record) →
    BestUpTo Recval.recid Recval.ttl q.max_nb_record.toNat q.received dups.recval_db

/-- The number of the first requests is not cut to 0 when it is put in the packet. -/
def FirstFits (max_nb_record : UInt64) : Prop :=
  max_nb_record = 0 ∨ max_nb_record.toNat % 2 ^ 32 ≠ 0

/-- The opposite of the number still missing is not greater than it, in 32 bits. -/
def NextFits (missing : ℕ) : Prop := 2 ^ 31 ≤ missing ∧ missing % 2 ^ 32 ≠ 0

/-- What an event needs for the query to stay sound. -/
def Guard (q : KadQuery) : KadQueryEv → Prop
  | .closestnode nclosest_node => q.phase = .searching →
      (∃ node ∈ nclosest_node, node.2 = true) → FirstFits q.max_nb_record
  | .findallvalRpc idx .timedout _ => q.phase = .querying → idx < q.findallval_rpc_db.length →
      -- not the last request in flight, or some node has given all it has, or none replied
      q.findallval_rpc_db.length = 1 → q.nb_unreach_peer + 1 = q.nb_queried_peer → q.replies = []
  | .findallvalRpc idx (.recdups dups has_more_record) starts =>
    let size := (q.result_recdups.updateAll dups.recs).size
    q.phase = .querying → idx < q.findallval_rpc_db.length → has_more_record = true →
      q.max_nb_record ≠ 0 ∧ (size < q.max_nb_record.toNat →
        dups.size ≠ 0 ∧ (starts = true → NextFits (q.max_nb_record.toNat - size)))
  | .expire => q.phase = .querying → q.replies = []

/-! ### The numbers which are asked for -/

theorem asksWithin_firstRpc (max_nb_record : UInt64) (addr : KadAddr) :
    AsksWithin max_nb_record 0 (firstRpc max_nb_record addr) ↔ FirstFits max_nb_record := by
  have hreq : (firstRpc max_nb_record addr).requestedNbRec = max_nb_record.toNat % 2 ^ 32 :=
    UInt64.toNat_toUInt32 _
  rw [AsksWithin, FirstFits, hreq, Nat.sub_zero, and_iff_left (Nat.mod_le _ _)]

theorem asksWithin_nextRpc {addr : KadAddr} {dups : KadRecdups}
    (hmax : q.max_nb_record ≠ 0) (hlt : q.result_recdups.size < q.max_nb_record.toNat) :
    AsksWithin q.max_nb_record q.result_recdups.size (q.nextRpc addr dups)
      ↔ NextFits (q.max_nb_record.toNat - q.result_recdups.size) := by
  have hreq : (q.nextRpc addr dups).requestedNbRec
      = (2 ^ 64 - q.max_nb_record.toNat + q.result_recdups.size) % 2 ^ 32 := by
    have hsize : q.result_recdups.size < 2 ^ 64 := hlt.trans q.max_nb_record.toNat_lt
    rw [FindallvalRpc.requestedNbRec, nextRpc, UInt64.toNat_toUInt32, UInt64.toNat_sub,
      UInt64.toNat_ofNat', Nat.mod_eq_of_lt hsize]
    exact Nat.mod_mod_of_dvd _ (by decide)
  rw [AsksWithin, NextFits, hreq, or_iff_right hmax]
  have := q.max_nb_record.toNat_lt
  omega

/-! ### What the nodes have given -/

/-- What holds in every state of a query. -/
structure Inv (q : KadQuery) : Prop where
  best : BestOf Recval.recid Recval.ttl q.received q.result_recdups.recval_db
  replied : ∀ reply ∈ q.replies, reply.1 ∈ q.nclosest
  asked : ∀ rpc ∈ q.findallval_rpc_db, rpc.remote_addr ∈ q.nclosest
  idle : q.phase = .searching →
    q.findallval_rpc_db = [] ∧ q.sent = [] ∧ q.replies = [] ∧ q.result_recdups.recval_db = []
      ∧ q.nb_unreach_peer = 0
  unfilled : q.phase = .querying → ¬q.isFull
  /-- a node is in flight, or has failed, or has given all it has -/
  counted : q.phase = .querying →
    q.nb_unreach_peer + q.findallval_rpc_db.length ≤ q.nb_queried_peer
  unanswered : q.phase = .querying → q.replies = [] →
    q.nb_unreach_peer + q.findallval_rpc_db.length = q.nb_queried_peer

theorem inv_start (max_nb_record : UInt64) : Inv (start max_nb_record) where
  best := .nil
  replied := nofun
  asked := nofun
  idle _ := ⟨rfl, rfl, rfl, rfl, rfl⟩
  unfilled := nofun
  counted := nofun
  unanswered := nofun

/-- No node has replied when all of them failed. -/
theorem all_failed_iff (h : ∀ reply ∈ q.replies, reply.1 ∈ q.nclosest) :
    (∀ addr ∈ q.nclosest, q.Failed addr) ↔ q.replies = [] := by
  constructor
  · intro hfailed
    rw [List.eq_nil_iff_forall_not_mem]
    intro reply hreply
    exact hfailed _ (h reply hreply) reply hreply rfl
  · intro hnil addr _ reply hreply
    rw [hnil] at hreply
    nomatch hreply

theorem bestOf_merge {addr : KadAddr} {dups : KadRecdups}
    (h : BestOf Recval.recid Recval.ttl q.received q.result_recdups.recval_db) :
    BestOf Recval.recid Recval.ttl (q.merge addr dups).received
      (q.merge addr dups).result_recdups.recval_db := by
  have hreceived : (q.merge addr dups).received = q.received ++ dups.recs.map .ofRec := by
    rw [KadRecdups.map_ofRec_recs]
    show (q.replies ++ [(addr, dups)]).flatMap _ = _
    rw [List.flatMap_append, List.flatMap_singleton]
    rfl
  rw [hreceived]
  exact KadRecdups.bestOf_updateAll h dups.recs

/-- The records are all notified, or as many of them as the caller wants. -/
theorem upTo_of_unfilled
    (h : BestOf Recval.recid Recval.ttl q.received q.result_recdups.recval_db)
    (hfull : ¬q.isFull) :
    BestUpTo Recval.recid Recval.ttl q.max_nb_record.toNat q.received
      q.result_recdups.recval_db := by
  apply h.upTo_of_length_le
  by_cases h0 : q.max_nb_record = 0
  · exact .inl (by rw [h0]; rfl)
  · right
    by_contra hlt
    exact hfull ⟨h0, (not_le.1 hlt).le⟩

theorem upTo_truncate
    (h : BestOf Recval.recid Recval.ttl q.received q.result_recdups.recval_db)
    (hfull : q.isFull) :
    BestUpTo Recval.recid Recval.ttl q.max_nb_record.toNat q.received
      (q.result_recdups.truncateAtTail
        (q.result_recdups.size - q.max_nb_record.toNat)).recval_db := by
  show BestUpTo _ _ _ _ (q.result_recdups.recval_db.take _)
  rw [Nat.sub_sub_self hfull.2]
  apply h.upTo
  intro h0
  exact hfull.1 (UInt64.toNat_inj.1 h0)

/-! ### One event -/

/-- Being notified of the records, or of a failure. -/
theorem sound_notify {ev : KadEvent} (hasks : ∀ e ∈ q.sent, AsksWithin q.max_nb_record e.2 e.1)
    (hreplied : ∀ reply ∈ q.replies, reply.1 ∈ q.nclosest)
    (hresult : ∀ dups has_more_record, ev = .recdups dups has_more_record →
      BestUpTo Recval.recid Recval.ttl q.max_nb_record.toNat q.received dups.recval_db) :
    (q.notifyCallback ev).Sound ↔ (ev = .timedout ↔ q.replies = []) := by
  have hfailed : (∀ addr ∈ (q.notifyCallback ev).nclosest, (q.notifyCallback ev).Failed addr)
      ↔ q.replies = [] := all_failed_iff hreplied
  constructor
  · intro h
    rw [← hfailed]
    exact h.failure ev rfl
  · intro hev
    refine ⟨hasks, nofun, nofun, ?_, ?_⟩
    · rintro _ ⟨⟩
      rw [hfailed]
      exact hev
    · rintro dups has_more_record ⟨⟩
      exact hresult dups has_more_record rfl

/-- A query which goes on. -/
theorem sound_querying (hphase : q.phase = .querying) (hdb : q.findallval_rpc_db ≠ []) :
    q.Sound ↔ ∀ e ∈ q.sent, AsksWithin q.max_nb_record e.2 e.1 := by
  constructor
  · exact Sound.asks
  · intro hasks
    refine ⟨hasks, fun _ => hdb, ?_, ?_, ?_⟩
    · rw [hphase]
      nofun
    · rw [hphase]
      nofun
    · rw [hphase]
      nofun

/-- `notifyIfDone` reports a failure though a node replied only where the last request failed
after all the others. -/
theorem sound_notifyIfDone (hphase : q.phase = .querying)
    (hasks : ∀ e ∈ q.sent, AsksWithin q.max_nb_record e.2 e.1)
    (hreplied : ∀ reply ∈ q.replies, reply.1 ∈ q.nclosest)
    (hbest : BestOf Recval.recid Recval.ttl q.received q.result_recdups.recval_db)
    (hfull : ¬q.isFull)
    (hcount : q.findallval_rpc_db = [] → q.replies = [] →
      q.nb_queried_peer = q.nb_unreach_peer) :
    q.notifyIfDone.Sound ↔
      (q.findallval_rpc_db = [] → q.nb_queried_peer = q.nb_unreach_peer → q.replies = []) := by
  rw [notifyIfDone, hphase]
  show (if q.findallval_rpc_db = [] then _ else q).Sound ↔ _
  split_ifs with hdb heq
  · rw [sound_notify hasks hreplied (fun _ _ h => by cases h), iff_true_left rfl]
    exact ⟨fun h _ _ => h, fun h => h hdb heq⟩
  · rw [sound_notify hasks hreplied]
    · simp only [reduceCtorEq, false_iff]
      exact ⟨fun _ _ h => absurd h heq, fun _ hnil => heq (hcount hdb hnil)⟩
    · rintro dups has_more_record ⟨⟩
      exact upTo_of_unfilled hbest hfull
  · rw [sound_querying hphase hdb]
    exact ⟨fun _ h => absurd h hdb, fun _ => hasks⟩

/-- The first requests: those which start are linked and sent. -/
theorem startAll_eq (nclosest_node : List (KadAddr × Bool)) (q : KadQuery) :
    nclosest_node.foldl (fun q node => q.startRpc (firstRpc q.max_nb_record node.1) node.2) q
      = let started := (nclosest_node.filter Prod.snd).map fun node =>
          firstRpc q.max_nb_record node.1
        { q with
          findallval_rpc_db := q.findallval_rpc_db ++ started
          sent := q.sent ++ started.map fun rpc => (rpc, q.result_recdups.size) } := by
  induction nclosest_node generalizing q with
  | nil => simp
  | cons node nclosest_node ih =>
    rw [List.foldl_cons, ih]
    obtain ⟨addr, starts⟩ := node
    cases starts <;> simp [startRpc]

/-- The requests which are started when the nodes are known. -/
def startedRpcs (nclosest_node : List (KadAddr × Bool)) (max_nb_record : UInt64) :
    List FindallvalRpc :=
  (nclosest_node.filter Prod.snd).map fun node => firstRpc max_nb_record node.1

theorem startedRpcs_ne_nil_iff {nclosest_node : List (KadAddr × Bool)} {max_nb_record : UInt64} :
    startedRpcs nclosest_node max_nb_record ≠ [] ↔ ∃ node ∈ nclosest_node, node.2 = true := by
  rw [startedRpcs, Ne, List.map_eq_nil_iff, List.filter_eq_nil_iff]
  push Not
  rfl

/-- The query with its first requests. -/
def withStarted (nclosest_node : List (KadAddr × Bool)) (q : KadQuery) : KadQuery :=
  { q with
    nclosest := nclosest_node.map Prod.fst
    findallval_rpc_db := startedRpcs nclosest_node q.max_nb_record
    sent := (startedRpcs nclosest_node q.max_nb_record).map fun rpc => (rpc, 0) }

theorem closestnodeCb_eq (hinv : q.Inv) (hphase : q.phase = .searching)
    (nclosest_node : List (KadAddr × Bool)) :
    q.closestnodeCb nclosest_node =
      let q := q.withStarted nclosest_node
      if q.findallval_rpc_db = [] then q.notifyCallback .timedout
      else { q with nb_queried_peer := q.findallval_rpc_db.length, phase := .querying } := by
  obtain ⟨hdb, hsent, -, hrecval_db, -⟩ := hinv.idle hphase
  rw [closestnodeCb, startAll_eq, withStarted]
  simp only [hdb, hsent, List.nil_append, KadRecdups.size, hrecval_db, List.length_nil]
  rfl

theorem sound_closestnodeCb (hinv : q.Inv) (hphase : q.phase = .searching)
    (nclosest_node : List (KadAddr × Bool)) :
    (q.closestnodeCb nclosest_node).Sound ↔
      ((∃ node ∈ nclosest_node, node.2 = true) → FirstFits q.max_nb_record) := by
  have hnil : q.replies = [] := (hinv.idle hphase).2.2.1
  have hasks : (∀ e ∈ (q.withStarted nclosest_node).sent, AsksWithin q.max_nb_record e.2 e.1)
      ↔ ((∃ node ∈ nclosest_node, node.2 = true) → FirstFits q.max_nb_record) := by
    show (∀ e ∈ (startedRpcs _ _).map _, _) ↔ _
    rw [List.forall_mem_map, startedRpcs, List.forall_mem_map]
    simp only [asksWithin_firstRpc, List.mem_filter, and_imp, forall_exists_index]
  rw [closestnodeCb_eq hinv hphase]
  show Sound (if startedRpcs _ _ = [] then _ else _) ↔ _
  by_cases hstarted : startedRpcs nclosest_node q.max_nb_record = []
  · have hnone : ¬∃ node ∈ nclosest_node, node.2 = true := fun h =>
      startedRpcs_ne_nil_iff.2 h hstarted
    rw [if_pos hstarted, sound_notify _ _ (fun _ _ h => by cases h)]
    · exact iff_of_true (iff_of_true rfl hnil) fun h => absurd h hnone
    · exact hasks.2 fun h => absurd h hnone
    · show ∀ reply ∈ q.replies, _
      rw [hnil]
      exact nofun
  · rw [if_neg hstarted, sound_querying rfl hstarted]
    exact hasks

theorem inv_notify (hbest : BestOf Recval.recid Recval.ttl q.received q.result_recdups.recval_db)
    (hreplied : ∀ reply ∈ q.replies, reply.1 ∈ q.nclosest) (ev : KadEvent) :
    (q.notifyCallback ev).Inv where
  best := hbest
  replied := hreplied
  asked := nofun
  idle := nofun
  unfilled := nofun
  counted := nofun
  unanswered := nofun

theorem Inv.closestnodeCb (hinv : q.Inv) (hphase : q.phase = .searching)
    (nclosest_node : List (KadAddr × Bool)) : (q.closestnodeCb nclosest_node).Inv := by
  obtain ⟨-, -, hnil, hrecval_db, hunreach⟩ := hinv.idle hphase
  have hreplied : ∀ reply ∈ q.replies, reply.1 ∈ nclosest_node.map Prod.fst := by
    rw [hnil]
    exact nofun
  rw [closestnodeCb_eq hinv hphase]
  show Inv (if startedRpcs _ _ = [] then _ else _)
  split_ifs with hstarted
  · exact ⟨hinv.best, hreplied, nofun, nofun, nofun, nofun, nofun⟩
  · refine ⟨hinv.best, hreplied, ?_, nofun, ?_, ?_, ?_⟩
    · intro rpc hrpc
      obtain ⟨node, hnode, rfl⟩ := List.mem_map.1 hrpc
      exact List.mem_map_of_mem (List.mem_filter.1 hnode).1
    · rintro - ⟨hmax, hle⟩
      have hsize : q.result_recdups.size = 0 := by rw [KadRecdups.size, hrecval_db]; rfl
      exact hmax (UInt64.toNat_inj.1 (Nat.le_zero.1 (hle.trans hsize.le)))
    · rintro -
      show q.nb_unreach_peer + _ ≤ _
      rw [hunreach, Nat.zero_add]
    · rintro - -
      show q.nb_unreach_peer + _ = _
      rw [hunreach, Nat.zero_add]

/-! ### The end of a request -/

/-- The request is not in flight any more. -/
def unlink (idx : ℕ) (q : KadQuery) : KadQuery :=
  { q with findallval_rpc_db := q.findallval_rpc_db.eraseIdx idx }

theorem findallvalRpcCb_timedout {idx : ℕ} (hidx : idx < q.findallval_rpc_db.length)
    (starts : Bool) : q.findallvalRpcCb idx .timedout starts =
      notifyIfDone { q.unlink idx with nb_unreach_peer := q.nb_unreach_peer + 1 } := by
  rw [findallvalRpcCb, List.getElem?_eq_getElem hidx]
  rfl

theorem findallvalRpcCb_recdups {idx : ℕ} (hidx : idx < q.findallval_rpc_db.length)
    (dups : KadRecdups) (has_more_record starts : Bool) :
    q.findallvalRpcCb idx (.recdups dups has_more_record) starts =
      (((q.unlink idx).merge q.findallval_rpc_db[idx].remote_addr dups).handleMerged
        q.findallval_rpc_db[idx].remote_addr dups has_more_record starts).notifyIfDone := by
  rw [findallvalRpcCb, List.getElem?_eq_getElem hidx]
  rfl

theorem length_unlink {idx : ℕ} (hidx : idx < q.findallval_rpc_db.length) :
    (q.unlink idx).findallval_rpc_db.length + 1 = q.findallval_rpc_db.length := by
  show (q.findallval_rpc_db.eraseIdx idx).length + 1 = _
  rw [List.length_eraseIdx_of_lt hidx]
  omega

theorem unlink_eq_nil_iff {idx : ℕ} (hidx : idx < q.findallval_rpc_db.length) :
    (q.unlink idx).findallval_rpc_db = [] ↔ q.findallval_rpc_db.length = 1 := by
  rw [← List.length_eq_zero_iff, ← length_unlink hidx, Nat.add_eq_right]

theorem asked_unlink (hinv : q.Inv) {idx : ℕ} :
    ∀ rpc ∈ (q.unlink idx).findallval_rpc_db, rpc.remote_addr ∈ q.nclosest := fun rpc hrpc =>
  hinv.asked rpc (List.mem_of_mem_eraseIdx hrpc)

theorem sound_timedout (hinv : q.Inv) (hsound : q.Sound) (hphase : q.phase = .querying) {idx : ℕ}
    (hidx : idx < q.findallval_rpc_db.length) (starts : Bool) :
    (q.findallvalRpcCb idx .timedout starts).Sound ↔ (q.findallval_rpc_db.length = 1 →
      q.nb_unreach_peer + 1 = q.nb_queried_peer → q.replies = []) := by
  rw [findallvalRpcCb_timedout hidx, sound_notifyIfDone]
  · show ((q.unlink idx).findallval_rpc_db = [] → q.nb_queried_peer = q.nb_unreach_peer + 1 →
      q.replies = []) ↔ _
    rw [unlink_eq_nil_iff hidx, eq_comm (a := q.nb_queried_peer)]
  · exact hphase
  · exact hsound.asks
  · exact hinv.replied
  · exact hinv.best
  · exact hinv.unfilled hphase
  · intro hdb hnil
    rw [unlink_eq_nil_iff hidx] at hdb
    show q.nb_queried_peer = q.nb_unreach_peer + 1
    rw [← hinv.unanswered hphase hnil, hdb]

/-- The nodes which replied, with the one which has just done so. -/
theorem replied_merge (hinv : q.Inv) {idx : ℕ} (hidx : idx < q.findallval_rpc_db.length)
    (dups : KadRecdups) :
    ∀ reply ∈ ((q.unlink idx).merge q.findallval_rpc_db[idx].remote_addr dups).replies,
      reply.1 ∈ q.nclosest := by
  intro reply hreply
  rcases List.mem_append.1 hreply with hreply | hreply
  · exact hinv.replied reply hreply
  · rw [List.mem_singleton.1 hreply]
    exact hinv.asked _ (List.getElem_mem hidx)

theorem notifyIfDone_of_ne_nil (hdb : q.findallval_rpc_db ≠ []) : q.notifyIfDone = q := by
  rw [notifyIfDone]
  split
  · exact if_neg hdb
  · rfl

theorem notifyIfDone_notify (ev : KadEvent) :
    (q.notifyCallback ev).notifyIfDone = q.notifyCallback ev := rfl

/-- The handling of a reply, once it is merged. -/
theorem sound_handleMerged (hphase : q.phase = .querying)
    (hasks : ∀ e ∈ q.sent, AsksWithin q.max_nb_record e.2 e.1)
    (hreplied : ∀ reply ∈ q.replies, reply.1 ∈ q.nclosest)
    (hbest : BestOf Recval.recid Recval.ttl q.received q.result_recdups.recval_db)
    (hne : q.replies ≠ []) (hcount : q.nb_queried_peer ≠ q.nb_unreach_peer)
    (addr : KadAddr) (dups : KadRecdups) (has_more_record starts : Bool) :
    (q.handleMerged addr dups has_more_record starts).notifyIfDone.Sound ↔
      (has_more_record = true → q.max_nb_record ≠ 0
        ∧ (q.result_recdups.size < q.max_nb_record.toNat → dups.size ≠ 0
          ∧ (starts = true →
            NextFits (q.max_nb_record.toNat - q.result_recdups.size)))) := by
  rw [handleMerged]
  by_cases hfull : q.isFull
  · -- enough records: no more is asked for
    rw [if_pos hfull]
    refine iff_of_true ?_ fun _ => ⟨hfull.1, fun hlt => absurd hfull.2 hlt.not_ge⟩
    split_ifs with hlt
    · rw [notifyIfDone_notify, sound_notify hasks hreplied]
      · exact iff_of_false nofun hne
      · rintro _ _ ⟨⟩
        exact upTo_truncate hbest hfull
    · rw [notifyIfDone_notify, sound_notify hasks hreplied]
      · exact iff_of_false nofun hne
      · rintro _ _ ⟨⟩
        exact hbest.upTo_of_length_le (.inr (not_lt.1 hlt))
  have hdone : q.notifyIfDone.Sound := by
    rw [sound_notifyIfDone hphase hasks hreplied hbest hfull fun _ h => absurd h hne]
    exact fun _ h => absurd h hcount
  rw [if_neg hfull]
  cases has_more_record with
  | false => exact iff_of_true hdone nofun
  | true =>
    rw [if_pos rfl, forall_prop_of_true rfl]
    have haborted : ¬Sound (notifyIfDone { q with phase := .aborted }) :=
      fun h => h.unaborted rfl
    by_cases hmax : q.max_nb_record = 0
    · rw [if_neg fun h => h.1 hmax]
      exact iff_of_false haborted fun h => h.1 hmax
    · have hlt : q.result_recdups.size < q.max_nb_record.toNat := by
        by_contra hle
        exact hfull ⟨hmax, not_lt.1 hle⟩
      by_cases hsize : dups.size = 0
      · rw [if_neg fun h => h.2.2 hsize]
        exact iff_of_false haborted fun h => (h.2 hlt).1 hsize
      · rw [if_pos ⟨hmax, hlt.le, hsize⟩]
        cases starts with
        | false => exact iff_of_true hdone ⟨hmax, fun _ => ⟨hsize, nofun⟩⟩
        | true =>
          have hdb : (q.startRpc (q.nextRpc addr dups) true).findallval_rpc_db ≠ [] :=
            List.append_ne_nil_of_right_ne_nil _ (List.cons_ne_nil _ _)
          rw [notifyIfDone_of_ne_nil hdb,
            sound_querying (q := q.startRpc (q.nextRpc addr dups) true) hphase hdb]
          show (∀ e ∈ q.sent ++ [(q.nextRpc addr dups, q.result_recdups.size)],
            AsksWithin q.max_nb_record e.2 e.1) ↔ _
          rw [List.forall_mem_append, List.forall_mem_singleton, asksWithin_nextRpc hmax hlt]
          constructor
          · intro h
            exact ⟨hmax, fun _ => ⟨hsize, fun _ => h.2⟩⟩
          · intro h
            exact ⟨hasks, (h.2 hlt).2 rfl⟩

theorem sound_recdups (hinv : q.Inv) (hsound : q.Sound) (hphase : q.phase = .querying) {idx : ℕ}
    (hidx : idx < q.findallval_rpc_db.length) (dups : KadRecdups) (has_more_record starts : Bool) :
    (q.findallvalRpcCb idx (.recdups dups has_more_record) starts).Sound ↔
      let size := (q.result_recdups.updateAll dups.recs).size
      has_more_record = true → q.max_nb_record ≠ 0 ∧ (size < q.max_nb_record.toNat →
        dups.size ≠ 0 ∧ (starts = true → NextFits (q.max_nb_record.toNat - size))) := by
  have hreplied := replied_merge hinv hidx dups
  rw [findallvalRpcCb_recdups hidx]
  set merged := (q.unlink idx).merge q.findallval_rpc_db[idx].remote_addr dups with hmerged
  have hasks : ∀ e ∈ merged.sent, AsksWithin merged.max_nb_record e.2 e.1 := hsound.asks
  -- a node which has just replied is not counted as a failure
  have hcount : merged.nb_queried_peer ≠ merged.nb_unreach_peer := by
    show q.nb_queried_peer ≠ q.nb_unreach_peer
    have := hinv.counted hphase
    omega
  exact sound_handleMerged (q := merged) hphase hasks hreplied (bestOf_merge hinv.best)
    (List.append_ne_nil_of_right_ne_nil _ (List.cons_ne_nil _ _)) hcount _ dups _ _

/-! ### Runs -/

theorem Inv.notifyIfDone (hinv : q.Inv) : q.notifyIfDone.Inv := by
  rw [KadQuery.notifyIfDone]
  split
  · split_ifs
    · exact inv_notify hinv.best hinv.replied _
    · exact inv_notify hinv.best hinv.replied _
    · exact hinv
  · exact hinv

theorem inv_handleMerged (hphase : q.phase = .querying)
    (hbest : BestOf Recval.recid Recval.ttl q.received q.result_recdups.recval_db)
    (hreplied : ∀ reply ∈ q.replies, reply.1 ∈ q.nclosest)
    (hasked : ∀ rpc ∈ q.findallval_rpc_db, rpc.remote_addr ∈ q.nclosest)
    (hcounted : q.nb_unreach_peer + q.findallval_rpc_db.length + 1 ≤ q.nb_queried_peer)
    (hne : q.replies ≠ []) {addr : KadAddr} (haddr : addr ∈ q.nclosest)
    (dups : KadRecdups) (has_more_record starts : Bool) :
    (q.handleMerged addr dups has_more_record starts).Inv := by
  have hnot_idle : q.phase ≠ .searching := by
    rw [hphase]
    nofun
  rw [handleMerged]
  split_ifs with hfull hlt hmore hasserted
  · exact inv_notify hbest hreplied _
  · exact inv_notify hbest hreplied _
  · cases starts with
    | false =>
      exact ⟨hbest, hreplied, hasked, fun h => absurd h hnot_idle, fun _ => hfull,
        fun _ => (Nat.le_succ _).trans hcounted, fun _ h => absurd h hne⟩
    | true =>
      refine ⟨hbest, hreplied, ?_, fun h => absurd h hnot_idle, fun _ => hfull, ?_,
        fun _ h => absurd h hne⟩
      · intro rpc hrpc
        rcases List.mem_append.1 hrpc with hrpc | hrpc
        · exact hasked rpc hrpc
        · rw [List.mem_singleton.1 hrpc]
          exact haddr
      · rintro -
        show q.nb_unreach_peer + (q.findallval_rpc_db ++ [_]).length ≤ q.nb_queried_peer
        rw [List.length_append]
        exact hcounted
  · exact ⟨hbest, hreplied, hasked, nofun, nofun, nofun, nofun⟩
  · exact ⟨hbest, hreplied, hasked, fun h => absurd h hnot_idle, fun _ => hfull,
      fun _ => (Nat.le_succ _).trans hcounted, fun _ h => absurd h hne⟩

theorem Inv.findallvalRpcCb (hinv : q.Inv) (hphase : q.phase = .querying) {idx : ℕ}
    (hidx : idx < q.findallval_rpc_db.length) (ev : KadEvent) (starts : Bool) :
    (q.findallvalRpcCb idx ev starts).Inv := by
  have hlength := length_unlink hidx
  have hcounted := hinv.counted hphase
  cases ev with
  | timedout =>
    rw [findallvalRpcCb_timedout hidx]
    apply Inv.notifyIfDone
    refine ⟨hinv.best, hinv.replied, asked_unlink hinv, ?_, hinv.unfilled, ?_, ?_⟩
    · show q.phase = _ → _
      rw [hphase]
      nofun
    · rintro -
      show q.nb_unreach_peer + 1 + (q.unlink idx).findallval_rpc_db.length ≤ q.nb_queried_peer
      omega
    · rintro - hnil
      have := hinv.unanswered hphase hnil
      show q.nb_unreach_peer + 1 + (q.unlink idx).findallval_rpc_db.length = q.nb_queried_peer
      omega
  | recdups dups has_more_record =>
    rw [findallvalRpcCb_recdups hidx]
    apply Inv.notifyIfDone
    apply inv_handleMerged
    · exact hphase
    · exact bestOf_merge hinv.best
    · exact replied_merge hinv hidx dups
    · exact asked_unlink hinv
    · show q.nb_unreach_peer + (q.unlink idx).findallval_rpc_db.length + 1 ≤ q.nb_queried_peer
      omega
    · exact List.append_ne_nil_of_right_ne_nil _ (List.cons_ne_nil _ _)
    · exact hinv.asked _ (List.getElem_mem hidx)

theorem Inv.step (hinv : q.Inv) (ev : KadQueryEv) : (q.step ev).Inv := by
  cases ev with
  | closestnode nclosest_node =>
    rw [KadQuery.step]
    split
    · exact hinv.closestnodeCb ‹_› nclosest_node
    · exact hinv
  | findallvalRpc idx ev starts =>
    rw [KadQuery.step]
    split
    · by_cases hidx : idx < q.findallval_rpc_db.length
      · exact hinv.findallvalRpcCb ‹_› hidx ev starts
      · rw [KadQuery.findallvalRpcCb, List.getElem?_eq_none (not_lt.1 hidx)]
        exact hinv
    · exact hinv
  | expire =>
    rw [KadQuery.step]
    split
    · exact inv_notify hinv.best hinv.replied _
    · exact inv_notify hinv.best hinv.replied _
    · exact hinv

/-- What one event needs. -/
theorem sound_step_iff (hinv : q.Inv) (hsound : q.Sound) (ev : KadQueryEv) :
    (q.step ev).Sound ↔ q.Guard ev := by
  cases ev with
  | closestnode nclosest_node =>
    rw [step, Guard]
    split
    case h_1 hphase =>
      rw [sound_closestnodeCb hinv hphase, forall_prop_of_true hphase]
    case h_2 hphase => exact iff_of_true hsound fun h => absurd h hphase
  | findallvalRpc idx ev starts =>
    rw [step]
    split
    case h_1 hphase =>
      by_cases hidx : idx < q.findallval_rpc_db.length
      · cases ev with
        | timedout =>
          rw [sound_timedout hinv hsound hphase hidx, Guard, forall_prop_of_true hphase,
            forall_prop_of_true hidx]
        | recdups dups has_more_record =>
          rw [sound_recdups hinv hsound hphase hidx, Guard]
          show _ ↔ (q.phase = .querying → idx < q.findallval_rpc_db.length → _)
          rw [forall_prop_of_true hphase, forall_prop_of_true hidx]
      -- the reply of a rpc which is no more there changes nothing
      · rw [findallvalRpcCb, List.getElem?_eq_none (not_lt.1 hidx)]
        cases ev with
        | timedout => exact iff_of_true hsound fun _ h => absurd h hidx
        | recdups dups has_more_record => exact iff_of_true hsound fun _ h => absurd h hidx
    case h_2 hphase =>
      cases ev with
      | timedout => exact iff_of_true hsound fun h => absurd h hphase
      | recdups dups has_more_record => exact iff_of_true hsound fun h => absurd h hphase
  | expire =>
    rw [step, Guard]
    split
    case h_1 hphase =>
      rw [sound_notify hsound.asks hinv.replied (fun _ _ h => by cases h), hphase]
      exact iff_of_true (iff_of_true rfl (hinv.idle hphase).2.2.1) nofun
    case h_2 hphase =>
      rw [sound_notify hsound.asks hinv.replied (fun _ _ h => by cases h), iff_true_left rfl,
        forall_prop_of_true hphase]
    case h_3 hsearching hquerying =>
      exact iff_of_true hsound fun h => absurd h hquerying

theorem sound_start (max_nb_record : UInt64) : (start max_nb_record).Sound where
  asks := nofun
  in_flight := nofun
  unaborted := nofun
  failure := nofun
  result := nofun

/-- A query asks for no more than is missing and notifies what it should, in every state of a
run, exactly when each event of it meets `Guard`. -/
theorem collects_iff (max_nb_record : UInt64) (evs : List KadQueryEv) :
    Always step Sound (start max_nb_record) evs ↔ Guarded step Guard (start max_nb_record) evs := by
  apply always_iff_guarded (Q := Inv)
  · intro q ev hinv _
    exact hinv.step ev
  · intro q ev hinv hsound
    exact sound_step_iff hinv hsound ev
  · exact sound_start max_nb_record
  · exact inv_start max_nb_record

/-- Five records are wanted and the only node gives the first of them: it is asked for
4294967292 more. -/
theorem not_collects :
    ¬Always step Sound (start 5) [.closestnode [(⟨(0x7f000001, 4662), 1⟩, true)],
      .findallvalRpc 0 (.recdups ⟨1, [⟨1, [], 1⟩], List.nodup_singleton _⟩ true) true] := by
  apply not_always_of_run
  intro hsound
  exact absurd hsound.asks (by decide)

end KadQuery

end Neoip
