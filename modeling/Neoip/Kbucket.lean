/-
Neoip/Kbucket.lean

The routing table of Kademlia: `kad_kbucket_t`, with its nodes `bucknode_t` and
its bucket lists `bucklist_t`.

A `bucknode_t` is named by its peer id where the source has a pointer to it, and
the object itself is in `bucknode_db`.  A function returns `none` when a
`DBG_ASSERT` of the source fails, or when there is no object where the source
follows a pointer.

The refreshing of the bucket lists and the notifications to the remote database
are not in the model: they do not read or change the table.
-/
import Neoip.GenId
import Neoip.Omap
import Neoip.Run

namespace Neoip

/-- `kad_peerid_t` and `kad_targetid_t`. -/
abbrev KadId := GenId 20

/-- `kad_id_nbit`. -/
def KAD_ID_NBIT : ℕ := 8 * 20

/-- `kad_addr_t`. -/
structure KadAddr where
  /-- The ip address and the port. -/
  oaddr : BitVec 32 × BitVec 16
  peerid : KadId
  deriving DecidableEq, Repr

/-- `bucknode_t`. -/
structure Bucknode where
  kad_addr : KadAddr
  /-- A ping is in progress. -/
  ping_rpc : Bool
  pending_node : Option KadAddr
  deriving DecidableEq, Repr

/-- `kad_kbucket_t`. -/
structure Kbucket where
  local_peerid : KadId
  kbucket_width : ℕ
  kbucket_height : ℕ
  delete_timedout_rpc_min_delay : ℕ
  /-- The nodes of each bucket, the least recently seen one first. -/
  bucklist_db : List (List KadId)
  bucknode_db : List (KadId × Bucknode)
  pending_node_db : List (KadId × KadAddr)
  peerid_todelete_db : List KadId
  peerid_todelete_zerotimer : Bool
  deriving DecidableEq, Repr

/-- `operator <`. -/
def ltKadId (a b : KadId) : Bool := a < b

namespace Kbucket

/-! ### Queries -/

def getBucknode (peerid : KadId) (s : Kbucket) : Option Bucknode := Omap.find peerid s.bucknode_db

def isPendingNode (peerid : KadId) (s : Kbucket) : Bool :=
  (Omap.find peerid s.pending_node_db).isSome

def getBucketIdx (s : Kbucket) (peerid : KadId) : ℕ :=
  GenId.bitGetHighestSet (s.local_peerid ^^^ peerid) / s.kbucket_width

def bucklist (bucket_idx : ℕ) (s : Kbucket) : List KadId := s.bucklist_db.getD bucket_idx []

/-- `get_first_notpinging`. -/
def getFirstNotpinging (bucklist : List KadId) (s : Kbucket) : Option KadId :=
  bucklist.find? fun peerid => (s.getBucknode peerid).any fun node => !node.ping_rpc

/-- `copy_to`: the nodes which the filter, if there is one, does not take out. -/
def copyTo (kad_addr_filter : Option (KadAddr → Bool)) (bucklist : List KadId) (s : Kbucket) :
    List KadAddr :=
  (bucklist.filterMap fun peerid => (s.getBucknode peerid).map (·.kad_addr)).filter fun kad_addr =>
    !kad_addr_filter.any fun filter => filter kad_addr

/-- The loop of `get_nclosest_addr`.  It goes up from the bucket `inc_idx`, and down from the
bucket below `dec_end`, which is one more than the index of the source; each round takes a bucket
at one end at least, so there are no more rounds than buckets. -/
def nclosestLoop (max_nb_addr : ℕ) (kad_addr_filter : Option (KadAddr → Bool)) (s : Kbucket) :
    ℕ → ℕ → ℕ → List KadAddr → List KadAddr
  | 0, _, _, tmp_addr_arr => tmp_addr_arr
  | fuel + 1, inc_idx, dec_end, tmp_addr_arr =>
    if tmp_addr_arr.length < max_nb_addr then
      if dec_end = 0 ∧ s.bucklist_db.length ≤ inc_idx then tmp_addr_arr
      else
        let up := if inc_idx < s.bucklist_db.length then
          s.copyTo kad_addr_filter (s.bucklist inc_idx) else []
        let down := if 0 < dec_end then
          s.copyTo kad_addr_filter (s.bucklist (dec_end - 1)) else []
        nclosestLoop max_nb_addr kad_addr_filter s fuel (min (inc_idx + 1) s.bucklist_db.length)
          (dec_end - 1) (tmp_addr_arr ++ up ++ down)
    else tmp_addr_arr

/-- `sort_by_dist`. -/
def sortByDist (from_id : KadId) (kad_addr_arr : List KadAddr) : List KadAddr :=
  kad_addr_arr.mergeSort fun a b => !ltKadId (from_id ^^^ b.peerid) (from_id ^^^ a.peerid)

def getNclosestAddr (target_id : KadId) (max_nb_addr : ℕ)
    (kad_addr_filter : Option (KadAddr → Bool)) (s : Kbucket) : List KadAddr :=
  let bucket_idx := s.getBucketIdx target_id
  (sortByDist target_id (s.nclosestLoop max_nb_addr kad_addr_filter s.bucklist_db.length
    bucket_idx bucket_idx [])).take max_nb_addr

/-! ### The nodes -/

/-- The constructor of `bucknode_t`. -/
def bucknodeCtor (kad_addr : KadAddr) (s : Kbucket) : Option Kbucket :=
  if (s.getBucknode kad_addr.peerid).isSome then none
  else
    let node : Bucknode := ⟨kad_addr, false, none⟩
    some { s with bucknode_db := Omap.insert ltKadId kad_addr.peerid node s.bucknode_db }

def pingStart (peerid : KadId) (new_node : KadAddr) (start_ok : Bool) (s : Kbucket) :
    Option Kbucket :=
  match s.getBucknode peerid with
  | none => none
  | some node =>
    if node.ping_rpc then none
    else if !start_ok then some s
    else if s.isPendingNode new_node.peerid then none
    else some { s with
      bucknode_db := Omap.assign ltKadId peerid
        { node with ping_rpc := true, pending_node := some new_node } s.bucknode_db
      pending_node_db := Omap.insert ltKadId new_node.peerid new_node s.pending_node_db }

def pingStop (peerid : KadId) (s : Kbucket) : Option Kbucket :=
  match s.getBucknode peerid with
  | none => none
  | some node =>
    match node.ping_rpc, node.pending_node with
    | true, some pending_node => some { s with
        bucknode_db := Omap.assign ltKadId peerid
          { node with ping_rpc := false, pending_node := none } s.bucknode_db
        pending_node_db := Omap.erase pending_node.peerid s.pending_node_db }
    | _, _ => none

/-- The destructor of `bucknode_t`. -/
def bucknodeDtor (peerid : KadId) (s : Kbucket) : Option Kbucket :=
  match s.getBucknode peerid with
  | none => none
  | some node => do
    let s ← if node.ping_rpc then s.pingStop peerid else some s
    some { s with bucknode_db := Omap.erase peerid s.bucknode_db }

/-! ### The bucket lists -/

def setBucklist (bucket_idx : ℕ) (bucklist : List KadId) (s : Kbucket) : Kbucket :=
  { s with bucklist_db := s.bucklist_db.set bucket_idx bucklist }

/-- `bucklist_t::insert`. -/
def insert (bucket_idx : ℕ) (peerid : KadId) (s : Kbucket) : Option Kbucket :=
  match s.bucklist_db[bucket_idx]? with
  | none => none
  | some bucklist =>
    if peerid ∉ bucklist ∧ s.getBucketIdx peerid = bucket_idx ∧
        bucklist.length + 1 ≤ s.kbucket_height then
      some (s.setBucklist bucket_idx (bucklist ++ [peerid]))
    else none

/-- `bucklist_t::update`. -/
def update (bucket_idx : ℕ) (peerid : KadId) (s : Kbucket) : Option Kbucket :=
  match s.bucklist_db[bucket_idx]? with
  | none => none
  | some bucklist =>
    if peerid ∈ bucklist ∧ bucklist.length ≤ s.kbucket_height ∧
        s.getBucketIdx peerid = bucket_idx then
      some (s.setBucklist bucket_idx (bucklist.filter (· ≠ peerid) ++ [peerid]))
    else none

/-- `bucklist_t::remove`. -/
def remove (bucket_idx : ℕ) (peerid : KadId) (s : Kbucket) : Option Kbucket :=
  match s.bucklist_db[bucket_idx]? with
  | none => none
  | some bucklist =>
    if peerid ∈ bucklist ∧ s.getBucketIdx peerid = bucket_idx then
      some (s.setBucklist bucket_idx (bucklist.filter (· ≠ peerid)))
    else none

/-! ### Notifications -/

/-- `start_ok` is what the ping returns, if one is started.  The caller gives an address which is
fully qualified; nothing here depends on it. -/
def notifySrckaddr (kad_addr : KadAddr) (start_ok : Bool) (s : Kbucket) : Option Kbucket :=
  let bucket_idx := s.getBucketIdx kad_addr.peerid
  if s.isPendingNode kad_addr.peerid then some s
  else if (s.getBucknode kad_addr.peerid).isSome then s.update bucket_idx kad_addr.peerid
  else match s.bucklist_db[bucket_idx]? with
  | none => none
  | some bucklist =>
    if bucklist.length < s.kbucket_height then do
      let s ← s.bucknodeCtor kad_addr
      s.insert bucket_idx kad_addr.peerid
    else match s.getFirstNotpinging bucklist with
    | none => some s
    | some peerid => s.pingStart peerid kad_addr start_ok

/-- `neoip_kad_ping_rpc_cb`, for a ping which is in progress. -/
def pingRpcCb (peerid : KadId) (is_fatal : Bool) (s : Kbucket) : Option Kbucket :=
  match s.getBucknode peerid with
  | none => some s
  | some node =>
    if !node.ping_rpc then some s
    else if is_fatal then
      match node.pending_node with
      | none => none
      | some pending_node => do
        let s ← s.bucknodeCtor pending_node
        let bucket_idx := s.getBucketIdx peerid
        let s ← s.remove bucket_idx peerid
        let s ← s.insert bucket_idx pending_node.peerid
        s.bucknodeDtor peerid
    else do
      let s ← s.update (s.getBucketIdx peerid) peerid
      s.pingStop peerid

def notifyFailedRpc (peerid : KadId) (is_timedout : Bool) (expire_delay : ℕ) (s : Kbucket) :
    Kbucket :=
  if is_timedout ∧ expire_delay < s.delete_timedout_rpc_min_delay then s
  else { s with
    peerid_todelete_db := s.peerid_todelete_db ++ [peerid]
    peerid_todelete_zerotimer := true }

/-- The loop of the zerotimer over the peer ids to delete. -/
def deleteLoop : List KadId → Kbucket → Option Kbucket
  | [], s => some s
  | peerid :: peerids, s =>
    let bucket_idx := s.getBucketIdx peerid
    match s.bucklist_db[bucket_idx]? with
    | none => none
    | some bucklist =>
      if peerid ∈ bucklist then do
        let s ← s.remove bucket_idx peerid
        let s ← s.bucknodeDtor peerid
        deleteLoop peerids s
      else deleteLoop peerids s

/-- `neoip_zerotimer_expire_cb`. -/
def zerotimerExpire (s : Kbucket) : Option Kbucket :=
  if s.peerid_todelete_zerotimer then
    deleteLoop s.peerid_todelete_db
      { s with peerid_todelete_db := [], peerid_todelete_zerotimer := false }
  else some s

/-- The constructor, with the address of the local peer. -/
def ctor (local_addr : KadAddr) (kbucket_width nb_replication delete_timedout_rpc_min_delay : ℕ) :
    Option Kbucket :=
  if KAD_ID_NBIT / kbucket_width * kbucket_width = KAD_ID_NBIT then
    notifySrckaddr local_addr false
      { local_peerid := local_addr.peerid
        kbucket_width := kbucket_width
        kbucket_height := nb_replication
        delete_timedout_rpc_min_delay := delete_timedout_rpc_min_delay
        bucklist_db := List.replicate (KAD_ID_NBIT / kbucket_width) []
        bucknode_db := []
        pending_node_db := []
        peerid_todelete_db := []
        peerid_todelete_zerotimer := false }
  else none

end Kbucket

/-! ### Placement -/

namespace Kbucket

/-- Each node is in one bucket, the one of its distance to the local peer, and the buckets hold
nothing else. -/
structure Placed (s : Kbucket) : Prop where
  width : s.bucklist_db.length * s.kbucket_width = KAD_ID_NBIT
  keyed : Omap.Keyed s.bucknode_db
  peerid_eq : ∀ peerid node, s.getBucknode peerid = some node → node.kad_addr.peerid = peerid
  nodup : ∀ bucket_idx, (s.bucklist bucket_idx).Nodup
  mem_iff : ∀ bucket_idx peerid, peerid ∈ s.bucklist bucket_idx ↔
    (s.getBucknode peerid).isSome ∧ s.getBucketIdx peerid = bucket_idx

variable {s : Kbucket}

theorem Placed.width_pos (h : s.Placed) : 0 < s.kbucket_width := by
  apply Nat.pos_of_ne_zero
  intro hzero
  have hwidth := h.width
  rw [hzero, Nat.mul_zero] at hwidth
  cases hwidth

/-- The buckets from `bucket_idx` up are those of the peers whose distance has a bit there. -/
theorem le_getBucketIdx_iff (hw : 0 < s.kbucket_width) {bucket_idx : ℕ} (hpos : 0 < bucket_idx)
    (peerid : KadId) : bucket_idx ≤ s.getBucketIdx peerid ↔
      2 ^ (bucket_idx * s.kbucket_width) ≤ peerid.toNat ^^^ s.local_peerid.toNat := by
  rw [getBucketIdx, GenId.bitGetHighestSet_eq, Nat.le_div_iff_mul_le hw, BitVec.toNat_xor,
    Nat.xor_comm]
  rcases Nat.eq_zero_or_pos (peerid.toNat ^^^ s.local_peerid.toNat) with hzero | hne
  · rw [hzero]
    have := Nat.mul_pos hpos hw
    have := Nat.two_pow_pos (bucket_idx * s.kbucket_width)
    show _ ≤ 0 ↔ _
    omega
  · exact Nat.le_log2 (Nat.pos_iff_ne_zero.1 hne)

theorem Placed.getBucketIdx_lt (h : s.Placed) (peerid : KadId) :
    s.getBucketIdx peerid < s.bucklist_db.length := by
  have hpos : 0 < s.bucklist_db.length := by
    apply Nat.pos_of_ne_zero
    intro hzero
    have hwidth := h.width
    rw [hzero, Nat.zero_mul] at hwidth
    cases hwidth
  rw [← not_le, le_getBucketIdx_iff h.width_pos hpos, h.width, not_le]
  exact Nat.xor_lt_two_pow peerid.isLt s.local_peerid.isLt

end Kbucket

/-! ### Runs -/

/-- The packets, the answers to the pings and the timers. -/
inductive KbucketEvent
  | notifySrckaddr (kad_addr : KadAddr) (start_ok : Bool)
  | pingRpcCb (peerid : KadId) (is_fatal : Bool)
  | notifyFailedRpc (peerid : KadId) (is_timedout : Bool) (expire_delay : ℕ)
  | zerotimer
  deriving DecidableEq, Repr

namespace Kbucket

def handle (s : Kbucket) : KbucketEvent → Option Kbucket
  | .notifySrckaddr kad_addr start_ok => s.notifySrckaddr kad_addr start_ok
  | .pingRpcCb peerid is_fatal => s.pingRpcCb peerid is_fatal
  | .notifyFailedRpc peerid is_timedout expire_delay =>
    some (s.notifyFailedRpc peerid is_timedout expire_delay)
  | .zerotimer => s.zerotimerExpire

/-- After an assertion which fails there is no state. -/
def step (o : Option Kbucket) (e : KbucketEvent) : Option Kbucket := o.bind (·.handle e)

end Kbucket

end Neoip
